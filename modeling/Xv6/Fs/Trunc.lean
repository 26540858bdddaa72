import Mathlib.Data.List.FinRange
import Xv6.Fs.Write

/-!
# Truncation (project3/fs.c:487-587, itrunc)

`itrunc` frees the blocks of an inode: of each slot first what is below the block
and then the block itself.
-/

namespace Xv6.Fs
open Buffer Forest

variable (sb : Superblock)

/-- `a[0], ..., a[NINDIRECT-1]`. -/
def words (bp : Block) : List (BitVec 32) := (List.finRange 128).map fun j : Fin 128 => getWord bp (4 * j)

-- for(j = 0; j < NINDIRECT; j++) if(a[j]) { free a[j] }
def freeEach (free : Nat → Op Unit) : List (BitVec 32) → Op Unit
  | [] => pure ()
  | w :: ws =>
    if w = 0 then freeEach free ws
    else do
      free w.toNat
      freeEach free ws

/-- The nested loops of `itrunc`, `depth` levels of them: a block with so many indirect
blocks below it. The block itself is freed last. -/
def freeBelow : Nat → Nat → Op Unit
  | 0, addr => bfree sb addr
  | depth + 1, addr => do
    let bp ← bread addr
    freeEach (freeBelow depth) (words bp)
    brelse addr
    bfree sb addr

-- if(ip->addrs[k]) { free ip->addrs[k]; ip->addrs[k] = 0; } for the slots in turn
def freeSlots : List (Fin 9) → Inode → Op Inode
  | [], ip => pure ip
  | k :: ks, ip =>
    if ip.addrs k = 0 then freeSlots ks ip
    else do
      freeBelow sb (k - 5) (ip.addrs k).toNat
      freeSlots ks (ip.setAddr k 0)

def itrunc (ip : Inode) : Op Inode := do
  let ip ← freeSlots sb (List.finRange 9) ip
  let ip := { ip with size := 0 }
  iupdate sb ip
  pure ip

/-! ### What is freed -/

/-- Block `b` is at the place or below it. -/
def Below (sb : Superblock) (T : AddrTable) (σ : Contents) (p : Place) (b : Nat) : Prop :=
  b ≠ 0 ∧ ∃ ks, p.2 <:+ ks ∧ (shape sb).Valid (p.1, ks) ∧ blockAt T σ (p.1, ks) = b

/-- `τ` is `σ` with the blocks in `G` freed. -/
structure Freed (sb : Superblock) (σ : Contents) (G : Nat → Prop) (τ : Contents) : Prop where
  same : ∀ b, b < sb.bmapstart ∨ sb.datastart ≤ b → τ b = σ b
  bit : ∀ b, b < sb.size → (bit sb τ b = true ↔ bit sb σ b = true ∧ ¬ G b)

variable {sb} {T : AddrTable} {σ τ : Contents} {H : Panic → Prop} {G G' : Nat → Prop}
  {W : Nat → Prop} {r : Nat × Fin 9} {js : List (Fin 128)} {ip : Inode}

theorem Freed.refl (σ : Contents) : Freed sb σ (fun _ => False) σ :=
  ⟨fun _ _ => rfl, fun _ _ => ⟨fun h => ⟨h, id⟩, fun h => h.1⟩⟩

theorem Freed.congr (h : Freed sb σ G τ) (hG : ∀ b, G' b ↔ G b) : Freed sb σ G' τ :=
  ⟨h.same, fun b hb => by rw [h.bit b hb, hG]⟩

theorem Freed.free (h : Freed sb σ G τ) {x : Nat} (hx : x < sb.size) :
    Freed sb σ (fun b => G b ∨ b = x) (freed sb τ x) := by
  refine ⟨fun b hb => ?_, fun b hb => ?_⟩
  · rcases hb with hb | hb
    · rw [freed_low hb, h.same b (Or.inl hb)]
    · rw [freed_data hx hb, h.same b (Or.inr hb)]
  · rw [bit_freed, Bool.and_eq_true, decide_eq_true_eq, h.bit b hb, not_or, and_assoc]

theorem suffix_cases {ks : List (Fin 128)} (h : js <:+ ks) : ks = js ∨ ∃ j, (j :: js) <:+ ks := by
  obtain ⟨t, rfl⟩ := h
  cases t using List.reverseRecOn with
  | nil => exact Or.inl rfl
  | append_singleton t j => exact Or.inr ⟨j, t, by rw [List.append_assoc, List.singleton_append]⟩

/-- Below a place are its own block and what is below its children. -/
theorem below_iff (hin : (shape sb).Inner (r, js)) (h0 : blockAt T σ (r, js) ≠ 0) (b : Nat) :
    Below sb T σ (r, js) b ↔
      (∃ j, Below sb T σ (r, j :: js) b) ∨ b = blockAt T σ (r, js) := by
  constructor
  · rintro ⟨hb, ks, hks, hv, hat⟩
    rcases suffix_cases hks with rfl | ⟨j, hj⟩
    · exact Or.inr hat.symm
    · exact Or.inl ⟨j, hb, ks, hj, hv, hat⟩
  · rintro (⟨j, hb, ks, hks, hv, hat⟩ | rfl)
    · exact ⟨hb, ks, (List.suffix_cons j js).trans hks, hv, hat⟩
    · exact ⟨h0, js, List.suffix_refl js, hin.valid, rfl⟩

theorem below_leaf (hl : Leaf sb (r, js)) (h0 : blockAt T σ (r, js) ≠ 0) (b : Nat) :
    Below sb T σ (r, js) b ↔ b = blockAt T σ (r, js) := by
  constructor
  · rintro ⟨-, ks, hks, hv, hat⟩
    have hlen : js.length = ks.length := by
      refine Nat.le_antisymm hks.length_le ?_
      have h1 : ks.length ≤ r.2 - 5 := hv.2
      have h2 : js.length = r.2 - 5 := hl.2
      omega
    have heq : js = ks := hks.eq_of_length hlen
    rw [← hat, heq]
  · rintro rfl
    exact ⟨h0, js, List.suffix_refl js, hl.valid, rfl⟩

/-- What is below one place is not below another that is not above or below it. -/
theorem Consistent.below_ne (h : Consistent sb T σ) {p q : Place} {b : Nat}
    (hp : Below sb T σ p b) (hq : Below sb T σ q b) : p.1 = q.1 ∧ (p.2 <:+ q.2 ∨ q.2 <:+ p.2) := by
  obtain ⟨hb, ks, hks, hv, hat⟩ := hp
  obtain ⟨-, ls, hls, hw, hbt⟩ := hq
  have hne : blockAt T σ (p.1, ks) ≠ 0 := hat.trans_ne hb
  have heq := h.owns.uniq (p.1, ks) (q.1, ls) hv hw hne (hat.trans hbt.symm)
  obtain ⟨h1, h2⟩ := Prod.mk.inj heq
  subst h2
  exact ⟨h1, List.suffix_or_suffix_of_suffix hks hls⟩

theorem Consistent.below_child (h : Consistent sb T σ) {j k : Fin 128} {b : Nat}
    (hj : Below sb T σ (r, j :: js) b) (hk : Below sb T σ (r, k :: js) b) : j = k := by
  rcases (h.below_ne hj hk).2 with hs | hs
  · exact (List.cons.inj (hs.eq_of_length (by simp))).1
  · exact (List.cons.inj (hs.eq_of_length (by simp))).1.symm

theorem Consistent.not_below_child (h : Consistent sb T σ) {j : Fin 128}
    (hin : (shape sb).Inner (r, js)) (h0 : blockAt T σ (r, js) ≠ 0) :
    ¬ Below sb T σ (r, j :: js) (blockAt T σ (r, js)) := by
  rintro ⟨-, ks, hks, hv, hat⟩
  have heq := h.owns.uniq (r, js) (r, ks) hin.valid hv h0 hat.symm
  have hlen := hks.length_le
  rw [(Prod.mk.inj heq).2, List.length_cons] at hlen
  omega

theorem bfree_freed (hW : ∀ b, b < sb.size → W (sb.bblock b)) (h : Consistent sb T σ) (hf : Freed sb σ G τ) {p : Place}
    (hp : (shape sb).Valid p) (h0 : blockAt T σ p ≠ 0) (hG : ¬ G (blockAt T σ p)) :
    (bfree sb (blockAt T σ p)).wp H W
      (fun _ τ' => Freed sb σ (fun b => G b ∨ b = blockAt T σ p) τ') τ := by
  have hlive := h.live hp h0
  refine wp_mono (bfree_spec (hW _ hlive.2.1) ((hf.bit _ hlive.2.1).mpr ⟨hlive.2.2, hG⟩)) ?_
  rintro _ _ rfl
  exact hf.free hlive.2.1

/-- The loop over the entries of an indirect block. -/
theorem freeEach_spec {f : Nat → Op Unit} (h : Consistent sb T σ)
    (h0 : blockAt T σ (r, js) ≠ 0)
    (hfree : ∀ j G τ, Freed sb σ G τ → blockAt T σ (r, j :: js) ≠ 0 →
      (∀ b, Below sb T σ (r, j :: js) b → ¬ G b) →
      (f (blockAt T σ (r, j :: js))).wp H W
        (fun _ τ' => Freed sb σ (fun b => G b ∨ Below sb T σ (r, j :: js) b) τ') τ)
    (ks : List (Fin 128)) (hnd : ks.Nodup) (hf : Freed sb σ G τ)
    (hG : ∀ j ∈ ks, ∀ b, Below sb T σ (r, j :: js) b → ¬ G b) :
    (freeEach f (ks.map fun j : Fin 128 => getWord (σ (blockAt T σ (r, js))) (4 * j))).wp H W
      (fun _ τ' => Freed sb σ (fun b => G b ∨ ∃ j ∈ ks, Below sb T σ (r, j :: js) b) τ') τ := by
  induction ks generalizing G τ with
  | nil => exact wp_pure (hf.congr fun b => by simp)
  | cons j ks ih =>
    have hchild : blockAt T σ (r, j :: js)
        = (getWord (σ (blockAt T σ (r, js))) (4 * j)).toNat := ref_cons h0
    obtain ⟨hj, hks⟩ := List.nodup_cons.mp hnd
    rw [List.map_cons]
    unfold freeEach
    by_cases hw : getWord (σ (blockAt T σ (r, js))) (4 * j) = 0
    · rw [if_pos hw]
      refine wp_mono (ih hks hf fun k hk => hG k (List.mem_cons_of_mem _ hk)) fun _ τ' h' => ?_
      refine h'.congr fun b => or_congr_right ?_
      have hnone : ¬ Below sb T σ (r, j :: js) b := by
        rintro ⟨hb, ls, hls, -, hat⟩
        have hz : blockAt T σ (r, j :: js) = 0 := by
          rw [hchild, hw]
          rfl
        exact ref_suffix_ne_zero (hat.trans_ne hb) hls hz
      simp [hnone]
    · rw [if_neg hw, ← hchild]
      have hne : blockAt T σ (r, j :: js) ≠ 0 := by
        rw [hchild]
        exact fun hz => hw (toNat_eq_zero.mp hz)
      refine wp_seq (hfree j G τ hf hne (hG j List.mem_cons_self)) fun _ τ1 h1 => ?_
      refine wp_mono (ih hks h1 ?_) fun _ τ' h' => ?_
      · rintro k hk b hb (hg | hbj)
        · exact hG k (List.mem_cons_of_mem _ hk) b hb hg
        · rw [h.below_child hbj hb] at hj
          exact hj hk
      · refine h'.congr fun b => ?_
        simp only [List.mem_cons, exists_eq_or_imp, or_assoc]

/-- A block is freed with everything below it. -/
theorem freeBelow_spec (hW : ∀ b, b < sb.size → W (sb.bblock b)) (h : Consistent sb T σ)
    (depth : Nat) (hr : r.1 < sb.ninodes)
    (hd : js.length + depth = r.2 - 5) (hf : Freed sb σ G τ) (h0 : blockAt T σ (r, js) ≠ 0)
    (hG : ∀ b, Below sb T σ (r, js) b → ¬ G b) :
    (freeBelow sb depth (blockAt T σ (r, js))).wp H W
      (fun _ τ' => Freed sb σ (fun b => G b ∨ Below sb T σ (r, js) b) τ') τ := by
  induction depth generalizing js G τ with
  | zero =>
    have hl : Leaf sb (r, js) := ⟨hr, hd⟩
    have hself := (below_leaf hl h0 _).mpr rfl
    refine wp_mono (bfree_freed hW h hf hl.valid h0 (hG _ hself)) fun _ τ' h' => ?_
    exact h'.congr fun b => or_congr_right (below_leaf hl h0 b)
  | succ depth ih =>
    have hin : (shape sb).Inner (r, js) := ⟨hr, by show js.length < r.2 - 5; omega⟩
    have hlive := h.live hin.valid h0
    have hbelow := below_iff hin h0
    refine wp_bind (wp_bread ?_)
    rw [hf.same _ (Or.inr hlive.1)]
    have heach := freeEach_spec (H := H) (W := W) h h0
      (fun j G τ hf' hne hG' => ih (by rw [List.length_cons]; omega) hf' hne hG')
      (List.finRange 128) (List.nodup_finRange 128) hf
      fun j _ b hb => hG b ((hbelow b).mpr (Or.inl ⟨j, hb⟩))
    refine wp_seq heach fun _ τ1 h1 => wp_bind (wp_brelse ?_)
    refine wp_mono (bfree_freed hW h h1 hin.valid h0 ?_) fun _ τ' h' => ?_
    · rintro (hg | ⟨j, -, hb⟩)
      · exact hG _ ((hbelow _).mpr (Or.inr rfl)) hg
      · exact h.not_below_child hin h0 hb
    · refine h'.congr fun b => ?_
      rw [hbelow b, or_assoc]
      simp only [List.mem_finRange, true_and]

theorem freeSlots_spec (hW : ∀ b, b < sb.size → W (sb.bblock b)) (h : Consistent sb T σ)
    (hi : ip.inum < sb.ninodes) (ks : List (Fin 9))
    (hnd : ks.Nodup) (hT : ∀ k ∈ ks, ip.addrs k = T ip.inum k) (hf : Freed sb σ G τ)
    (hG : ∀ k ∈ ks, ∀ b, Below sb T σ ((ip.inum, k), []) b → ¬ G b) :
    (freeSlots sb ks ip).wp H W (fun ip' τ' =>
      ip' = { ip with addrs := fun k => if k ∈ ks then 0 else ip.addrs k } ∧
      Freed sb σ (fun b => G b ∨ ∃ k ∈ ks, Below sb T σ ((ip.inum, k), []) b) τ') τ := by
  induction ks generalizing G τ ip with
  | nil => exact wp_pure ⟨by simp, hf.congr fun b => by simp⟩
  | cons k ks ih =>
    obtain ⟨hk, hks⟩ := List.nodup_cons.mp hnd
    have hat : blockAt T σ ((ip.inum, k), []) = (ip.addrs k).toNat := by
      rw [hT k List.mem_cons_self]
      rfl
    unfold freeSlots
    by_cases hz : ip.addrs k = 0
    · rw [if_pos hz]
      refine wp_mono (ih hi hks (fun m hm => hT m (List.mem_cons_of_mem _ hm)) hf
        fun m hm => hG m (List.mem_cons_of_mem _ hm)) ?_
      rintro ip' τ' ⟨rfl, h'⟩
      refine ⟨?_, h'.congr fun b => or_congr_right ?_⟩
      · congr 2
        funext m
        by_cases hm : m = k
        · subst hm
          simp [hz, hk]
        · simp [hm]
      · have hnone : ¬ Below sb T σ ((ip.inum, k), []) b := by
          rintro ⟨hb, ls, hls, -, hat'⟩
          refine ref_suffix_ne_zero (hat'.trans_ne hb) hls ?_
          exact hat.trans (by rw [hz]; rfl)
        simp [hnone]
    · rw [if_neg hz]
      have hne : blockAt T σ ((ip.inum, k), []) ≠ 0 := by
        rw [hat]
        exact fun hc => hz (toNat_eq_zero.mp hc)
      have hbelow := freeBelow_spec (H := H) hW h (k - 5) hi (Nat.zero_add _)
        hf hne (hG k List.mem_cons_self)
      rw [hat] at hbelow
      refine wp_seq hbelow fun _ τ1 h1 => ?_
      have hothers : ∀ m ∈ ks, (ip.setAddr k 0).addrs m = T ip.inum m := by
        intro m hm
        have hmk : m ≠ k := by
          rintro rfl
          exact hk hm
        show Function.update ip.addrs k 0 m = _
        rw [Function.update_of_ne hmk]
        exact hT m (List.mem_cons_of_mem _ hm)
      have hi' : (ip.setAddr k 0).inum < sb.ninodes := hi
      refine wp_mono (ih hi' hks hothers h1 ?_) ?_
      · rintro m hm b hb (hg | hbk)
        · exact hG m (List.mem_cons_of_mem _ hm) b hb hg
        · have heq := (h.below_ne hbk hb).1
          rw [(Prod.mk.inj heq).2] at hk
          exact hk hm
      · rintro ip' τ' ⟨rfl, h'⟩
        refine ⟨?_, h'.congr fun b => ?_⟩
        · show ({ ip with addrs := _ } : Inode) = _
          congr 2
          funext m
          by_cases hm : m = k
          · subst hm
            simp [Inode.setAddr, hk]
          · simp [Inode.setAddr, hm]
        · simp only [List.mem_cons, exists_eq_or_imp, or_assoc]
          rfl

/-- What truncation leaves: the inode has no blocks, and the others are as before. -/
structure Truncated (sb : Superblock) (T : AddrTable) (σ : Contents) (ip ip' : Inode)
    (τ : Contents) : Prop where
  inode : ip' = { ip with addrs := fun _ => 0, size := 0 }
  consistent : Consistent sb (Function.update T ip.inum fun _ => 0) τ
  others : ∀ j, j ≠ ip.inum → j < sb.ninodes → ∀ bn,
    blockAt (Function.update T ip.inum fun _ => 0) τ (place j bn) = blockAt T σ (place j bn)
  dinodes : ∀ j, j ≠ ip.inum → j < sb.ninodes → dinode sb τ j = dinode sb σ j
  saved : dinode sb τ ip.inum = ip'.toDinode

/-- Freeing everything below the slots of an inode takes exactly its blocks out of use. -/
theorem Freed.consistent (h : Consistent sb T σ) {i : Nat} (hi : i < sb.ninodes)
    (hf : Freed sb σ (fun b => ∃ k, Below sb T σ ((i, k), []) b) τ) :
    Consistent sb (Function.update T i fun _ => 0) τ ∧ ∀ j, j ≠ i → j < sb.ninodes → ∀ bn,
      blockAt (Function.update T i fun _ => 0) τ (place j bn) = blockAt T σ (place j bn) := by
  have hzero : ∀ k, Function.update T i (fun _ => 0) i k = 0 := by
    intro k
    rw [Function.update_self]
  have hroot : ∀ q : Nat × Fin 9, q.1 ≠ i →
      (forest (Function.update T i fun _ => 0) τ).root q = (forest T σ).root q := by
    intro q hq
    show (Function.update T i (fun _ => 0) q.1 q.2).toNat = (T q.1 q.2).toNat
    rw [Function.update_of_ne hq]
  have hchild : ∀ q js, (shape sb).Inner (q, js) → q.1 ≠ i → (forest T σ).ref q js ≠ 0 →
      ∀ j, (forest (Function.update T i fun _ => 0) τ).child ((forest T σ).ref q js) j
        = (forest T σ).child ((forest T σ).ref q js) j := by
    intro q js hin _ h0 j
    have hlive := h.live (p := (q, js)) hin.valid h0
    rw [forest_child, forest_child, hf.same _ (Or.inr hlive.1)]
  refine ⟨⟨?_, fun b hb => ?_⟩, fun j hj hjn bn => ?_⟩
  · refine h.owns.prune (fun q : Nat × Fin 9 => q.1 = i) ?_ (fun q _ hq => hroot q hq) hchild ?_
    · rintro ⟨_, k⟩ - rfl
      show (Function.update T _ (fun _ => 0) _ k).toNat = 0
      rw [hzero]
      rfl
    · intro a
      unfold Live
      constructor
      · rintro ⟨ha, has, hbit⟩
        obtain ⟨hold, hng⟩ := (hf.bit a has).mp hbit
        refine ⟨⟨ha, has, hold⟩, ?_⟩
        rintro ⟨⟨q, k⟩, ks⟩ hv hq heq
        subst hq
        have hpos := sb.datastart_pos
        exact hng ⟨k, by omega, ks, List.nil_suffix, hv, heq⟩
      · rintro ⟨⟨ha, has, hbit⟩, hng⟩
        refine ⟨ha, has, (hf.bit a has).mpr ⟨hbit, ?_⟩⟩
        rintro ⟨k, -, ks, -, hv, heq⟩
        exact hng ((i, k), ks) hv rfl heq
  · have h1 : sb.datastart ≤ sb.size := sb.bitmap_le
    refine (hf.bit b (by omega)).mpr ⟨h.marked b hb, ?_⟩
    rintro ⟨k, hb0, ks, -, hv, heq⟩
    have hlive := h.live hv (heq.trans_ne hb0)
    have hle := hlive.1
    rw [heq] at hle
    omega
  · exact ref_congr (hroot _ hj) (fun js hin => hchild _ js hin hj) (leaf_place hjn bn).valid

theorem itrunc_freed (hW : ∀ b, b < sb.size → W (sb.bblock b)) (hWi : W (sb.iblock ip.inum))
    (h : Consistent sb T σ) (hT : T ip.inum = ip.addrs) (hi : ip.inum < sb.ninodes) :
    (itrunc sb ip).wp H W (fun ip' τ => ip' = { ip with addrs := fun _ => 0, size := 0 } ∧
      ∃ τ1, Freed sb σ (fun b => ∃ k, Below sb T σ ((ip.inum, k), []) b) τ1 ∧
        τ = updated sb τ1 ip.inum ip'.toDinode) σ := by
  refine wp_seq (freeSlots_spec hW h hi (List.finRange 9) (List.nodup_finRange 9)
    (fun k _ => by rw [hT]) (Freed.refl σ) fun _ _ _ _ => id) ?_
  rintro ip1 τ ⟨rfl, hf⟩
  have hfreed : Freed sb σ (fun b => ∃ k, Below sb T σ ((ip.inum, k), []) b) τ :=
    hf.congr fun b => by simp
  refine wp_seq (iupdate_writes hWi) ?_
  rintro _ _ rfl
  exact wp_pure ⟨by simp, τ, hfreed, rfl⟩

theorem itrunc_spec (h : Consistent sb T σ) (hT : T ip.inum = ip.addrs)
    (hi : ip.inum < sb.ninodes) :
    (itrunc sb ip).wp H sb.Logged (fun ip' τ => Truncated sb T σ ip ip' τ) σ := by
  refine wp_mono (itrunc_freed ?_ (Superblock.logged_iblock _) h hT hi) ?_
  · intro b _
    exact Superblock.logged_of_bmapstart (Superblock.bmapstart_le_bblock b)
  rintro ip' τ ⟨hip, τ1, hfreed, rfl⟩
  obtain ⟨hc, hothers⟩ := hfreed.consistent h hi
  have hmap := hc.sameMap_updated hi ip'.toDinode
  refine ⟨hip, hmap.consistent hc, fun j hj hjn bn => ?_, fun j hj hjn => ?_,
    dinode_updated_self _⟩
  · exact (hmap.blockAt_eq (leaf_place hjn bn).valid).trans (hothers j hj hjn bn)
  · rw [dinode_updated_ne _ hj]
    exact dinode_congr (hfreed.same _ (Or.inl (Superblock.iblock_lt hjn)))

end Xv6.Fs
