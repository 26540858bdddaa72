import Xv6.Fs.Logged

/-!
# What allocation logs

`Grows` follows `bmap` and the loop of `writei`: all places of `S` are filled, with the
first free blocks, and the blocks logged are the bitmap blocks of these and the blocks
at the places that are new or have a new entry.
-/

namespace Xv6.Fs
open Buffer Forest

/-- The place `js` below `r`, and those above it. -/
def up (r : Nat × Fin 9) (js : List (Fin 128)) : Finset Place :=
  (js.tails.map fun ks => ((r, ks) : Place)).toFinset

/-- The block at `q` is new, or a new block of `S` is entered in it. -/
def Changed (S : Finset Place) (T : AddrTable) (σ : Contents) (q : Place) : Prop :=
  blockAt T σ q = 0 ∨ ∃ j, ((q.1, j :: q.2) : Place) ∈ S ∧ blockAt T σ (q.1, j :: q.2) = 0

instance (S : Finset Place) (T : AddrTable) (σ : Contents) (q : Place) :
    Decidable (Changed S T σ q) := inferInstanceAs (Decidable (_ ∨ ∃ _ : Fin 128, _))

variable {sb : Superblock} {S S' E E' : Finset Place} {D : Place → Nat → Prop}
  {T T' T'' : AddrTable} {σ σ' σ'' : Contents} {bs cs : Finset Nat} {ip : Inode}
  {r : Nat × Fin 9} {js : List (Fin 128)} {j : Fin 128} {p q : Place}

theorem mem_up : q ∈ up r js ↔ q.1 = r ∧ q.2 <:+ js := by
  unfold up
  rw [List.mem_toFinset, List.mem_map]
  constructor
  · rintro ⟨ks, hks, rfl⟩
    exact ⟨rfl, (List.mem_tails _ _).mp hks⟩
  · rintro ⟨rfl, hs⟩
    exact ⟨q.2, (List.mem_tails _ _).mpr hs, rfl⟩

theorem up_subset {ks : List (Fin 128)} (h : ks <:+ js) : up r ks ⊆ up r js := fun q hq => by
  obtain ⟨hr, hs⟩ := mem_up.mp hq
  exact mem_up.mpr ⟨hr, hs.trans h⟩

theorem branch_eq_up (i bn : Nat) : (branch i bn).toFinset = up (i, (path bn).1) (path bn).2 := rfl

/-- `S` is a part of the trees that has with each place the ones above it. -/
structure Upper (sb : Superblock) (S : Finset Place) : Prop where
  valid : ∀ q ∈ S, (shape sb).Valid q
  parent : ∀ r j js, ((r, j :: js) : Place) ∈ S → ((r, js) : Place) ∈ S

theorem upper_up (h : (shape sb).Valid ((r, js) : Place)) : Upper sb (up r js) where
  valid q hq := by
    obtain ⟨hr, hs⟩ := mem_up.mp hq
    exact ⟨hr ▸ h.1, hr ▸ Nat.le_trans hs.length_le h.2⟩
  parent r' j ks hq := by
    obtain ⟨hr, hs⟩ := mem_up.mp hq
    exact mem_up.mpr ⟨hr, (List.suffix_cons j ks).trans hs⟩

theorem Upper.union (h : Upper sb S) (h' : Upper sb S') : Upper sb (S ∪ S') where
  valid q hq := (Finset.mem_union.mp hq).elim (h.valid q) (h'.valid q)
  parent r j js hq := by
    rcases Finset.mem_union.mp hq with hq | hq
    · exact Finset.mem_union_left _ (h.parent r j js hq)
    · exact Finset.mem_union_right _ (h'.parent r j js hq)

theorem need_mono (h : S ⊆ S') : need S T σ ≤ need S' T σ :=
  Finset.card_le_card (Finset.filter_subset_filter _ h)

theorem need_eq_zero (h : ∀ q ∈ S, blockAt T σ q ≠ 0) : need S T σ = 0 :=
  Finset.card_eq_zero.mpr (Finset.filter_eq_empty_iff.mpr fun _ hq => h _ hq)

/-- From `(T, σ)` to `(T', σ')` the blocks `bs` are logged: all places of `S` get a block
from the free list, and the blocks at `E` are written. -/
structure Grows (sb : Superblock) (S E : Finset Place) (T : AddrTable) (σ : Contents)
    (T' : AddrTable) (σ' : Contents) (bs : Finset Nat) : Prop where
  upper : Upper sb S
  sub : E ⊆ S
  consistent : Consistent sb T' σ'
  keep : ∀ q, (shape sb).Valid q → blockAt T σ q ≠ 0 → blockAt T' σ' q = blockAt T σ q
  fresh : ∀ q, (shape sb).Valid q → blockAt T σ q = 0 → blockAt T' σ' q ≠ 0 → q ∈ S
  full : ∀ q ∈ S, blockAt T' σ' q ≠ 0
  free : freeList sb σ' = (freeList sb σ).drop (need S T σ)
  logs : ∀ b, b ∈ bs ↔ (∃ x ∈ (freeList sb σ).take (need S T σ), b = sb.bblock x) ∨
    ∃ q ∈ S, (Changed S T σ q ∨ q ∈ E) ∧ b = blockAt T' σ' q

namespace Grows

theorem refl (hS : Upper sb S) (h : Consistent sb T σ) (hfull : ∀ q ∈ S, blockAt T σ q ≠ 0) :
    Grows sb S ∅ T σ T σ ∅ where
  upper := hS
  sub := Finset.empty_subset S
  consistent := h
  keep _ _ _ := rfl
  fresh _ _ h0 hne := absurd h0 hne
  full := hfull
  free := by rw [need_eq_zero hfull, List.drop_zero]
  logs b := by
    rw [need_eq_zero hfull, List.take_zero]
    constructor
    · intro hb
      exact absurd hb (Finset.notMem_empty b)
    · rintro (⟨x, hx, -⟩ | ⟨q, hq, (hch | hE), -⟩)
      · exact absurd hx List.not_mem_nil
      · rcases hch with h0 | ⟨j, hj, h0⟩
        · exact absurd h0 (hfull q hq)
        · exact absurd h0 (hfull _ hj)
      · exact absurd hE (Finset.notMem_empty q)

/-- What is missing of `S'` after `S` is filled was missing before and is not in `S`. -/
theorem empty_iff (h : Grows sb S E T σ T' σ' bs) (hq : (shape sb).Valid q) :
    blockAt T' σ' q = 0 ↔ blockAt T σ q = 0 ∧ q ∉ S := by
  constructor
  · intro h0
    refine ⟨?_, fun hS => h.full q hS h0⟩
    by_contra hne
    rw [h.keep q hq hne] at h0
    exact hne h0
  · rintro ⟨h0, hS⟩
    by_contra hne
    exact hS (h.fresh q hq h0 hne)

theorem need_union (h : Grows sb S E T σ T' σ' bs) (hS' : Upper sb S') :
    need (S ∪ S') T σ = need S T σ + need S' T' σ' := by
  have hsplit : (S ∪ S').filter (fun q => blockAt T σ q = 0)
      = S.filter (fun q => blockAt T σ q = 0) ∪ S'.filter (fun q => blockAt T' σ' q = 0) := by
    ext q
    rw [Finset.mem_union, Finset.mem_filter, Finset.mem_filter, Finset.mem_filter,
      Finset.mem_union]
    constructor
    · rintro ⟨hq, h0⟩
      by_cases hS : q ∈ S
      · exact Or.inl ⟨hS, h0⟩
      · have hq' := hq.resolve_left hS
        exact Or.inr ⟨hq', (h.empty_iff (hS'.valid q hq')).mpr ⟨h0, hS⟩⟩
    · rintro (⟨hq, h0⟩ | ⟨hq, h0⟩)
      · exact ⟨Or.inl hq, h0⟩
      · exact ⟨Or.inr hq, ((h.empty_iff (hS'.valid q hq)).mp h0).1⟩
  unfold need
  rw [hsplit, Finset.card_union_of_disjoint]
  rw [Finset.disjoint_left]
  intro q hq hq'
  exact h.full q (Finset.mem_filter.mp hq).1 (Finset.mem_filter.mp hq').2

/-- The free blocks left are enough for what is missing of `S'`. -/
theorem room (h : Grows sb S E T σ T' σ' bs) (hS' : Upper sb S')
    (hroom : need (S ∪ S') T σ ≤ (freeList sb σ).length) :
    need S' T' σ' ≤ (freeList sb σ').length := by
  rw [h.need_union hS'] at hroom
  rw [h.free, List.length_drop]
  omega

theorem changed_union (h : Grows sb S E T σ T' σ' bs) (hS' : Upper sb S') (hq : q ∈ S ∪ S') :
    Changed (S ∪ S') T σ q ↔ (q ∈ S ∧ Changed S T σ q) ∨ (q ∈ S' ∧ Changed S' T' σ' q) := by
  constructor
  · rintro (h0 | ⟨j, hj, h0⟩)
    · by_cases hS : q ∈ S
      · exact Or.inl ⟨hS, Or.inl h0⟩
      · have hq' := (Finset.mem_union.mp hq).resolve_left hS
        exact Or.inr ⟨hq', Or.inl ((h.empty_iff (hS'.valid q hq')).mpr ⟨h0, hS⟩)⟩
    · by_cases hS : ((q.1, j :: q.2) : Place) ∈ S
      · exact Or.inl ⟨h.upper.parent _ _ _ hS, Or.inr ⟨j, hS, h0⟩⟩
      · have hj' := (Finset.mem_union.mp hj).resolve_left hS
        have h0' := (h.empty_iff (hS'.valid _ hj')).mpr ⟨h0, hS⟩
        exact Or.inr ⟨hS'.parent _ _ _ hj', Or.inr ⟨j, hj', h0'⟩⟩
  · rintro (⟨-, h0 | ⟨j, hj, h0⟩⟩ | ⟨hq', h0 | ⟨j, hj, h0⟩⟩)
    · exact Or.inl h0
    · exact Or.inr ⟨j, Finset.mem_union_left _ hj, h0⟩
    · exact Or.inl ((h.empty_iff (hS'.valid q hq')).mp h0).1
    · exact Or.inr ⟨j, Finset.mem_union_right _ hj, ((h.empty_iff (hS'.valid _ hj)).mp h0).1⟩

theorem trans (h : Grows sb S E T σ T' σ' bs) (h' : Grows sb S' E' T' σ' T'' σ'' cs) :
    Grows sb (S ∪ S') (E ∪ E') T σ T'' σ'' (bs ∪ cs) where
  upper := h.upper.union h'.upper
  sub := Finset.union_subset_union h.sub h'.sub
  consistent := h'.consistent
  keep q hq h0 := by
    have hk := h.keep q hq h0
    rw [h'.keep q hq (by rw [hk]; exact h0), hk]
  fresh q hq h0 hne := by
    by_cases h1 : blockAt T' σ' q = 0
    · exact Finset.mem_union_right _ (h'.fresh q hq h1 hne)
    · exact Finset.mem_union_left _ (h.fresh q hq h0 h1)
  full q hq := by
    rcases Finset.mem_union.mp hq with hq | hq
    · have hne := h.full q hq
      rw [h'.keep q (h.upper.valid q hq) hne]
      exact hne
    · exact h'.full q hq
  free := by rw [h'.free, h.free, List.drop_drop, h.need_union h'.upper]
  logs b := by
    have hat : ∀ q ∈ S, blockAt T'' σ'' q = blockAt T' σ' q := fun q hq =>
      h'.keep q (h.upper.valid q hq) (h.full q hq)
    rw [Finset.mem_union, h.logs, h'.logs, h.need_union h'.upper, List.take_add, h.free]
    constructor
    · rintro ((⟨x, hx, hb⟩ | ⟨q, hq, hch, hb⟩) | (⟨x, hx, hb⟩ | ⟨q, hq, hch, hb⟩))
      · exact Or.inl ⟨x, List.mem_append_left _ hx, hb⟩
      · have hu := Finset.mem_union_left S' hq
        refine Or.inr ⟨q, hu, hch.imp (fun hc => ?_) (Finset.mem_union_left _), by rw [hat q hq, hb]⟩
        exact (h.changed_union h'.upper hu).mpr (Or.inl ⟨hq, hc⟩)
      · exact Or.inl ⟨x, List.mem_append_right _ hx, hb⟩
      · have hu := Finset.mem_union_right S hq
        refine Or.inr ⟨q, hu, hch.imp (fun hc => ?_) (Finset.mem_union_right _), hb⟩
        exact (h.changed_union h'.upper hu).mpr (Or.inr ⟨hq, hc⟩)
    · rintro (⟨x, hx, hb⟩ | ⟨q, hq, hch | hE, hb⟩)
      · rcases List.mem_append.mp hx with hx | hx
        · exact Or.inl (Or.inl ⟨x, hx, hb⟩)
        · exact Or.inr (Or.inl ⟨x, hx, hb⟩)
      · rcases (h.changed_union h'.upper hq).mp hch with ⟨hS, hc⟩ | ⟨hS, hc⟩
        · exact Or.inl (Or.inr ⟨q, hS, Or.inl hc, by rw [hb, hat q hS]⟩)
        · exact Or.inr (Or.inr ⟨q, hS, Or.inl hc, hb⟩)
      · rcases Finset.mem_union.mp hE with hE | hE
        · exact Or.inl (Or.inr ⟨q, h.sub hE, Or.inr hE, by rw [hb, hat q (h.sub hE)]⟩)
        · exact Or.inr (Or.inr ⟨q, h'.sub hE, Or.inr hE, hb⟩)

theorem trans_subset (h : Grows sb S ∅ T σ T' σ' bs) (h' : Grows sb S' ∅ T' σ' T'' σ'' cs)
    (hsub : S ⊆ S') : Grows sb S' ∅ T σ T'' σ'' (bs ∪ cs) := by
  have hu := h.trans h'
  rw [Finset.union_eq_right.mpr hsub, Finset.union_empty] at hu
  exact hu

theorem room_subset (h : Grows sb S E T σ T' σ' bs) (hS' : Upper sb S') (hsub : S ⊆ S')
    (hroom : need S' T σ ≤ (freeList sb σ).length) :
    need S' T' σ' ≤ (freeList sb σ').length := by
  refine h.room hS' ?_
  rw [Finset.union_eq_right.mpr hsub]
  exact hroom

theorem write (h : Grows sb S E T σ T' σ' bs) (hp : p ∈ S) (hleaf : Leaf sb p) (v : Block) :
    Grows sb S (insert p E) T σ T' (Function.update σ' (blockAt T' σ' p) v)
      (insert (blockAt T' σ' p) bs) := by
  have hmap := h.consistent.sameMap_leaf hleaf (h.full p hp) v
  have hat : ∀ q, (shape sb).Valid q →
      blockAt T' (Function.update σ' (blockAt T' σ' p) v) q = blockAt T' σ' q :=
    fun q hq => hmap.blockAt_eq hq
  refine ⟨h.upper, Finset.insert_subset hp h.sub, hmap.consistent h.consistent, ?_, ?_, ?_, ?_, ?_⟩
  · intro q hq h0
    rw [hat q hq, h.keep q hq h0]
  · intro q hq h0 hne
    rw [hat q hq] at hne
    exact h.fresh q hq h0 hne
  · intro q hq
    rw [hat q (h.upper.valid q hq)]
    exact h.full q hq
  · rw [← h.free]
    exact freeList_congr fun b hb => hmap.bit_eq hb
  · intro b
    rw [Finset.mem_insert, h.logs]
    constructor
    · rintro (rfl | hx | ⟨q, hq, hch, rfl⟩)
      · exact Or.inr ⟨p, hp, Or.inr (Finset.mem_insert_self p E), (hat p hleaf.valid).symm⟩
      · exact Or.inl hx
      · exact Or.inr ⟨q, hq, hch.imp_right (Finset.mem_insert_of_mem ·),
          (hat q (h.upper.valid q hq)).symm⟩
    · rintro (hx | ⟨q, hq, hch, rfl⟩)
      · exact Or.inr (Or.inl hx)
      · rw [hat q (h.upper.valid q hq)]
        rcases hch with hch | hE
        · exact Or.inr (Or.inr ⟨q, hq, Or.inl hch, rfl⟩)
        · rcases Finset.mem_insert.mp hE with rfl | hE
          · exact Or.inl rfl
          · exact Or.inr (Or.inr ⟨q, hq, Or.inr hE, rfl⟩)

end Grows

/-! ### bmap -/

theorem exists_head (hp : p ∈ S) (h0 : blockAt T σ p = 0)
    (hroom : need S T σ ≤ (freeList sb σ).length) : ∃ x xs, freeList sb σ = x :: xs := by
  have hneed : 0 < need S T σ := Finset.card_pos.mpr ⟨p, Finset.mem_filter.mpr ⟨hp, h0⟩⟩
  exact List.exists_cons_of_length_pos (by omega)

theorem head_free {x : Nat} {xs : List Nat} (h : Consistent sb T σ)
    (hfree : freeList sb σ = x :: xs) :
    sb.datastart ≤ x ∧ x < sb.size ∧ bit sb σ x = false := by
  obtain ⟨hsize, hbit⟩ := mem_freeList.mp (show x ∈ freeList sb σ from hfree ▸ List.mem_cons_self)
  refine ⟨?_, hsize, hbit⟩
  by_contra hlow
  rw [h.marked x (by omega)] at hbit
  cases hbit

/-- One place was empty, and now has the first free block. -/
theorem Extends.grows {x : Nat} {xs : List Nat} (hext : Extends sb S D T σ T' σ')
    (hS : Upper sb S) (hp : p ∈ S) (h0 : blockAt T σ p = 0)
    (hrest : ∀ q ∈ S, q ≠ p → blockAt T σ q ≠ 0) (hat : blockAt T' σ' p ≠ 0)
    (hfree : freeList sb σ = x :: xs) (hfree' : freeList sb σ' = xs)
    (hlogs : ∀ b, b ∈ bs ↔ b = sb.bblock x ∨ ∃ q ∈ S, Changed S T σ q ∧ b = blockAt T' σ' q) :
    Grows sb S ∅ T σ T' σ' bs := by
  have hneed : need S T σ = 1 := by
    unfold need
    rw [Finset.card_eq_one]
    refine ⟨p, Finset.ext fun q => ?_⟩
    rw [Finset.mem_filter, Finset.mem_singleton]
    constructor
    · rintro ⟨hq, hq0⟩
      by_contra hne
      exact hrest q hq hne hq0
    · rintro rfl
      exact ⟨hp, h0⟩
  refine ⟨hS, Finset.empty_subset S, hext.consistent, hext.keep, hext.fresh, ?_, ?_, ?_⟩
  · intro q hq
    by_cases hqp : q = p
    · rw [hqp]
      exact hat
    · rw [hext.keep q (hS.valid q hq) (hrest q hq hqp)]
      exact hrest q hq hqp
  · rw [hneed, hfree, hfree']
    rfl
  · intro b
    rw [hlogs, hneed, hfree]
    simp

theorem slot_grows {k : Fin 9} (h : Consistent sb T σ) (hT : T ip.inum = ip.addrs)
    (hi : ip.inum < sb.ninodes)
    (hroom : need (up (ip.inum, k) []) T σ ≤ (freeList sb σ).length) :
    ∃ a addr τ bs, Does (slot sb ip k) σ (addr, { ip with addrs := a }) τ bs ∧
      blockAt (Function.update T ip.inum a) τ ((ip.inum, k), []) = addr ∧ addr ≠ 0 ∧
      Grows sb (up (ip.inum, k) []) ∅ T σ (Function.update T ip.inum a) τ bs := by
  have hvalid : (shape sb).Valid (((ip.inum, k), []) : Place) := ⟨hi, Nat.zero_le _⟩
  have hS := upper_up hvalid
  have hmem : (((ip.inum, k), []) : Place) ∈ up (ip.inum, k) [] :=
    mem_up.mpr ⟨rfl, List.suffix_refl _⟩
  have honly : ∀ q ∈ up (ip.inum, k) [], q = ((ip.inum, k), []) := by
    intro q hq
    obtain ⟨hr, hs⟩ := mem_up.mp hq
    exact Prod.ext hr (List.suffix_nil.mp hs)
  have hspec := slot_spec (H := fun _ => False) (D := fun _ _ => False) h hT hi hS.valid hmem
    (Or.inr (by rw [← length_freeList]; exact hroom))
  by_cases h0 : ip.addrs k = 0
  · have hempty : blockAt T σ ((ip.inum, k), []) = 0 := by
      show (T ip.inum k).toNat = 0
      rw [hT, h0]
      rfl
    obtain ⟨x, xs, hfree⟩ := exists_head hmem hempty hroom
    obtain ⟨hx, -, -⟩ := head_free h hfree
    have hdoes : Does (slot sb ip k) σ (x, ip.setAddr k (BitVec.ofNat 32 x)) (allocated sb σ x)
        {sb.bblock x, x} := by
      unfold slot
      rw [if_pos h0, ← Finset.union_empty {sb.bblock x, x}]
      exact (balloc_does hfree).seq (Does.pure _ _)
    obtain ⟨a, ha, hext, hat, hne, -⟩ := wp_result hspec hdoes.exec
    dsimp only at ha hat hne
    rw [ha] at hdoes
    refine ⟨a, x, _, _, hdoes, hat, hne, ?_⟩
    refine hext.grows hS hmem hempty (fun q hq hqp => absurd (honly q hq) hqp)
      (by rw [hat]; exact hne) hfree (freeList_allocated hx hfree) fun b => ?_
    rw [Finset.mem_insert, Finset.mem_singleton]
    refine or_congr_right ⟨fun hb => ⟨_, hmem, Or.inl hempty, hb.trans hat.symm⟩, ?_⟩
    rintro ⟨q, hq, -, hb⟩
    rw [hb, honly q hq, hat]
  · have hdoes : Does (slot sb ip k) σ ((ip.addrs k).toNat, { ip with addrs := ip.addrs }) σ ∅ := by
      unfold slot
      rw [if_neg h0]
      exact Does.pure _ _
    have hself : Function.update T ip.inum ip.addrs = T := by rw [← hT, Function.update_eq_self]
    have hat : blockAt T σ ((ip.inum, k), []) = (ip.addrs k).toNat := by
      show (T ip.inum k).toNat = (ip.addrs k).toNat
      rw [hT]
    have hne : (ip.addrs k).toNat ≠ 0 := fun hz => h0 (toNat_eq_zero.mp hz)
    refine ⟨ip.addrs, _, _, _, hdoes, ?_, hne, ?_⟩
    · rw [hself, hat]
    · rw [hself]
      refine Grows.refl hS h fun q hq => ?_
      rw [honly q hq, hat]
      exact hne

theorem entry_grows {w : Nat} (h : Consistent sb T σ) (hin : (shape sb).Inner (r, js))
    (hw : blockAt T σ (r, js) = w) (hw0 : w ≠ 0)
    (hroom : need (up r (j :: js)) T σ ≤ (freeList sb σ).length) :
    ∃ addr τ bs, Does (entry sb w j) σ addr τ bs ∧ blockAt T τ (r, j :: js) = addr ∧ addr ≠ 0 ∧
      Grows sb (up r (j :: js)) ∅ T σ T τ bs := by
  have hne : blockAt T σ (r, js) ≠ 0 := by
    rw [hw]
    exact hw0
  have hS := upper_up (hin.cons j)
  have hmem : ((r, j :: js) : Place) ∈ up r (j :: js) := mem_up.mpr ⟨rfl, List.suffix_refl _⟩
  have hmem' : ((r, js) : Place) ∈ up r (j :: js) := mem_up.mpr ⟨rfl, List.suffix_cons j js⟩
  have hrest : ∀ q ∈ up r (j :: js), q ≠ (r, j :: js) → blockAt T σ q ≠ 0 := by
    intro q hq hqp
    obtain ⟨hr, hs⟩ := mem_up.mp hq
    rcases List.suffix_cons_iff.mp hs with heq | hs
    · exact absurd (Prod.ext hr heq) hqp
    · rw [show blockAt T σ q = (forest T σ).ref r q.2 by rw [← hr]]
      exact ref_suffix_ne_zero hne hs
  have hchild : blockAt T σ (r, j :: js) = (getWord (σ w) (4 * j)).toNat := by
    show (forest T σ).ref r (j :: js) = _
    rw [ref_cons hne]
    show (getWord (σ (blockAt T σ (r, js))) (4 * j)).toNat = _
    rw [hw]
  have hspec := entry_spec (H := fun _ => False) (D := fun _ _ => False) h hin hw hw0 hS.valid hmem
    (Or.inr (by rw [← length_freeList]; exact hroom))
  by_cases h0 : getWord (σ w) (4 * j) = 0
  · have hempty : blockAt T σ (r, j :: js) = 0 := by
      rw [hchild, h0]
      rfl
    obtain ⟨x, xs, hfree⟩ := exists_head hmem hempty hroom
    obtain ⟨hx, -, -⟩ := head_free h hfree
    have hlive := h.live hin.valid hne
    rw [hw] at hlive
    have hdoes : Does (entry sb w j) σ x (Function.update (allocated sb σ x) w
        (setWord (allocated sb σ x w) (4 * j) (BitVec.ofNat 32 x)))
        ({sb.bblock x, x} ∪ insert w ∅) := by
      refine Does.bread ?_
      rw [if_pos h0]
      exact (balloc_does hfree).seq (Does.logWrite (Does.pure x _))
    obtain ⟨hext, hat, hx0, -⟩ := wp_result hspec hdoes.exec
    refine ⟨x, _, _, hdoes, hat, hx0, ?_⟩
    have hfree' : freeList sb (Function.update (allocated sb σ x) w
        (setWord (allocated sb σ x w) (4 * j) (BitVec.ofNat 32 x))) = xs := by
      rw [← freeList_allocated hx hfree]
      refine freeList_congr fun b hb => bit_congr ?_
      have hlt := Superblock.bblock_lt hb
      have hle := hlive.1
      exact Function.update_of_ne (by omega) _ _
    have hkeep := hext.keep (r, js) hin.valid hne
    rw [hw] at hkeep
    refine hext.grows hS hmem hempty hrest (by rw [hat]; exact hx0) hfree hfree' fun b => ?_
    rw [Finset.mem_union, Finset.mem_insert, Finset.mem_singleton, insert_empty_eq,
      Finset.mem_singleton, or_assoc]
    refine or_congr_right ⟨?_, ?_⟩
    · rintro (hb | hb)
      · exact ⟨_, hmem, Or.inl hempty, hb.trans hat.symm⟩
      · exact ⟨_, hmem', Or.inr ⟨j, hmem, hempty⟩, hb.trans hkeep.symm⟩
    · -- above the parent no entry is new
      rintro ⟨⟨r', ks⟩, hq, hch, rfl⟩
      by_cases hself : ((r', ks) : Place) = (r, j :: js)
      · rw [hself, hat]
        exact Or.inl rfl
      rcases hch with hq0 | ⟨m, hm, hm0⟩
      · exact absurd hq0 (hrest _ hq hself)
      · by_cases hchild' : ((r', m :: ks) : Place) = (r, j :: js)
        · obtain ⟨rfl, hl⟩ := Prod.mk.inj hchild'
          obtain ⟨-, rfl⟩ := List.cons.inj hl
          exact Or.inr hkeep
        · exact absurd hm0 (hrest _ hm hchild')
  · have hdoes : Does (entry sb w j) σ (getWord (σ w) (4 * j)).toNat σ ∅ := by
      refine Does.bread ?_
      rw [if_neg h0]
      exact Does.pure _ _
    have hne' : (getWord (σ w) (4 * j)).toNat ≠ 0 := fun hz => h0 (toNat_eq_zero.mp hz)
    refine ⟨_, _, _, hdoes, hchild, hne', Grows.refl hS h fun q hq => ?_⟩
    by_cases hself : q = (r, j :: js)
    · rw [hself, hchild]
      exact hne'
    · exact hrest q hq hself

theorem bmap_grows {bn : Nat} (h : Consistent sb T σ) (hT : T ip.inum = ip.addrs)
    (hi : ip.inum < sb.ninodes) (hbn : bn < MAXFILE)
    (hroom : need (branch ip.inum bn).toFinset T σ ≤ (freeList sb σ).length) :
    ∃ a addr τ bs, Does (bmap sb ip bn) σ (addr, { ip with addrs := a }) τ bs ∧
      blockAt (Function.update T ip.inum a) τ (place ip.inum bn) = addr ∧
      Grows sb (branch ip.inum bn).toFinset ∅ T σ (Function.update T ip.inum a) τ bs := by
  rw [MAXFILE_eq] at hbn
  rw [branch_eq_up] at hroom ⊢
  have e1 : NDIRECT = 6 := rfl
  have e2 : NINDIRECT = 128 := rfl
  unfold bmap place
  by_cases h1 : bn < NDIRECT
  · rw [if_pos h1]
    rw [path_direct (by omega)] at hroom ⊢
    obtain ⟨a, addr, τ, bs, hdo, hat, -, hg⟩ := slot_grows h hT hi hroom
    exact ⟨a, addr, τ, bs, hdo, hat, hg⟩
  rw [if_neg h1]
  dsimp only
  by_cases h2 : bn - NDIRECT < NINDIRECT
  · obtain ⟨j, hpath, hj⟩ := path_single bn (by omega) (by omega)
    rw [if_pos h2, e1, hj]
    rw [hpath] at hroom ⊢
    dsimp only at hroom ⊢
    have hin : (shape sb).Inner (((ip.inum, 6), []) : Place) := ⟨hi, Nat.zero_lt_one⟩
    have hsub : up (ip.inum, 6) [] ⊆ up (ip.inum, 6) [j] := up_subset List.nil_suffix
    obtain ⟨a, bp, σ1, bs1, hdo1, hat1, h01, hg1⟩ :=
      slot_grows h hT hi (Nat.le_trans (need_mono hsub) hroom)
    obtain ⟨addr, σ2, bs2, hdo2, hat2, -, hg2⟩ := entry_grows hg1.consistent hin hat1 h01
      (hg1.room_subset (upper_up (hin.cons j)) hsub hroom)
    exact ⟨a, addr, σ2, _, hdo1.seq (hdo2.seq (Does.brelse (Does.pure _ _))), hat2,
      hg1.trans_subset (by rw [Finset.union_empty]; exact hg2) hsub⟩
  rw [if_neg h2]
  by_cases h3 : bn - NDIRECT - NINDIRECT < NDINDIRECT
  · have e3 : NDINDIRECT = 16384 := rfl
    obtain ⟨j, d, hpath, hj, hd⟩ := path_double bn (by omega) (by omega)
    rw [if_pos h3, e1, e2, hj, hd]
    rw [hpath] at hroom ⊢
    dsimp only at hroom ⊢
    have hin : (shape sb).Inner (((ip.inum, 7), []) : Place) := ⟨hi, Nat.zero_lt_succ 1⟩
    have hin2 : (shape sb).Inner (((ip.inum, 7), [d]) : Place) := ⟨hi, Nat.lt_succ_self 1⟩
    have hS := upper_up (hin2.cons j)
    have hsub1 : up (ip.inum, 7) [] ⊆ up (ip.inum, 7) [d] := up_subset List.nil_suffix
    have hsub2 : up (ip.inum, 7) [d] ⊆ up (ip.inum, 7) [j, d] := up_subset (List.suffix_cons _ _)
    obtain ⟨a, dbp, σ1, bs1, hdo1, hat1, h01, hg1⟩ :=
      slot_grows h hT hi (Nat.le_trans (need_mono (hsub1.trans hsub2)) hroom)
    have hroom1 := hg1.room_subset hS (hsub1.trans hsub2) hroom
    obtain ⟨bp, σ2, bs2, hdo2, hat2, h02, hg2⟩ := entry_grows hg1.consistent hin hat1 h01
      (Nat.le_trans (need_mono hsub2) hroom1)
    have hg12 := hg1.trans_subset hg2 hsub1
    obtain ⟨addr, σ3, bs3, hdo3, hat3, -, hg3⟩ := entry_grows hg2.consistent hin2 hat2 h02
      (hg12.room_subset hS hsub2 hroom)
    refine ⟨a, addr, σ3, _, hdo1.seq (hdo2.seq (hdo3.seq (Does.brelse (Does.brelse
      (Does.pure _ _))))), hat3, ?_⟩
    rw [Finset.union_empty, ← Finset.union_assoc]
    exact hg12.trans_subset hg3 hsub2
  rw [if_neg h3]
  have e3 : NDINDIRECT = 16384 := rfl
  have e4 : NTINDIRECT = 2097152 := rfl
  have h4 : bn - NDIRECT - NINDIRECT - NDINDIRECT < NTINDIRECT := by omega
  obtain ⟨j, d, t, hpath, hj, hd, ht⟩ := path_triple bn (by omega) (by omega)
  rw [if_pos h4, e1, e2, e3, hj, hd, ht]
  rw [hpath] at hroom ⊢
  dsimp only at hroom ⊢
  have hin : (shape sb).Inner (((ip.inum, 8), []) : Place) := ⟨hi, Nat.zero_lt_succ 2⟩
  have hin2 : (shape sb).Inner (((ip.inum, 8), [t]) : Place) :=
    ⟨hi, Nat.succ_lt_succ (Nat.zero_lt_succ 1)⟩
  have hin3 : (shape sb).Inner (((ip.inum, 8), [d, t]) : Place) := ⟨hi, Nat.lt_succ_self 2⟩
  have hS := upper_up (hin3.cons j)
  have hsub1 : up (ip.inum, 8) [] ⊆ up (ip.inum, 8) [t] := up_subset List.nil_suffix
  have hsub2 : up (ip.inum, 8) [t] ⊆ up (ip.inum, 8) [d, t] := up_subset (List.suffix_cons _ _)
  have hsub3 : up (ip.inum, 8) [d, t] ⊆ up (ip.inum, 8) [j, d, t] :=
    up_subset (List.suffix_cons _ _)
  obtain ⟨a, tbp, σ1, bs1, hdo1, hat1, h01, hg1⟩ :=
    slot_grows h hT hi (Nat.le_trans (need_mono (hsub1.trans (hsub2.trans hsub3))) hroom)
  have hroom1 := hg1.room_subset hS (hsub1.trans (hsub2.trans hsub3)) hroom
  obtain ⟨dbp, σ2, bs2, hdo2, hat2, h02, hg2⟩ := entry_grows hg1.consistent hin hat1 h01
    (Nat.le_trans (need_mono (hsub2.trans hsub3)) hroom1)
  have hg12 := hg1.trans_subset hg2 hsub1
  have hroom2 := hg12.room_subset hS (hsub2.trans hsub3) hroom
  obtain ⟨bp, σ3, bs3, hdo3, hat3, h03, hg3⟩ := entry_grows hg2.consistent hin2 hat2 h02
    (Nat.le_trans (need_mono hsub3) hroom2)
  have hg13 := hg12.trans_subset hg3 hsub2
  obtain ⟨addr, σ4, bs4, hdo4, hat4, -, hg4⟩ := entry_grows hg3.consistent hin3 hat3 h03
    (hg13.room_subset hS hsub3 hroom)
  refine ⟨a, addr, σ4, _, hdo1.seq (hdo2.seq (hdo3.seq (hdo4.seq (Does.brelse (Does.brelse
    (Does.brelse (Does.pure _ _))))))), hat4, ?_⟩
  rw [Finset.union_empty, ← Finset.union_assoc, ← Finset.union_assoc]
  exact hg13.trans_subset hg4 hsub3

/-! ### writei -/

/-- The places of the data blocks with the bytes from `off` to `off + r`. -/
def pieces (i off r : Nat) : Finset Place :=
  ((List.range r).map fun k => place i ((off + k) / BSIZE)).toFinset

/-- These places, and the ones above them. -/
def pieceTree (i off r : Nat) : Finset Place :=
  ((List.range r).flatMap fun k => branch i ((off + k) / BSIZE)).toFinset

variable {i off n : Nat}

theorem mem_pieces : p ∈ pieces i off n ↔ ∃ o, off ≤ o ∧ o < off + n ∧ p = place i (o / BSIZE) := by
  unfold pieces
  rw [List.mem_toFinset, List.mem_map]
  constructor
  · rintro ⟨k, hk, rfl⟩
    exact ⟨off + k, Nat.le_add_right _ _, by have := List.mem_range.mp hk; omega, rfl⟩
  · rintro ⟨o, ho, ho', rfl⟩
    exact ⟨o - off, List.mem_range.mpr (by omega), by rw [Nat.add_sub_cancel' ho]⟩

theorem mem_pieceTree :
    p ∈ pieceTree i off n ↔ ∃ o, off ≤ o ∧ o < off + n ∧ p ∈ branch i (o / BSIZE) := by
  unfold pieceTree
  rw [List.mem_toFinset, List.mem_flatMap]
  constructor
  · rintro ⟨k, hk, hp⟩
    exact ⟨off + k, Nat.le_add_right _ _, by have := List.mem_range.mp hk; omega, hp⟩
  · rintro ⟨o, ho, ho', hp⟩
    exact ⟨o - off, List.mem_range.mpr (by omega), by rw [Nat.add_sub_cancel' ho]; exact hp⟩

/-- The positions of a write of one byte or more. -/
theorem blocks_of_range {off n : Nat} (hn : 0 < n) (bn : Nat) :
    (∃ o, off ≤ o ∧ o < off + n ∧ bn = o / BSIZE) ↔
      bn ∈ List.range' (off / BSIZE) ((off + n - 1) / BSIZE + 1 - off / BSIZE) := by
  rw [List.mem_range'_1]
  constructor
  · rintro ⟨o, ho, ho', rfl⟩
    have h1 : off / BSIZE ≤ o / BSIZE := Nat.div_le_div_right ho
    have h2 : o / BSIZE ≤ (off + n - 1) / BSIZE := Nat.div_le_div_right (by omega)
    omega
  · rintro ⟨h1, h2⟩
    have hB := BSIZE_eq
    rw [hB] at h1 h2 ⊢
    by_cases hbn : bn * 512 < off
    · exact ⟨off, Nat.le_refl _, by omega, by omega⟩
    · exact ⟨bn * 512, by omega, by omega, by omega⟩

theorem pieceTree_eq {i off n : Nat} (hn : 0 < n) :
    pieceTree i off n = ((List.range' (off / BSIZE) ((off + n - 1) / BSIZE + 1 - off / BSIZE)).flatMap
      (branch i)).toFinset := by
  ext p
  rw [mem_pieceTree, List.mem_toFinset, List.mem_flatMap]
  constructor
  · rintro ⟨o, ho, ho', hp⟩
    exact ⟨_, (blocks_of_range hn _).mp ⟨o, ho, ho', rfl⟩, hp⟩
  · rintro ⟨bn, hbn, hp⟩
    obtain ⟨o, ho, ho', rfl⟩ := (blocks_of_range hn bn).mpr hbn
    exact ⟨o, ho, ho', hp⟩

theorem pieces_eq {i off n : Nat} (hn : 0 < n) :
    pieces i off n = ((List.range' (off / BSIZE) ((off + n - 1) / BSIZE + 1 - off / BSIZE)).map
      (place i)).toFinset := by
  ext p
  rw [mem_pieces, List.mem_toFinset, List.mem_map]
  constructor
  · rintro ⟨o, ho, ho', rfl⟩
    exact ⟨_, (blocks_of_range hn _).mp ⟨o, ho, ho', rfl⟩, rfl⟩
  · rintro ⟨bn, hbn, rfl⟩
    obtain ⟨o, ho, ho', rfl⟩ := (blocks_of_range hn bn).mpr hbn
    exact ⟨o, ho, ho', rfl⟩

theorem place_mem_branch (i bn : Nat) : place i bn ∈ branch i bn :=
  mem_branch_of_suffix (List.suffix_refl _)

theorem upper_branch (hi : i < sb.ninodes) (bn : Nat) : Upper sb (branch i bn).toFinset :=
  upper_up (leaf_place hi bn).valid

/-- The first piece is in one block. -/
theorem pieces_cons (i off : Nat) {m : Nat} (hm : 0 < m) (hmn : m ≤ n) (hfit : m ≤ BSIZE - off % BSIZE) :
    pieces i off n = insert (place i (off / BSIZE)) (pieces i (off + m) (n - m)) ∧
    pieceTree i off n = (branch i (off / BSIZE)).toFinset ∪ pieceTree i (off + m) (n - m) := by
  have hfit' : m ≤ 512 - off % 512 := hfit
  have hsame : ∀ o, off ≤ o → o < off + m → o / BSIZE = off / BSIZE := by
    intro o ho ho'
    show o / 512 = off / 512
    omega
  constructor
  · ext p
    rw [Finset.mem_insert, mem_pieces, mem_pieces]
    constructor
    · rintro ⟨o, ho, ho', rfl⟩
      by_cases hom : o < off + m
      · exact Or.inl (by rw [hsame o ho hom])
      · exact Or.inr ⟨o, by omega, by omega, rfl⟩
    · rintro (rfl | ⟨o, ho, ho', rfl⟩)
      · exact ⟨off, Nat.le_refl _, by omega, rfl⟩
      · exact ⟨o, by omega, by omega, rfl⟩
  · ext p
    rw [Finset.mem_union, List.mem_toFinset, mem_pieceTree, mem_pieceTree]
    constructor
    · rintro ⟨o, ho, ho', hp⟩
      by_cases hom : o < off + m
      · exact Or.inl (by rw [← hsame o ho hom]; exact hp)
      · exact Or.inr ⟨o, by omega, by omega, hp⟩
    · rintro (hp | ⟨o, ho, ho', hp⟩)
      · exact ⟨off, Nat.le_refl _, by omega, hp⟩
      · exact ⟨o, by omega, by omega, hp⟩

theorem upper_pieceTree (hi : i < sb.ninodes) (off n : Nat) : Upper sb (pieceTree i off n) where
  valid q hq := by
    obtain ⟨o, -, -, hq⟩ := mem_pieceTree.mp hq
    exact valid_of_mem_branch hi hq
  parent r j js hq := by
    obtain ⟨o, ho, ho', hq⟩ := mem_pieceTree.mp hq
    refine mem_pieceTree.mpr ⟨o, ho, ho', ?_⟩
    exact List.mem_toFinset.mp ((upper_branch hi _).parent r j js (List.mem_toFinset.mpr hq))

theorem grows_none (h : Consistent sb T σ) (hT : T ip.inum = ip.addrs) (hi : ip.inum < sb.ninodes)
    (off : Nat) : Grows sb (pieceTree ip.inum off 0) (pieces ip.inum off 0) T σ
      (Function.update T ip.inum ip.addrs) σ ∅ := by
  rw [← hT, Function.update_eq_self]
  exact Grows.refl (upper_pieceTree hi off 0) h fun q hq => absurd hq (Finset.notMem_empty q)

theorem writeLoop_grows (turns : Nat) (src : List Byte) (h : Consistent sb T σ)
    (hT : T ip.inum = ip.addrs) (hi : ip.inum < sb.ninodes) (hn : n ≤ turns)
    (hmax : off + n ≤ MAXFILE * BSIZE)
    (hroom : need (pieceTree ip.inum off n) T σ ≤ (freeList sb σ).length) :
    ∃ a τ bs, Does (writeLoop sb turns ip src off n) σ { ip with addrs := a } τ bs ∧
      Grows sb (pieceTree ip.inum off n) (pieces ip.inum off n) T σ (Function.update T ip.inum a)
        τ bs := by
  induction turns generalizing T σ ip src off n with
  | zero =>
    obtain rfl : n = 0 := Nat.le_zero.mp hn
    exact ⟨ip.addrs, σ, ∅, Does.pure _ _, grows_none h hT hi off⟩
  | succ turns ih =>
    unfold writeLoop
    by_cases hn0 : n = 0
    · subst hn0
      rw [if_pos rfl]
      exact ⟨ip.addrs, σ, ∅, Does.pure _ _, grows_none h hT hi off⟩
    rw [if_neg hn0]
    have hB := BSIZE_eq
    have hmax' : off + n ≤ MAXFILE * 512 := hmax
    have hbn : off / BSIZE < MAXFILE := by
      show off / 512 < MAXFILE
      omega
    have hlt := Nat.mod_lt off (show 0 < BSIZE by omega)
    generalize hm : min n (BSIZE - off % BSIZE) = m
    obtain ⟨hpieces, htree⟩ := pieces_cons ip.inum off (n := n) (m := m)
      (by omega) (by omega) (by omega)
    rw [htree] at hroom
    have hrest : Upper sb (pieceTree ip.inum (off + m) (n - m)) := upper_pieceTree hi _ _
    obtain ⟨a1, addr, σ1, bs1, hdo1, hat1, hg1⟩ :=
      bmap_grows h hT hi hbn (Nat.le_trans (need_mono Finset.subset_union_left) hroom)
    have hmem := List.mem_toFinset.mpr (place_mem_branch ip.inum (off / BSIZE))
    have hleaf : Leaf sb (place ip.inum (off / BSIZE)) := leaf_place hi _
    have hg2 := hg1.write hmem hleaf (patch (σ1 addr) (off % BSIZE) (src.take m))
    rw [hat1] at hg2
    generalize hσ2 : Function.update σ1 addr (patch (σ1 addr) (off % BSIZE) (src.take m)) = σ2
      at hg2
    obtain ⟨a, τ, bs, hdo, hg⟩ := @ih (Function.update T ip.inum a1) σ2
      { ip with addrs := a1 } (off + m) (n - m) (src.drop m) hg2.consistent
      (Function.update_self _ _ _) hi (by omega) (by omega) (hg2.room hrest hroom)
    dsimp only at hdo hg
    rw [Function.update_idem] at hg
    refine ⟨a, τ, _, hdo1.seq (Does.bread (Does.logWrite (Does.brelse (by rw [hσ2]; exact hdo)))), ?_⟩
    rw [hpieces, htree, Finset.union_insert, ← Finset.insert_union]
    have hg' := hg2.trans hg
    rw [Finset.insert_union, Finset.empty_union] at hg'
    exact hg'

end Xv6.Fs
