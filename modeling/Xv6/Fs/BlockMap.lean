import Xv6.Fs.Contents

/-!
# The block map (project3/fs.c:373-480, bmap)

Calls of `bmap` for any positions of any inodes, one after the other. `BlockMap` is what they
leave: one map from positions to blocks, which only grows.
-/

namespace Xv6.Fs
open Buffer Forest

/-- The inodes in memory, by number. -/
abbrev Inodes := Nat → Inode

def Inodes.addrs (m : Inodes) : AddrTable := fun i => (m i).addrs

variable (sb : Superblock)

/-- `bmap` for position `c.2` of inode `c.1`, for each `c` of a list. -/
def bmaps (m : Inodes) : List (Nat × Nat) → Op (List Nat × Inodes)
  | [] => pure ([], m)
  | c :: cs => do
    let (addr, ip) ← bmap sb (m c.1) c.2
    let (addrs, m') ← bmaps (Function.update m c.1 ip) cs
    pure (addr :: addrs, m')

/-- The call of `bmap` returns `b` and changes nothing. -/
def MapsTo (m : Inodes) (σ : Contents) (i bn b : Nat) : Prop :=
  (bmap sb (m i) bn).exec σ = .ok ((b, m i), σ)

/-- The places that the calls look at. -/
def branches (cs : List (Nat × Nat)) : Finset Place :=
  (cs.flatMap fun c => branch c.1 c.2).toFinset

/-- The block map after the calls `cs`, which have returned `addrs`. -/
structure BlockMap (m : Inodes) (σ : Contents) (cs : List (Nat × Nat)) (addrs : List Nat)
    (m' : Inodes) (τ : Contents) : Prop where
  consistent : Consistent sb m'.addrs τ
  length : addrs.length = cs.length
  area : ∀ a ∈ addrs, a ≠ 0 ∧ sb.datastart ≤ a ∧ a < sb.size
  again : ∀ ca ∈ cs.zip addrs, MapsTo sb m' τ ca.1.1 ca.1.2 ca.2
  inj : ∀ ca ∈ cs.zip addrs, ∀ da ∈ cs.zip addrs, ca.2 = da.2 ↔ ca.1 = da.1
  keep : ∀ i bn b, i < sb.ninodes → bn < MAXFILE → MapsTo sb m σ i bn b →
    MapsTo sb m' τ i bn b ∧ τ b = σ b
  -- an indirect block that is new leads to the positions of the calls, and is 0 elsewhere
  zero : ∀ r js, (shape sb).Inner (r, js) → blockAt m.addrs σ (r, js) = 0 →
    blockAt m'.addrs τ (r, js) ≠ 0 → ∀ j : Fin 128, (r, j :: js) ∉ branches cs →
      getWord (τ (blockAt m'.addrs τ (r, js))) (4 * j) = 0
  others : ∀ i, m' i = { m i with addrs := (m' i).addrs } ∧ ((∀ c ∈ cs, c.1 ≠ i) → m' i = m i)

variable {sb} {S : Finset Place} {m : Inodes} {σ τ : Contents}

theorem addrs_update (m : Inodes) (i : Nat) (ip : Inode) :
    Inodes.addrs (Function.update m i ip) = Function.update m.addrs i ip.addrs := by
  funext j
  unfold Inodes.addrs
  by_cases hj : j = i
  · rw [hj, Function.update_self, Function.update_self]
  · rw [Function.update_of_ne hj, Function.update_of_ne hj]

/-- What the calls return and leave. -/
structure MappedAll (sb : Superblock) (S : Finset Place) (m : Inodes) (σ : Contents)
    (cs : List (Nat × Nat)) (r : List Nat × Inodes) (τ : Contents) : Prop where
  ext : Extends sb S (fun _ _ => False) m.addrs σ r.2.addrs τ
  length : r.1.length = cs.length
  at_place : ∀ ca ∈ cs.zip r.1, blockAt r.2.addrs τ (place ca.1.1 ca.1.2) = ca.2 ∧ ca.2 ≠ 0
  others : ∀ i, r.2 i = { m i with addrs := (r.2 i).addrs } ∧
    ((∀ c ∈ cs, c.1 ≠ i) → r.2 i = m i)

theorem bmaps_spec (cs : List (Nat × Nat)) (h : Consistent sb m.addrs σ)
    (hm : ∀ i, (m i).inum = i) (hS : ∀ p ∈ S, (shape sb).Valid p)
    (hcs : ∀ c ∈ cs, c.1 < sb.ninodes ∧ c.2 < MAXFILE ∧ ∀ p ∈ branch c.1 c.2, p ∈ S)
    (hroom : need S m.addrs σ ≤ freeBlocks sb σ) :
    (bmaps sb m cs).wp (fun _ => False) sb.Logged (MappedAll sb S m σ cs) σ := by
  induction cs generalizing m σ with
  | nil =>
    refine wp_pure ⟨Extends.refl h, rfl, ?_, fun i => ⟨rfl, fun _ => rfl⟩⟩
    intro ca hca
    cases hca
  | cons c cs ih =>
    obtain ⟨hi, hbn, hbr⟩ := hcs c List.mem_cons_self
    have hinum := hm c.1
    have hspec := @bmap_spec _ c.2 _ (fun _ _ => False) _ _ (fun _ => False) (m c.1)
      h (by rw [hinum]; rfl) (by rw [hinum]; exact hi) hS (by rw [hinum]; exact hbr) hbn
      (Or.inr hroom)
    rw [hinum] at hspec
    refine wp_seq hspec ?_
    rintro ⟨addr, ip⟩ σ1 hmapped
    have hext := hmapped.ext
    have hplace := hmapped.at_place
    have hip : ip = { m c.1 with addrs := ip.addrs } := hmapped.inode
    rw [hinum, ← addrs_update] at hext hplace
    have hm1 : ∀ i, (Function.update m c.1 ip i).inum = i := by
      intro i
      by_cases hic : i = c.1
      · rw [hic, Function.update_self, hip]
        exact hinum
      · rw [Function.update_of_ne hic]
        exact hm i
    refine wp_seq (ih hext.consistent hm1 (fun d hd => hcs d (List.mem_cons_of_mem _ hd))
      (hext.room hroom)) ?_
    rintro ⟨addrs, m'⟩ τ hall
    refine wp_pure ⟨hext.trans hall.ext, congrArg Nat.succ hall.length, ?_, ?_⟩
    · intro ca hca
      rcases List.mem_cons.mp hca with rfl | hrest
      · have hkeep := hall.ext.keep _ (leaf_place hi c.2).valid (by
          rw [hplace]
          exact hmapped.ne_zero)
        exact ⟨hkeep.trans hplace, hmapped.ne_zero⟩
      · exact hall.at_place ca hrest
    · intro i
      obtain ⟨hframe, hsame⟩ := hall.others i
      dsimp only at hframe hsame ⊢
      constructor
      · rw [hframe]
        by_cases hic : i = c.1
        · rw [hic, Function.update_self, hip]
        · rw [Function.update_of_ne hic]
      · intro hnot
        have hne : i ≠ c.1 := fun hic => hnot c List.mem_cons_self hic.symm
        rw [hsame fun d hd => hnot d (List.mem_cons_of_mem _ hd), Function.update_of_ne hne]

theorem mapsTo_of_blockAt {i bn : Nat} (hm : ∀ i, (m i).inum = i) (hbn : bn < MAXFILE)
    (h0 : blockAt m.addrs σ (place i bn) ≠ 0) :
    MapsTo sb m σ i bn (blockAt m.addrs σ (place i bn)) := by
  have hfound := @bmap_found sb σ (fun _ => False) (fun _ => True) m.addrs (m i)
    (by rw [hm]; rfl) bn hbn (by rw [hm]; exact h0)
  obtain ⟨r, τ, hexec, rfl, rfl⟩ := wp_total hfound
  rw [hm] at hexec
  exact hexec

/-- A position is mapped only if its place has the block. -/
theorem MapsTo.blockAt_eq {i bn b : Nat} (h : Consistent sb m.addrs σ) (hm : ∀ i, (m i).inum = i)
    (hi : i < sb.ninodes) (hbn : bn < MAXFILE) (hmap : MapsTo sb m σ i bn b) :
    blockAt m.addrs σ (place i bn) = b ∧ b ≠ 0 := by
  have hinum := hm i
  have hspec := @bmap_spec _ bn (branches [(i, bn)]) (fun _ _ => False) _ _
    (fun e => e = .outOfBlocks) (m i) h (by rw [hinum]; rfl)
    (by rw [hinum]; exact hi) ?_ ?_ hbn (Or.inl rfl)
  · have hres := wp_result hspec hmap
    have hplace := hres.at_place
    dsimp only at hplace
    have hself : Function.update m.addrs (m i).inum (m i).addrs = m.addrs := by
      rw [hinum]
      exact Function.update_eq_self i m.addrs
    rw [hself, hinum] at hplace
    exact ⟨hplace, hres.ne_zero⟩
  · intro p hp
    unfold branches at hp
    rw [List.mem_toFinset, List.flatMap_singleton] at hp
    exact valid_of_mem_branch hi hp
  · intro p hp
    unfold branches
    rw [List.mem_toFinset, List.flatMap_singleton, ← hinum]
    exact hp

/-- With enough free blocks, the calls return blocks of the data area, one for each position; a
call for a mapped position changes nothing. -/
theorem bmaps_blockMap {cs : List (Nat × Nat)} (h : Consistent sb m.addrs σ)
    (hm : ∀ i, (m i).inum = i) (hcs : ∀ c ∈ cs, c.1 < sb.ninodes ∧ c.2 < MAXFILE)
    (hroom : need (branches cs) m.addrs σ ≤ freeBlocks sb σ) :
    ∃ addrs m' τ, (bmaps sb m cs).exec σ = .ok ((addrs, m'), τ) ∧
      BlockMap sb m σ cs addrs m' τ := by
  have hmem : ∀ p : Place, p ∈ branches cs ↔ ∃ c ∈ cs, p ∈ branch c.1 c.2 := by
    intro p
    unfold branches
    rw [List.mem_toFinset, List.mem_flatMap]
  have hspec := bmaps_spec cs h hm (S := branches cs) ?_ ?_ hroom
  · obtain ⟨⟨addrs, m'⟩, τ, hexec, hext, hlength, hplaces, hothers⟩ := wp_total hspec
    dsimp only at hext hlength hplaces hothers
    have hm' : ∀ i, (m' i).inum = i := by
      intro i
      have hframe : (m' i).inum = (m i).inum := by
        rw [(hothers i).1]
      rw [hframe, hm]
    have hleaf : ∀ ca ∈ cs.zip addrs, Leaf sb (place ca.1.1 ca.1.2) ∧ ca.1.2 < MAXFILE := by
      intro ca hca
      obtain ⟨hi, hbn⟩ := hcs ca.1 (List.of_mem_zip hca).1
      exact ⟨leaf_place hi _, hbn⟩
    have hkeep : ∀ i bn b, i < sb.ninodes → bn < MAXFILE → MapsTo sb m σ i bn b →
        blockAt m.addrs σ (place i bn) = b ∧ blockAt m'.addrs τ (place i bn) = b ∧ b ≠ 0 := by
      intro i bn b hi hbn hmap
      obtain ⟨hb, h0⟩ := hmap.blockAt_eq h hm hi hbn
      have hold := hext.keep _ (leaf_place hi bn).valid (by rw [hb]; exact h0)
      exact ⟨hb, hold.trans hb, h0⟩
    refine ⟨addrs, m', τ, hexec, hext.consistent, hlength, ?_, ?_, ?_, ?_, ?_, hothers⟩
    · intro a ha
      have hzip : ∃ c, (c, a) ∈ cs.zip addrs := by
        obtain ⟨n, hn, rfl⟩ := List.getElem_of_mem ha
        have hlt : n < (cs.zip addrs).length := by
          rw [List.length_zip]
          omega
        have hmem' := List.getElem_mem hlt
        rw [List.getElem_zip] at hmem'
        exact ⟨_, hmem'⟩
      obtain ⟨c, hca⟩ := hzip
      obtain ⟨hat, h0⟩ := hplaces _ hca
      have hlive := hext.consistent.live (hleaf _ hca).1.valid (by rw [hat]; exact h0)
      rw [hat] at hlive
      exact ⟨h0, hlive.1, hlive.2.1⟩
    · intro ca hca
      obtain ⟨hat, h0⟩ := hplaces ca hca
      rw [← hat]
      exact mapsTo_of_blockAt hm' (hleaf ca hca).2 (by rw [hat]; exact h0)
    · intro ca hca da hda
      obtain ⟨hat, h0⟩ := hplaces ca hca
      obtain ⟨hat', -⟩ := hplaces da hda
      constructor
      · intro heq
        have hplace := hext.consistent.owns.uniq _ _ (hleaf ca hca).1.valid
          (hleaf da hda).1.valid (fun hz => h0 (hat.symm.trans hz))
          (hat.trans (heq.trans hat'.symm))
        obtain ⟨h1, h2⟩ := place_inj (hleaf ca hca).2 (hleaf da hda).2 hplace
        exact Prod.ext h1 h2
      · intro heq
        rw [← hat, ← hat', heq]
    · intro i bn b hi hbn hmap
      obtain ⟨hold, hnew, h0⟩ := hkeep i bn b hi hbn hmap
      refine ⟨?_, ?_⟩
      · rw [← hnew]
        exact mapsTo_of_blockAt hm' hbn (by rw [hnew]; exact h0)
      · funext k
        have hdata := hext.data _ (leaf_place hi bn) (by rw [hold]; exact h0) k id
        rw [hold, byteAt_eq, byteAt_eq] at hdata
        exact hdata
    · intro r js hin hz hne j hj
      have hchild : blockAt m'.addrs τ (r, j :: js) =
          (getWord (τ (blockAt m'.addrs τ (r, js))) (4 * j)).toNat := by
        show (forest m'.addrs τ).ref r (j :: js) = _
        rw [ref_cons hne]
        rfl
      by_contra hword
      have hnew := hext.fresh (r, j :: js) (hin.cons j) (ref_cons_zero hz) (by
        rw [hchild]
        exact fun h0 => hword (toNat_eq_zero.mp h0))
      exact hj hnew
  · intro p hp
    obtain ⟨c, hc, hbr⟩ := (hmem p).mp hp
    exact valid_of_mem_branch (hcs c hc).1 hbr
  · intro c hc
    exact ⟨(hcs c hc).1, (hcs c hc).2, fun p hp => (hmem p).mpr ⟨c, hc, hp⟩⟩

/-- Inodes without blocks. -/
def newInodes : Inodes := fun i => { newFile with inum := i }

theorem bmaps_blockMap_blank : ∃ addrs m' τ,
    (bmaps Superblock.mkfs newInodes [(2, 0), (3, 20000), (2, 0)]).exec
      (blankImage Superblock.mkfs) = .ok ((addrs, m'), τ) ∧
    BlockMap Superblock.mkfs newInodes (blankImage Superblock.mkfs) [(2, 0), (3, 20000), (2, 0)]
      addrs m' τ := by
  apply bmaps_blockMap (consistent_blankImage (by decide)) (fun _ => rfl) (by decide)
  rw [freeBlocks_blankImage (by decide)]
  refine Nat.le_trans (Finset.card_filter_le _ _) ?_
  exact Nat.le_trans (List.toFinset_card_le _) (by decide)

end Xv6.Fs
