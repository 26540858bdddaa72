import Mathlib.Data.Finset.Card
import Mathlib.Data.Finset.Filter
import Mathlib.Data.Finset.Range
import Xv6.Fs.Alloc
import Xv6.Lib.Forest

/-!
# Block ownership

The blocks of the data area form a forest: the roots are the `addrs` slots of the
inodes, and an indirect block has 128 children. `Consistent` says that the blocks
marked in the free map are those of the forest, each at one place, and the blocks
of the meta data. `T` gives the `addrs` of each inode.
-/

namespace Xv6.Fs
open Buffer Forest

/-- A slot of an inode, with the indices that lead to a block below it. -/
abbrev Place := (Nat × Fin 9) × List (Fin 128)

abbrev AddrTable := Nat → Fin 9 → BitVec 32

def forest (T : AddrTable) (σ : Contents) : Forest (Nat × Fin 9) (Fin 128) Nat where
  root r := (T r.1 r.2).toNat
  child w j := (getWord (σ w) (4 * j)).toNat

theorem forest_child (T : AddrTable) (σ : Contents) (w : Nat) (j : Fin 128) :
    (forest T σ).child w j = (getWord (σ w) (4 * j)).toNat := rfl

theorem forest_root (T : AddrTable) (σ σ' : Contents) (r : Nat × Fin 9) :
    (forest T σ').root r = (forest T σ).root r := rfl

/-- Slots 0 to 5 are direct, the others lead over one, two and three indirect blocks. -/
def shape (sb : Superblock) : Shape (Nat × Fin 9) where
  dom r := r.1 < sb.ninodes
  height r := r.2 - 5

/-- The block number at a place, 0 for none. -/
abbrev blockAt (T : AddrTable) (σ : Contents) (p : Place) : Nat := (forest T σ).ref p.1 p.2

/-- A data block in use. -/
def Live (sb : Superblock) (σ : Contents) (b : Nat) : Prop :=
  sb.datastart ≤ b ∧ b < sb.size ∧ bit sb σ b = true

structure Consistent (sb : Superblock) (T : AddrTable) (σ : Contents) : Prop where
  owns : Owns (shape sb) (forest T σ) (Live sb σ)
  marked : ∀ b, b < sb.datastart → bit sb σ b = true

/-- The places of data blocks. -/
def Leaf (sb : Superblock) (p : Place) : Prop :=
  p.1.1 < sb.ninodes ∧ p.2.length = p.1.2 - 5

/-- How many of the places have no block. -/
def need (S : Finset Place) (T : AddrTable) (σ : Contents) : Nat :=
  (S.filter fun p => blockAt T σ p = 0).card

def freeBlocks (sb : Superblock) (σ : Contents) : Nat :=
  ((Finset.range sb.size).filter fun b => bit sb σ b = false).card

variable {sb : Superblock} {S : Finset Place} {D : Place → Nat → Prop} {T T' T'' : AddrTable} {σ σ' σ'' : Contents}

theorem Leaf.valid {p : Place} (h : Leaf sb p) : (shape sb).Valid p := ⟨h.1, Nat.le_of_eq h.2⟩

theorem Leaf.not_inner {p : Place} (h : Leaf sb p) : ¬ (shape sb).Inner p :=
  fun hin => absurd h.2 (Nat.ne_of_lt hin.2)

theorem Consistent.live (h : Consistent sb T σ) {p : Place} (hp : (shape sb).Valid p)
    (h0 : blockAt T σ p ≠ 0) : Live sb σ (blockAt T σ p) := h.owns.used p hp h0

/-! ### Changes beside the map -/

/-- `σ'` has the free map and the indirect blocks of `σ`. -/
structure SameMap (sb : Superblock) (T : AddrTable) (σ σ' : Contents) : Prop where
  map : ∀ b, sb.bmapstart ≤ b → b < sb.datastart → σ' b = σ b
  inner : ∀ q, (shape sb).Inner q → blockAt T σ q ≠ 0 → σ' (blockAt T σ q) = σ (blockAt T σ q)

namespace SameMap

theorem bit_eq (h : SameMap sb T σ σ') {b : Nat} (hb : b < sb.size) : bit sb σ' b = bit sb σ b :=
  bit_congr (h.map _ (Superblock.bmapstart_le_bblock b) (Superblock.bblock_lt hb))

theorem live_iff (h : SameMap sb T σ σ') (b : Nat) : Live sb σ' b ↔ Live sb σ b := by
  unfold Live
  refine and_congr_right fun _ => and_congr_right fun hb => ?_
  rw [h.bit_eq hb]

theorem child (h : SameMap sb T σ σ') (r : Nat × Fin 9) (js : List (Fin 128))
    (hin : (shape sb).Inner (r, js)) (h0 : (forest T σ).ref r js ≠ 0) (j : Fin 128) :
    (forest T σ').child ((forest T σ).ref r js) j
      = (forest T σ).child ((forest T σ).ref r js) j := by
  have hb := h.inner (r, js) hin h0
  rw [forest_child, forest_child, hb]

theorem blockAt_eq (h : SameMap sb T σ σ') {p : Place} (hp : (shape sb).Valid p) :
    blockAt T σ' p = blockAt T σ p :=
  ref_congr (forest_root T σ σ' p.1) (fun js hin h0 j => h.child p.1 js hin h0 j) hp

theorem consistent (h : SameMap sb T σ σ') (hc : Consistent sb T σ) : Consistent sb T σ' := by
  refine ⟨?_, fun b hb => ?_⟩
  · exact (hc.owns.congr (fun r _ => forest_root T σ σ' r) h.child).congr_live h.live_iff
  · have h1 : sb.datastart ≤ sb.size := sb.bitmap_le
    rw [h.bit_eq (by omega)]
    exact hc.marked b hb

theorem freeBlocks_eq (h : SameMap sb T σ σ') : freeBlocks sb σ' = freeBlocks sb σ := by
  unfold freeBlocks
  congr 1
  refine Finset.filter_congr fun b hb => ?_
  rw [h.bit_eq (Finset.mem_range.mp hb)]

theorem need_eq (h : SameMap sb T σ σ') (hS : ∀ p ∈ S, (shape sb).Valid p) :
    need S T σ' = need S T σ := by
  unfold need
  congr 1
  refine Finset.filter_congr fun p hp => ?_
  rw [h.blockAt_eq (hS p hp)]

end SameMap

/-- Overwriting a data block leaves the map alone. -/
theorem Consistent.sameMap_leaf (h : Consistent sb T σ) {p : Place} (hp : Leaf sb p)
    (h0 : blockAt T σ p ≠ 0) (v : Block) :
    SameMap sb T σ (Function.update σ (blockAt T σ p) v) := by
  have hlive := h.live hp.valid h0
  refine ⟨fun b _ hb => ?_, fun q hq hq0 => ?_⟩
  · have hle := hlive.1
    exact Function.update_of_ne (by omega) _ _
  · refine Function.update_of_ne ?_ _ _
    refine h.owns.ref_ne hq.valid hp.valid hq0 ?_
    rintro rfl
    exact hp.not_inner hq

/-- A change of the blocks below the free map leaves the map alone. -/
theorem Consistent.sameMap_low (h : Consistent sb T σ)
    (hlow : ∀ b, sb.bmapstart ≤ b → σ' b = σ b) : SameMap sb T σ σ' := by
  refine ⟨fun b hb _ => hlow b hb, fun q hq h0 => hlow _ ?_⟩
  have hlive := h.live hq.valid h0
  have hlt := sb.bmapstart_lt_datastart
  have hle := hlive.1
  omega

/-! ### Allocation -/

/-- `(T', σ')` has the blocks of `(T, σ)`, with the same data but for the bytes in `D`,
and new ones at some of the places in `S`. -/
structure Extends (sb : Superblock) (S : Finset Place) (D : Place → Nat → Prop) (T : AddrTable)
    (σ : Contents) (T' : AddrTable) (σ' : Contents) : Prop where
  consistent : Consistent sb T' σ'
  keep : ∀ p, (shape sb).Valid p → blockAt T σ p ≠ 0 → blockAt T' σ' p = blockAt T σ p
  fresh : ∀ p, (shape sb).Valid p → blockAt T σ p = 0 → blockAt T' σ' p ≠ 0 → p ∈ S
  data : ∀ p, Leaf sb p → blockAt T σ p ≠ 0 → ∀ k, ¬ D p k →
    byteAt (σ' (blockAt T σ p)) k = byteAt (σ (blockAt T σ p)) k
  low : ∀ b, b < sb.bmapstart → σ' b = σ b
  room : need S T σ ≤ freeBlocks sb σ → need S T' σ' ≤ freeBlocks sb σ'

theorem Extends.refl (h : Consistent sb T σ) : Extends sb S D T σ T σ where
  consistent := h
  keep _ _ _ := rfl
  fresh _ _ h0 hne := absurd h0 hne
  data _ _ _ _ _ := rfl
  low _ _ := rfl
  room := id

theorem Extends.trans (h : Extends sb S D T σ T' σ') (h' : Extends sb S D T' σ' T'' σ'') :
    Extends sb S D T σ T'' σ'' where
  consistent := h'.consistent
  keep p hp h0 := by
    have hk := h.keep p hp h0
    rw [h'.keep p hp (by rw [hk]; exact h0), hk]
  fresh p hp h0 hne := by
    by_cases h1 : blockAt T' σ' p = 0
    · exact h'.fresh p hp h1 hne
    · exact h.fresh p hp h0 h1
  data p hp h0 k hk := by
    have hkeep := h.keep p hp.valid h0
    have hd := h'.data p hp (by rw [hkeep]; exact h0) k hk
    rw [hkeep] at hd
    rw [hd, h.data p hp h0 k hk]
  low b hb := by rw [h'.low b hb, h.low b hb]
  room hroom := h'.room (h.room hroom)

theorem Extends.mono {D' : Place → Nat → Prop} (h : Extends sb S D T σ T' σ')
    (hD : ∀ p k, D p k → D' p k) : Extends sb S D' T σ T' σ' :=
  { h with data := fun p hp h0 k hk => h.data p hp h0 k fun hd => hk (hD p k hd) }

/-- Overwriting some bytes of a data block. -/
theorem Consistent.extends_leaf (h : Consistent sb T σ) {p : Place} (hp : Leaf sb p)
    (h0 : blockAt T σ p ≠ 0) (hS : ∀ q ∈ S, (shape sb).Valid q) {v : Block}
    (hv : ∀ k, ¬ D p k → byteAt v k = byteAt (σ (blockAt T σ p)) k) :
    Extends sb S D T σ T (Function.update σ (blockAt T σ p) v) := by
  have hmap := h.sameMap_leaf hp h0 v
  have hlive := h.live hp.valid h0
  refine ⟨hmap.consistent h, fun q hq _ => hmap.blockAt_eq hq, ?_, ?_, ?_, ?_⟩
  · intro q hq hq0 hne
    rw [hmap.blockAt_eq hq] at hne
    exact absurd hq0 hne
  · intro q hq hq0 k hk
    by_cases hpq : q = p
    · rw [hpq, Function.update_self]
      exact hv k (hpq ▸ hk)
    · rw [Function.update_of_ne (h.owns.ref_ne hq.valid hp.valid hq0 hpq)]
  · intro b hb
    have h1 := sb.bmapstart_lt_datastart
    have h2 := hlive.1
    exact Function.update_of_ne (by omega) _ _
  · rw [hmap.need_eq hS, hmap.freeBlocks_eq]
    exact id

section Alloc

variable {q : Place} {x : Nat}

/-- After `balloc` the new block is in use and the blocks in use before are unchanged. -/
theorem live_allocated (hx : sb.datastart ≤ x) (hxs : x < sb.size) (b : Nat) :
    Live sb (allocated sb σ x) b ↔ Live sb σ b ∨ b = x := by
  unfold Live
  constructor
  · rintro ⟨hb, hbs, hbit⟩
    rw [bit_allocated hx hbs, Bool.or_eq_true, decide_eq_true_eq] at hbit
    exact hbit.imp_left fun h => ⟨hb, hbs, h⟩
  · rintro (⟨hb, hbs, hbit⟩ | rfl)
    · refine ⟨hb, hbs, ?_⟩
      rw [bit_allocated hx hbs, hbit, Bool.true_or]
    · refine ⟨hx, hxs, ?_⟩
      rw [bit_allocated hx hxs]
      simp

theorem Consistent.allocated_eq (h : Consistent sb T σ) (hxs : x < sb.size)
    (hfree : bit sb σ x = false) {p : Place} (hp : (shape sb).Valid p) (h0 : blockAt T σ p ≠ 0) :
    blockAt T σ p ≠ x ∧ allocated sb σ x (blockAt T σ p) = σ (blockAt T σ p) := by
  have hlive := h.live hp h0
  have hne : blockAt T σ p ≠ x := by
    intro heq
    have hbit := hlive.2.2
    rw [heq, hfree] at hbit
    cases hbit
  exact ⟨hne, allocated_data hxs hlive.1 hne⟩

theorem freeBlocks_allocated (hx : sb.datastart ≤ x) (hxs : x < sb.size)
    (hfree : bit sb σ x = false) : freeBlocks sb (allocated sb σ x) + 1 = freeBlocks sb σ := by
  have hmem : x ∈ (Finset.range sb.size).filter fun b => bit sb σ b = false :=
    Finset.mem_filter.mpr ⟨Finset.mem_range.mpr hxs, hfree⟩
  have heq : ((Finset.range sb.size).filter fun b => bit sb (allocated sb σ x) b = false)
      = ((Finset.range sb.size).filter fun b => bit sb σ b = false).erase x := by
    ext b
    rw [Finset.mem_erase, Finset.mem_filter, Finset.mem_filter, Finset.mem_range]
    constructor
    · rintro ⟨hb, hbit⟩
      rw [bit_allocated hx hb, Bool.or_eq_false_iff, decide_eq_false_iff_not] at hbit
      exact ⟨hbit.2, hb, hbit.1⟩
    · rintro ⟨hne, hb, hbit⟩
      rw [bit_allocated hx hb, hbit]
      exact ⟨hb, by simp [hne]⟩
  unfold freeBlocks
  rw [heq, Finset.card_erase_add_one hmem]

/-- A block from `balloc` is hung at an empty place: into the slot of an inode, or into
an entry of an indirect block. -/
theorem Consistent.extend (h : Consistent sb T σ) (hx : sb.datastart ≤ x) (hxs : x < sb.size)
    (hfree : bit sb σ x = false) (hq : (shape sb).Valid q) (hqS : q ∈ S)
    (hS : ∀ p ∈ S, (shape sb).Valid p)
    (hmap : ∀ b, sb.bmapstart ≤ b → b < sb.datastart → σ' b = allocated sb σ x b)
    (hlow : ∀ b, b < sb.bmapstart → σ' b = σ b)
    (hdata : ∀ p, Leaf sb p → blockAt T σ p ≠ 0 → σ' (blockAt T σ p) = σ (blockAt T σ p))
    (hg : Grafted (shape sb) (forest T σ) (forest T' σ') q x) :
    Extends sb S D T σ T' σ' ∧ blockAt T' σ' q = x := by
  have hbit : ∀ b, b < sb.size → bit sb σ' b = bit sb (allocated sb σ x) b := fun b hb =>
    bit_congr (hmap _ (Superblock.bmapstart_le_bblock b) (Superblock.bblock_lt hb))
  have hlive : ∀ b, Live sb σ' b ↔ Live sb σ b ∨ b = x := by
    intro b
    rw [← live_allocated hx hxs]
    unfold Live
    refine and_congr_right fun _ => and_congr_right fun hb => ?_
    rw [hbit b hb]
  have hnlive : ¬ Live sb σ x := by
    rintro ⟨-, -, hb⟩
    rw [hfree] at hb
    cases hb
  have hself : blockAt T' σ' q = x := (hg.ref hq).1 rfl
  have hother : ∀ p : Place, (shape sb).Valid p → q ≠ p → blockAt T' σ' p = blockAt T σ p :=
    fun p hp hne => (hg.ref hp).2 hne
  refine ⟨⟨⟨h.owns.graft hq hg hnlive hlive, fun b hb => ?_⟩, ?_, ?_, ?_, hlow, ?_⟩, hself⟩
  · have h1 : sb.datastart ≤ sb.size := sb.bitmap_le
    rw [hbit b (by omega), bit_allocated hx (by omega), h.marked b hb, Bool.true_or]
  · intro p hp h0
    refine hother p hp ?_
    rintro rfl
    exact h0 hg.empty
  · intro p hp h0 hne
    by_cases hpq : q = p
    · exact hpq ▸ hqS
    · rw [hother p hp hpq] at hne
      exact absurd h0 hne
  · intro p hp h0 k _
    rw [hdata p hp h0]
  · intro hroom
    have hneed : need S T' σ' + 1 = need S T σ := by
      have hmem : q ∈ S.filter fun p => blockAt T σ p = 0 :=
        Finset.mem_filter.mpr ⟨hqS, hg.empty⟩
      have heq : (S.filter fun p => blockAt T' σ' p = 0)
          = (S.filter fun p => blockAt T σ p = 0).erase q := by
        ext p
        rw [Finset.mem_erase, Finset.mem_filter, Finset.mem_filter]
        constructor
        · rintro ⟨hp, h0⟩
          have hne : q ≠ p := by
            rintro rfl
            exact hg.ne_zero (hself.symm.trans h0)
          rw [hother p (hS p hp) hne] at h0
          exact ⟨hne.symm, hp, h0⟩
        · rintro ⟨hne, hp, h0⟩
          rw [hother p (hS p hp) hne.symm]
          exact ⟨hp, h0⟩
      unfold need
      rw [heq, Finset.card_erase_add_one hmem]
    have hcount : freeBlocks sb σ' = freeBlocks sb (allocated sb σ x) := by
      unfold freeBlocks
      congr 1
      refine Finset.filter_congr fun b hb => ?_
      rw [hbit b (Finset.mem_range.mp hb)]
    have h1 := freeBlocks_allocated hx hxs hfree
    omega

end Alloc

end Xv6.Fs
