import Mathlib.Order.Interval.Finset.Nat
import Xv6.Fs.File

/-!
# The image without files (project3/mkfs.c)
-/

namespace Xv6.Fs
open Buffer Forest

/-- The bitmap block that `balloc(used)` of mkfs.c writes: the first `used` bits are set. -/
def usedBlock (used : Nat) : Block := fun k => BitVec.ofNat 8 (2 ^ (used - 8 * k) - 1)

variable (sb : Superblock)

/-- A disk of zeros where the blocks before the data are marked. -/
def blankImage : Contents := Function.update (fun _ _ => 0) sb.bmapstart (usedBlock sb.datastart)

def noAddrs : AddrTable := fun _ _ => 0

variable {sb}

theorem getBit_usedBlock {used i : Nat} (h : i < BPB) :
    getBit (usedBlock used) i = decide (i < used) := by
  have hi : i < 4096 := h
  have hB := BSIZE_eq
  unfold getBit
  rw [and_bitMask_ne_zero, byteAt, dif_pos (by omega)]
  unfold usedBlock
  rw [BitVec.getLsbD_ofNat, Nat.testBit_two_pow_sub_one]
  have hlt : i % 8 < 8 := Nat.mod_lt _ (by omega)
  simp only [hlt, decide_true, Bool.true_and]
  rw [decide_eq_decide]
  show i % 8 < used - 8 * (i / 8) ↔ i < used
  omega

theorem getBit_zero (i : Nat) : getBit (fun _ => 0 : Block) i = false := by
  unfold getBit byteAt
  split_ifs <;> simp

/-- mkfs.c asserts that the blocks it marks are those of one bitmap block. -/
theorem bit_blankImage (h : sb.datastart < BPB) (b : Nat) :
    bit sb (blankImage sb) b = decide (b < sb.datastart) := by
  have hB : BPB = 4096 := rfl
  unfold bit blankImage
  by_cases hb : sb.bblock b = sb.bmapstart
  · have hlt : b < BPB := by
      by_contra hge
      have hpos : 0 < b / BPB := Nat.div_pos (by omega) BPB_pos
      unfold Superblock.bblock at hb
      omega
    rw [hb, Function.update_self, Nat.mod_eq_of_lt hlt, getBit_usedBlock hlt]
  · rw [Function.update_of_ne hb, getBit_zero]
    have hge : ¬ b < sb.datastart := by
      intro hlt
      refine hb ?_
      unfold Superblock.bblock
      rw [Nat.div_eq_of_lt (by omega), Nat.zero_add]
    exact (decide_eq_false hge).symm

theorem blockAt_noAddrs (σ : Contents) (p : Place) : blockAt noAddrs σ p = 0 :=
  ref_of_root_zero rfl _

/-- Nothing but the meta data is marked. -/
theorem consistent_noAddrs {σ : Contents}
    (hbit : ∀ b, b < sb.size → bit sb σ b = decide (b < sb.datastart)) :
    Consistent sb noAddrs σ := by
  have hsize : sb.datastart ≤ sb.size := sb.bitmap_le
  refine ⟨⟨?_, ?_, ?_, ?_⟩, fun b hb => ?_⟩
  · rintro ⟨h0, -, -⟩
    have hpos := sb.datastart_pos
    omega
  · exact fun p _ h0 => absurd (blockAt_noAddrs _ p) h0
  · exact fun p _ _ _ h0 => absurd (blockAt_noAddrs _ p) h0
  · rintro a ⟨ha, hlt, hmark⟩
    rw [hbit a hlt, decide_eq_true_eq] at hmark
    omega
  · rw [hbit b (by omega)]
    exact decide_eq_true hb

theorem consistent_blankImage (h : sb.datastart < BPB) : Consistent sb noAddrs (blankImage sb) :=
  consistent_noAddrs fun b _ => bit_blankImage h b

theorem freeBlocks_blankImage (h : sb.datastart < BPB) :
    freeBlocks sb (blankImage sb) = sb.size - sb.datastart := by
  have heq : ((Finset.range sb.size).filter fun b => bit sb (blankImage sb) b = false)
      = Finset.Ico sb.datastart sb.size := by
    ext b
    rw [Finset.mem_filter, Finset.mem_range, Finset.mem_Ico, bit_blankImage h,
      decide_eq_false_iff_not]
    omega
  unfold freeBlocks
  rw [heq, Nat.card_Ico]

end Xv6.Fs
