import Mathlib.Algebra.Order.Ring.Nat
import Xv6.Fs.Op

/-!
# Layout of the disk (project3/fs.h)

`[boot block | super block | log | inode blocks | free bit map | data blocks]`
-/

namespace Xv6.Fs
open Disk Buffer

def ROOTINO : Nat := 1

def NDIRECT : Nat := 6
def NINDIRECT : Nat := BSIZE / 4
def NDINDIRECT : Nat := NINDIRECT * NINDIRECT
def NTINDIRECT : Nat := NINDIRECT * NINDIRECT * NINDIRECT
def MAXFILE : Nat := NDIRECT + NINDIRECT + NDINDIRECT + NTINDIRECT

/-- Inodes per block. -/
def IPB : Nat := BSIZE / 64

/-- Bitmap bits per block. -/
def BPB : Nat := BSIZE * 8

/-- `struct superblock`, with the areas in the order of the layout. -/
structure Superblock where
  size : Nat
  nblocks : Nat
  ninodes : Nat
  nlog : Nat
  logstart : Nat
  inodestart : Nat
  bmapstart : Nat
  nlog_pos : 0 < nlog
  log_le : logstart + nlog ≤ inodestart
  inodes_le : inodestart + (ninodes / IPB + 1) ≤ bmapstart
  bitmap_le : bmapstart + (size / BPB + 1) ≤ size
  size_le : size ≤ FSSIZE

namespace Superblock

variable (sb : Superblock)

/-- Block containing inode `i`. -/
def iblock (i : Nat) : Nat := i / IPB + sb.inodestart

/-- Block of the free map containing the bit for block `b`. -/
def bblock (b : Nat) : Nat := b / BPB + sb.bmapstart

/-- The first data block. -/
def datastart : Nat := sb.bmapstart + (sb.size / BPB + 1)

/-- The blocks that the log is for. -/
def Logged (b : Nat) : Prop := sb.inodestart ≤ b

theorem inodestart_lt_bmapstart : sb.inodestart < sb.bmapstart :=
  Nat.lt_of_lt_of_le (Nat.lt_add_of_pos_right (Nat.succ_pos _)) sb.inodes_le

theorem bmapstart_lt_datastart : sb.bmapstart < sb.datastart :=
  Nat.lt_add_of_pos_right (Nat.succ_pos _)

def area : Area where
  start := sb.logstart
  size := sb.nlog
  pos := sb.nlog_pos
  fits := by
    have h1 := sb.log_le
    have h2 := sb.inodestart_lt_bmapstart
    have h3 : sb.datastart ≤ sb.size := sb.bitmap_le
    have h4 := sb.bmapstart_lt_datastart
    have h5 := sb.size_le
    omega

variable {sb}

theorem home_of_logged {b : Nat} (h : sb.Logged b) : sb.area.Home b :=
  Or.inr (Nat.le_trans sb.log_le h)

theorem iblock_lt {i : Nat} (h : i < sb.ninodes) : sb.iblock i < sb.bmapstart := by
  have h1 := sb.inodes_le
  have h2 : i / IPB ≤ sb.ninodes / IPB := Nat.div_le_div_right (Nat.le_of_lt h)
  unfold iblock
  omega

theorem logged_iblock (i : Nat) : sb.Logged (sb.iblock i) := Nat.le_add_left _ _

theorem bblock_lt {b : Nat} (h : b < sb.size) : sb.bblock b < sb.datastart := by
  have h2 : b / BPB ≤ sb.size / BPB := Nat.div_le_div_right (Nat.le_of_lt h)
  unfold bblock datastart
  omega

theorem bmapstart_le_bblock (b : Nat) : sb.bmapstart ≤ sb.bblock b := Nat.le_add_left _ _

theorem logged_of_bmapstart {b : Nat} (h : sb.bmapstart ≤ b) : sb.Logged b :=
  Nat.le_trans (Nat.le_of_lt sb.inodestart_lt_bmapstart) h

theorem logged_of_datastart {b : Nat} (h : sb.datastart ≤ b) : sb.Logged b :=
  logged_of_bmapstart (Nat.le_trans (Nat.le_of_lt sb.bmapstart_lt_datastart) h)

theorem datastart_pos (sb : Superblock) : 0 < sb.datastart := Nat.zero_lt_of_lt sb.bmapstart_lt_datastart

theorem lt_of_size {b : Nat} (h : b < sb.size) : b < 100000 := by
  have h4 : sb.size ≤ 100000 := sb.size_le
  omega

theorem nlog_mkfs : 0 < 90 := by decide

/-- What mkfs.c writes. -/
def mkfs : Superblock where
  size := 100000
  nblocks := 99857
  ninodes := 200
  nlog := 90
  logstart := 2
  inodestart := 92
  bmapstart := 118
  nlog_pos := nlog_mkfs
  log_le := by decide
  inodes_le := by decide
  bitmap_le := by decide
  size_le := by decide

example : mkfs.datastart = 143 := by decide

end Superblock

/-! ### Inodes on disk -/

def T_DIR : BitVec 16 := 1
def T_FILE : BitVec 16 := 2
def T_DEV : BitVec 16 := 3
def T_SYM : BitVec 16 := 4

/-- `struct dinode` without the name in it, which nothing reads or writes. -/
structure Dinode where
  type : BitVec 16
  major : BitVec 16
  minor : BitVec 16
  nlink : BitVec 16
  size : BitVec 32
  addrs : Fin 9 → BitVec 32

/-- A free inode. -/
def Dinode.zero : Dinode := ⟨0, 0, 0, 0, 0, fun _ => 0⟩

@[ext] theorem Dinode.ext {d e : Dinode} (h1 : d.type = e.type) (h2 : d.major = e.major)
    (h3 : d.minor = e.minor) (h4 : d.nlink = e.nlink) (h5 : d.size = e.size)
    (h6 : ∀ k, d.addrs k = e.addrs k) : d = e := by
  obtain ⟨t, ma, mi, n, s, a⟩ := d
  obtain ⟨t', ma', mi', n', s', a'⟩ := e
  cases h1
  cases h2
  cases h3
  cases h4
  cases h5
  cases funext h6
  rfl

/-- `struct inode`; there is one device. `locked` is the sleep-lock. -/
structure Inode extends Dinode where
  inum : Nat
  ref : Nat
  locked : Bool
  valid : Bool
  path : Fin 16 → Byte

/-- `(struct dinode*)bp->data + i%IPB`. -/
def dip (i : Nat) : Nat := 64 * (i % IPB)

theorem dip_add_le (i : Nat) : dip i + 64 ≤ BSIZE := by
  have h : i % IPB < 8 := Nat.mod_lt _ (by decide)
  have hB : BSIZE = 512 := rfl
  unfold dip
  omega

theorem dip_ne {i j : Nat} (h : i % IPB ≠ j % IPB) : dip i + 64 ≤ dip j ∨ dip j + 64 ≤ dip i := by
  unfold dip
  omega

def decodeDinode (blk : Block) (i : Nat) : Dinode where
  type := getShort blk (dip i)
  major := getShort blk (dip i + 2)
  minor := getShort blk (dip i + 4)
  nlink := getShort blk (dip i + 6)
  size := getWord blk (dip i + 8)
  addrs k := getWord blk (dip i + 28 + 4 * k)

/-- The assignments of `iupdate`. -/
def encodeDinode (blk : Block) (i : Nat) (d : Dinode) : Block :=
  setWords (setWord (setShort (setShort (setShort (setShort blk (dip i) d.type)
    (dip i + 2) d.major) (dip i + 4) d.minor) (dip i + 6) d.nlink) (dip i + 8) d.size)
    (dip i + 28) (List.ofFn d.addrs)

/-- `memset(dip, 0, sizeof(*dip)); dip->type = type`. -/
def clearDinode (blk : Block) (i : Nat) (type : BitVec 16) : Block :=
  setShort (patch blk (dip i) (List.replicate 64 0)) (dip i) type

theorem byteAt_encodeDinode (blk : Block) (i : Nat) (d : Dinode) {k : Nat}
    (h : k < dip i ∨ dip i + 64 ≤ k ∨ (dip i + 12 ≤ k ∧ k < dip i + 28)) :
    byteAt (encodeDinode blk i d) k = byteAt blk k := by
  unfold encodeDinode
  rw [byteAt_setWords _ _ _ (by rw [List.length_ofFn]; omega),
    byteAt_setWord _ _ _ (by omega), byteAt_setShort _ _ _ (by omega),
    byteAt_setShort _ _ _ (by omega), byteAt_setShort _ _ _ (by omega),
    byteAt_setShort _ _ _ (by omega)]

/-- The second `iupdate` of an inode writes over the first. -/
theorem encodeDinode_encodeDinode (blk : Block) (i : Nat) (d d' : Dinode) :
    encodeDinode (encodeDinode blk i d) i d' = encodeDinode blk i d' := by
  have hshort : ∀ w : BitVec 16, (natLE 2 w.toNat).length = 2 := fun w => length_natLE 2 _
  have hword : ∀ w : BitVec 32, (natLE 4 w.toNat).length = 4 := fun w => length_natLE 4 _
  funext k
  have hbyte : (k.val < dip i ∨ dip i + 64 ≤ k.val ∨ (dip i + 12 ≤ k.val ∧ k.val < dip i + 28)) →
      encodeDinode blk i d k = blk k := by
    intro hout
    have heq := byteAt_encodeDinode blk i d hout
    rw [byteAt_eq, byteAt_eq] at heq
    exact heq
  generalize encodeDinode blk i d = c at hbyte
  unfold encodeDinode
  apply setWords_congr
  rw [List.length_ofFn, Classical.or_iff_not_imp_left]
  intro h1
  apply patch_congr
  rw [hword, Classical.or_iff_not_imp_left]
  intro h2
  apply patch_congr
  rw [hshort, Classical.or_iff_not_imp_left]
  intro h3
  apply patch_congr
  rw [hshort, Classical.or_iff_not_imp_left]
  intro h4
  apply patch_congr
  rw [hshort, Classical.or_iff_not_imp_left]
  intro h5
  apply patch_congr
  rw [hshort, Classical.or_iff_not_imp_left]
  intro h6
  apply hbyte
  omega

theorem decodeDinode_congr {blk blk' : Block} {i : Nat}
    (h : ∀ k, dip i ≤ k → k < dip i + 64 → byteAt blk k = byteAt blk' k) :
    decodeDinode blk i = decodeDinode blk' i := by
  refine Dinode.ext ?_ ?_ ?_ ?_ ?_ fun k => ?_
  · exact getShort_congr _ fun k _ _ => h k (by omega) (by omega)
  · exact getShort_congr _ fun k _ _ => h k (by omega) (by omega)
  · exact getShort_congr _ fun k _ _ => h k (by omega) (by omega)
  · exact getShort_congr _ fun k _ _ => h k (by omega) (by omega)
  · exact getWord_congr _ fun k _ _ => h k (by omega) (by omega)
  · have hk := k.isLt
    exact getWord_congr _ fun k _ _ => h k (by omega) (by omega)

theorem decodeDinode_zero (i : Nat) : decodeDinode (fun _ => 0) i = Dinode.zero :=
  Dinode.ext (getShort_zeros _) (getShort_zeros _) (getShort_zeros _) (getShort_zeros _)
    (getWord_zeros _) fun _ => getWord_zeros _

theorem decodeDinode_encodeDinode_ne (blk : Block) {i j : Nat} (d : Dinode)
    (h : i % IPB ≠ j % IPB) :
    decodeDinode (encodeDinode blk i d) j = decodeDinode blk j := by
  have hd := dip_ne h
  exact decodeDinode_congr fun k _ _ => byteAt_encodeDinode _ _ _ (by omega)

/-- What `iupdate` writes is what `ilock` reads. -/
theorem decodeDinode_encodeDinode (blk : Block) (i : Nat) (d : Dinode) :
    decodeDinode (encodeDinode blk i d) i = d := by
  have hfit := dip_add_le i
  have hlen : (List.ofFn d.addrs).length = 9 := List.length_ofFn
  have hlow : ∀ b : Block, ∀ k, k < dip i + 28 →
      byteAt (setWords b (dip i + 28) (List.ofFn d.addrs)) k = byteAt b k :=
    fun b k hk => byteAt_setWords _ _ _ (Or.inl hk)
  refine Dinode.ext ?_ ?_ ?_ ?_ ?_ fun k => ?_
  · calc getShort (encodeDinode blk i d) (dip i)
        = getShort (setShort blk (dip i) d.type) (dip i) := by
          refine getShort_congr _ fun k _ _ => ?_
          rw [encodeDinode, hlow _ _ (by omega), byteAt_setWord _ _ _ (by omega),
            byteAt_setShort _ _ _ (by omega), byteAt_setShort _ _ _ (by omega),
            byteAt_setShort _ _ _ (by omega)]
      _ = d.type := getShort_setShort _ _ _ (by omega)
  · calc getShort (encodeDinode blk i d) (dip i + 2)
        = getShort (setShort (setShort blk (dip i) d.type) (dip i + 2) d.major) (dip i + 2) := by
          refine getShort_congr _ fun k _ _ => ?_
          rw [encodeDinode, hlow _ _ (by omega), byteAt_setWord _ _ _ (by omega),
            byteAt_setShort _ _ _ (by omega), byteAt_setShort _ _ _ (by omega)]
      _ = d.major := getShort_setShort _ _ _ (by omega)
  · calc getShort (encodeDinode blk i d) (dip i + 4)
        = getShort (setShort (setShort (setShort blk (dip i) d.type) (dip i + 2) d.major)
            (dip i + 4) d.minor) (dip i + 4) := by
          refine getShort_congr _ fun k _ _ => ?_
          rw [encodeDinode, hlow _ _ (by omega), byteAt_setWord _ _ _ (by omega),
            byteAt_setShort _ _ _ (by omega)]
      _ = d.minor := getShort_setShort _ _ _ (by omega)
  · calc getShort (encodeDinode blk i d) (dip i + 6)
        = getShort (setShort (setShort (setShort (setShort blk (dip i) d.type) (dip i + 2) d.major)
            (dip i + 4) d.minor) (dip i + 6) d.nlink) (dip i + 6) := by
          refine getShort_congr _ fun k _ _ => ?_
          rw [encodeDinode, hlow _ _ (by omega), byteAt_setWord _ _ _ (by omega)]
      _ = d.nlink := getShort_setShort _ _ _ (by omega)
  · calc getWord (encodeDinode blk i d) (dip i + 8)
        = getWord (setWord (setShort (setShort (setShort (setShort blk (dip i) d.type)
            (dip i + 2) d.major) (dip i + 4) d.minor) (dip i + 6) d.nlink) (dip i + 8) d.size)
            (dip i + 8) := by
          refine getWord_congr _ fun k _ _ => ?_
          rw [encodeDinode, hlow _ _ (by omega)]
      _ = d.size := getWord_setWord _ _ _ (by omega)
  · have hk := k.isLt
    have hw := getWord_setWords (setWord (setShort (setShort (setShort (setShort blk (dip i) d.type)
      (dip i + 2) d.major) (dip i + 4) d.minor) (dip i + 6) d.nlink) (dip i + 8) d.size)
      (dip i + 28) (List.ofFn d.addrs) (by omega) k (by omega)
    rw [List.getElem_ofFn] at hw
    exact hw

theorem decodeDinode_clearDinode_ne (blk : Block) {i j : Nat} (type : BitVec 16)
    (h : i % IPB ≠ j % IPB) :
    decodeDinode (clearDinode blk i type) j = decodeDinode blk j := by
  have hd := dip_ne h
  refine decodeDinode_congr fun k _ _ => ?_
  rw [clearDinode, byteAt_setShort _ _ _ (by omega),
    byteAt_patch_of_not_mem _ _ _ (by rw [List.length_replicate]; omega)]

theorem slice_zeros (blk : Block) (i off k : Nat) (h : off + k ≤ 64) :
    slice (patch blk (dip i) (List.replicate 64 0)) (dip i + off) k = List.replicate k 0 := by
  have hfit := dip_add_le i
  refine List.ext_getElem (by simp) fun m hm hm' => ?_
  rw [length_slice] at hm
  simp only [slice, List.getElem_map, List.getElem_range, List.getElem_replicate]
  rw [byteAt_patch_of_mem _ _ _ (by omega) (by rw [List.length_replicate]; omega) (by omega)]
  rw [List.getD_eq_getElem _ _ (by rw [List.length_replicate]; omega), List.getElem_replicate]

theorem decodeDinode_clearDinode (blk : Block) (i : Nat) (type : BitVec 16) :
    decodeDinode (clearDinode blk i type) i = { Dinode.zero with type := type } := by
  have hfit := dip_add_le i
  have hshort : ∀ off, 2 ≤ off → off + 2 ≤ 64 →
      getShort (clearDinode blk i type) (dip i + off) = 0 := by
    intro off h2 h64
    have hkeep : getShort (clearDinode blk i type) (dip i + off)
        = getShort (patch blk (dip i) (List.replicate 64 0)) (dip i + off) :=
      getShort_congr _ fun k _ _ => byteAt_setShort _ _ _ (by omega)
    rw [hkeep, getShort, slice_zeros _ _ _ _ h64]
    rfl
  have hword : ∀ off, 2 ≤ off → off + 4 ≤ 64 →
      getWord (clearDinode blk i type) (dip i + off) = 0 := by
    intro off h2 h64
    have hkeep : getWord (clearDinode blk i type) (dip i + off)
        = getWord (patch blk (dip i) (List.replicate 64 0)) (dip i + off) :=
      getWord_congr _ fun k _ _ => byteAt_setShort _ _ _ (by omega)
    rw [hkeep, getWord, slice_zeros _ _ _ _ h64]
    rfl
  refine Dinode.ext ?_ ?_ ?_ ?_ ?_ fun k => ?_
  · exact getShort_setShort _ _ _ (by omega)
  · exact hshort 2 (by omega) (by omega)
  · exact hshort 4 (by omega) (by omega)
  · exact hshort 6 (by omega) (by omega)
  · exact hword 8 (by omega) (by omega)
  · have hk := k.isLt
    have hw := hword (28 + 4 * k) (by omega) (by omega)
    rw [← Nat.add_assoc] at hw
    exact hw

end Xv6.Fs
