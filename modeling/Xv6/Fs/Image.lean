import Xv6.Fs.Contents
import Xv6.Fs.Grow

/-!
# Building the image (project3/mkfs.c:223-301, ialloc, iappend)

mkfs.c has its own code for the blocks of a file: it counts `freeblock` up, and writes
the free map in the end. With the free map that belongs to `freeblock`, `marked`, what
it does to a file is what `writei` would do, as far as the single indirect block goes.
-/

namespace Xv6.Fs
open Buffer Forest

/-- The image file and the counters of mkfs.c. -/
structure Image where
  disk : Contents
  freeinode : Nat
  freeblock : Nat

/-- How mkfs.c ends without an image: an assertion fails, or it reads behind the end of
an array. -/
inductive Fault where
  | assertion
  | outOfBounds
  deriving DecidableEq, Repr

namespace Image

variable (sb : Superblock)

/-- All blocks are zero. The superblock is `sb`. -/
def formatted : Image := ⟨fun _ _ => 0, 1, sb.datastart⟩

def rinode (im : Image) (inum : Nat) : Dinode := dinode sb im.disk inum

-- The fields of *ip; the rest of the dinode is as rinode() has read it.
def winode (im : Image) (inum : Nat) (ip : Dinode) : Image :=
  { im with disk := updated sb im.disk inum ip }

/-- The blocks of inode `inum` with zeros for the inode. -/
def zeroed (im : Image) (inum : Nat) : Image :=
  let blk := patch (im.disk (sb.iblock inum)) (dip inum) (List.replicate 64 0)
  { im with disk := Function.update im.disk (sb.iblock inum) blk }

def ialloc (im : Image) (type : BitVec 16) : Nat × Image :=
  let inum := im.freeinode
  let im := { im with freeinode := inum + 1 }
  (inum, (im.zeroed sb inum).winode sb inum { Dinode.zero with type := type, nlink := 1 })

-- if(xint(din.addrs[k]) == 0) din.addrs[k] = xint(freeblock++);
def addrSlot (im : Image) (din : Dinode) (k : Fin 9) : Dinode × Image :=
  if din.addrs k = 0 then
    ({ din with addrs := Function.update din.addrs k (BitVec.ofNat 32 im.freeblock) },
      { im with freeblock := im.freeblock + 1 })
  else (din, im)

-- if(indirect[j] == 0){ indirect[j] = xint(freeblock++); wsect(w, indirect); }
def indirectSlot (im : Image) (w j : Nat) : Block × Image :=
  let indirect := im.disk w
  if getWord indirect (4 * j) = 0 then
    let indirect := setWord indirect (4 * j) (BitVec.ofNat 32 im.freeblock)
    (indirect, { im with
      disk := Function.update im.disk w indirect
      freeblock := im.freeblock + 1 })
  else (indirect, im)

-- x, for block `fbn` of the file `din`: the part of the loop of iappend() before n1.
def fileBlock (im : Image) (din : Dinode) (fbn : Nat) : Except Fault (Nat × Dinode × Image) :=
  if MAXFILE ≤ fbn then .error .assertion
  else if fbn < NDIRECT then
    let (din, im) := im.addrSlot din (slotOf fbn)
    .ok ((din.addrs (slotOf fbn)).toNat, din, im)
  else
    let (din, im) := im.addrSlot din (slotOf NDIRECT)
    -- indirect[] has NINDIRECT entries
    if NINDIRECT ≤ fbn - NDIRECT then .error .outOfBounds
    else
      let (indirect, im) := im.indirectSlot (din.addrs (slotOf NDIRECT)).toNat (fbn - NDIRECT)
      .ok ((getWord indirect (4 * (fbn - NDIRECT))).toNat, din, im)

-- The loop of iappend(). A turn appends at least one byte, so n turns are enough.
def appendLoop : Nat → Image → Dinode → List Byte → Nat → Nat →
    Except Fault (Image × Dinode × Nat)
  | 0, im, din, _, off, _ => .ok (im, din, off)
  | turns + 1, im, din, p, off, n =>
    if n = 0 then .ok (im, din, off)
    else do
      let fbn := off / BSIZE
      let (x, din, im) ← im.fileBlock din fbn
      let n1 := min n ((fbn + 1) * BSIZE - off)
      let im := { im with
        disk := Function.update im.disk x (patch (im.disk x) (off - fbn * BSIZE) (p.take n1)) }
      appendLoop turns im din (p.drop n1) (off + n1) (n - n1)

def iappend (im : Image) (inum : Nat) (p : List Byte) : Except Fault Image := do
  let din := im.rinode sb inum
  let (im, din, off) ← appendLoop p.length im din p din.size.toNat p.length
  return im.winode sb inum { din with size := BitVec.ofNat 32 off }

end Image

/-! ### The free map of a counter -/

/-- The contents with the free map in which the first `n` blocks are in use. -/
def marked (sb : Superblock) (σ : Contents) (n : Nat) : Contents := fun b =>
  if sb.bmapstart ≤ b ∧ b < sb.datastart then usedBlock (n - (b - sb.bmapstart) * BPB) else σ b

variable {sb : Superblock} {σ : Contents} {n b : Nat}

theorem marked_low (h : b < sb.bmapstart) : marked sb σ n b = σ b := if_neg (by omega)

theorem marked_data (h : sb.datastart ≤ b) : marked sb σ n b = σ b := if_neg (by omega)

theorem marked_bblock (h : b < sb.size) :
    marked sb σ n (sb.bblock b) = usedBlock (n - b / BPB * BPB) := by
  have h1 := Superblock.bblock_lt h
  have h2 : sb.bmapstart ≤ sb.bblock b := Superblock.bmapstart_le_bblock b
  have hsub : sb.bblock b - sb.bmapstart = b / BPB := Nat.add_sub_cancel _ _
  unfold marked
  rw [if_pos ⟨h2, h1⟩, hsub]

theorem bit_marked (h : b < sb.size) : bit sb (marked sb σ n) b = decide (b < n) := by
  have hd := Nat.div_add_mod b BPB
  have hc : BPB * (b / BPB) = b / BPB * BPB := Nat.mul_comm _ _
  unfold bit
  rw [marked_bblock h, getBit_usedBlock (Nat.mod_lt b BPB_pos), decide_eq_decide]
  omega

theorem block_ext {x y : Block} (h : ∀ i, i < BPB → getBit x i = getBit y i) : x = y := by
  have hB := BSIZE_eq
  apply ext_byteAt
  intro k hk
  apply BitVec.eq_of_getLsbD_eq
  intro m hm
  have hdiv : (8 * k + m) / 8 = k := by omega
  have hmod : (8 * k + m) % 8 = m := by omega
  have hi : 8 * k + m < 4096 := by omega
  have hbit := h (8 * k + m) hi
  rw [getBit, getBit, and_bitMask_ne_zero, and_bitMask_ne_zero, hdiv, hmod] at hbit
  exact hbit

theorem usedBlock_succ {r : Nat} (h : r < BPB) : setBit (usedBlock r) r = usedBlock (r + 1) := by
  have hB : BPB = 4096 := rfl
  have hB' := BSIZE_eq
  apply block_ext
  intro i hi
  rw [getBit_setBit _ _ _ (by omega), getBit_usedBlock hi, getBit_usedBlock hi]
  rw [← Bool.decide_or, decide_eq_decide]
  omega

theorem usedBlock_full {m : Nat} (h : BPB ≤ m) : usedBlock (m + 1) = usedBlock m := by
  apply block_ext
  intro i hi
  rw [getBit_usedBlock hi, getBit_usedBlock hi, decide_eq_decide]
  omega

/-- Counting up is what `balloc` does. -/
theorem allocated_marked (h : sb.datastart ≤ n) (hn : n < sb.size) (hz : σ n = fun _ => 0) :
    allocated sb (marked sb σ n) n = marked sb σ (n + 1) := by
  have hB : BPB = 4096 := rfl
  have hlt := Superblock.bblock_lt hn
  have hmod := Nat.mod_lt n BPB_pos
  funext b
  by_cases hbn : b = n
  · rw [hbn, allocated_self, marked_data h, hz]
  by_cases hbb : b = sb.bblock n
  · have hr : n - n / BPB * BPB = n % BPB := by
      rw [hB]
      omega
    have hr' : n + 1 - n / BPB * BPB = n % BPB + 1 := by
      rw [hB]
      omega
    unfold allocated
    rw [Function.update_of_ne hbn, hbb, Function.update_self, marked_bblock hn, marked_bblock hn,
      hr, hr', usedBlock_succ hmod]
  · rw [allocated_of_ne hbn hbb]
    unfold marked
    split_ifs with hmap
    · -- another block of the map: full before and after, or empty before and after
      have hne : b - sb.bmapstart ≠ n / BPB := by
        intro heq
        apply hbb
        unfold Superblock.bblock
        omega
      generalize b - sb.bmapstart = m at hne
      rw [hB] at hne ⊢
      by_cases hm : m < n / 4096
      · have hsub : n + 1 - m * 4096 = n - m * 4096 + 1 := by omega
        rw [hsub]
        exact (usedBlock_full (show 4096 ≤ n - m * 4096 by omega)).symm
      · have h0 : n - m * 4096 = 0 := by omega
        have h1 : n + 1 - m * 4096 = 0 := by omega
        rw [h0, h1]
    · rfl

theorem marked_update {w : Nat} (h : sb.datastart ≤ w) (v : Block) :
    Function.update (marked sb σ n) w v = marked sb (Function.update σ w v) n := by
  funext b
  by_cases hbw : b = w
  · rw [hbw, Function.update_self, marked_data h, Function.update_self]
  · unfold marked
    rw [Function.update_of_ne hbw, Function.update_of_ne hbw]

theorem freeList_marked (h : n < sb.size) :
    freeList sb (marked sb σ n) = n :: freeList sb (marked sb σ (n + 1)) := by
  have hmem : ∀ m b, b ∈ freeList sb (marked sb σ m) ↔ m ≤ b ∧ b < sb.size := by
    intro m b
    rw [mem_freeList]
    constructor
    · rintro ⟨hb, hbit⟩
      rw [bit_marked hb, decide_eq_false_iff_not] at hbit
      exact ⟨by omega, hb⟩
    · rintro ⟨hm, hb⟩
      rw [bit_marked hb, decide_eq_false_iff_not]
      exact ⟨hb, by omega⟩
  have hsorted : (n :: freeList sb (marked sb σ (n + 1))).Pairwise (· < ·) := by
    apply List.Pairwise.cons _ (pairwise_freeList _ _)
    intro b hb
    exact ((hmem _ b).mp hb).1
  apply List.Perm.eq_of_pairwise' (pairwise_freeList _ _) hsorted
  rw [List.perm_ext_iff_of_nodup ((pairwise_freeList _ _).imp fun h => Nat.ne_of_lt h)
    (hsorted.imp fun h => Nat.ne_of_lt h)]
  intro b
  rw [List.mem_cons, hmem, hmem]
  omega

/-! ### The blocks of a file in both programs -/

/-- What both programs start from: the blocks from `freeblock` on are zero. -/
structure Image.Fresh (sb : Superblock) (im : Image) : Prop where
  start : sb.datastart ≤ im.freeblock
  zero : ∀ b, im.freeblock ≤ b → im.disk b = fun _ => 0

/-- The contents with the free map of `freeblock`. -/
abbrev Image.contents (sb : Superblock) (im : Image) : Contents :=
  marked sb im.disk im.freeblock

/-- `im'` comes from `im` by work on data blocks. -/
structure Image.Later (sb : Superblock) (im im' : Image) : Prop where
  fresh : im'.Fresh sb
  room : im.freeblock ≤ sb.size → im'.freeblock ≤ sb.size
  freeinode : im'.freeinode = im.freeinode
  low : ∀ b, b < sb.datastart → im'.disk b = im.disk b

variable {im im' : Image} {T : AddrTable} {ip : Inode} {k : Fin 9}

theorem Image.Fresh.later (h : im.Fresh sb) : im.Later sb im := ⟨h, id, rfl, fun _ _ => rfl⟩

theorem Image.Later.trans {im'' : Image} (h : im.Later sb im') (h' : im'.Later sb im'') :
    im.Later sb im'' where
  fresh := h'.fresh
  room hn := h'.room (h.room hn)
  freeinode := h'.freeinode.trans h.freeinode
  low b hb := (h'.low b hb).trans (h.low b hb)

theorem Image.Fresh.succ (h : im.Fresh sb) (hn : im.freeblock < sb.size) :
    im.Later sb { im with freeblock := im.freeblock + 1 } where
  fresh := ⟨Nat.le_succ_of_le h.start, fun b hb => h.zero b (Nat.le_of_succ_le hb)⟩
  room _ := hn
  freeinode := rfl
  low _ _ := rfl

/-- A block before the next free block is written. -/
theorem Image.Fresh.write {w : Nat} (h : im.Fresh sb) (hw : sb.datastart ≤ w)
    (hlt : w < im.freeblock) (v : Block) :
    im.Later sb { im with disk := Function.update im.disk w v } where
  fresh := by
    refine ⟨h.start, fun b hb => ?_⟩
    have hne : b ≠ w := by
      have hb' : im.freeblock ≤ b := hb
      omega
    show Function.update im.disk w v b = _
    rw [Function.update_of_ne hne, h.zero b hb]
  room := id
  freeinode := rfl
  low b hb := Function.update_of_ne (by omega) _ _

theorem lt_of_freeList_marked {x : Nat} {xs : List Nat}
    (h : freeList sb (marked sb σ n) = x :: xs) : n < sb.size := by
  have hx : x ∈ freeList sb (marked sb σ n) := h ▸ List.mem_cons_self
  obtain ⟨hsize, hbit⟩ := mem_freeList.mp hx
  rw [bit_marked hsize, decide_eq_false_iff_not] at hbit
  omega

/-- `balloc` takes the block that mkfs.c takes. -/
theorem balloc_contents (h : im.Fresh sb) (hn : im.freeblock < sb.size) :
    Does (balloc sb) (im.contents sb) im.freeblock
      (Image.contents sb { im with freeblock := im.freeblock + 1 })
      {sb.bblock im.freeblock, im.freeblock} := by
  have hdo := balloc_does (freeList_marked (σ := im.disk) hn)
  rw [allocated_marked h.start hn (h.zero _ (Nat.le_refl _))] at hdo
  exact hdo

theorem slot_contents {din : Dinode} (h : im.Fresh sb) (hd : din.addrs = ip.addrs)
    (hn : ip.addrs k = 0 → im.freeblock < sb.size) :
    ∃ a im', im.addrSlot din k = ({ din with addrs := a }, im') ∧
      (slot sb ip k).exec (im.contents sb)
        = .ok (((a k).toNat, { ip with addrs := a }), im'.contents sb) ∧ im.Later sb im' := by
  unfold slot Image.addrSlot
  rw [hd]
  split_ifs with h0
  · refine ⟨_, _, rfl, ?_, h.succ (hn h0)⟩
    rw [exec_bind _ (balloc_contents h (hn h0)).exec, Function.update_self,
      toNat_ofNat_block (hn h0)]
    rfl
  · refine ⟨ip.addrs, im, ?_, rfl, h.later⟩
    rw [← hd]

/-- An entry of an indirect block, in both programs. -/
theorem entry_contents {w j : Nat} (h : im.Fresh sb) (hw : sb.datastart ≤ w)
    (hwn : w < im.freeblock) (hj : 4 * j + 4 ≤ BSIZE)
    (hn : getWord (im.disk w) (4 * j) = 0 → im.freeblock < sb.size) :
    ∃ indirect im', im.indirectSlot w j = (indirect, im') ∧
      (entry sb w j).exec (im.contents sb)
        = .ok ((getWord indirect (4 * j)).toNat, im'.contents sb) ∧ im.Later sb im' := by
  have hread : im.contents sb w = im.disk w := marked_data hw
  have hread' : Image.contents sb { im with freeblock := im.freeblock + 1 } w = im.disk w :=
    marked_data hw
  unfold Image.indirectSlot
  dsimp only
  split_ifs with h0
  · have hs := h.succ (hn h0)
    refine ⟨_, _, rfl, ?_, hs.trans (hs.fresh.write hw (Nat.lt_succ_of_lt hwn) _)⟩
    have hdo : Does (entry sb w j) (im.contents sb) im.freeblock (Function.update
        (Image.contents sb { im with freeblock := im.freeblock + 1 }) w
        (setWord (Image.contents sb { im with freeblock := im.freeblock + 1 } w) (4 * j)
          (BitVec.ofNat 32 im.freeblock)))
        ({sb.bblock im.freeblock, im.freeblock} ∪ insert w ∅) := by
      apply Does.bread
      rw [hread, if_pos h0]
      exact (balloc_contents h (hn h0)).seq (Does.logWrite (Does.pure _ _))
    rw [hdo.exec, hread', getWord_setWord _ _ _ hj, toNat_ofNat_block (hn h0), marked_update hw]
  · refine ⟨_, _, rfl, ?_, h.later⟩
    have hdo : Does (entry sb w j) (im.contents sb) (getWord (im.disk w) (4 * j)).toNat
        (im.contents sb) ∅ := by
      apply Does.bread
      rw [hread, if_neg h0]
      exact Does.pure _ _
    exact hdo.exec

theorem freeblock_lt {S : Finset Place} {p : Place} (hp : p ∈ S)
    (h0 : blockAt T (im.contents sb) p = 0)
    (hroom : need S T (im.contents sb) ≤ (freeList sb (im.contents sb)).length) :
    im.freeblock < sb.size := by
  obtain ⟨x, xs, hf⟩ := exists_head hp h0 hroom
  exact lt_of_freeList_marked hf

theorem lt_freeblock {w : Nat} (h : Live sb (im.contents sb) w) : w < im.freeblock := by
  have hbit := h.2.2
  rw [bit_marked h.2.1] at hbit
  exact of_decide_eq_true hbit

/-- `fileBlock` and `bmap` agree on the blocks up to the single indirect block. -/
theorem fileBlock_bmap {din : Dinode} {fbn : Nat} (h : im.Fresh sb)
    (hc : Consistent sb T (im.contents sb)) (hT : T ip.inum = ip.addrs)
    (hd : din.addrs = ip.addrs) (hi : ip.inum < sb.ninodes) (hfbn : fbn < 134)
    (hroom : need (branch ip.inum fbn).toFinset T (im.contents sb)
      ≤ (freeList sb (im.contents sb)).length) :
    ∃ x a im', im.fileBlock din fbn = .ok (x, { din with addrs := a }, im') ∧
      (bmap sb ip fbn).exec (im.contents sb)
        = .ok ((x, { ip with addrs := a }), im'.contents sb) ∧ im.Later sb im' := by
  have e1 : NDIRECT = 6 := rfl
  have e2 : NINDIRECT = 128 := rfl
  have hmax : ¬ MAXFILE ≤ fbn := by
    rw [MAXFILE_eq]
    omega
  have hroot : ∀ k, blockAt T (im.contents sb) ((ip.inum, k), []) = (ip.addrs k).toNat := by
    intro k
    show (T ip.inum k).toNat = _
    rw [hT]
  have hempty : ∀ k, ip.addrs k = 0 → blockAt T (im.contents sb) ((ip.inum, k), []) = 0 := by
    intro k h0
    rw [hroot, h0]
    rfl
  unfold Image.fileBlock bmap
  rw [if_neg hmax]
  by_cases h1 : fbn < NDIRECT
  · have hslot : Fin.ofNat 9 fbn = slotOf fbn := rfl
    rw [if_pos h1, if_pos h1]
    rw [branch_eq_up, path_direct (by omega), hslot] at hroom
    obtain ⟨a, im1, heq, hexec, hl⟩ := slot_contents h hd fun h0 =>
      freeblock_lt (mem_up.mpr ⟨rfl, List.suffix_refl _⟩) (hempty (slotOf fbn) h0) hroom
    rw [heq, hslot]
    exact ⟨_, a, im1, rfl, hexec, hl⟩
  have h2 : fbn - NDIRECT < NINDIRECT := by omega
  have hslot : slotOf NDIRECT = 6 := rfl
  rw [if_neg h1, if_neg h1, hslot]
  dsimp only
  rw [if_pos h2]
  obtain ⟨j, hpath, hj⟩ := path_single fbn (by omega) hfbn
  rw [branch_eq_up, hpath] at hroom
  dsimp only at hroom
  have hin : (shape sb).Inner (((ip.inum, 6), []) : Place) := ⟨hi, Nat.zero_lt_one⟩
  have hsub : up (ip.inum, 6) [] ⊆ up (ip.inum, 6) [j] := up_subset List.nil_suffix
  obtain ⟨a, im1, heq, hexec, hl⟩ := slot_contents h hd fun h0 =>
    freeblock_lt (mem_up.mpr ⟨rfl, List.nil_suffix⟩) (hempty 6 h0) hroom
  -- the indirect block is there now
  obtain ⟨a', w, τ, bs, hdo, hat, hw0, hg⟩ :=
    slot_grows hc hT hi (Nat.le_trans (need_mono hsub) hroom)
  have hsame := hexec.symm.trans hdo.exec
  simp only [Except.ok.injEq, Prod.mk.injEq, Inode.mk.injEq, Dinode.mk.injEq, true_and,
    and_true] at hsame
  obtain ⟨⟨rfl, rfl⟩, rfl⟩ := hsame
  have hroom1 := hg.room_subset (upper_up (hin.cons j)) hsub hroom
  have hlive := hg.consistent.live hin.valid (by rw [hat]; exact hw0)
  rw [hat] at hlive
  have hj4 : 4 * (fbn - NDIRECT) + 4 ≤ BSIZE := by
    have hB := BSIZE_eq
    omega
  have hn : getWord (im1.disk (a 6).toNat) (4 * (fbn - NDIRECT)) = 0 → im1.freeblock < sb.size := by
    intro h0
    have hmem : (((ip.inum, 6), [j]) : Place) ∈ up (ip.inum, 6) [j] :=
      mem_up.mpr ⟨rfl, List.suffix_refl [j]⟩
    apply freeblock_lt hmem _ hroom1
    have hread : im1.contents sb (a 6).toNat = im1.disk (a 6).toNat := marked_data hlive.1
    show (forest (Function.update T ip.inum a) (im1.contents sb)).ref (ip.inum, 6) [j] = 0
    have hne : (forest (Function.update T ip.inum a) (im1.contents sb)).ref (ip.inum, 6) [] ≠ 0 :=
      fun hz => hw0 (hat.symm.trans hz)
    rw [ref_cons hne]
    show (getWord (im1.contents sb (blockAt (Function.update T ip.inum a) (im1.contents sb)
      ((ip.inum, 6), []))) (4 * j)).toNat = 0
    rw [hat, hread, ← hj, ← e1, h0]
    rfl
  obtain ⟨indirect, im2, heq2, hexec2, hl2⟩ :=
    entry_contents hl.fresh hlive.1 (lt_freeblock hlive) hj4 hn
  refine ⟨(getWord indirect (4 * (fbn - NDIRECT))).toNat, a, im2, ?_, ?_, hl.trans hl2⟩
  · rw [heq]
    dsimp only
    rw [if_neg (by omega), heq2]
  · rw [exec_bind _ hexec]
    dsimp only
    rw [exec_bind _ hexec2]
    rfl

/-- The loops of `iappend` and `writei` do the same. -/
theorem appendLoop_writeLoop (turns : Nat) {din : Dinode} (p : List Byte) {off n : Nat}
    (h : im.Fresh sb) (hc : Consistent sb T (im.contents sb)) (hT : T ip.inum = ip.addrs)
    (hd : din.addrs = ip.addrs) (hi : ip.inum < sb.ninodes) (hn : n ≤ turns)
    (hmax : off + n ≤ 134 * BSIZE)
    (hroom : need (pieceTree ip.inum off n) T (im.contents sb)
      ≤ (freeList sb (im.contents sb)).length) :
    ∃ a im', Image.appendLoop turns im din p off n = .ok (im', { din with addrs := a }, off + n) ∧
      (writeLoop sb turns ip p off n).exec (im.contents sb)
        = .ok ({ ip with addrs := a }, im'.contents sb) ∧ im.Later sb im' := by
  induction turns generalizing im T ip din p off n with
  | zero =>
    have hn0 : n = 0 := Nat.le_zero.mp hn
    refine ⟨ip.addrs, im, ?_, rfl, h.later⟩
    rw [← hd, hn0]
    rfl
  | succ turns ih =>
    unfold Image.appendLoop writeLoop
    by_cases hn0 : n = 0
    · rw [if_pos hn0, if_pos hn0, hn0]
      refine ⟨ip.addrs, im, ?_, rfl, h.later⟩
      rw [← hd]
      rfl
    rw [if_neg hn0, if_neg hn0]
    have hB := BSIZE_eq
    have hmax' : off + n ≤ 134 * 512 := hmax
    have hfbn : off / BSIZE < 134 := by
      rw [hB]
      omega
    have hmod := Nat.mod_lt off (show 0 < BSIZE by omega)
    have hdm := Nat.div_add_mod off BSIZE
    have hn1 : min n ((off / BSIZE + 1) * BSIZE - off) = min n (BSIZE - off % BSIZE) := by
      rw [hB]
      omega
    have hoff : off - off / BSIZE * BSIZE = off % BSIZE := by
      rw [hB]
      omega
    generalize hm : min n (BSIZE - off % BSIZE) = m at hn1
    obtain ⟨hpieces, htree⟩ := pieces_cons ip.inum off (n := n) (m := m)
      (by omega) (by omega) (by omega)
    rw [htree] at hroom
    have hroom1 := Nat.le_trans (need_mono Finset.subset_union_left) hroom
    obtain ⟨x, a1, im1, heq1, hexec1, hl1⟩ := fileBlock_bmap h hc hT hd hi hfbn hroom1
    obtain ⟨a1', x', σ1, bs1, hdo1, hat1, hg1⟩ :=
      bmap_grows hc hT hi (by rw [MAXFILE_eq]; omega) hroom1
    have hsame := hexec1.symm.trans hdo1.exec
    simp only [Except.ok.injEq, Prod.mk.injEq, Inode.mk.injEq, Dinode.mk.injEq, true_and,
      and_true] at hsame
    obtain ⟨⟨rfl, rfl⟩, rfl⟩ := hsame
    have hmem := List.mem_toFinset.mpr (place_mem_branch ip.inum (off / BSIZE))
    have hleaf : Leaf sb (place ip.inum (off / BSIZE)) := leaf_place hi _
    have hlive := hg1.consistent.live hleaf.valid (hg1.full _ hmem)
    rw [hat1] at hlive
    have hread : im1.contents sb x = im1.disk x := marked_data hlive.1
    have hw := hl1.fresh.write hlive.1 (lt_freeblock hlive)
      (patch (im1.disk x) (off % BSIZE) (p.take m))
    have hg2 := hg1.write hmem hleaf (patch (im1.disk x) (off % BSIZE) (p.take m))
    rw [hat1, marked_update hlive.1] at hg2
    have hrest : Upper sb (pieceTree ip.inum (off + m) (n - m)) := upper_pieceTree hi _ _
    obtain ⟨a, im', heq, hexec, hl⟩ := @ih
      { im1 with disk := Function.update im1.disk x (patch (im1.disk x) (off % BSIZE) (p.take m)) }
      (Function.update T ip.inum a1) { ip with addrs := a1 } { din with addrs := a1 } (p.drop m)
      (off + m) (n - m) hw.fresh hg2.consistent (Function.update_self _ _ _) rfl hi (by omega)
      (by omega) (hg2.room hrest hroom)
    have hsum : off + m + (n - m) = off + n := by omega
    rw [hsum] at heq
    refine ⟨a, im', ?_, ?_, hl1.trans (hw.trans hl)⟩
    · dsimp only
      rw [heq1]
      show Image.appendLoop turns _ { din with addrs := a1 } _ _ _ = _
      rw [hn1, hoff]
      exact heq
    · rw [exec_bind _ hexec1]
      dsimp only
      show (writeLoop sb turns { ip with addrs := a1 } (p.drop m) (off + m) (n - m)).exec
        (Function.update (im1.contents sb) x
          (patch (im1.contents sb x) (off % BSIZE) (p.take m))) = _
      rw [hread, marked_update hlive.1]
      exact hexec

end Xv6.Fs
