import Mathlib.Algebra.Order.BigOperators.Group.Finset
import Xv6.Fs.Image

/-!
# What the image holds

Any sequence of calls of `ialloc` and `iappend` is followed to the bytes that the kernel
reads from the finished inodes.
-/

namespace Xv6.Fs
open Buffer Forest

/-- A call of main() in mkfs.c. -/
inductive Image.Call where
  | ialloc (type : BitVec 16)
  | iappend (inum : Nat) (p : List Byte)

namespace Image

def call (sb : Superblock) (im : Image) : Call → Except Fault Image
  | .ialloc type => .ok (im.ialloc sb type).2
  | .iappend inum p => im.iappend sb inum p

def calls (sb : Superblock) (im : Image) : List Call → Except Fault Image
  | [] => .ok im
  | c :: cs => do
    let im ← im.call sb c
    im.calls sb cs

/-- The calls are for inodes that `ialloc` has returned; `n` is the next one. -/
def Legal (sb : Superblock) : Nat → List Call → Prop
  | _, [] => True
  | n, .ialloc type :: cs => n < sb.ninodes ∧ type ≠ T_DEV ∧ Legal sb (n + 1) cs
  | n, .iappend inum _ :: cs => 0 < inum ∧ inum < n ∧ Legal sb n cs

/-- The bytes appended to inode `i`. -/
def appended (i : Nat) : List Call → List Byte
  | [] => []
  | .ialloc _ :: cs => appended i cs
  | .iappend inum p :: cs => if inum = i then p ++ appended i cs else appended i cs

/-- How many bytes the direct blocks and the single indirect block have. -/
def limit : Nat := (NDIRECT + NINDIRECT) * BSIZE

/-- The blocks of files with these bytes. -/
def blocks (sb : Superblock) (files : Nat → List Byte) : Nat :=
  ∑ i ∈ Finset.range sb.ninodes, (pieceTree i 0 (files i).length).card

/-- The files are in the image: what is in the blocks, and which places have one. -/
structure Holds (sb : Superblock) (T : AddrTable) (im : Image) (files : Nat → List Byte) :
    Prop where
  fresh : im.Fresh sb
  room : im.freeblock ≤ sb.size
  consistent : Consistent sb T (im.contents sb)
  addrs : ∀ i, i < sb.ninodes → (dinode sb im.disk i).addrs = T i
  type : ∀ i, i < sb.ninodes → (dinode sb im.disk i).type ≠ T_DEV
  size : ∀ i, i < sb.ninodes → (dinode sb im.disk i).size.toNat = (files i).length
  fits : ∀ i, (files i).length ≤ limit
  new : ∀ i, im.freeinode ≤ i → files i = []
  inodes : ∀ i, 0 < i → i < im.freeinode → i < sb.ninodes
  present : ∀ p, (shape sb).Valid p →
    (blockAt T (im.contents sb) p ≠ 0 ↔ p ∈ pieceTree p.1.1 0 (files p.1.1).length)
  bytes : ∀ i, i < sb.ninodes → fileBytes T (im.contents sb) i 0 (files i).length = files i
  count : im.freeblock = sb.datastart + blocks sb files

end Image

open Image

variable {sb : Superblock} {im im' : Image} {T : AddrTable} {σ : Contents} {i j n : Nat}
  {files : Nat → List Byte} {cs : List Call} {α : Type}

theorem limit_eq : limit = 68608 := rfl

theorem limit_le : limit ≤ MAXFILE * BSIZE := by
  rw [MAXFILE_BSIZE, limit_eq]
  omega

/-! ### Inodes of the image -/

theorem marked_updated (hi : i < sb.ninodes) (d : Dinode) :
    marked sb (updated sb σ i d) n = updated sb (marked sb σ n) i d := by
  have hlow := Superblock.iblock_lt hi
  have hread : marked sb σ n (sb.iblock i) = σ (sb.iblock i) := marked_low hlow
  unfold updated
  rw [hread]
  funext b
  by_cases hb : b = sb.iblock i
  · rw [hb, marked_low hlow, Function.update_self, Function.update_self]
  · unfold marked
    rw [Function.update_of_ne hb, Function.update_of_ne hb]

theorem contents_winode (hi : i < sb.ninodes) (d : Dinode) :
    (im.winode sb i d).contents sb = updated sb (im.contents sb) i d := marked_updated hi d

theorem Image.Fresh.winode (h : im.Fresh sb) (hi : i < sb.ninodes) (d : Dinode) :
    (im.winode sb i d).Fresh sb where
  start := h.start
  zero b hb := by
    have hle := h.start
    have hlt := sb.bmapstart_lt_datastart
    have hb' : im.freeblock ≤ b := hb
    exact (updated_high hi d (by omega)).trans (h.zero b hb)

/-- The bytes of a file do not depend on the inode blocks. -/
theorem fileBytes_low {σ' : Contents} (h : Consistent sb T σ)
    (hlow : ∀ b, sb.bmapstart ≤ b → σ' b = σ b) (hj : j < sb.ninodes) {size : Nat}
    (hh : ∀ o, o < size → Present T σ j o) :
    fileBytes T σ' j 0 size = fileBytes T σ j 0 size := by
  have hmap := h.sameMap_low hlow
  apply fileBytes_congr
  intro o _ ho
  have hleaf : Leaf sb (place j (o / BSIZE)) := leaf_place hj _
  have hlive := h.live hleaf.valid (hh o (by omega))
  have hlt := sb.bmapstart_lt_datastart
  unfold fileByte
  rw [hmap.blockAt_eq hleaf.valid, hlow _ (Nat.le_trans (Nat.le_of_lt hlt) hlive.1)]

theorem mem_pieceTree_place {o : Nat} (ho : o < n) : place i (o / BSIZE) ∈ pieceTree i 0 n :=
  mem_pieceTree.mpr ⟨o, Nat.zero_le _, by omega, place_mem_branch _ _⟩

theorem inum_of_mem_pieceTree {p : Place} {off : Nat} (h : p ∈ pieceTree i off n) : p.1.1 = i := by
  obtain ⟨o, -, -, hp⟩ := mem_pieceTree.mp h
  obtain ⟨js, -, rfl⟩ := List.mem_map.mp hp
  rfl

theorem Image.Holds.found (h : Holds sb T im files) (hi : i < sb.ninodes) {o : Nat}
    (ho : o < (files i).length) : Present T (im.contents sb) i o := by
  have hleaf : Leaf sb (place i (o / BSIZE)) := leaf_place hi _
  exact (h.present _ hleaf.valid).mpr (mem_pieceTree_place ho)

theorem pieceTree_add {off : Nat} (m : Nat) :
    pieceTree i 0 (off + m) = pieceTree i 0 off ∪ pieceTree i off m := by
  ext p
  rw [Finset.mem_union, mem_pieceTree, mem_pieceTree, mem_pieceTree]
  constructor
  · rintro ⟨o, -, ho, hp⟩
    by_cases hlt : o < off
    · exact Or.inl ⟨o, Nat.zero_le _, by omega, hp⟩
    · exact Or.inr ⟨o, by omega, by omega, hp⟩
  · rintro (⟨o, -, ho, hp⟩ | ⟨o, -, ho, hp⟩)
    · exact ⟨o, Nat.zero_le _, by omega, hp⟩
    · exact ⟨o, Nat.zero_le _, by omega, hp⟩

theorem pieceTree_mono {m : Nat} (h : n ≤ m) : pieceTree i 0 n ⊆ pieceTree i 0 m := by
  obtain ⟨k, rfl⟩ := Nat.exists_eq_add_of_le h
  rw [pieceTree_add]
  exact Finset.subset_union_left

/-- The blocks that are missing when `m` bytes are appended. -/
theorem Image.Holds.card_add (h : Holds sb T im files) (hi : i < sb.ninodes) (m : Nat) :
    (pieceTree i 0 ((files i).length + m)).card = (pieceTree i 0 (files i).length).card +
      need (pieceTree i (files i).length m) T (im.contents sb) := by
  have hsplit : pieceTree i 0 ((files i).length + m) = pieceTree i 0 (files i).length ∪
      (pieceTree i (files i).length m).filter fun p => blockAt T (im.contents sb) p = 0 := by
    rw [pieceTree_add]
    ext p
    rw [Finset.mem_union, Finset.mem_union, Finset.mem_filter]
    constructor
    · rintro (hp | hp)
      · exact Or.inl hp
      · have hvalid := (upper_pieceTree hi _ _).valid p hp
        have hpres := h.present p hvalid
        rw [inum_of_mem_pieceTree hp] at hpres
        by_cases h0 : blockAt T (im.contents sb) p = 0
        · exact Or.inr ⟨hp, h0⟩
        · exact Or.inl (hpres.mp h0)
    · rintro (hp | ⟨hp, -⟩)
      · exact Or.inl hp
      · exact Or.inr hp
  rw [hsplit, Finset.card_union_of_disjoint, need]
  rw [Finset.disjoint_left]
  intro p hp hp'
  have hvalid := (upper_pieceTree hi _ _).valid p hp
  have hpres := h.present p hvalid
  rw [inum_of_mem_pieceTree hp] at hpres
  exact hpres.mpr hp (Finset.mem_filter.mp hp').2

theorem length_freeList_marked :
    (freeList sb (marked sb σ n)).length = sb.size - n := by
  have heq : ((Finset.range sb.size).filter fun b => bit sb (marked sb σ n) b = false)
      = Finset.Ico n sb.size := by
    ext b
    rw [Finset.mem_filter, Finset.mem_range, Finset.mem_Ico]
    constructor
    · rintro ⟨hb, hbit⟩
      rw [bit_marked hb, decide_eq_false_iff_not] at hbit
      omega
    · rintro ⟨hn, hb⟩
      rw [bit_marked hb, decide_eq_false_iff_not]
      omega
  rw [length_freeList, freeBlocks, heq, Nat.card_Ico]

theorem blocks_update (hi : i < sb.ninodes) (f : List Byte) {k : Nat}
    (h : (pieceTree i 0 f.length).card = (pieceTree i 0 (files i).length).card + k) :
    blocks sb (Function.update files i f) = blocks sb files + k := by
  have hmem : i ∈ Finset.range sb.ninodes := Finset.mem_range.mpr hi
  unfold blocks
  rw [← Finset.add_sum_erase _ _ hmem, ← Finset.add_sum_erase _ _ hmem, Function.update_self, h]
  have hrest : ∀ j ∈ (Finset.range sb.ninodes).erase i,
      (pieceTree j 0 (Function.update files i f j).length).card
        = (pieceTree j 0 (files j).length).card := by
    intro j hj
    rw [Function.update_of_ne (Finset.ne_of_mem_erase hj)]
  rw [Finset.sum_congr rfl hrest]
  omega

theorem blocks_mono {files' : Nat → List Byte} (h : ∀ i, (files i).length ≤ (files' i).length) :
    blocks sb files ≤ blocks sb files' := by
  apply Finset.sum_le_sum
  intro i _
  exact Finset.card_le_card (pieceTree_mono (h i))

/-! ### One call -/

/-- The call has changed the inode block of `i` and the blocks of the file `i` only. -/
def Own (sb : Superblock) (i : Nat) (im im' : Image) : Prop :=
  ∀ b, im'.disk b ≠ im.disk b → b = sb.iblock i ∨
    ∃ T, T i = (dinode sb im'.disk i).addrs ∧ ∃ p : Place, (shape sb).Valid p ∧ p.1.1 = i ∧
      blockAt T im'.disk p = b

/-- Reading in the image or in the image with its free map is the same. -/
theorem blockAt_contents (h : Consistent sb T (im.contents sb)) {p : Place}
    (hp : (shape sb).Valid p) : blockAt T im.disk p = blockAt T (im.contents sb) p := by
  refine ref_congr (forest_root T _ _ p.1) (fun js hin h0 k => ?_) hp
  have hlive := h.live (p := (p.1, js)) hin.valid h0
  have hread : im.contents sb ((forest T (im.contents sb)).ref p.1 js)
      = im.disk ((forest T (im.contents sb)).ref p.1 js) := marked_data hlive.1
  rw [forest_child, forest_child, hread]

/-- What the loop writes is logged by `writei`. -/
theorem own_winode {T' : AddrTable} {p : Op α} {x : α} {S E : Finset Place} {bs : Finset Nat} (hi : i < sb.ninodes)
    (hg : Grows sb S E T (im.contents sb) T' (im'.contents sb) bs)
    (hdo : Does p (im.contents sb) x (im'.contents sb) bs) (hlater : im.Later sb im')
    (hS : ∀ q ∈ S, q.1.1 = i) {d : Dinode} (hd : d.addrs = T' i) :
    Own sb i im (im'.winode sb i d) := by
  intro b hb
  by_cases hib : b = sb.iblock i
  · exact Or.inl hib
  refine Or.inr ⟨T', ?_, ?_⟩
  · have hself : dinode sb (im'.winode sb i d).disk i = d := dinode_updated_self d
    rw [hself, hd]
  have hne : im'.disk b ≠ im.disk b := by
    intro heq
    have hupd : (im'.winode sb i d).disk b = im'.disk b := Function.update_of_ne hib _ _
    exact hb (hupd.trans heq)
  have hhigh : sb.datastart ≤ b := by
    by_contra hlt
    exact hne (hlater.low b (by omega))
  have hmem : b ∈ bs := by
    by_contra hnot
    rw [← hdo.logs] at hnot
    have heq := eq_of_not_mem_logs hdo.exec hnot
    have h1 : im'.contents sb b = im'.disk b := marked_data hhigh
    have h2 : im.contents sb b = im.disk b := marked_data hhigh
    exact hne (h1.symm.trans (heq.trans h2))
  rcases (hg.logs b).mp hmem with ⟨x, hx, rfl⟩ | ⟨q, hq, -, rfl⟩
  · have hlt := Superblock.bblock_lt (mem_freeList.mp (List.mem_of_mem_take hx)).1
    omega
  · have hvalid := hg.upper.valid q hq
    refine ⟨q, hvalid, hS q hq, ?_⟩
    have hmap := hg.consistent.sameMap_updated hi d
    have hc := hmap.consistent hg.consistent
    rw [← contents_winode hi] at hc
    rw [blockAt_contents hc hvalid, contents_winode hi, hmap.blockAt_eq hvalid]

/-- The loop has appended `p` to the file of `ip`. -/
theorem Image.Holds.winode (ip : Inode) {a : Fin 9 → BitVec 32} {E : Finset Place}
    {bs : Finset Nat} {p : List Byte} {d : Dinode} (h : Holds sb T im files)
    (hi : ip.inum < sb.ninodes) (hnew : ip.inum < im.freeinode) (hlater : im.Later sb im')
    (hfits : (files ip.inum ++ p).length ≤ limit)
    (hneed : need (pieceTree ip.inum (files ip.inum).length p.length) T (im.contents sb)
      ≤ (freeList sb (im.contents sb)).length)
    (hg : Grows sb (pieceTree ip.inum (files ip.inum).length p.length) E T (im.contents sb)
      (Function.update T ip.inum a) (im'.contents sb) bs)
    (hw : Wrote sb (pieceTree ip.inum (files ip.inum).length p.length) T (im.contents sb) ip p
      (files ip.inum).length p.length { ip with addrs := a } (im'.contents sb))
    (hd : d = { dinode sb im.disk ip.inum with
      addrs := a, size := BitVec.ofNat 32 ((files ip.inum).length + p.length) }) :
    Holds sb (Function.update T ip.inum a) (im'.winode sb ip.inum d)
      (Function.update files ip.inum (files ip.inum ++ p)) := by
  have hlen : (files ip.inum ++ p).length = (files ip.inum).length + p.length :=
    List.length_append
  have hlimit := limit_eq
  have hMAX := limit_le
  have hmap := hg.consistent.sameMap_updated hi d
  have hself : dinode sb (im'.winode sb ip.inum d).disk ip.inum = d := dinode_updated_self d
  have hother : ∀ j, j ≠ ip.inum → j < sb.ninodes →
      dinode sb (im'.winode sb ip.inum d).disk j = dinode sb im.disk j := by
    intro j hj hjn
    have h1 := Superblock.iblock_lt hjn
    have h2 := sb.bmapstart_lt_datastart
    exact (dinode_updated_ne d hj).trans (dinode_congr (hlater.low _ (by omega)))
  have hpres : ∀ q, (shape sb).Valid q →
      (blockAt (Function.update T ip.inum a) (im'.contents sb) q ≠ 0 ↔ q ∈ pieceTree q.1.1 0
        (Function.update files ip.inum (files ip.inum ++ p) q.1.1).length) := by
    intro q hq
    have hbefore := h.present q hq
    have hempty := hg.empty_iff hq
    by_cases hqi : q.1.1 = ip.inum
    · rw [hqi] at hbefore ⊢
      rw [Function.update_self, hlen, pieceTree_add, Finset.mem_union]
      grind
    · have hnot : q ∉ pieceTree ip.inum (files ip.inum).length p.length :=
        fun hmem => hqi (inum_of_mem_pieceTree hmem)
      rw [Function.update_of_ne hqi]
      grind
  have hthere : ∀ j, j < sb.ninodes → ∀ o,
      o < (Function.update files ip.inum (files ip.inum ++ p) j).length →
      Present (Function.update T ip.inum a) (im'.contents sb) j o := by
    intro j hj o ho
    have hleaf : Leaf sb (place j (o / BSIZE)) := leaf_place hj _
    exact (hpres _ hleaf.valid).mpr (mem_pieceTree_place ho)
  have hnext : (im'.winode sb ip.inum d).freeinode = im.freeinode := hlater.freeinode
  refine ⟨hlater.fresh.winode hi d, hlater.room h.room, ?_, ?_, ?_, ?_, ?_, ?_, ?_, ?_, ?_, ?_⟩
  · rw [contents_winode hi]
    exact hmap.consistent hg.consistent
  · intro j hj
    by_cases hji : j = ip.inum
    · rw [hji, hself, hd, Function.update_self]
    · rw [hother j hji hj, h.addrs j hj, Function.update_of_ne hji]
  · intro j hj
    by_cases hji : j = ip.inum
    · rw [hji, hself, hd]
      exact h.type _ hi
    · rw [hother j hji hj]
      exact h.type j hj
  · intro j hj
    by_cases hji : j = ip.inum
    · rw [hji, hself, hd, Function.update_self, hlen]
      show (BitVec.ofNat 32 _).toNat = _
      rw [BitVec.toNat_ofNat]
      omega
    · rw [hother j hji hj, Function.update_of_ne hji]
      exact h.size j hj
  · intro j
    by_cases hji : j = ip.inum
    · rw [hji, Function.update_self]
      exact hfits
    · rw [Function.update_of_ne hji]
      exact h.fits j
  · intro j hj
    rw [hnext] at hj
    rw [Function.update_of_ne (by omega)]
    exact h.new j hj
  · intro j h0 hj
    rw [hnext] at hj
    exact h.inodes j h0 hj
  · intro q hq
    rw [contents_winode hi, hmap.blockAt_eq hq]
    exact hpres q hq
  · intro j hj
    rw [contents_winode hi,
      fileBytes_low hg.consistent (fun b hb => updated_high hi d hb) hj (hthere j hj)]
    by_cases hji : j = ip.inum
    · have hh : NoHoles T (im.contents sb) ip.inum (files ip.inum).length :=
        ⟨by omega, fun o ho => h.found hi ho⟩
      have hbytes := hw.contents hi rfl (Nat.le_refl _) (by omega) hh
      rw [Nat.max_eq_right (Nat.le_add_right _ _), h.bytes _ hi] at hbytes
      rw [hji, Function.update_self, hlen, hbytes, patched, List.take_length,
        List.drop_of_length_le (Nat.le_add_right _ _), List.append_nil]
    · rw [Function.update_of_ne hji]
      have hle := h.fits j
      have hsame : fileBytes (Function.update T ip.inum a) (im'.contents sb) j 0 (files j).length
          = fileBytes T (im.contents sb) j 0 (files j).length := by
        apply fileBytes_congr
        intro o _ ho
        exact hw.ext.fileByte_eq hj (h.found hj (by omega))
          (not_dirty (by omega) (by omega) (Or.inl hji))
      rw [hsame, h.bytes j hj]
  · have hcard := h.card_add hi p.length
    have hblocks := blocks_update hi (files ip.inum ++ p) (by rw [hlen]; exact hcard)
    have hcount := h.count
    have hle := h.room
    have hroom := hlater.room hle
    have hbefore : (freeList sb (im.contents sb)).length = sb.size - im.freeblock :=
      length_freeList_marked
    have hafter : (freeList sb (im'.contents sb)).length = sb.size - im'.freeblock :=
      length_freeList_marked
    have hlength := congrArg List.length hg.free
    rw [List.length_drop] at hlength
    show im'.freeblock = _
    omega

theorem Image.Holds.need_le (h : Holds sb T im files) (hi : i < sb.ninodes) {p : List Byte}
    (hroom : blocks sb (Function.update files i (files i ++ p)) ≤ sb.size - sb.datastart) :
    need (pieceTree i (files i).length p.length) T (im.contents sb)
      ≤ (freeList sb (im.contents sb)).length := by
  have hlen : (files i ++ p).length = (files i).length + p.length := List.length_append
  have hcard := h.card_add hi p.length
  have hblocks := blocks_update hi (files i ++ p) (by rw [hlen]; exact hcard)
  have hcount := h.count
  have hfree : (freeList sb (im.contents sb)).length = sb.size - im.freeblock :=
    length_freeList_marked
  omega

/-- The inode as the kernel would have it. -/
def Image.inode (sb : Superblock) (im : Image) (i : Nat) : Inode :=
  { dinode sb im.disk i with inum := i, ref := 1, locked := true, valid := true, path := fun _ => 0 }

/-- `iappend` fills blocks as `writei` does, and then writes the inode. -/
theorem Image.Holds.appends (h : Holds sb T im files) (hi : i < sb.ninodes) {p : List Byte} {off : Nat}
    (hoff : (files i).length = off) (hfits : off + p.length ≤ limit)
    (hneed : need (pieceTree i off p.length) T (im.contents sb)
      ≤ (freeList sb (im.contents sb)).length) :
    ∃ a im1 bs, im.iappend sb i p = .ok (im1.winode sb i { dinode sb im.disk i with
        addrs := a, size := BitVec.ofNat 32 (off + p.length) }) ∧ im.Later sb im1 ∧
      Does (writeLoop sb p.length (im.inode sb i) p off p.length) (im.contents sb)
        { im.inode sb i with addrs := a } (im1.contents sb) bs ∧
      Grows sb (pieceTree i off p.length) (pieces i off p.length) T (im.contents sb)
        (Function.update T i a) (im1.contents sb) bs ∧
      Wrote sb (pieceTree i off p.length) T (im.contents sb) (im.inode sb i) p off p.length
        { im.inode sb i with addrs := a } (im1.contents sb) := by
  have hlimit := limit_eq
  have hMAX := limit_le
  have hsize : (dinode sb im.disk i).size.toNat = off := (h.size i hi).trans hoff
  have hT : T (im.inode sb i).inum = (im.inode sb i).addrs := (h.addrs i hi).symm
  have hi' : (im.inode sb i).inum < sb.ninodes := hi
  have hd : (dinode sb im.disk i).addrs = (im.inode sb i).addrs := rfl
  obtain ⟨a, im1, happ, hexec, hlater⟩ := appendLoop_writeLoop p.length p h.fresh
    h.consistent hT hd hi' (Nat.le_refl _) hfits hneed
  obtain ⟨a', τ, bs, hdo, hg⟩ := writeLoop_grows p.length p h.consistent hT
    hi' (Nat.le_refl _) (show off + p.length ≤ MAXFILE * BSIZE by omega) hneed
  have hsame := hexec.symm.trans hdo.exec
  simp only [Except.ok.injEq, Prod.mk.injEq, Inode.mk.injEq, Dinode.mk.injEq, true_and,
    and_true] at hsame
  obtain ⟨rfl, rfl⟩ := hsame
  have hroom : (fun _ : Panic => False) .outOfBlocks ∨
      need (pieceTree i off p.length) T (im.contents sb) ≤ freeBlocks sb (im.contents sb) := by
    rw [← length_freeList]
    exact Or.inr hneed
  have hbranch : ∀ o, off ≤ o → o < off + p.length → ∀ q ∈ branch i (o / BSIZE),
      q ∈ pieceTree i off p.length := fun o ho ho' q hq => mem_pieceTree.mpr ⟨o, ho, ho', hq⟩
  have hw := wp_result (writeLoop_spec (H := fun _ => False) p.length h.consistent hT hi'
    (Nat.le_refl _) rfl (by omega) (upper_pieceTree hi _ _).valid hbranch hroom) hexec
  refine ⟨a, im1, bs, ?_, hlater, hdo, hg, hw⟩
  unfold Image.iappend rinode
  dsimp only
  rw [hsize, happ]
  rfl

theorem Image.Holds.iappend (h : Holds sb T im files) (h0 : 0 < i) (hnew : i < im.freeinode) {p : List Byte}
    (hfits : (files i ++ p).length ≤ limit)
    (hroom : blocks sb (Function.update files i (files i ++ p)) ≤ sb.size - sb.datastart) :
    ∃ T' im', im.iappend sb i p = .ok im' ∧ im'.freeinode = im.freeinode ∧ Own sb i im im' ∧
      Holds sb T' im' (Function.update files i (files i ++ p)) := by
  have hi := h.inodes i h0 hnew
  have hlen : (files i ++ p).length = (files i).length + p.length := List.length_append
  have hneed := h.need_le hi hroom
  obtain ⟨a, im1, bs, happ, hlater, hdo, hg, hw⟩ :=
    h.appends hi rfl (by rw [← hlen]; exact hfits) hneed
  refine ⟨Function.update T i a, _, happ, hlater.freeinode, ?_, ?_⟩
  · exact own_winode hi hg hdo hlater (fun q hq => inum_of_mem_pieceTree hq)
      (Function.update_self i a T).symm
  · exact h.winode (im.inode sb i) hi hnew hlater hfits hneed hg hw rfl

theorem dinode_zeroed_ne (h : j ≠ i) :
    dinode sb (im.zeroed sb i).disk j = dinode sb im.disk j := by
  unfold dinode zeroed
  by_cases hb : sb.iblock j = sb.iblock i
  · have hd := dip_ne (iblock_mod_ne hb h)
    dsimp only
    rw [hb, Function.update_self]
    apply decodeDinode_congr
    intro k _ _
    exact byteAt_patch_of_not_mem _ _ _ (by rw [List.length_replicate]; omega)
  · dsimp only
    rw [Function.update_of_ne hb]

theorem Image.Holds.addrs_new (h : Holds sb T im files) (hi : i < sb.ninodes)
    (hf : files i = []) : T i = fun _ => 0 := by
  funext k
  have hpres := h.present ((i, k), []) ⟨hi, Nat.zero_le _⟩
  rw [hf] at hpres
  by_contra hne
  have hmem := hpres.mp fun h0 => hne (toNat_eq_zero.mp h0)
  obtain ⟨o, -, ho, -⟩ := mem_pieceTree.mp hmem
  exact absurd ho (Nat.not_lt_zero o)

theorem Image.Holds.ialloc {type : BitVec 16} (h : Holds sb T im files)
    (hi : im.freeinode < sb.ninodes) (htype : type ≠ T_DEV) :
    Holds sb T (im.ialloc sb type).2 files := by
  have hf := h.new im.freeinode (Nat.le_refl _)
  have hself : dinode sb (im.ialloc sb type).2.disk im.freeinode
      = { Dinode.zero with type := type, nlink := 1 } := dinode_updated_self _
  have hother : ∀ j, j ≠ im.freeinode →
      dinode sb (im.ialloc sb type).2.disk j = dinode sb im.disk j := by
    intro j hj
    exact (dinode_updated_ne _ hj).trans (dinode_zeroed_ne hj)
  have hlow : ∀ b, sb.bmapstart ≤ b → (im.ialloc sb type).2.disk b = im.disk b := by
    intro b hb
    have hlt := Superblock.iblock_lt hi
    exact (updated_high hi _ hb).trans (Function.update_of_ne (by omega) _ _)
  have hlow' : ∀ b, sb.bmapstart ≤ b →
      (im.ialloc sb type).2.contents sb b = im.contents sb b := by
    intro b hb
    show marked sb _ im.freeblock b = marked sb _ im.freeblock b
    unfold marked
    rw [hlow b hb]
  have hmap := h.consistent.sameMap_low hlow'
  have hstart := h.fresh.start
  have hlt := sb.bmapstart_lt_datastart
  refine ⟨⟨hstart, fun b hb => ?_⟩, h.room, hmap.consistent h.consistent, ?_, ?_, ?_, h.fits,
    ?_, ?_, ?_, ?_, h.count⟩
  · have hb' : im.freeblock ≤ b := hb
    rw [hlow b (by omega)]
    exact h.fresh.zero b hb
  · intro j hj
    by_cases hji : j = im.freeinode
    · rw [hji, hself, h.addrs_new hi hf]
      rfl
    · rw [hother j hji]
      exact h.addrs j hj
  · intro j hj
    by_cases hji : j = im.freeinode
    · rw [hji, hself]
      exact htype
    · rw [hother j hji]
      exact h.type j hj
  · intro j hj
    by_cases hji : j = im.freeinode
    · rw [hji, hself, hf]
      rfl
    · rw [hother j hji]
      exact h.size j hj
  · intro j hj
    have hj' : im.freeinode + 1 ≤ j := hj
    exact h.new j (by omega)
  · intro j h0 hj
    have hj' : j < im.freeinode + 1 := hj
    by_cases hji : j = im.freeinode
    · rw [hji]
      exact hi
    · exact h.inodes j h0 (by omega)
  · intro p hp
    rw [hmap.blockAt_eq hp]
    exact h.present p hp
  · intro j hj
    rw [fileBytes_low h.consistent hlow' hj fun o ho => h.found hj ho]
    exact h.bytes j hj

theorem Image.holds_formatted (sb : Superblock) :
    Holds sb noAddrs (formatted sb) fun _ => [] := by
  have hdinode : ∀ i, dinode sb (formatted sb).disk i = Dinode.zero := fun i => decodeDinode_zero i
  have hempty : ∀ i, pieceTree i 0 ([] : List Byte).length = ∅ := fun _ => rfl
  refine ⟨⟨Nat.le_refl _, fun _ _ => rfl⟩, sb.bitmap_le, consistent_noAddrs fun b => bit_marked,
    ?_, ?_, ?_, fun _ => Nat.zero_le _, fun _ _ => rfl, ?_, ?_, fun _ _ => rfl, ?_⟩
  · intro i _
    rw [hdinode]
    rfl
  · intro i _
    rw [hdinode]
    decide
  · intro i _
    rw [hdinode]
    rfl
  · intro i h0 hi
    have hi' : i < 1 := hi
    omega
  · intro p _
    rw [blockAt_noAddrs, hempty]
    simp
  · unfold blocks
    simp only [hempty, Finset.card_empty, Finset.sum_const_zero]
    rfl

/-! ### All calls -/

theorem update_append (p : List Byte) (cs : List Call) :
    (fun j => Function.update files i (files i ++ p) j ++ appended j cs)
      = fun j => files j ++ appended j (.iappend i p :: cs) := by
  funext j
  by_cases hji : j = i
  · rw [hji, Function.update_self, appended, if_pos rfl, List.append_assoc]
  · rw [Function.update_of_ne hji, appended, if_neg (Ne.symm hji)]

theorem length_update_le (p : List Byte) (cs : List Call) (j : Nat) :
    (Function.update files i (files i ++ p) j).length
      ≤ (files j ++ appended j (.iappend i p :: cs)).length := by
  have h : Function.update files i (files i ++ p) j ++ appended j cs
      = files j ++ appended j (.iappend i p :: cs) := congrFun (update_append p cs) j
  rw [← h, List.length_append]
  exact Nat.le_add_right _ _

theorem Image.calls_holds (cs : List Call) {rest : List Call} (h : Holds sb T im files)
    (hlegal : Legal sb im.freeinode (cs ++ rest))
    (hfits : ∀ i, (files i ++ appended i cs).length ≤ limit)
    (hroom : blocks sb (fun i => files i ++ appended i cs) ≤ sb.size - sb.datastart) :
    ∃ T' im', im.calls sb cs = .ok im' ∧ Legal sb im'.freeinode rest ∧
      Holds sb T' im' fun i => files i ++ appended i cs := by
  induction cs generalizing im T files with
  | nil =>
    simp only [appended, List.append_nil] at *
    exact ⟨T, im, rfl, hlegal, h⟩
  | cons c cs ih =>
    cases c with
    | ialloc type =>
      obtain ⟨hi, htype, hlater⟩ := hlegal
      exact ih (h.ialloc hi htype) hlater hfits hroom
    | iappend i p =>
      obtain ⟨h0, hi, hlater⟩ := hlegal
      have hle : ∀ j, (Function.update files i (files i ++ p) j).length
          ≤ (files j ++ appended j (.iappend i p :: cs)).length := length_update_le p cs
      have hlen := hle i
      rw [Function.update_self] at hlen
      obtain ⟨T', im', happ, hnext, -, h'⟩ := h.iappend h0 hi (Nat.le_trans hlen (hfits i))
        (Nat.le_trans (blocks_mono hle) hroom)
      rw [← hnext] at hlater
      rw [← update_append] at hroom ⊢
      obtain ⟨T'', im'', hcalls, hlegal', h''⟩ := ih h' hlater
        (fun j => by rw [congrFun (update_append p cs) j]; exact hfits j) hroom
      refine ⟨T'', im'', ?_, hlegal', h''⟩
      unfold calls
      have hcall : im.call sb (.iappend i p) = .ok im' := happ
      rw [hcall]
      exact hcalls

/-! ### Files that are too long -/

theorem fileBlock_ok (im : Image) (din : Dinode) {fbn : Nat} (h : fbn < 134) :
    ∃ r, im.fileBlock din fbn = .ok r := by
  have e1 : NDIRECT = 6 := rfl
  have e2 : NINDIRECT = 128 := rfl
  unfold fileBlock
  rw [if_neg (by rw [MAXFILE_eq]; omega)]
  by_cases h1 : fbn < NDIRECT
  · rw [if_pos h1]
    exact ⟨_, rfl⟩
  · rw [if_neg h1]
    dsimp only
    rw [if_neg (by omega)]
    exact ⟨_, rfl⟩

/-- The assertion lets the first block behind the single indirect block pass. -/
theorem fileBlock_outOfBounds (im : Image) (din : Dinode) :
    im.fileBlock din 134 = .error .outOfBounds := by
  have e1 : NDIRECT = 6 := rfl
  have e2 : NINDIRECT = 128 := rfl
  unfold fileBlock
  rw [if_neg (by rw [MAXFILE_eq]; omega), if_neg (by omega)]
  dsimp only
  rw [if_pos (by omega)]

theorem appendLoop_outOfBounds (turns : Nat) (im : Image) (din : Dinode) (p : List Byte)
    {off : Nat} (hn : n ≤ turns) (hoff : off ≤ limit) (hbig : limit < off + n) :
    appendLoop turns im din p off n = .error .outOfBounds := by
  have hlimit := limit_eq
  have hB := BSIZE_eq
  induction turns generalizing im din p off n with
  | zero => omega
  | succ turns ih =>
    unfold appendLoop
    rw [if_neg (by omega)]
    dsimp only
    by_cases hend : off = limit
    · have hfbn : off / BSIZE = 134 := by
        rw [hend, hB]
        omega
      rw [hfbn, fileBlock_outOfBounds]
      rfl
    · have hfbn : off / BSIZE < 134 := by
        rw [hB]
        omega
      obtain ⟨r, hr⟩ := fileBlock_ok im din hfbn
      rw [hr]
      have hstep : 0 < min n ((off / BSIZE + 1) * BSIZE - off) ∧
          off + min n ((off / BSIZE + 1) * BSIZE - off) ≤ limit := by
        rw [hB]
        omega
      have hle : min n ((off / BSIZE + 1) * BSIZE - off) ≤ n := Nat.min_le_left _ _
      exact ih _ _ _ (by omega) (by omega) (by omega)

theorem Image.calls_outOfBounds (cs : List Call) (h : Holds sb T im files)
    (hlegal : Legal sb im.freeinode cs)
    (hroom : blocks sb (fun i => files i ++ appended i cs) ≤ sb.size - sb.datastart)
    (hbig : limit < (files j ++ appended j cs).length) :
    im.calls sb cs = .error .outOfBounds := by
  induction cs generalizing im T files with
  | nil =>
    have hfits := h.fits j
    simp only [appended, List.append_nil] at hbig
    omega
  | cons c cs ih =>
    cases c with
    | ialloc type =>
      obtain ⟨hi, htype, hrest⟩ := hlegal
      exact ih (h.ialloc hi htype) hrest hroom hbig
    | iappend i p =>
      obtain ⟨h0, hi, hrest⟩ := hlegal
      unfold calls
      by_cases hfits : (files i ++ p).length ≤ limit
      · obtain ⟨T', im', happ, hnext, -, h'⟩ := h.iappend h0 hi hfits
          (Nat.le_trans (blocks_mono (length_update_le p cs)) hroom)
        have hcall : im.call sb (.iappend i p) = .ok im' := happ
        rw [hcall]
        rw [← hnext] at hrest
        rw [← update_append] at hroom
        rw [← congrFun (update_append p cs) j] at hbig
        exact ih h' hrest hroom hbig
      · have hsize := h.size i (h.inodes i h0 hi)
        have hloop := appendLoop_outOfBounds p.length im (im.rinode sb i) p (Nat.le_refl _)
          (h.fits i) (by rw [← List.length_append]; omega)
        have hcall : im.call sb (.iappend i p) = .error .outOfBounds := by
          show im.iappend sb i p = _
          unfold Image.iappend rinode
          dsimp only
          rw [hsize]
          unfold rinode at hloop
          rw [hloop]
          rfl
        rw [hcall]
        rfl

/-! ### What the kernel reads -/

/-- The kernel reads `bs` from inode `i`. -/
def Reads (sb : Superblock) (devsw : Fin NDEV → Devsw) (σ : Contents) (i : Nat)
    (bs : List Byte) : Prop :=
  (dinode sb σ i).size.toNat = bs.length ∧ ∀ ip : Inode, ip.inum = i → ip.toDinode = dinode sb σ i →
    ∀ off n : BitVec 32, off.toNat ≤ bs.length → off.toNat + n.toNat < 4294967296 →
      (readi sb devsw ip off n).exec σ =
        .ok ((((min n.toNat (bs.length - off.toNat) : Nat) : Int),
          (bs.drop off.toNat).take n.toNat, ip), σ)

/-- The calls build an image from which the kernel reads for each inode the bytes
appended to it, and no call of `iappend` changes blocks that are not its inode's. -/
def Image.Faithful (sb : Superblock) (devsw : Fin NDEV → Devsw) (cs : List Call) : Prop :=
  (∃ im, (formatted sb).calls sb cs = .ok im ∧
    ∀ i, i < sb.ninodes → Reads sb devsw im.disk i (appended i cs)) ∧
  ∀ pre i p post, cs = pre ++ .iappend i p :: post →
    ∃ im im', (formatted sb).calls sb pre = .ok im ∧ im.iappend sb i p = .ok im' ∧ Own sb i im im'

theorem Image.Holds.reads (h : Holds sb T im files) (devsw : Fin NDEV → Devsw)
    (hi : i < sb.ninodes) : Reads sb devsw im.disk i (files i) := by
  have hsize := h.size i hi
  refine ⟨hsize, ?_⟩
  rintro ip rfl hip off n hoff hn
  have hat : ∀ o, blockAt T im.disk (place ip.inum (o / BSIZE))
      = blockAt T (im.contents sb) (place ip.inum (o / BSIZE)) :=
    fun o => blockAt_contents h.consistent (leaf_place hi _).valid
  have hipsize : ip.size.toNat = (files ip.inum).length := by rw [hip, hsize]
  have hT : T ip.inum = ip.addrs := by rw [hip, h.addrs _ hi]
  have hdev : ip.type ≠ T_DEV := by
    rw [hip]
    exact h.type _ hi
  have hfits := h.fits ip.inum
  have hholes : NoHoles T im.disk ip.inum ip.size.toNat := by
    rw [hipsize]
    refine ⟨Nat.le_trans hfits limit_le, fun o ho => ?_⟩
    unfold Present
    rw [hat o]
    exact h.found hi ho
  have hcontents : fileContents T im.disk ip = files ip.inum := by
    unfold fileContents
    rw [hipsize, ← h.bytes _ hi, length_fileBytes]
    apply fileBytes_congr
    intro o _ ho
    have hlive := h.consistent.live (leaf_place hi (o / BSIZE)).valid (h.found hi (by omega))
    have hread : im.contents sb (blockAt T (im.contents sb) (place ip.inum (o / BSIZE)))
        = im.disk (blockAt T (im.contents sb) (place ip.inum (o / BSIZE))) := marked_data hlive.1
    unfold fileByte
    rw [hat o, hread]
  have hread := readi_exec sb devsw off n hT hdev hholes (by omega) hn
  rw [hcontents, hipsize] at hread
  exact hread

theorem appended_append (pre post : List Call) :
    appended i (pre ++ post) = appended i pre ++ appended i post := by
  induction pre with
  | nil => rfl
  | cons c pre ih =>
    cases c with
    | ialloc type => exact ih
    | iappend j p =>
      simp only [List.cons_append, appended]
      split_ifs
      · rw [ih, List.append_assoc]
      · exact ih

/-- The image is what the kernel expects exactly if no file is longer than the direct
blocks and the single indirect block. -/
theorem faithful_iff (devsw : Fin NDEV → Devsw) (cs : List Call) (hlegal : Legal sb 1 cs)
    (hroom : blocks sb (fun i => appended i cs) ≤ sb.size - sb.datastart) :
    Faithful sb devsw cs ↔ ∀ i, (appended i cs).length ≤ limit := by
  have hstart := holds_formatted sb
  constructor
  · rintro ⟨⟨im, him, -⟩, -⟩ i
    by_contra hbig
    rw [calls_outOfBounds (j := i) cs hstart hlegal hroom (by rw [List.nil_append]; omega)] at him
    cases him
  intro hfits
  refine ⟨?_, ?_⟩
  · have hlegal' : Legal sb 1 (cs ++ []) := by
      rw [List.append_nil]
      exact hlegal
    obtain ⟨T, im, him, -, h⟩ := calls_holds cs hstart hlegal' hfits hroom
    exact ⟨im, him, fun i hi => h.reads devsw hi⟩
  · rintro pre i p post rfl
    have hsplit : ∀ j, appended j (pre ++ .iappend i p :: post)
        = (appended j pre ++ appended j [.iappend i p]) ++ appended j post := by
      intro j
      have hcons : pre ++ Call.iappend i p :: post = pre ++ [.iappend i p] ++ post :=
        (List.append_cons pre _ post)
      rw [hcons, appended_append, appended_append]
    have hpre : ∀ j, (appended j pre).length ≤ (appended j (pre ++ .iappend i p :: post)).length := by
      intro j
      rw [hsplit, List.append_assoc, List.length_append]
      exact Nat.le_add_right _ _
    obtain ⟨T, im, him, hnext, h⟩ := calls_holds pre hstart hlegal
      (fun j => Nat.le_trans (hpre j) (hfits j)) (Nat.le_trans (blocks_mono hpre) hroom)
    obtain ⟨h0, hi, -⟩ := hnext
    have hstep : ∀ j, (Function.update (fun j => [] ++ appended j pre) i
        (([] ++ appended i pre) ++ p) j).length
          ≤ (appended j (pre ++ .iappend i p :: post)).length := by
      intro j
      rw [hsplit, List.length_append]
      by_cases hji : j = i
      · rw [hji, Function.update_self]
        simp [appended]
      · rw [Function.update_of_ne hji]
        simp only [List.nil_append, List.length_append]
        omega
    have hown := hstep i
    rw [Function.update_self] at hown
    obtain ⟨T', im', happ, -, hO, -⟩ := h.iappend h0 hi (Nat.le_trans hown (hfits i))
      (Nat.le_trans (blocks_mono hstep) hroom)
    exact ⟨im, im', him, happ, hO⟩

/-- Two files, of which one is continued in its second block. -/
def twoInodes : List Call :=
  [.ialloc T_FILE, .iappend 1 (List.replicate 600 7), .ialloc T_FILE, .iappend 2 [104, 105],
    .iappend 1 [106]]

theorem faithful_iff_twoInodes : Faithful Superblock.mkfs (fun _ => ⟨none, none⟩) twoInodes := by
  have hlegal : Legal Superblock.mkfs 1 twoInodes :=
    ⟨by decide, by decide, by decide, by decide, by decide, by decide, by decide, by decide,
      by decide, by decide, trivial⟩
  refine (faithful_iff _ _ hlegal (by decide +kernel)).mpr fun i => ?_
  by_cases h1 : 1 = i
  · subst h1
    decide +kernel
  by_cases h2 : 2 = i
  · subst h2
    decide +kernel
  · unfold twoInodes
    rw [appended, appended, if_neg h1, appended, appended, if_neg h2, appended, if_neg h1, appended]
    exact Nat.zero_le _

/-- A file with one byte more than the direct blocks and the single indirect block have. -/
def longFile : List Call := [.ialloc T_FILE, .iappend 1 (List.replicate 68609 1)]

theorem appended_longFile : (fun i => appended i longFile)
    = Function.update (fun _ => []) 1 (List.replicate 68609 1) := by
  funext i
  show (if 1 = i then List.replicate 68609 1 ++ [] else []) = _
  by_cases hi : 1 = i
  · rw [if_pos hi, ← hi, Function.update_self, List.append_nil]
  · rw [if_neg hi, Function.update_of_ne (Ne.symm hi)]

theorem length_longFile (i : Nat) : (appended i longFile).length = if i = 1 then 68609 else 0 := by
  rw [congrFun appended_longFile i]
  by_cases hi : i = 1
  · rw [hi, Function.update_self, if_pos rfl, List.length_replicate]
  · rw [Function.update_of_ne hi, if_neg hi]
    rfl

theorem blocks_single (hi : i < sb.ninodes) (f : List Byte) :
    blocks sb (Function.update (fun _ => []) i f) = (pieceTree i 0 f.length).card := by
  have hnone : blocks sb (fun _ => []) = 0 := Finset.sum_eq_zero fun _ _ => rfl
  rw [blocks_update hi f (Nat.zero_add _).symm, hnone, Nat.zero_add]

theorem card_pieceTree_le (hn : 0 < n) :
    (pieceTree i 0 n).card
      ≤ ((List.range' 0 ((n - 1) / BSIZE + 1)).flatMap (branch i)).length := by
  rw [pieceTree_eq hn, Nat.zero_add, Nat.zero_div]
  exact List.toFinset_card_le _

theorem blocks_longFile : blocks Superblock.mkfs (fun i => appended i longFile) ≤ 540 := by
  rw [appended_longFile, blocks_single (by decide), List.length_replicate]
  exact Nat.le_trans (card_pieceTree_le (by decide)) (by decide +kernel)

theorem not_faithful :
    Legal Superblock.mkfs 1 longFile ∧
    blocks Superblock.mkfs (fun i => appended i longFile)
      ≤ Superblock.mkfs.size - Superblock.mkfs.datastart ∧
    (∀ i, (appended i longFile).length ≤ MAXFILE * BSIZE) ∧
    (formatted Superblock.mkfs).calls Superblock.mkfs longFile = .error .outOfBounds ∧
    ¬ Faithful Superblock.mkfs (fun _ => ⟨none, none⟩) longFile := by
  have hlegal : Legal Superblock.mkfs 1 longFile :=
    ⟨by decide, by decide, by decide, by decide, trivial⟩
  have hroom : blocks Superblock.mkfs (fun i => appended i longFile)
      ≤ Superblock.mkfs.size - Superblock.mkfs.datastart :=
    Nat.le_trans blocks_longFile (by decide)
  have hbig : limit < ([] ++ appended 1 longFile).length := by
    rw [List.nil_append, length_longFile]
    decide
  have herr := calls_outOfBounds longFile (holds_formatted _) hlegal hroom hbig
  refine ⟨hlegal, hroom, fun i => ?_, herr, ?_⟩
  · rw [length_longFile, MAXFILE_BSIZE]
    split_ifs <;> omega
  · rintro ⟨⟨im, him, -⟩, -⟩
    rw [herr] at him
    cases him

end Xv6.Fs
