import Xv6.Fs.Dirents
import Xv6.Fs.Main

/-!
# The root directory of the image (project3/mkfs.c:117-165, main)

`main` appends the entries of the root directory one by one. The rest of its last block stays
zero, so that the size that `main` gives the directory in the end adds empty entries only.
-/

namespace Xv6.Fs
open Buffer Forest Image

variable {sb : Superblock} {devsw : Fin NDEV → Devsw} {im im' : Image} {T T' : AddrTable}
  {σ : Contents} {i j n : Nat} {content content' : Nat → List Byte} {files : List ArgFile}
  {p : List Byte}

/-! ### An entry is appended -/

/-- Below the data block `x` only the indirect block is written. -/
theorem fileBlock_disk {din din' : Dinode} {fbn x : Nat}
    (h : im.fileBlock din fbn = .ok (x, din', im'))
    (hne : NDIRECT ≤ fbn → x ≠ (din'.addrs (slotOf NDIRECT)).toNat) : im'.disk x = im.disk x := by
  have hslot : ∀ k, (im.addrSlot din k).2.disk = im.disk := by
    intro k
    unfold addrSlot
    split_ifs
    · rfl
    · rfl
  have hindirect : ∀ (jm : Image) w k, x ≠ w → (jm.indirectSlot w k).2.disk x = jm.disk x := by
    intro jm w k hw
    unfold indirectSlot
    dsimp only
    split_ifs
    · exact Function.update_of_ne hw _ _
    · rfl
  unfold fileBlock at h
  by_cases hmax : MAXFILE ≤ fbn
  · rw [if_pos hmax] at h
    cases h
  rw [if_neg hmax] at h
  by_cases hdirect : fbn < NDIRECT
  · rw [if_pos hdirect] at h
    have him : im' = (im.addrSlot din (slotOf fbn)).2 := by
      cases h
      rfl
    rw [him, hslot]
  · rw [if_neg hdirect] at h
    have hx := hne (Nat.not_lt.mp hdirect)
    generalize hfirst : im.addrSlot din (slotOf NDIRECT) = r at h
    dsimp only at h
    split_ifs at h
    generalize hsecond : r.2.indirectSlot (r.1.addrs (slotOf NDIRECT)).toNat (fbn - NDIRECT) = q
      at h
    cases h
    have hdisk := hindirect r.2 _ (fbn - NDIRECT) hx
    rw [hsecond, ← hfirst, hslot] at hdisk
    exact hdisk

/-- A piece in one block. -/
theorem appendLoop_one {turns off x : Nat} {din din' : Dinode} (hn : 0 < n) (hturns : n ≤ turns)
    (hfit : n ≤ BSIZE - off % BSIZE)
    (hblock : im.fileBlock din (off / BSIZE) = .ok (x, din', im')) :
    im.appendLoop turns din p off n = .ok ({ im' with
      disk := Function.update im'.disk x (patch (im'.disk x) (off % BSIZE) (p.take n)) },
      din', off + n) := by
  have hB := BSIZE_eq
  have hoff : off - off / BSIZE * BSIZE = off % BSIZE := by
    rw [hB]
    omega
  have hmin : min n ((off / BSIZE + 1) * BSIZE - off) = n := by
    rw [hB] at hfit ⊢
    omega
  obtain ⟨turns, rfl⟩ := Nat.exists_eq_succ_of_ne_zero (show turns ≠ 0 by omega)
  unfold appendLoop
  rw [if_neg (by omega)]
  dsimp only
  rw [hblock, hmin, hoff, Nat.sub_self]
  cases turns with
  | zero => rfl
  | succ turns => rfl

/-- What is appended in one block: the block gets it, and then the inode is written. -/
theorem iappend_one {off x : Nat} {din : Dinode} (hp : 0 < p.length)
    (hfit : p.length ≤ BSIZE - off % BSIZE)
    (hblock : im.fileBlock (dinode sb im.disk i) (off / BSIZE) = .ok (x, din, im'))
    (hsize : (dinode sb im.disk i).size.toNat = off) :
    im.iappend sb i p = .ok (Image.winode sb { im' with
      disk := Function.update im'.disk x (patch (im'.disk x) (off % BSIZE) p) } i
      { din with size := BitVec.ofNat 32 (off + p.length) }) := by
  unfold Image.iappend rinode
  dsimp only
  rw [hsize, appendLoop_one hp (Nat.le_refl _) hfit hblock, List.take_length]
  rfl

/-- The blocks of inode `i` are zero from byte `n` on. -/
def Blank (T : AddrTable) (σ : Contents) (i n : Nat) : Prop :=
  ∀ o, n ≤ o → o < MAXFILE * BSIZE → Present T σ i o → fileByte T σ i o = 0

/-- A data block that the image has not used before is zero. -/
theorem Image.Holds.zero_of_new {bn : Nat} {S E : Finset Place} {bs : Finset Nat}
    (h : Holds sb T im content) (hi : i < sb.ninodes)
    (hg : Grows sb S E T (im.contents sb) T' σ bs) (h0 : blockAt T (im.contents sb) (place i bn) = 0)
    (hnew : blockAt T' σ (place i bn) ≠ 0) : im.disk (blockAt T' σ (place i bn)) = fun _ => 0 := by
  have hleaf : Leaf sb (place i bn) := leaf_place hi bn
  have hlive := hg.consistent.live hleaf.valid hnew
  apply h.fresh.zero
  by_contra hlt
  have hbit : bit sb (im.contents sb) (blockAt T' σ (place i bn)) = true := by
    rw [bit_marked hlive.2.1]
    exact decide_eq_true (Nat.not_le.mp hlt)
  obtain ⟨q, hq, hat⟩ := h.consistent.owns.reached _ ⟨hlive.1, hlive.2.1, hbit⟩
  have hat' : blockAt T (im.contents sb) q = blockAt T' σ (place i bn) := hat
  have hkeep := hg.keep q hq (by rw [hat']; exact hnew)
  have hsame : place i bn = q := hg.consistent.owns.uniq _ _ hleaf.valid hq hnew
    (hat'.symm.trans hkeep.symm)
  rw [← hsame, h0] at hat'
  exact hnew hat'.symm

/-- What is appended in one block: the block gets it, and the inode the block. -/
structure Turn (sb : Superblock) (T : AddrTable) (im : Image) (i off : Nat) (p : List Byte)
    (im' : Image) (a : Fin 9 → BitVec 32) (σ : Contents) : Prop where
  grows : ∃ bs, Grows sb (branch i (off / BSIZE)).toFinset ∅ T (im.contents sb)
    (Function.update T i a) σ bs
  blocks : ∀ q, (shape sb).Valid q → blockAt (Function.update T i a) (im'.contents sb) q =
    blockAt (Function.update T i a) σ q
  addrs : (dinode sb im'.disk i).addrs = a
  disk : im'.disk (blockAt (Function.update T i a) σ (place i (off / BSIZE))) =
    patch (im.disk (blockAt (Function.update T i a) σ (place i (off / BSIZE)))) (off % BSIZE) p

theorem Image.Holds.turn {off : Nat} (h : Holds sb T im content) (hi : i < sb.ninodes)
    (hoff : (content i).length = off) (hp : 0 < p.length) (hfit : p.length ≤ BSIZE - off % BSIZE)
    (hlimit : off + p.length ≤ limit)
    (hneed : need (pieceTree i off p.length) T (im.contents sb)
      ≤ (freeList sb (im.contents sb)).length)
    (hrun : im.iappend sb i p = .ok im') : ∃ a σ, Turn sb T im i off p im' a σ := by
  have hfbn : off / BSIZE < 134 := by
    rw [limit_eq] at hlimit
    rw [BSIZE_eq]
    omega
  have hsize := h.size i hi
  rw [hoff] at hsize
  have hT : T (im.inode sb i).inum = (im.inode sb i).addrs := (h.addrs i hi).symm
  have hi' : (im.inode sb i).inum < sb.ninodes := hi
  have hd : (dinode sb im.disk i).addrs = (im.inode sb i).addrs := rfl
  have hsub : (branch i (off / BSIZE)).toFinset ⊆ pieceTree i off p.length := by
    intro q hq
    exact mem_pieceTree.mpr ⟨off, Nat.le_refl _, by omega, List.mem_toFinset.mp hq⟩
  have hroom := Nat.le_trans (need_mono hsub) hneed
  obtain ⟨x, a, im1, hblock, hexec, hlater⟩ :=
    fileBlock_bmap h.fresh h.consistent hT hd hi' hfbn hroom
  rw [iappend_one hp hfit hblock hsize] at hrun
  cases hrun
  obtain ⟨a', y, σ, bs, hdo, hat, hg⟩ :=
    bmap_grows h.consistent hT hi' (show off / BSIZE < MAXFILE by rw [MAXFILE_eq]; omega) hroom
  have hsame := hexec.symm.trans hdo.exec
  simp only [Except.ok.injEq, Prod.mk.injEq, Inode.mk.injEq, Dinode.mk.injEq, true_and,
    and_true] at hsame
  obtain ⟨⟨rfl, rfl⟩, rfl⟩ := hsame
  have hg : Grows sb (branch i (off / BSIZE)).toFinset ∅ T (im.contents sb)
    (Function.update T i a) (im1.contents sb) bs := hg
  have hat : blockAt (Function.update T i a) (im1.contents sb) (place i (off / BSIZE)) = x := hat
  have hmem := List.mem_toFinset.mpr (place_mem_branch i (off / BSIZE))
  have hleaf : Leaf sb (place i (off / BSIZE)) := leaf_place hi _
  have hx0 := hg.full _ hmem
  have hlive := hg.consistent.live hleaf.valid hx0
  have hmap := hg.consistent.sameMap_leaf hleaf hx0 (patch (im1.disk x) (off % BSIZE) p)
  have hindirect : NDIRECT ≤ off / BSIZE → x ≠ (a (slotOf NDIRECT)).toNat := by
    intro hle heq
    obtain ⟨j, hpath, -⟩ := path_single (off / BSIZE) hle hfbn
    have hroot : blockAt (Function.update T i a) (im1.contents sb) ((i, slotOf NDIRECT), []) =
        (a (slotOf NDIRECT)).toNat := by
      show (Function.update T i a i (slotOf NDIRECT)).toNat = _
      rw [Function.update_self]
    have hplace : place i (off / BSIZE) = ((i, slotOf NDIRECT), []) :=
      hg.consistent.owns.uniq _ _ hleaf.valid ⟨hi, Nat.zero_le _⟩ hx0
        (hat.trans (heq.trans hroot.symm))
    unfold place at hplace
    rw [hpath] at hplace
    cases hplace
  rw [hat] at hx0 hlive hmap
  rw [marked_update hlive.1] at hmap
  have hmap' := (hmap.consistent hg.consistent).sameMap_updated hi
    { dinode sb im.disk i with addrs := a, size := BitVec.ofNat 32 (off + p.length) }
  refine ⟨a, im1.contents sb, ⟨bs, hg⟩, ?_, ?_, ?_⟩
  · intro q hq
    rw [contents_winode hi]
    exact (hmap'.blockAt_eq hq).trans (hmap.blockAt_eq hq)
  · show (dinode sb (updated sb _ i _) i).addrs = a
    rw [dinode_updated_self]
  · have hstart := sb.bmapstart_lt_datastart
    rw [hat, ← fileBlock_disk hblock hindirect]
    have hhigh : ∀ (jm : Image) d, (jm.winode sb i d).disk x = jm.disk x :=
      fun jm d => updated_high hi d (Nat.le_trans (Nat.le_of_lt hstart) hlive.1)
    rw [hhigh]
    exact Function.update_self ..

/-- An entry goes into a block that is zero behind it. -/
theorem Turn.blank {off : Nat} {a : Fin 9 → BitVec 32} (h : Turn sb T im i off p im' a σ)
    (hh : Holds sb T im content) (h' : Holds sb T' im' content') (hi : i < sb.ninodes)
    (hlen : (content' i).length = off + p.length) (hp : p.length = direntSize)
    (hdvd : direntSize ∣ off) (hT : ∀ j, j < sb.ninodes → Function.update T i a j = T' j)
    (hblank : Blank T (im.contents sb) i off) : Blank T' (im'.contents sb) i (off + p.length) := by
  have hfits := h'.fits i
  rw [hlen, limit_eq] at hfits
  rw [direntSize_eq] at hp hdvd
  intro o ho hmax hpres
  have hleaf : Leaf sb (place i (o / BSIZE)) := leaf_place hi _
  have hbn : o / BSIZE < MAXFILE := by
    rw [MAXFILE_BSIZE] at hmax
    rw [BSIZE_eq, MAXFILE_eq]
    omega
  -- the block of the entry
  have hmem : place i (o / BSIZE) ∈ pieceTree i 0 (content' i).length :=
    (h'.present _ hleaf.valid).mp hpres
  rw [hlen] at hmem
  have hlast := place_mem_pieceTree hbn (by rw [MAXFILE_BSIZE]; omega) hmem
  have hsame : o / BSIZE = off / BSIZE := by
    rw [BSIZE_eq] at hlast ⊢
    omega
  unfold Present at hpres
  unfold fileByte
  rw [hsame] at hpres hleaf ⊢
  rw [← blockAt_congr_table hT hleaf.valid, h.blocks _ hleaf.valid] at hpres ⊢
  obtain ⟨bs, hg⟩ := h.grows
  have hlive := hg.consistent.live hleaf.valid hpres
  have hread : im'.contents sb (blockAt (Function.update T i a) σ (place i (off / BSIZE))) =
      im'.disk (blockAt (Function.update T i a) σ (place i (off / BSIZE))) := marked_data hlive.1
  have hmod : off % BSIZE + p.length ≤ o % BSIZE := by
    rw [BSIZE_eq] at hsame ⊢
    omega
  rw [hread, h.disk, byteAt_patch_of_not_mem _ _ _ (Or.inr hmod)]
  by_cases h0 : blockAt T (im.contents sb) (place i (off / BSIZE)) = 0
  · rw [hh.zero_of_new hi hg h0 hpres, byteAt_zero]
  · have hold := hblank o (by omega) hmax (by unfold Present; rw [hsame]; exact h0)
    have hkeep := hg.keep _ hleaf.valid h0
    have hlive' := hh.consistent.live hleaf.valid h0
    have hread' : im.contents sb (blockAt T (im.contents sb) (place i (off / BSIZE))) =
        im.disk (blockAt T (im.contents sb) (place i (off / BSIZE))) := marked_data hlive'.1
    unfold fileByte at hold
    rw [hsame, hread'] at hold
    rw [hkeep]
    exact hold

/-- The end of one file stays blank when bytes go to another. -/
theorem Image.Holds.blank_other {off m : Nat} {a : Fin 9 → BitVec 32} {d : Dinode} {bs : Finset Nat}
    (hi : i < sb.ninodes) (hj : j < sb.ninodes) (hji : j ≠ i)
    (hg : Grows sb (pieceTree i off m) (pieces i off m) T (im.contents sb)
      (Function.update T i a) (im'.contents sb) bs)
    (hext : Extends sb (pieceTree i off m) (Dirty i off m) T (im.contents sb)
      (Function.update T i a) (im'.contents sb))
    (hmax : off + m ≤ MAXFILE * BSIZE) (hT : ∀ j, j < sb.ninodes → Function.update T i a j = T' j)
    (hblank : Blank T (im.contents sb) j n) : Blank T' ((im'.winode sb i d).contents sb) j n := by
  intro o ho hlt hpres
  have hleaf : Leaf sb (place j (o / BSIZE)) := leaf_place hj _
  have hmap := hg.consistent.sameMap_updated hi d
  have hstart := sb.bmapstart_lt_datastart
  unfold Present at hpres
  unfold fileByte
  rw [contents_winode hi] at hpres ⊢
  rw [← blockAt_congr_table hT hleaf.valid, hmap.blockAt_eq hleaf.valid] at hpres ⊢
  have hlive := hg.consistent.live hleaf.valid hpres
  have hold : Present T (im.contents sb) j o := by
    intro h0
    have hmem := hg.fresh _ hleaf.valid h0 hpres
    exact hji (inum_of_mem_pieceTree hmem)
  rw [updated_high hi d (Nat.le_trans (Nat.le_of_lt hstart) hlive.1)]
  have hbyte := hext.fileByte_eq hj hold (not_dirty hmax hlt (Or.inl hji))
  exact hbyte.trans (hblank o ho hlt hold)

/-! ### All calls -/

/-- What `main` has made: files with one link each, and a root directory that is blank behind its
entries. -/
structure Listed (sb : Superblock) (T : AddrTable) (im : Image) (content : Nat → List Byte) :
    Prop where
  holds : Holds sb T im content
  made : Made sb im
  root : (dinode sb im.disk ROOTINO).type = T_DIR
  file : ∀ i, i < sb.ninodes → i ≠ ROOTINO →
    (dinode sb im.disk i).type = if 0 < i ∧ i < im.freeinode then T_FILE else 0
  nlink : ∀ i, 0 < i → i < im.freeinode → (dinode sb im.disk i).nlink = 1
  blank : Blank T (im.contents sb) ROOTINO (content ROOTINO).length
  whole : direntSize ∣ (content ROOTINO).length

/-- Files are made, and the root directory gets whole entries. -/
def Image.Call.Lists : Image.Call → Prop
  | .ialloc type => type = T_FILE
  | .iappend i p => i = ROOTINO → p.length = direntSize

theorem Blank.low {σ' : Contents} (h : Blank T σ i n) (hc : Consistent sb T σ)
    (hlow : ∀ b, sb.bmapstart ≤ b → σ' b = σ b) (hi : i < sb.ninodes) : Blank T σ' i n := by
  have hmap := hc.sameMap_low hlow
  have hstart := sb.bmapstart_lt_datastart
  intro o ho hmax hpres
  have hleaf : Leaf sb (place i (o / BSIZE)) := leaf_place hi _
  have hat := hmap.blockAt_eq hleaf.valid
  unfold Present at hpres
  rw [hat] at hpres
  have hlive := hc.live hleaf.valid hpres
  unfold fileByte
  rw [hat, hlow _ (Nat.le_trans (Nat.le_of_lt hstart) hlive.1)]
  exact h o ho hmax hpres

namespace Listed

theorem ialloc (h : Listed sb T im content) (hroot : ROOTINO < im.freeinode)
    (hi : im.freeinode < sb.ninodes) : Listed sb T (im.ialloc sb T_FILE).2 content := by
  have hself : dinode sb (im.ialloc sb T_FILE).2.disk im.freeinode
      = { Dinode.zero with type := T_FILE, nlink := 1 } := dinode_updated_self _
  have hother : ∀ j, j ≠ im.freeinode →
      dinode sb (im.ialloc sb T_FILE).2.disk j = dinode sb im.disk j := by
    intro j hj
    exact (dinode_updated_ne _ hj).trans (dinode_zeroed_ne hj)
  have hnext : (im.ialloc sb T_FILE).2.freeinode = im.freeinode + 1 := rfl
  have hne : ROOTINO ≠ im.freeinode := Nat.ne_of_lt hroot
  refine ⟨h.holds.ialloc hi (by decide), h.made.ialloc hi (by decide), ?_, ?_, ?_, ?_, h.whole⟩
  · rw [hother _ hne]
    exact h.root
  · intro j hj hjr
    rw [hnext]
    by_cases hji : j = im.freeinode
    · rw [hji, hself, if_pos (by omega)]
    · rw [hother j hji, h.file j hj hjr]
      have hiff : (0 < j ∧ j < im.freeinode) ↔ (0 < j ∧ j < im.freeinode + 1) := by omega
      simp only [hiff]
  · intro j h0 hj
    rw [hnext] at hj
    by_cases hji : j = im.freeinode
    · rw [hji, hself]
    · rw [hother j hji]
      exact h.nlink j h0 (by omega)
  · apply h.blank.low h.holds.consistent _ (Nat.lt_trans hroot hi)
    intro b hb
    have hlt := Superblock.iblock_lt hi
    have hdisk : (im.ialloc sb T_FILE).2.disk b = im.disk b :=
      (updated_high hi _ hb).trans (Function.update_of_ne (by omega) _ _)
    show marked sb _ im.freeblock b = marked sb _ im.freeblock b
    unfold marked
    rw [hdisk]

theorem iappend (h : Listed sb T im content) (hroomy : Roomy sb) (h0 : 0 < i)
    (hnew : i < im.freeinode) (hlists : i = ROOTINO → p.length = direntSize)
    (hrun : im.iappend sb i p = .ok im') :
    ∃ T', Listed sb T' im' fun j => content j ++ appended j [.iappend i p] := by
  have hi := h.holds.inodes i h0 hnew
  have hcalls : im.calls sb [.iappend i p] = .ok im' := by
    unfold calls
    have hcall : im.call sb (.iappend i p) = .ok im' := hrun
    rw [hcall]
    rfl
  obtain ⟨T', h', hm'⟩ := calls_made hroomy [.iappend i p] h.holds h.made ⟨h0, hnew, trivial⟩
    (by simp) hcalls
  have hself : content i ++ appended i [.iappend i p] = content i ++ p := by
    rw [appended, if_pos rfl, appended, List.append_nil]
  have hother : ∀ j, j ≠ i → content j ++ appended j [.iappend i p] = content j := by
    intro j hj
    rw [appended, if_neg (Ne.symm hj), appended, List.append_nil]
  have hfits := h'.fits i
  rw [hself, List.length_append] at hfits
  have hroom : blocks sb (Function.update content i (content i ++ p)) ≤ sb.size - sb.datastart := by
    apply hroomy
    intro j
    by_cases hji : j = i
    · rw [hji, Function.update_self, List.length_append]
      exact hfits
    · rw [Function.update_of_ne hji]
      exact h.holds.fits j
  have hneed := h.holds.need_le hi hroom
  obtain ⟨a, im1, bs, happ, hlater, -, hg, hw⟩ := h.holds.appends hi rfl hfits hneed
  rw [hrun] at happ
  cases happ
  generalize hd : ({ dinode sb im.disk i with
    addrs := a, size := BitVec.ofNat 32 ((content i).length + p.length) } : Dinode) = d at *
  have hread : dinode sb (im1.winode sb i d).disk i = d := dinode_updated_self d
  have hread_ne : ∀ j, j ≠ i → j < sb.ninodes →
      dinode sb (im1.winode sb i d).disk j = dinode sb im.disk j := by
    intro j hji hj
    have hlow := Nat.lt_trans (Superblock.iblock_lt hj) sb.bmapstart_lt_datastart
    exact (dinode_updated_ne d hji).trans (dinode_congr (hlater.low _ hlow))
  have hfields : ∀ j, j < sb.ninodes →
      (dinode sb (im1.winode sb i d).disk j).type = (dinode sb im.disk j).type ∧
      (dinode sb (im1.winode sb i d).disk j).nlink = (dinode sb im.disk j).nlink := by
    intro j hj
    by_cases hji : j = i
    · rw [hji, hread, ← hd]
      exact ⟨rfl, rfl⟩
    · rw [hread_ne j hji hj]
      exact ⟨rfl, rfl⟩
  have hT : ∀ j, j < sb.ninodes → Function.update T i a j = T' j := by
    intro j hj
    rw [← h'.addrs j hj]
    by_cases hji : j = i
    · rw [hji, Function.update_self, hread, ← hd]
    · rw [Function.update_of_ne hji, hread_ne j hji hj, h.holds.addrs j hj]
  have hnext : (im1.winode sb i d).freeinode = im.freeinode := hlater.freeinode
  have hle : ROOTINO < sb.ninodes := by
    by_cases hroot : i = ROOTINO
    · rw [← hroot]
      exact hi
    · exact Nat.lt_of_le_of_lt h0 hi
  have hlimit := limit_le
  refine ⟨T', h', hm', ?_, ?_, ?_, ?_, ?_⟩
  · rw [(hfields _ hle).1]
    exact h.root
  · intro j hj hjr
    rw [(hfields j hj).1, hnext]
    exact h.file j hj hjr
  · intro j hj0 hj
    rw [hnext] at hj
    rw [(hfields j (h.holds.inodes j hj0 hj)).2]
    exact h.nlink j hj0 hj
  · by_cases hroot : i = ROOTINO
    · subst hroot
      have hlen := hlists rfl
      have hwhole := h.whole
      have hfit : p.length ≤ BSIZE - (content ROOTINO).length % BSIZE := by
        rw [direntSize_eq] at hlen hwhole
        rw [BSIZE_eq]
        omega
      have hsum : (content ROOTINO ++ appended ROOTINO [.iappend ROOTINO p]).length =
          (content ROOTINO).length + p.length := by
        rw [hself, List.length_append]
      obtain ⟨a', σ, hturn⟩ := h.holds.turn hi rfl (by rw [hlen, direntSize_eq]; omega) hfit hfits
        hneed hrun
      have haddrs : a' = a := by
        rw [← hturn.addrs, hread, ← hd]
      rw [haddrs] at hturn
      rw [hsum]
      exact hturn.blank h.holds h' hi hsum hlen hwhole hT h.blank
    · rw [hother ROOTINO (Ne.symm hroot)]
      exact Holds.blank_other hi hle (Ne.symm hroot) hg hw.ext (by omega) hT h.blank
  · by_cases hroot : i = ROOTINO
    · subst hroot
      rw [hself, List.length_append, hlists rfl]
      exact Nat.dvd_add h.whole (Nat.dvd_refl _)
    · rw [hother ROOTINO (Ne.symm hroot)]
      exact h.whole

theorem calls (hroomy : Roomy sb) (cs : List Image.Call) (h : Listed sb T im content)
    (hroot : ROOTINO < im.freeinode) (hlegal : Legal sb im.freeinode cs)
    (hlists : ∀ c ∈ cs, c.Lists) (hok : im.calls sb cs = .ok im') :
    ∃ T', Listed sb T' im' fun j => content j ++ appended j cs := by
  induction cs generalizing im T content with
  | nil =>
    cases hok
    simp only [appended, List.append_nil]
    exact ⟨T, h⟩
  | cons c cs ih =>
    have hfirst := hlists c List.mem_cons_self
    have hrest : ∀ c ∈ cs, c.Lists := fun c hc => hlists c (List.mem_cons_of_mem _ hc)
    unfold Image.calls at hok
    cases c with
    | ialloc type =>
      obtain ⟨hi, -, hlater⟩ := hlegal
      have htype : type = T_FILE := hfirst
      subst htype
      exact ih (h.ialloc hroot hi) (Nat.lt_succ_of_lt hroot) hlater hrest hok
    | iappend i p =>
      obtain ⟨h0, hi, hlater⟩ := hlegal
      cases hrun : im.iappend sb i p with
      | error e =>
        have hcall : im.call sb (.iappend i p) = .error e := hrun
        rw [hcall] at hok
        cases hok
      | ok im1 =>
        have hcall : im.call sb (.iappend i p) = .ok im1 := hrun
        rw [hcall] at hok
        have hnext := iappend_freeinode hrun
        obtain ⟨T1, h1⟩ := h.iappend hroomy h0 hi hfirst hrun
        rw [← hnext] at hroot hlater
        obtain ⟨T', h'⟩ := ih h1 hroot hlater hrest hok
        refine ⟨T', ?_⟩
        have hcontent : (fun j => (content j ++ appended j [.iappend i p]) ++ appended j cs) =
            fun j => content j ++ appended j (.iappend i p :: cs) := by
          funext j
          rw [List.append_assoc, ← appended_append]
          rfl
        rw [← hcontent]
        exact h'

theorem start (hn : ROOTINO < sb.ninodes) :
    Listed sb noAddrs ((formatted sb).ialloc sb T_DIR).2 fun _ => [] := by
  have hself : dinode sb ((formatted sb).ialloc sb T_DIR).2.disk ROOTINO
      = { Dinode.zero with type := T_DIR, nlink := 1 } := dinode_updated_self _
  have hother : ∀ j, j ≠ ROOTINO →
      dinode sb ((formatted sb).ialloc sb T_DIR).2.disk j = Dinode.zero := by
    intro j hj
    have hzero : dinode sb (formatted sb).disk j = Dinode.zero := decodeDinode_zero j
    exact ((dinode_updated_ne _ hj).trans (dinode_zeroed_ne hj)).trans hzero
  have hnext : ((formatted sb).ialloc sb T_DIR).2.freeinode = 2 := rfl
  refine ⟨(holds_formatted sb).ialloc hn (by decide), (made_formatted sb).ialloc hn (by decide),
    ?_, ?_, ?_, ?_, Nat.dvd_zero _⟩
  · rw [hself]
  · intro i _ hi
    have hno : ¬ (0 < i ∧ i < 2) := by
      intro hlt
      apply hi
      show i = 1
      omega
    rw [hother i hi, hnext, if_neg hno]
    rfl
  · intro i h0 hi
    rw [hnext] at hi
    have hroot : i = ROOTINO := by
      show i = 1
      omega
    rw [hroot, hself]
  · intro o _ _ hpres
    exact absurd (blockAt_noAddrs _ _) hpres

end Listed

theorem lists_iappends {bufs : List (List Byte)} (hi : i ≠ ROOTINO) :
    ∀ c ∈ bufs.map (Image.Call.iappend i), c.Lists := by
  intro c hc
  obtain ⟨buf, -, rfl⟩ := List.mem_map.mp hc
  exact fun heq => absurd heq hi

theorem lists_filesCalls (hn : 2 ≤ n) : ∀ c ∈ filesCalls n files, c.Lists := by
  induction files generalizing n with
  | nil =>
    intro c hc
    cases hc
  | cons f files ih =>
    intro c hc
    have hne : n ≠ ROOTINO := by
      intro heq
      rw [heq] at hn
      exact absurd hn (by decide)
    rcases List.mem_append.mp hc with hfile | hrest
    · cases hfile with
      | head => exact rfl
      | tail _ hfile =>
        cases hfile with
        | head => exact fun _ => length_encodeDirent _ _
        | tail _ hfile => exact lists_iappends hne c hfile
    · exact ih (by omega) c hrest

theorem inodesTaken_filesCalls : inodesTaken (filesCalls n files) = files.length := by
  induction files generalizing n with
  | nil => rfl
  | cons f files ih =>
    unfold filesCalls
    rw [inodesTaken_append, inodesTaken_fileCalls, ih, List.length_cons]
    omega

/-- What `main` has made before it gives the root directory its size. -/
theorem listed_main (hroomy : Roomy sb) (hlen : files.length + 2 ≤ sb.ninodes)
    (hcalls : (formatted sb).calls sb (mainCalls files) = .ok im) :
    ∃ T, Listed sb T im (fun i => appended i (mainCalls files)) ∧
      im.freeinode = files.length + 2 := by
  have hfree : im.freeinode = files.length + 2 := by
    have hnext : im.freeinode = 1 + (inodesTaken (filesCalls 2 files) + 1) :=
      calls_freeinode _ hcalls
    rw [hnext, inodesTaken_filesCalls]
    omega
  have hstart := Listed.start (show ROOTINO < sb.ninodes from Nat.lt_of_lt_of_le (by decide)
    (Nat.le_trans (Nat.le_add_left 2 files.length) hlen))
  obtain ⟨-, -, hlegal⟩ : Legal sb 1 (mainCalls files) := legal_mainCalls hlen
  obtain ⟨T, h⟩ := hstart.calls hroomy (.iappend ROOTINO (encodeDirent ROOTINO [46]) ::
    .iappend ROOTINO (encodeDirent ROOTINO [46, 46]) :: filesCalls 2 files) (show 1 < 2 by decide) hlegal
    (by
      intro c hc
      cases hc with
      | head => exact fun _ => length_encodeDirent _ _
      | tail _ hc =>
        cases hc with
        | head => exact fun _ => length_encodeDirent _ _
        | tail _ hc => exact lists_filesCalls (Nat.le_refl 2) c hc)
    hcalls
  exact ⟨T, h, hfree⟩

/-! ### The finished image -/

/-- A finished disk with the inodes below `n`: files with one link each, and a root directory with
`bytes` and zeros. -/
structure Planted (sb : Superblock) (n : Nat) (bytes : List Byte) (σ : Contents) : Prop where
  sound : Sound sb σ
  root : (dinode sb σ ROOTINO).type = T_DIR
  file : ∀ i, i < sb.ninodes → i ≠ ROOTINO →
    (dinode sb σ i).type = if 0 < i ∧ i < n then T_FILE else 0
  nlink : ∀ i, 0 < i → i < n → (dinode sb σ i).nlink = 1
  size : (dinode sb σ ROOTINO).size.toNat = (bytes.length / BSIZE + 1) * BSIZE
  bytes : ∀ o, o < (bytes.length / BSIZE + 1) * BSIZE →
    fileByte (table sb σ) σ ROOTINO o = bytes.getD o 0

theorem Listed.planted (h : Listed sb T im content) (hroot : ROOTINO < im.freeinode)
    (hsound : Sound sb σ) (hok : (im.fixRoot sb).balloc sb = .ok σ) :
    Planted sb im.freeinode (content ROOTINO) σ := by
  have hi := h.holds.inodes ROOTINO (by decide) hroot
  have hfits := h.holds.fits ROOTINO
  have heq := h.holds.fixed h.made hroot hok
  generalize hd : ({ dinode sb im.disk ROOTINO with
    size := BitVec.ofNat 32 (((content ROOTINO).length / BSIZE + 1) * BSIZE) } : Dinode) = d at heq
  have hself : dinode sb σ ROOTINO = d := by
    rw [heq]
    exact dinode_updated_self d
  have hother : ∀ i, i ≠ ROOTINO → i < sb.ninodes → dinode sb σ i = dinode sb im.disk i := by
    intro i hne hlt
    rw [heq, dinode_updated_ne d hne]
    exact dinode_congr (marked_low (Superblock.iblock_lt hlt))
  have hsize : (dinode sb σ ROOTINO).size.toNat = ((content ROOTINO).length / BSIZE + 1) * BSIZE := by
    rw [hself, ← hd]
    show (BitVec.ofNat 32 _).toNat = _
    rw [limit_eq] at hfits
    rw [BitVec.toNat_ofNat, BSIZE_eq]
    omega
  refine ⟨hsound, ?_, ?_, ?_, hsize, ?_⟩
  · rw [hself, ← hd]
    exact h.root
  · intro i hlt hne
    rw [hother i hne hlt]
    exact h.file i hlt hne
  · intro i h0 hlt
    by_cases hne : i = ROOTINO
    · rw [hne, hself, ← hd]
      exact h.nlink ROOTINO (by decide) hroot
    · rw [hother i hne (h.holds.inodes i h0 hlt)]
      exact h.nlink i h0 hlt
  · intro o ho
    have hleaf : Leaf sb (place ROOTINO (o / BSIZE)) := leaf_place hi _
    have htable : ∀ j, j < sb.ninodes → table sb σ j = T j := by
      intro j hj
      rw [← h.holds.addrs j hj]
      show (dinode sb σ j).addrs = _
      by_cases hne : j = ROOTINO
      · rw [hne, hself, ← hd]
      · rw [hother j hne hj]
    have hpres := (hsound.noHoles ROOTINO hi).present o (by rw [hsize]; exact ho)
    have hmap := h.holds.consistent.sameMap_updated hi d
    have hstart := sb.bmapstart_lt_datastart
    unfold Present at hpres
    unfold fileByte
    rw [blockAt_congr_table htable hleaf.valid, heq, hmap.blockAt_eq hleaf.valid] at hpres ⊢
    have hlive := h.holds.consistent.live hleaf.valid hpres
    rw [updated_high hi d (Nat.le_trans (Nat.le_of_lt hstart) hlive.1)]
    by_cases hlt : o < (content ROOTINO).length
    · have hbytes := congrArg (fun l => l.getD o 0) (h.holds.bytes ROOTINO hi)
      unfold fileBytes at hbytes
      simp only [List.getD_eq_getElem?_getD, List.getElem?_map, List.getElem?_range hlt,
        Option.map_some, Option.getD_some, Nat.zero_add] at hbytes
      rw [List.getD_eq_getElem?_getD, ← hbytes]
      rfl
    · rw [List.getD_eq_default _ _ (Nat.not_lt.mp hlt)]
      apply h.blank o (Nat.not_lt.mp hlt) _ hpres
      rw [limit_eq] at hfits
      rw [BSIZE_eq] at ho
      rw [MAXFILE_BSIZE]
      omega

/-- Every image of `main` whose root directory does not end in a hole. -/
theorem planted_of_main (hroomy : Roomy sb) (hlen : files.length + 2 ≤ sb.ninodes)
    (hmod : (files.length + 2) % 32 ≠ 0) (hmain : main sb files = .ok σ) :
    Planted sb (files.length + 2) (appended ROOTINO (mainCalls files)) σ := by
  obtain ⟨T, hfin⟩ := finished_of_main hroomy hlen hmain
  have hlength := @length_appended_root files
  have hsound : Sound sb σ := by
    apply hfin.sound
    · unfold rootSize
      rw [hlength]
    · rw [hlength, direntSize_eq, BSIZE_eq]
      omega
  rw [main_eq (names_of_main hmain)] at hmain
  cases hcalls : (formatted sb).calls sb (mainCalls files) with
  | error e =>
    rw [hcalls] at hmain
    cases hmain
  | ok im =>
    rw [hcalls] at hmain
    obtain ⟨T', h, hnext⟩ := listed_main hroomy hlen hcalls
    have hroot : ROOTINO < im.freeinode := by
      rw [hnext]
      show 1 < _
      omega
    rw [← hnext]
    exact h.planted hroot hsound hmain

end Xv6.Fs
