import Mathlib.Data.List.TakeWhile
import Xv6.Fs.Tree
import Xv6.Fs.Namex

/-!
# Directories on disk (project3/fs.c)

`tree` is what a disk says of its directories. A write of an entry, an assignment to an inode,
`ialloc` and the end of an inode in `iput` change it as the operations on `Tree` do.
-/

namespace Xv6.Fs
open Buffer Forest

/-- The entries of directory `i`. -/
def direntsOf (sb : Superblock) (σ : Contents) (i : Nat) : List Dirent :=
  (List.range ((dinode sb σ i).size.toNat / direntSize)).map (direntAt (table sb σ) σ i)

def tree (sb : Superblock) (σ : Contents) : Tree where
  type i := if i < sb.ninodes then (dinode sb σ i).type else 0
  nlink i := if i < sb.ninodes then (dinode sb σ i).nlink else 0
  dirents i := if i < sb.ninodes ∧ (dinode sb σ i).type = T_DIR then direntsOf sb σ i else []

variable {sb : Superblock} {devsw : Fin NDEV → Devsw} {σ τ υ : Contents} {ip ip' dp : Inode}
  {i j : Nat} {name : List Byte}

theorem tree_type (h : i < sb.ninodes) : (tree sb σ).type i = (dinode sb σ i).type := if_pos h

theorem tree_nlink (h : i < sb.ninodes) : (tree sb σ).nlink i = (dinode sb σ i).nlink := if_pos h

theorem tree_dirents (h : i < sb.ninodes) (hdir : (dinode sb σ i).type = T_DIR) :
    (tree sb σ).dirents i = direntsOf sb σ i := if_pos ⟨h, hdir⟩

theorem length_direntsOf (sb : Superblock) (σ : Contents) (i : Nat) :
    (direntsOf sb σ i).length = (dinode sb σ i).size.toNat / direntSize := by
  unfold direntsOf
  rw [List.length_map, List.length_range]

theorem getElem?_direntsOf {k : Nat} (h : k < (dinode sb σ i).size.toNat / direntSize) :
    (direntsOf sb σ i)[k]? = some (direntAt (table sb σ) σ i k) := by
  unfold direntsOf
  rw [List.getElem?_map, List.getElem?_range h]
  rfl

/-! ### Files that a write leaves alone -/

/-- Inode `j` has the bytes that it had. -/
structure SameFile (sb : Superblock) (σ τ : Contents) (j : Nat) : Prop where
  size : (dinode sb τ j).size = (dinode sb σ j).size
  bytes : ∀ o, o < (dinode sb σ j).size.toNat →
    fileByte (table sb τ) τ j o = fileByte (table sb σ) σ j o

theorem SameFile.trans (h : SameFile sb σ τ j) (h' : SameFile sb τ υ j) : SameFile sb σ υ j := by
  refine ⟨h'.size.trans h.size, ?_⟩
  intro o ho
  rw [← h.bytes o ho]
  apply h'.bytes
  rw [h.size]
  exact ho

theorem SameFile.direntsOf_eq (h : SameFile sb σ τ j) :
    direntsOf sb τ j = direntsOf sb σ j := by
  unfold direntsOf
  rw [h.size]
  apply List.map_congr_left
  intro k hk
  rw [List.mem_range] at hk
  unfold direntAt
  congr 1
  apply fileBytes_congr
  intro o _ ho
  apply h.bytes
  rw [direntSize_eq] at *
  omega

/-- The table gives the inode the same blocks, with the same data. -/
theorem SameFile.of_blocks {T : AddrTable} (hT : table sb τ j = T j)
    (hsize : (dinode sb τ j).size = (dinode sb σ j).size)
    (hholes : NoHoles (table sb σ) σ j (dinode sb σ j).size.toNat)
    (hat : ∀ bn, blockAt T τ (place j bn) = blockAt (table sb σ) σ (place j bn))
    (hdata : ∀ bn, blockAt (table sb σ) σ (place j bn) ≠ 0 →
      τ (blockAt (table sb σ) σ (place j bn)) = σ (blockAt (table sb σ) σ (place j bn)))
    (hj : j < sb.ninodes) : SameFile sb σ τ j := by
  refine ⟨hsize, ?_⟩
  intro o ho
  have hpresent := hholes.present o ho
  unfold fileByte
  have hroot : blockAt (table sb τ) τ (place j (o / BSIZE)) =
      blockAt T τ (place j (o / BSIZE)) := by
    apply ref_congr (S := shape sb)
    · show (table sb τ j (path (o / BSIZE)).1).toNat = (T j (path (o / BSIZE)).1).toNat
      rw [hT]
    · intro js _ _ k
      rfl
    · exact (leaf_place hj _).valid
  rw [hroot, hat, hdata _ hpresent]

/-- Only blocks before the free map are written. -/
theorem SameFile.of_low (h : Sound sb σ) (hj : j < sb.ninodes)
    (hlow : ∀ b, sb.bmapstart ≤ b → τ b = σ b)
    (haddrs : (dinode sb τ j).addrs = (dinode sb σ j).addrs)
    (hsize : (dinode sb τ j).size = (dinode sb σ j).size) : SameFile sb σ τ j := by
  have hmap := h.consistent.sameMap_low hlow
  refine SameFile.of_blocks (T := table sb σ) haddrs hsize (h.noHoles j hj) ?_ ?_ hj
  · intro bn
    exact hmap.blockAt_eq (leaf_place hj bn).valid
  · intro bn h0
    have hlive := h.consistent.live (leaf_place hj bn).valid h0
    have hstart := sb.bmapstart_lt_datastart
    exact hlow _ (Nat.le_trans (Nat.le_of_lt hstart) hlive.1)

/-- The tree of a disk, by its inodes. -/
theorem tree_eq {t : Tree} (hout : ∀ j, ¬ j < sb.ninodes →
      t.type j = 0 ∧ t.nlink j = 0 ∧ t.dirents j = [])
    (htype : ∀ j, j < sb.ninodes → (dinode sb τ j).type = t.type j)
    (hnlink : ∀ j, j < sb.ninodes → (dinode sb τ j).nlink = t.nlink j)
    (hdir : ∀ j, j < sb.ninodes → (dinode sb τ j).type = T_DIR →
      direntsOf sb τ j = t.dirents j)
    (hfile : ∀ j, j < sb.ninodes → (dinode sb τ j).type ≠ T_DIR → t.dirents j = []) :
    tree sb τ = t := by
  have h1 : (tree sb τ).type = t.type := by
    funext j
    by_cases hj : j < sb.ninodes
    · rw [tree_type hj, htype j hj]
    · rw [(hout j hj).1]
      exact if_neg hj
  have h2 : (tree sb τ).nlink = t.nlink := by
    funext j
    by_cases hj : j < sb.ninodes
    · rw [tree_nlink hj, hnlink j hj]
    · rw [(hout j hj).2.1]
      exact if_neg hj
  have h3 : (tree sb τ).dirents = t.dirents := by
    funext j
    by_cases hj : j < sb.ninodes
    · by_cases hd : (dinode sb τ j).type = T_DIR
      · rw [tree_dirents hj hd, hdir j hj hd]
      · rw [hfile j hj hd]
        exact if_neg fun hboth => hd hboth.2
    · rw [(hout j hj).2.2]
      exact if_neg fun hboth => hj hboth.1
  cases ht : tree sb τ with
  | mk a b c =>
    rw [ht] at h1 h2 h3
    obtain ⟨a', b', c'⟩ := t
    cases h1
    cases h2
    cases h3
    rfl

theorem tree_outside (h : ¬ j < sb.ninodes) : (tree sb σ).type j = 0 ∧ (tree sb σ).nlink j = 0 ∧
    (tree sb σ).dirents j = [] :=
  ⟨if_neg h, if_neg h, if_neg fun hboth => h hboth.1⟩

theorem tree_file (hj : (dinode sb σ j).type ≠ T_DIR) : (tree sb σ).dirents j = [] :=
  if_neg fun hboth => hj hboth.2

/-! ### What is written -/

/-- One inode gets other fields, and keeps its type and its blocks. -/
theorem tree_updated {d : Dinode} (h : Sound sb σ) (hi : i < sb.ninodes)
    (haddrs : d.addrs = (dinode sb σ i).addrs) (hsize : d.size = (dinode sb σ i).size)
    (htype : d.type = (dinode sb σ i).type) :
    tree sb (updated sb σ i d) = (tree sb σ).setNlink i d.nlink := by
  have hself : dinode sb (updated sb σ i d) i = d := dinode_updated_self d
  have hother : ∀ j, j ≠ i → dinode sb (updated sb σ i d) j = dinode sb σ j :=
    fun j hj => dinode_updated_ne d hj
  have hty : ∀ j, (dinode sb (updated sb σ i d) j).type = (dinode sb σ j).type := by
    intro j
    by_cases hji : j = i
    · rw [hji, hself, htype]
    · rw [hother j hji]
  have hsame : ∀ j, j < sb.ninodes → SameFile sb σ (updated sb σ i d) j := by
    intro j hj
    apply SameFile.of_low h hj fun b hb => updated_high hi d hb
    · by_cases hji : j = i
      · rw [hji, hself, haddrs]
      · rw [hother j hji]
    · by_cases hji : j = i
      · rw [hji, hself, hsize]
      · rw [hother j hji]
  apply tree_eq
  · intro j hj
    have hji : j ≠ i := fun heq => hj (heq ▸ hi)
    rw [Tree.setNlink_ne _ _ hji]
    exact tree_outside hj
  · intro j hj
    rw [Tree.setNlink_type, tree_type hj, hty]
  · intro j hj
    by_cases hji : j = i
    · rw [hji, hself, Tree.setNlink_self]
    · rw [hother j hji, Tree.setNlink_ne _ _ hji, tree_nlink hj]
  · intro j hj hdir
    rw [hty] at hdir
    rw [(hsame j hj).direntsOf_eq, Tree.setNlink_dirents, tree_dirents hj hdir]
  · intro j _ hfile
    rw [hty] at hfile
    rw [Tree.setNlink_dirents]
    exact tree_file hfile

theorem tree_assign {a : Assign} (h : Sound sb σ) (hi : ip.inum < sb.ninodes)
    (hc : Cached sb σ ip) (hexec : (assign sb a ip).exec σ = .ok (ip', τ)) :
    tree sb τ = (tree sb σ).setNlink ip.inum (a.apply ip).nlink := by
  have heq : τ = updated sb σ (a.apply ip).inum (a.apply ip).toDinode := by
    cases hexec
    rfl
  have hinum : (a.apply ip).inum = ip.inum := by cases a <;> rfl
  rw [heq, hinum]
  apply tree_updated h hi
  · rw [← hc.1]
    cases a <;> rfl
  · rw [← hc.1]
    cases a <;> rfl
  · rw [← hc.1]
    cases a <;> rfl

/-- An inode that is not a directory afterwards changes, and no other file. -/
theorem tree_other {t : Tree} (hi : i < sb.ninodes) (hfile : (dinode sb τ i).type = t.type i)
    (hnlink : (dinode sb τ i).nlink = t.nlink i)
    (hdir : (dinode sb τ i).type = T_DIR → direntsOf sb τ i = t.dirents i)
    (hnodir : (dinode sb τ i).type ≠ T_DIR → t.dirents i = [])
    (hd : ∀ j, j ≠ i → j < sb.ninodes → dinode sb τ j = dinode sb σ j)
    (hsame : ∀ j, j ≠ i → j < sb.ninodes → SameFile sb σ τ j)
    (htype : ∀ j, j ≠ i → t.type j = (tree sb σ).type j)
    (hnl : ∀ j, j ≠ i → t.nlink j = (tree sb σ).nlink j)
    (hdirents : ∀ j, j ≠ i → t.dirents j = (tree sb σ).dirents j) : tree sb τ = t := by
  apply tree_eq
  · intro j hj
    have hji : j ≠ i := fun heq => hj (heq ▸ hi)
    rw [htype j hji, hnl j hji, hdirents j hji]
    exact tree_outside hj
  · intro j hj
    by_cases hji : j = i
    · rw [hji, hfile]
    · rw [hd j hji hj, htype j hji, tree_type hj]
  · intro j hj
    by_cases hji : j = i
    · rw [hji, hnlink]
    · rw [hd j hji hj, hnl j hji, tree_nlink hj]
  · intro j hj hty
    by_cases hji : j = i
    · rw [hji] at hty ⊢
      exact hdir hty
    · rw [hd j hji hj] at hty
      rw [(hsame j hji hj).direntsOf_eq, hdirents j hji, tree_dirents hj hty]
  · intro j hj hty
    by_cases hji : j = i
    · rw [hji] at hty ⊢
      exact hnodir hty
    · rw [hd j hji hj] at hty
      rw [hdirents j hji]
      exact tree_file hty

theorem tree_ialloc {type : BitVec 16} {inum : Nat} (h : Sound sb σ)
    (hexec : (ialloc sb type).exec σ = .ok (inum, τ)) :
    tree sb τ = (tree sb σ).make inum type := by
  obtain ⟨-, hi, hfree, hself, hother⟩ := h.after_ialloc hexec
  have hlow : ∀ b, sb.bmapstart ≤ b → τ b = σ b := by
    intro b hb
    have hrange : ∀ i ∈ List.range' 1 (sb.ninodes - 1), i < sb.ninodes := by
      intro i hi
      rw [List.mem_range'_1] at hi
      omega
    obtain ⟨-, -, rfl⟩ := wp_result (iallocLoop_spec _ hrange) hexec
    have hlt := Superblock.iblock_lt hi
    exact Function.update_of_ne (by omega) _ _
  apply tree_other hi
  · rw [hself, Tree.make_type_self]
  · rw [hself, Tree.make_nlink_self]
    rfl
  · intro _
    rw [Tree.make_dirents_self]
    apply List.eq_nil_of_length_eq_zero
    rw [length_direntsOf, hself]
    exact Nat.zero_div direntSize
  · intro _
    exact Tree.make_dirents_self ..
  · intro j hj _
    exact hother j hj
  · intro j hj hjn
    apply SameFile.of_low h hjn hlow
    · rw [hother j hj]
    · rw [hother j hj]
  · intro j hj
    exact Function.update_of_ne hj ..
  · intro j hj
    exact Function.update_of_ne hj ..
  · intro j hj
    exact Function.update_of_ne hj ..

/-- What `iput` does to the directories: nothing, or it frees an inode without links. -/
theorem tree_iput (h : Sound sb σ) (hi : ip.inum < sb.ninodes)
    (hc : ip.valid = true → Cached sb σ ip) (hexec : (iput sb ip).exec σ = .ok (ip', τ)) :
    τ = σ ∨ (ip.nlink = 0 ∧ (tree sb σ).type ip.inum ≠ 0 ∧ (tree sb σ).nlink ip.inum = 0 ∧
      (dinode sb τ ip.inum).type = 0 ∧ tree sb τ = (tree sb σ).free ip.inum) := by
  unfold iput at hexec
  by_cases hl : ip.locked = true
  · rw [if_pos hl] at hexec
    cases hexec
  rw [if_neg hl] at hexec
  by_cases hfree : ip.valid = true ∧ ip.nlink = 0 ∧ ip.ref = 1
  · right
    have hcached := hc hfree.1
    have hzero : (dinode sb σ ip.inum).nlink = 0 := by
      rw [← hcached.1]
      exact hfree.2.1
    rw [if_pos hfree] at hexec
    obtain ⟨ip1, σ1, htrunc, he⟩ := itrunc_emptied h.consistent hcached.addrs hi
    rw [exec_bind _ htrunc] at hexec
    have hinum : ip1.inum = ip.inum := by rw [he.inode]
    have hτ : τ = updated sb σ1 ip.inum { ip1 with type := 0 }.toDinode := by
      rw [← hinum]
      cases hexec
      rfl
    have hself : dinode sb τ ip.inum = { ip1 with type := 0 }.toDinode := by
      rw [hτ]
      exact dinode_updated_self _
    have hother : ∀ j, j ≠ ip.inum → j < sb.ninodes → dinode sb τ j = dinode sb σ j := by
      intro j hj hjn
      rw [hτ, dinode_updated_ne _ hj]
      exact he.dinodes j hj hjn
    have hhigh : ∀ b, sb.datastart ≤ b → τ b = σ b := by
      intro b hb
      have h1 := sb.bmapstart_lt_datastart
      have h2 := Superblock.iblock_lt hi
      rw [hτ, updated_high hi _ (by omega)]
      exact he.blocks b (Or.inr hb) (by omega)
    refine ⟨hfree.2.1, ?_, ?_, by rw [hself], ?_⟩
    · rw [tree_type hi, ← hcached.1]
      exact hcached.2
    · rw [tree_nlink hi, hzero]
    apply tree_other hi
    · rw [hself, Tree.free_type_self]
    · rw [hself, Tree.free_nlink, tree_nlink hi, hzero]
      show ip1.nlink = 0
      rw [he.inode]
      exact hfree.2.1
    · intro hdir
      rw [hself] at hdir
      cases hdir
    · intro _
      exact Function.update_self ..
    · exact hother
    · intro j hj hjn
      have hmap := he.consistent.sameMap_updated hi ({ ip1 with type := 0 } : Inode).toDinode
      refine SameFile.of_blocks (T := Function.update (table sb σ) ip.inum fun _ => 0) ?_ ?_
        (h.noHoles j hjn) ?_ ?_ hjn
      · rw [Function.update_of_ne hj]
        show (dinode sb τ j).addrs = (dinode sb σ j).addrs
        rw [hother j hj hjn]
      · rw [hother j hj hjn]
      · intro bn
        rw [hτ, hmap.blockAt_eq (leaf_place hjn bn).valid]
        exact he.others _ (leaf_place hjn bn).valid hj
      · intro bn h0
        exact hhigh _ (h.consistent.live (leaf_place hjn bn).valid h0).1
    · intro j hj
      exact Tree.free_type_ne _ hj
    · intro j _
      rfl
    · intro j hj
      exact Tree.free_dirents_ne _ hj
  · left
    rw [if_neg hfree] at hexec
    cases hexec
    rfl

/-! ### The bytes of an entry -/

theorem length_nameOf_le (name : List Byte) : (nameOf name).length ≤ DIRSIZ := by
  have h1 := (List.takeWhile_sublist (l := name.take DIRSIZ) (· ≠ 0)).length_le
  have h2 := List.length_take_le DIRSIZ name
  unfold nameOf
  omega

theorem nameOf_padded (name : List Byte) :
    nameOf ((nameOf name ++ List.replicate DIRSIZ 0).take DIRSIZ) = nameOf name := by
  have hlen := length_nameOf_le name
  have hpos : ∀ b ∈ nameOf name, (fun b : Byte => decide (b ≠ 0)) b = true := by
    intro b hb
    unfold nameOf at hb
    have hne := List.mem_takeWhile_imp hb
    exact hne
  have htake : (nameOf name ++ List.replicate DIRSIZ 0).take DIRSIZ =
      nameOf name ++ List.replicate (DIRSIZ - (nameOf name).length) 0 := by
    rw [List.take_append, List.take_of_length_le hlen, List.take_replicate]
    congr 2
    omega
  have hback : nameOf ((nameOf name ++ List.replicate DIRSIZ 0).take DIRSIZ) =
      ((nameOf name ++ List.replicate DIRSIZ 0).take DIRSIZ).takeWhile (· ≠ 0) := by
    show ((((nameOf name ++ List.replicate DIRSIZ 0).take DIRSIZ).take DIRSIZ).takeWhile
      (· ≠ 0)) = _
    rw [List.take_take, Nat.min_self]
  rw [hback, htake, List.takeWhile_append_of_pos hpos, List.takeWhile_replicate]
  simp

theorem decodeDirent_encodeDirent (inum : Nat) (name : List Byte) :
    (decodeDirent (encodeDirent inum name)).inum = BitVec.ofNat 16 inum ∧
      nameOf (decodeDirent (encodeDirent inum name)).name = nameOf name := by
  have hlen : (natLE 2 inum).length = 2 := length_natLE 2 inum
  constructor
  · unfold decodeDirent encodeDirent
    dsimp only
    rw [List.take_left' hlen, leNat_natLE]
    apply BitVec.eq_of_toNat_eq
    rw [BitVec.toNat_ofNat, BitVec.toNat_ofNat]
    exact Nat.mod_mod inum 65536
  · unfold decodeDirent encodeDirent
    dsimp only
    rw [List.drop_left' hlen, List.take_take, Nat.min_self]
    exact nameOf_padded name

/-- A name is compared with that of an encoded entry as with the name itself. -/
theorem namecmp_encodeDirent (inum : Nat) (name s : List Byte) :
    namecmp (decodeDirent (encodeDirent inum name)).name s = namecmp name s := by
  unfold namecmp
  rw [(decodeDirent_encodeDirent inum name).2]

theorem inum_encodeDirent {inum : Nat} (h : inum < 65536) (name : List Byte) :
    (decodeDirent (encodeDirent inum name)).inum.toNat = inum := by
  rw [(decodeDirent_encodeDirent inum name).1, BitVec.toNat_ofNat]
  exact Nat.mod_eq_of_lt h

theorem inum_zeros : (decodeDirent (List.replicate direntSize 0)).inum = 0 := by decide

theorem namecmp_congr {s s' : List Byte} (h : namecmp s s' = true) (u : List Byte) :
    namecmp s u = namecmp s' u := by
  unfold namecmp at h ⊢
  rw [decide_eq_true_eq] at h
  rw [h]

/-! ### The entries are pieces of the file -/

/-- Bytes `16 * m` to `16 * m + 15`. -/
def piece (bs : List Byte) (m : Nat) : List Byte := (bs.drop (direntSize * m)).take direntSize

theorem piece_fileBytes {T : AddrTable} {m n : Nat} (h : direntSize * m + direntSize ≤ n) :
    piece (fileBytes T σ i 0 n) m = fileBytes T σ i (direntSize * m) direntSize := by
  unfold piece
  rw [fileBytes_drop, fileBytes_take, Nat.zero_add, Nat.min_eq_left (by omega)]

variable {old src : List Byte} {k m : Nat}

theorem piece_patched_self (hk : direntSize * k ≤ old.length) (hsrc : src.length = direntSize) :
    piece (patched old (direntSize * k) src) k = src := by
  have hlen : (old.take (direntSize * k)).length = direntSize * k := by
    rw [List.length_take, Nat.min_eq_left hk]
  unfold piece patched
  rw [List.append_assoc, List.drop_left' hlen, List.take_left' hsrc]

theorem piece_patched_lt (hk : direntSize * k ≤ old.length) (hm : m < k) :
    piece (patched old (direntSize * k) src) m = piece old m := by
  have hmul : direntSize * m + direntSize ≤ direntSize * k := Nat.mul_le_mul_left direntSize hm
  have hlen : (old.take (direntSize * k)).length = direntSize * k := by
    rw [List.length_take, Nat.min_eq_left hk]
  unfold piece patched
  rw [List.append_assoc, List.drop_append_of_le_length (by omega),
    List.take_append_of_le_length (by rw [List.length_drop]; omega), List.drop_take,
    List.take_take, Nat.min_eq_left (by omega)]

theorem piece_patched_gt (hk : direntSize * k ≤ old.length) (hsrc : src.length = direntSize)
    (hm : k < m) : piece (patched old (direntSize * k) src) m = piece old m := by
  have hmul : direntSize * k + direntSize ≤ direntSize * m := Nat.mul_le_mul_left direntSize hm
  have hlen : (old.take (direntSize * k) ++ src).length = direntSize * k + direntSize := by
    rw [List.length_append, List.length_take, Nat.min_eq_left hk, hsrc]
  unfold piece patched
  rw [List.drop_append, List.drop_of_length_le (by omega), List.nil_append, hlen, hsrc,
    List.drop_drop]
  congr 2
  omega

theorem Tree.getElem?_putEntry {l : List Dirent} {e : Dirent} (hk : k ≤ l.length) :
    (Tree.putEntry l k e)[m]? = if m = k then some e else l[m]? := by
  unfold Tree.putEntry
  by_cases hlt : k < l.length
  · rw [if_pos hlt]
    by_cases hmk : m = k
    · rw [if_pos hmk, hmk, List.getElem?_set_self hlt]
    · rw [if_neg hmk, List.getElem?_set_ne (Ne.symm hmk)]
  · have hlen : k = l.length := by omega
    rw [if_neg hlt, hlen]
    by_cases hmk : m = l.length
    · rw [if_pos hmk, hmk, List.getElem?_concat_length]
    · rw [if_neg hmk]
      by_cases hm : m < l.length
      · rw [List.getElem?_append_left hm]
      · rw [List.getElem?_eq_none (by rw [List.length_append, List.length_singleton]; omega),
          List.getElem?_eq_none (by omega)]

theorem fileBytes_table {T : AddrTable} (hi : i < sb.ninodes) (hT : table sb τ i = T i)
    (off n : Nat) : fileBytes (table sb τ) τ i off n = fileBytes T τ i off n := by
  apply fileBytes_congr
  intro o _ _
  unfold fileByte
  have hroot : blockAt (table sb τ) τ (place i (o / BSIZE)) = blockAt T τ (place i (o / BSIZE)) := by
    apply ref_congr (S := shape sb)
    · show (table sb τ i (path (o / BSIZE)).1).toNat = (T i (path (o / BSIZE)).1).toNat
      rw [hT]
    · intro js _ _ k
      rfl
    · exact (leaf_place hi _).valid
  rw [hroot]

/-- An entry of the cache for a directory. -/
structure Directory (sb : Superblock) (σ : Contents) (dp : Inode) : Prop where
  sound : Sound sb σ
  cached : Cached sb σ dp
  lt : dp.inum < sb.ninodes
  type : dp.type = T_DIR
  whole : direntSize ∣ dp.size.toNat

namespace Directory

theorem not_dev (h : Directory sb σ dp) : dp.type ≠ T_DEV := by
  rw [h.type]
  decide

theorem size_eq (h : Directory sb σ dp) : (dinode sb σ dp.inum).size = dp.size := by
  rw [← h.cached.1]

theorem dirents_eq (h : Directory sb σ dp) :
    (tree sb σ).dirents dp.inum = direntsOf sb σ dp.inum := by
  apply tree_dirents h.lt
  rw [← h.cached.1]
  exact h.type

theorem length_eq (h : Directory sb σ dp) :
    direntSize * ((tree sb σ).dirents dp.inum).length = dp.size.toNat := by
  rw [h.dirents_eq, length_direntsOf, h.size_eq]
  exact Nat.mul_div_cancel' h.whole

theorem getElem?_eq (h : Directory sb σ dp) (hk : k < ((tree sb σ).dirents dp.inum).length) :
    ((tree sb σ).dirents dp.inum)[k]? = some (direntAt (table sb σ) σ dp.inum k) := by
  rw [h.dirents_eq] at hk ⊢
  rw [length_direntsOf] at hk
  exact getElem?_direntsOf hk

theorem hasEntry (h : Directory sb σ dp) (hk : k < ((tree sb σ).dirents dp.inum).length) :
    HasEntry (table sb σ) σ dp k := by
  have hlen := h.length_eq
  have hholes := h.cached.noHoles h.sound h.lt
  have hmul : direntSize * (k + 1) ≤ direntSize * ((tree sb σ).dirents dp.inum).length :=
    Nat.mul_le_mul_left direntSize hk
  have hsucc : direntSize * (k + 1) = direntSize * k + direntSize := Nat.mul_succ direntSize k
  have hpos : 0 < direntSize := by decide
  refine ⟨by omega, Nat.le_trans (by omega) hholes.le, ?_⟩
  exact hholes.present _ (by omega)

theorem offs_eq (h : Directory sb σ dp) :
    direntOffs dp = (List.range ((tree sb σ).dirents dp.inum).length).map (direntSize * ·) := by
  have hlen := h.length_eq
  unfold direntOffs
  rw [← hlen, direntSize_eq]
  congr 2
  omega

/-- An entry is written over another one, or behind the last one. -/
theorem tree_writei {dp' : Inode} (h : Directory sb σ dp)
    (hk : k ≤ ((tree sb σ).dirents dp.inum).length) (hsrc : src.length = direntSize)
    (hexec : (writei sb devsw dp src (BitVec.ofNat 32 (direntSize * k))
      (BitVec.ofNat 32 src.length)).exec σ = .ok ((direntSize, dp'), τ)) :
    tree sb τ = (tree sb σ).put dp.inum k (decodeDirent src) ∧ Directory sb τ dp' := by
  have hlen := h.length_eq
  have hdev := h.not_dev
  have hi := h.lt
  have hholes := h.cached.noHoles h.sound hi
  have hle := hholes.le
  have hmul : direntSize * k ≤ direntSize * ((tree sb σ).dirents dp.inum).length :=
    Nat.mul_le_mul_left direntSize hk
  have hleaves := (h.sound.after_writei hi h.cached (length_eq_toNat (by rw [hsrc]; decide)) hexec).1
  rw [hsrc] at hexec
  have hn : (BitVec.ofNat 32 direntSize).toNat = direntSize := rfl
  have hoff : (BitVec.ofNat 32 (direntSize * k)).toNat = direntSize * k := by
    rw [MAXFILE_BSIZE] at hle
    rw [BitVec.toNat_ofNat]
    omega
  by_cases hbad : BadRange dp (BitVec.ofNat 32 (direntSize * k)) (BitVec.ofNat 32 direntSize)
  · rw [writei_bad hdev hbad] at hexec
    cases hexec
  unfold BadRange at hbad
  rw [not_or, not_or, Nat.not_lt, Nat.not_le, Nat.not_lt] at hbad
  have hspec := writei_spec (H := fun _ => True) devsw h.sound.consistent h.cached.addrs hi hdev
    hholes hbad.1 hbad.2.2 (hsrc.trans hn.symm) (Or.inl trivial)
  obtain ⟨-, hw⟩ := wp_result hspec hexec
  dsimp only at hw
  rw [hoff, hn] at hw
  have hinum : dp'.inum = dp.inum := by rw [hw.inode]
  have htype : dp'.type = T_DIR := by
    rw [hw.inode]
    exact h.type
  have hnlink : dp'.nlink = dp.nlink := by rw [hw.inode]
  have hsaved : dinode sb τ dp.inum = dp'.toDinode := hw.saved h.cached.1.symm
  have hsize : dp'.size.toNat =
      direntSize * max ((tree sb σ).dirents dp.inum).length (k + 1) := by
    have hsucc : direntSize * k + direntSize = direntSize * (k + 1) := (Nat.mul_succ _ _).symm
    rw [hw.size, ← hlen, hsucc, Nat.mul_max_mul_left]
  have hdir : Directory sb τ dp' := by
    refine ⟨hleaves.sound, ⟨?_, ?_⟩, hinum ▸ hi, htype, ?_⟩
    · rw [hinum, hsaved]
    · rw [htype]
      decide
    · exact ⟨_, hsize⟩
  refine ⟨?_, hdir⟩
  have htable : table sb τ dp.inum =
      Function.update (table sb σ) dp.inum dp'.addrs dp.inum := by
    rw [Function.update_self]
    show (dinode sb τ dp.inum).addrs = _
    rw [hsaved]
  -- The entries afterwards, one by one.
  have hentries : direntsOf sb τ dp.inum =
      Tree.putEntry ((tree sb σ).dirents dp.inum) k (decodeDirent src) := by
    apply List.ext_getElem?
    intro m
    rw [Tree.getElem?_putEntry hk]
    have hlen' : (direntsOf sb τ dp.inum).length =
        max ((tree sb σ).dirents dp.inum).length (k + 1) := by
      rw [length_direntsOf, hsaved, hsize]
      exact Nat.mul_div_cancel_left _ (by decide)
    have hcont := hw.contents
    unfold fileContents at hcont
    rw [hinum] at hcont
    have hpiece : ∀ m, m < (direntsOf sb τ dp.inum).length → (direntsOf sb τ dp.inum)[m]? =
        some (decodeDirent (piece (patched (fileBytes (table sb σ) σ dp.inum 0 dp.size.toNat)
          (direntSize * k) src) m)) := by
      intro m hm
      have hm' : direntSize * (m + 1) ≤ direntSize *
          max ((tree sb σ).dirents dp.inum).length (k + 1) := by
        rw [← hlen']
        exact Nat.mul_le_mul_left direntSize hm
      rw [Nat.mul_succ, ← hsize] at hm'
      rw [← hcont, piece_fileBytes hm', getElem?_direntsOf]
      · unfold direntAt
        rw [fileBytes_table hi htable]
      · rw [length_direntsOf] at hm
        exact hm
    have hold : (fileBytes (table sb σ) σ dp.inum 0 dp.size.toNat).length = dp.size.toNat :=
      length_fileBytes _ _
    by_cases hmk : m = k
    · subst hmk
      rw [if_pos rfl, hpiece m (by omega), piece_patched_self (by omega) hsrc]
    · rw [if_neg hmk]
      by_cases hm : m < ((tree sb σ).dirents dp.inum).length
      · have hm' : direntSize * (m + 1) ≤ direntSize * ((tree sb σ).dirents dp.inum).length :=
          Nat.mul_le_mul_left direntSize hm
        rw [Nat.mul_succ, hlen] at hm'
        rw [hpiece m (by omega), h.getElem?_eq hm]
        have hsame : piece (patched (fileBytes (table sb σ) σ dp.inum 0 dp.size.toNat)
            (direntSize * k) src) m = piece (fileBytes (table sb σ) σ dp.inum 0 dp.size.toNat) m := by
          by_cases hlt : m < k
          · exact piece_patched_lt (by omega) hlt
          · exact piece_patched_gt (by omega) hsrc (by omega)
        rw [hsame, piece_fileBytes hm']
        rfl
      · rw [List.getElem?_eq_none (by omega), List.getElem?_eq_none (by omega)]
  have hput : ∀ j, j ≠ dp.inum → ((tree sb σ).put dp.inum k (decodeDirent src)).dirents j =
      (tree sb σ).dirents j := fun j hj => Tree.put_ne _ _ _ hj
  apply tree_other hi
  · rw [hsaved, Tree.put_type, tree_type hi, ← h.cached.1, htype]
    exact h.type.symm
  · rw [hsaved, Tree.put_nlink, tree_nlink hi, ← h.cached.1]
    exact hnlink
  · intro _
    rw [hentries, Tree.put_self]
  · intro hno
    rw [hsaved] at hno
    exact absurd htype hno
  · exact hw.dinodes
  · intro j hj hjn
    refine SameFile.of_blocks (T := Function.update (table sb σ) dp.inum dp'.addrs) ?_ ?_
      (h.sound.noHoles j hjn) ?_ ?_ hjn
    · rw [Function.update_of_ne hj]
      show (dinode sb τ j).addrs = (dinode sb σ j).addrs
      rw [hw.dinodes j hj hjn]
    · rw [hw.dinodes j hj hjn]
    · intro bn
      exact (hw.others j hj hjn bn).1
    · intro bn
      exact (hw.others j hj hjn bn).2
  · intro j _
    rfl
  · intro j _
    rfl
  · exact hput

/-! ### What is read -/

variable {H : Panic → Prop} {W : Nat → Prop}

/-- An entry is read. -/
theorem readi_entry (h : Directory sb σ dp) {e : Dirent}
    (he : ((tree sb σ).dirents dp.inum)[k]? = some e) :
    (readi sb devsw dp (BitVec.ofNat 32 (direntSize * k)) (BitVec.ofNat 32 direntSize)).wp H W
      (fun r υ => υ = σ ∧ r.1 = direntSize ∧ decodeDirent r.2.1 = e ∧ r.2.2 = dp) σ := by
  have hk : k < ((tree sb σ).dirents dp.inum).length := (List.getElem?_eq_some_iff.mp he).1
  rw [h.getElem?_eq hk] at he
  cases he
  apply wp_mono (readi_dirent h.cached.addrs h.not_dev (h.hasEntry hk))
  intro r υ hr
  obtain ⟨rfl, rfl⟩ := hr
  exact ⟨rfl, rfl, rfl, rfl⟩

end Directory

/-- Where a new entry may be written: over one that is free, or behind the last one. -/
def FreeAt (l : List Dirent) (off : Nat) : Prop :=
  ∃ k, off = direntSize * k ∧ k ≤ l.length ∧ ∀ e, l[k]? = some e → e.inum = 0

/-- What `dirlookup` finds in the entries of a directory. -/
def Found (l : List Dirent) (name : List Byte) : Option (Nat × Nat) → Prop
  | none => ∀ e ∈ l, e.inum = 0 ∨ namecmp name e.name = false
  | some (inum, off) => ∃ k e, off = direntSize * k ∧ l[k]? = some e ∧ e.inum ≠ 0 ∧
      namecmp name e.name = true ∧ e.inum.toNat = inum

namespace Directory

variable {H : Panic → Prop} {W : Nat → Prop}

theorem dirlookupLoop_reads (h : Directory sb σ dp) (ks : List Nat)
    (hks : ∀ k ∈ ks, k < ((tree sb σ).dirents dp.inum).length) :
    (dirlookupLoop sb devsw dp name (ks.map (direntSize * ·))).wp H W (fun r υ => υ = σ ∧
      r.2 = dp ∧ match r.1 with
        | none => ∀ k ∈ ks, ∀ e, ((tree sb σ).dirents dp.inum)[k]? = some e →
            e.inum = 0 ∨ namecmp name e.name = false
        | some f => Found ((tree sb σ).dirents dp.inum) name (some f)) σ := by
  induction ks with
  | nil =>
    apply wp_pure
    refine ⟨rfl, rfl, ?_⟩
    intro k hk
    cases hk
  | cons k ks ih =>
    have hk := hks k List.mem_cons_self
    have hget := List.getElem?_eq_getElem hk
    generalize ((tree sb σ).dirents dp.inum)[k] = e at hget
    have hrest := ih fun m hm => hks m (List.mem_cons_of_mem _ hm)
    have hskip : (e.inum = 0 ∨ namecmp name e.name = false) →
        (dirlookupLoop sb devsw dp name (ks.map (direntSize * ·))).wp H W (fun r υ => υ = σ ∧
          r.2 = dp ∧ match r.1 with
            | none => ∀ m ∈ k :: ks, ∀ e, ((tree sb σ).dirents dp.inum)[m]? = some e →
                e.inum = 0 ∨ namecmp name e.name = false
            | some f => Found ((tree sb σ).dirents dp.inum) name (some f)) σ := by
      intro he
      apply wp_mono hrest
      intro r υ hr
      obtain ⟨hυ, hdp, hres⟩ := hr
      refine ⟨hυ, hdp, ?_⟩
      cases hfound : r.1 with
      | none =>
        rw [hfound] at hres
        intro m hm o ho
        cases hm with
        | head =>
          rw [hget] at ho
          cases ho
          exact he
        | tail _ hm => exact hres m hm o ho
      | some f =>
        rw [hfound] at hres
        exact hres
    rw [List.map_cons]
    unfold dirlookupLoop
    apply wp_seq (h.readi_entry hget)
    intro r υ hr
    obtain ⟨n, bs, dp1⟩ := r
    obtain ⟨hυ, hn, hde, hdp⟩ := hr
    dsimp only at hn hde hdp ⊢
    subst hυ
    rw [if_neg (not_not.mpr hn), hde, hdp]
    by_cases hz : e.inum = 0
    · rw [if_pos hz]
      exact hskip (Or.inl hz)
    · rw [if_neg hz]
      by_cases hname : namecmp name e.name = true
      · rw [if_pos hname]
        apply wp_pure
        exact ⟨rfl, rfl, k, e, rfl, hget, hz, hname, rfl⟩
      · rw [if_neg hname]
        exact hskip (Or.inr (Bool.not_eq_true _ ▸ hname))

theorem dirlookup_reads (h : Directory sb σ dp) (name : List Byte) :
    (Fs.dirlookup sb devsw dp name).wp H W
      (fun r υ => υ = σ ∧ r.2 = dp ∧ Found ((tree sb σ).dirents dp.inum) name r.1) σ := by
  unfold Fs.dirlookup
  rw [if_neg (not_not.mpr h.type), h.offs_eq]
  apply wp_mono (h.dirlookupLoop_reads _ fun k hk => List.mem_range.mp hk)
  intro r υ hr
  obtain ⟨hυ, hdp, hres⟩ := hr
  refine ⟨hυ, hdp, ?_⟩
  cases hfound : r.1 with
  | none =>
    rw [hfound] at hres
    intro e he
    obtain ⟨k, hk, rfl⟩ := List.getElem_of_mem he
    exact hres k (List.mem_range.mpr hk) _ (List.getElem?_eq_getElem hk)
  | some f =>
    rw [hfound] at hres
    exact hres

theorem emptyDirentLoop_reads (h : Directory sb σ dp) (ks : List Nat)
    (hks : ∀ k ∈ ks, k < ((tree sb σ).dirents dp.inum).length) :
    (Call.emptyDirentLoop sb devsw dp (ks.map (direntSize * ·))).wp H W (fun r υ => υ = σ ∧
      r.2 = dp ∧ FreeAt ((tree sb σ).dirents dp.inum) r.1) σ := by
  induction ks with
  | nil =>
    apply wp_pure
    refine ⟨rfl, rfl, ((tree sb σ).dirents dp.inum).length, ?_, Nat.le_refl _, ?_⟩
    · have hlen := h.length_eq
      rw [direntSize_eq] at *
      show (dp.size.toNat + 15) / 16 * 16 = _
      omega
    · intro e he
      rw [List.getElem?_eq_none (Nat.le_refl _)] at he
      cases he
  | cons k ks ih =>
    have hk := hks k List.mem_cons_self
    have hget := List.getElem?_eq_getElem hk
    generalize ((tree sb σ).dirents dp.inum)[k] = e at hget
    rw [List.map_cons]
    unfold Call.emptyDirentLoop
    apply wp_seq (h.readi_entry hget)
    intro r υ hr
    obtain ⟨n, bs, dp1⟩ := r
    obtain ⟨hυ, hn, hde, hdp⟩ := hr
    dsimp only at hn hde hdp ⊢
    subst hυ
    rw [if_neg (not_not.mpr hn), hde, hdp]
    by_cases hz : e.inum = 0
    · rw [if_pos hz]
      apply wp_pure
      refine ⟨rfl, rfl, k, rfl, Nat.le_of_lt hk, ?_⟩
      intro o ho
      rw [hget] at ho
      cases ho
      exact hz
    · rw [if_neg hz]
      exact ih fun m hm => hks m (List.mem_cons_of_mem _ hm)

theorem emptyDirent_reads (h : Directory sb σ dp) :
    (Call.emptyDirentLoop sb devsw dp (direntOffs dp)).wp H W (fun r υ => υ = σ ∧
      r.2 = dp ∧ FreeAt ((tree sb σ).dirents dp.inum) r.1) σ := by
  rw [h.offs_eq]
  exact h.emptyDirentLoop_reads _ fun k hk => List.mem_range.mp hk

theorem isdiremptyLoop_reads (h : Directory sb σ dp) (ks : List Nat)
    (hks : ∀ k ∈ ks, k < ((tree sb σ).dirents dp.inum).length) :
    (isdiremptyLoop sb devsw dp (ks.map (direntSize * ·))).wp H W (fun r υ => υ = σ ∧
      r.2 = dp ∧ (r.1 = true → ∀ k ∈ ks, ∀ e,
        ((tree sb σ).dirents dp.inum)[k]? = some e → e.inum = 0)) σ := by
  induction ks with
  | nil =>
    apply wp_pure
    refine ⟨rfl, rfl, ?_⟩
    intro _ k hk
    cases hk
  | cons k ks ih =>
    have hk := hks k List.mem_cons_self
    have hget := List.getElem?_eq_getElem hk
    generalize ((tree sb σ).dirents dp.inum)[k] = e at hget
    rw [List.map_cons]
    unfold isdiremptyLoop
    apply wp_seq (h.readi_entry hget)
    intro r υ hr
    obtain ⟨n, bs, dp1⟩ := r
    obtain ⟨hυ, hn, hde, hdp⟩ := hr
    dsimp only at hn hde hdp ⊢
    subst hυ
    rw [if_neg (not_not.mpr hn), hde, hdp]
    by_cases hz : e.inum ≠ 0
    · rw [if_pos hz]
      apply wp_pure
      refine ⟨rfl, rfl, ?_⟩
      intro hno
      cases hno
    · rw [if_neg hz]
      apply wp_mono (ih fun m hm => hks m (List.mem_cons_of_mem _ hm))
      intro r υ hr
      refine ⟨hr.1, hr.2.1, ?_⟩
      intro hempty m hm o ho
      cases hm with
      | head =>
        rw [hget] at ho
        cases ho
        exact not_not.mp hz
      | tail _ hm => exact hr.2.2 hempty m hm o ho

theorem isdirempty_reads (h : Directory sb σ dp) :
    (isdirempty sb devsw dp).wp H W (fun r υ => υ = σ ∧
      r.2 = dp ∧ (r.1 = true → ∀ e ∈ (tree sb σ).rest dp.inum, e.inum = 0)) σ := by
  unfold isdirempty
  rw [h.offs_eq, ← List.map_drop]
  apply wp_mono (h.isdiremptyLoop_reads _ ?_)
  · intro r υ hr
    refine ⟨hr.1, hr.2.1, ?_⟩
    intro hempty e he
    obtain ⟨k, hk, rfl⟩ := List.getElem_of_mem he
    unfold Tree.rest at hk
    rw [List.length_drop] at hk
    apply hr.2.2 hempty (2 + k)
    · rw [List.mem_iff_getElem?]
      refine ⟨k, ?_⟩
      rw [List.getElem?_drop, List.getElem?_range (by omega)]
    · unfold Tree.rest
      rw [List.getElem_drop]
      exact List.getElem?_eq_getElem (by omega)
  · intro k hk
    exact List.mem_range.mp (List.mem_of_mem_drop hk)

end Directory

end Xv6.Fs
