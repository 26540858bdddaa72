import Xv6.Fs.Listing

/-!
# The directories of the image (project3/mkfs.c:117-165, main)

The root directory names itself twice, as "." and "..", and then every file once. So the law of
the directories holds before the first system call.
-/

namespace Xv6.Fs
open Buffer Forest Image

variable {sb : Superblock} {σ : Contents} {im : Image} {i n : Nat} {files : List ArgFile}

/-! ### One directory with files -/

namespace Tree

variable {t : Tree} {s u : Dirent} {l : List Dirent}

/-- A root directory that names every file once. -/
structure Flat (t : Tree) (s u : Dirent) (l : List Dirent) : Prop where
  root : t.type ROOTINO = T_DIR ∧ t.nlink ROOTINO = 1
  dirents : t.dirents ROOTINO = s :: u :: l
  dot : s.inum.toNat = ROOTINO ∧ namecmp s.name [46] = true
  dots : u.inum.toNat = ROOTINO ∧ namecmp u.name [46, 46] = true
  file : ∀ i, i ≠ ROOTINO → t.type i ≠ 0 → t.type i ≠ T_DIR ∧ t.nlink i = 1 ∧
    l.countP (fun e => e.inum.toNat = i) = 1
  named : ∀ e ∈ l, e.inum ≠ 0 → e.inum.toNat ≠ ROOTINO ∧ t.type e.inum.toNat ≠ 0
  zero : t.type 0 = 0

namespace Flat

theorem live_iff (h : Flat t s u l) (d : Nat) : t.Live d ↔ d = ROOTINO := by
  constructor
  · intro hd
    by_contra hne
    have htype : t.type d ≠ 0 := by
      rw [hd.1]
      decide
    exact (h.file d hne htype).1 hd.1
  · rintro rfl
    refine ⟨h.root.1, ?_⟩
    rw [h.root.2]
    decide

theorem count_eq (h : Flat t s u l) (hn : ROOTINO < n) (i : Nat) :
    t.count n i = (s :: u :: l).countP (names ROOTINO i) := by
  unfold count
  rw [Finset.sum_eq_single_of_mem ROOTINO (Finset.mem_range.mpr hn),
    if_pos ((h.live_iff ROOTINO).mpr rfl), h.dirents]
  intro d _ hd
  exact if_neg fun hlive => hd ((h.live_iff d).mp hlive)

theorem countP_rest (h : Flat t s u l) : l.countP (names ROOTINO ROOTINO) = 0 := by
  rw [List.countP_eq_zero]
  intro e he hnames
  unfold names at hnames
  rw [Bool.and_eq_true, decide_eq_true_eq] at hnames
  have hne : e.inum ≠ 0 := by
    intro h0
    rw [h0] at hnames
    exact absurd hnames.1 (by decide)
  exact (h.named e he hne).1 hnames.1

theorem count_file (h : Flat t s u l) (hn : ROOTINO < n) (hi : i ≠ ROOTINO)
    (htype : t.type i ≠ 0) : t.count n i = 1 := by
  have hnames : names ROOTINO i = fun e => decide (e.inum.toNat = i) := by
    funext e
    unfold names
    simp [hi]
  have hs : ¬ s.inum.toNat = i := fun heq => hi (heq.symm.trans h.dot.1)
  have hu : ¬ u.inum.toNat = i := fun heq => hi (heq.symm.trans h.dots.1)
  rw [h.count_eq hn, hnames, List.countP_cons_of_neg (by simp [hs]),
    List.countP_cons_of_neg (by simp [hu])]
  exact (h.file i hi htype).2.2

theorem count_root (h : Flat t s u l) (hn : ROOTINO < n) : t.count n ROOTINO = 1 := by
  have hs : ¬ names ROOTINO ROOTINO s = true := by
    unfold names
    rw [h.dot.2]
    simp
  have hu : names ROOTINO ROOTINO u = true := by
    have hname : namecmp u.name [46] = false := by
      rw [namecmp_congr h.dots.2]
      decide
    unfold names
    rw [hname, h.dots.1]
    simp
  rw [h.count_eq hn, List.countP_cons_of_neg hs, List.countP_cons_of_pos hu, h.countP_rest]

theorem law (h : Flat t s u l) (hn : ROOTINO < n) : t.Law n := by
  have hrest : t.rest ROOTINO = l := by
    unfold rest
    rw [h.dirents]
    rfl
  have hdir : ∀ d, t.type d = T_DIR → d = ROOTINO := by
    intro d hd
    by_contra hne
    exact (h.file d hne (by rw [hd]; decide)).1 hd
  have hparent : t.parent ROOTINO = ROOTINO := by
    unfold parent
    rw [h.dirents]
    exact h.dots.1
  have hu : u.inum ≠ 0 := by
    intro h0
    have hroot := h.dots.1
    rw [h0] at hroot
    exact absurd hroot (by decide)
  refine ⟨?_, ?_, ?_, ?_, ?_, ?_, ?_, ?_, h.zero⟩
  · intro i htype
    by_cases hi : i = ROOTINO
    · rw [hi, h.count_root hn, h.root.2]
      decide
    · rw [h.count_file hn hi htype, (h.file i hi htype).2.1]
      decide
  · intro d hd e he hne
    rw [(h.live_iff d).mp hd, h.dirents] at he
    have hroot : t.type ROOTINO ≠ 0 := by
      rw [h.root.1]
      decide
    cases he with
    | head =>
      rw [h.dot.1]
      exact hroot
    | tail _ he =>
      cases he with
      | head =>
        rw [h.dots.1]
        exact hroot
      | tail _ he => exact (h.named e he hne).2
  · intro d hd
    rw [hdir d hd]
    exact ⟨s, u, l, h.dirents, h.dot.1, hu, h.dot.2, h.dots.2⟩
  · intro d hd hzero
    rw [hdir d hd, h.root.2] at hzero
    exact absurd hzero (by decide)
  · intro d hd e he hne htype
    rw [(h.live_iff d).mp hd, hrest] at he
    exact absurd (hdir _ htype) (h.named e he hne).1
  · intro d hd i hi
    rw [(h.live_iff d).mp hd, hrest, hdir i hi]
    have hzero : l.countP (fun e => e.inum.toNat = ROOTINO) = 0 := by
      rw [List.countP_eq_zero]
      intro e he heq
      rw [decide_eq_true_eq] at heq
      have hne : e.inum ≠ 0 := by
        intro h0
        rw [h0] at heq
        exact absurd heq (by decide)
      exact (h.named e he hne).1 heq
    omega
  · exact ⟨(h.live_iff ROOTINO).mpr rfl, hparent⟩
  · intro d hd
    rw [(h.live_iff d).mp hd]
    exact Linked.root

end Flat

end Tree

/-! ### The entries of the image -/

/-- The inode numbers and the names in the root directory, for files from inode `n` on. -/
def fileEntries : Nat → List ArgFile → List (Nat × List Byte)
  | _, [] => []
  | n, f :: files => (n, imageName f.name) :: fileEntries (n + 1) files

def rootEntries (files : List ArgFile) : List (Nat × List Byte) :=
  (ROOTINO, [46]) :: (ROOTINO, [46, 46]) :: fileEntries 2 files

def encoded (es : List (Nat × List Byte)) : List (List Byte) :=
  es.map fun e => encodeDirent e.1 e.2

theorem map_fst_fileEntries : (fileEntries n files).map Prod.fst = List.range' n files.length := by
  induction files generalizing n with
  | nil => rfl
  | cons f files ih =>
    unfold fileEntries
    rw [List.map_cons, ih, List.length_cons, List.range'_succ]

theorem appended_files (hn : 2 ≤ n) :
    appended ROOTINO (filesCalls n files) = (encoded (fileEntries n files)).flatten := by
  induction files generalizing n with
  | nil => rfl
  | cons f files ih =>
    have hne : n ≠ ROOTINO := by
      intro heq
      rw [heq] at hn
      exact absurd hn (by decide)
    show appended ROOTINO (fileCalls n f ++ filesCalls (n + 1) files) = _
    rw [appended_append, ih (by omega)]
    unfold fileCalls
    rw [appended, appended, if_pos rfl, appended_iappends hne, List.append_nil]
    rfl

theorem appended_root :
    appended ROOTINO (mainCalls files) = (encoded (rootEntries files)).flatten := by
  unfold mainCalls
  rw [appended, appended, if_pos rfl, appended, if_pos rfl, appended_files (Nat.le_refl 2)]
  rfl

/-! ### Files of whole entries -/

theorem getD_flatten {cs : List (List Byte)} (hlen : ∀ c ∈ cs, c.length = n) {k j : Nat}
    (hk : k < cs.length) (hj : j < n) :
    cs.flatten.getD (n * k + j) 0 = (cs.getD k []).getD j 0 := by
  induction cs generalizing k with
  | nil => exact absurd hk (Nat.not_lt_zero k)
  | cons c cs ih =>
    have hc := hlen c List.mem_cons_self
    have hcs : ∀ c ∈ cs, c.length = n := fun c hc => hlen c (List.mem_cons_of_mem _ hc)
    rw [List.flatten_cons]
    cases k with
    | zero =>
      rw [Nat.mul_zero, Nat.zero_add, List.getD_append _ _ _ _ (by omega)]
      rfl
    | succ k =>
      have hsub : n * (k + 1) + j - c.length = n * k + j := by
        rw [hc, Nat.mul_succ]
        omega
      have hle : c.length ≤ n * (k + 1) + j := by
        rw [hc, Nat.mul_succ]
        omega
      rw [List.getD_append_right _ _ _ _ hle, hsub, ih hcs (by simpa using hk)]
      rfl

/-- A directory with the bytes of whole entries. -/
theorem direntsOf_eq_map {cs : List (List Byte)} (hlen : ∀ c ∈ cs, c.length = direntSize)
    (hsize : (dinode sb σ i).size.toNat = direntSize * cs.length)
    (hbytes : ∀ o, o < direntSize * cs.length →
      fileByte (table sb σ) σ i o = cs.flatten.getD o 0) :
    direntsOf sb σ i = cs.map decodeDirent := by
  have hcount : (dinode sb σ i).size.toNat / direntSize = cs.length := by
    rw [hsize]
    exact Nat.mul_div_cancel_left _ (by decide)
  apply List.ext_getElem?
  intro k
  by_cases hk : k < cs.length
  · rw [getElem?_direntsOf (by rw [hcount]; exact hk), List.getElem?_map,
      List.getElem?_eq_getElem hk, Option.map_some]
    unfold direntAt
    congr 2
    have hck := hlen cs[k] (List.getElem_mem hk)
    apply List.ext_getElem
    · rw [length_fileBytes, hck]
    · intro j hj hj'
      have hjd : j < direntSize := by rw [← hck]; exact hj'
      have hlt : direntSize * k + j < direntSize * cs.length := by
        rw [direntSize_eq] at hjd ⊢
        omega
      simp only [fileBytes, List.getElem_map, List.getElem_range]
      rw [hbytes _ hlt, getD_flatten hlen hk hjd, List.getD_eq_getElem _ _ hk,
        List.getD_eq_getElem _ _ hj']
  · rw [List.getElem?_eq_none (by rw [length_direntsOf, hcount]; omega),
      List.getElem?_eq_none (by rw [List.length_map]; omega)]

/-! ### The tree of the image -/

/-- The entries of the root directory, and empty ones up to its size. -/
theorem Planted.direntsOf_eq (h : Planted sb n (encoded (rootEntries files)).flatten σ) :
    ∃ m, direntsOf sb σ ROOTINO = (encoded (rootEntries files)).map decodeDirent ++
      List.replicate m (decodeDirent (List.replicate direntSize 0)) := by
  have hlen : ∀ c ∈ encoded (rootEntries files), c.length = direntSize := by
    intro c hc
    obtain ⟨e, -, rfl⟩ := List.mem_map.mp hc
    exact length_encodeDirent _ _
  have htotal : (encoded (rootEntries files)).flatten.length =
      direntSize * (encoded (rootEntries files)).length := by
    rw [List.length_flatten, List.map_congr_left hlen, List.map_const', List.sum_replicate_nat,
      Nat.mul_comm]
  have hsize := h.size
  have hbytes := h.bytes
  generalize hcs : encoded (rootEntries files) = cs at *
  generalize hrest : (direntSize * cs.length / BSIZE + 1) * BSIZE / direntSize - cs.length = m
  have hpad : direntSize * (cs ++ List.replicate m (List.replicate direntSize 0)).length =
      (cs.flatten.length / BSIZE + 1) * BSIZE := by
    rw [List.length_append, List.length_replicate, htotal]
    rw [direntSize_eq, BSIZE_eq] at *
    omega
  refine ⟨m, ?_⟩
  rw [← List.map_replicate, ← List.map_append]
  apply direntsOf_eq_map
  · intro c hc
    rcases List.mem_append.mp hc with hc | hc
    · exact hlen c hc
    · rw [List.eq_of_mem_replicate hc, List.length_replicate]
  · rw [hpad]
    exact hsize
  · intro o ho
    rw [hpad] at ho
    rw [hbytes o ho, List.flatten_append]
    by_cases hlt : o < cs.flatten.length
    · rw [List.getD_append _ _ _ _ hlt]
    · rw [List.getD_append_right _ _ _ _ (Nat.not_lt.mp hlt),
        List.getD_eq_default _ _ (Nat.not_lt.mp hlt), List.flatten_replicate_replicate,
        List.getD_eq_getElem?_getD, List.getElem?_getD_replicate_default_eq]

/-- The files are named by their inode numbers, one after the other. -/
theorem inums_encoded (hlen : files.length + 2 ≤ 65536) :
    ((encoded (fileEntries 2 files)).map decodeDirent).map (fun e => e.inum.toNat) =
      List.range' 2 files.length := by
  have hfst := @map_fst_fileEntries 2 files
  rw [← hfst]
  unfold encoded
  rw [List.map_map, List.map_map]
  apply List.map_congr_left
  intro e he
  have hmem : e.1 ∈ List.range' 2 files.length := by
    rw [← hfst]
    exact List.mem_map_of_mem he
  rw [List.mem_range'_1] at hmem
  exact inum_encodeDirent (by omega) e.2

theorem Planted.flat (h : Planted sb (files.length + 2) (encoded (rootEntries files)).flatten σ)
    (hlen : files.length + 2 ≤ sb.ninodes) (hshort : sb.ninodes ≤ 65536) :
    ∃ s u l, (tree sb σ).Flat s u l := by
  obtain ⟨m, hdirents⟩ := h.direntsOf_eq
  have hroot : ROOTINO < sb.ninodes := by
    show 1 < _
    omega
  have hinums := inums_encoded (Nat.le_trans hlen hshort)
  generalize hfs : (encoded (fileEntries 2 files)).map decodeDirent = fs at hinums
  have hzero : ∀ e ∈ List.replicate m (decodeDirent (List.replicate direntSize 0)), e.inum = 0 := by
    intro e he
    rw [List.eq_of_mem_replicate he]
    exact inum_zeros
  have hfile : ∀ i, i ≠ ROOTINO → (tree sb σ).type i =
      if 0 < i ∧ i < files.length + 2 then T_FILE else 0 := by
    intro i hi
    by_cases hlt : i < sb.ninodes
    · rw [tree_type hlt]
      exact h.file i hlt hi
    · rw [(tree_outside hlt).1, if_neg (by omega)]
  refine ⟨decodeDirent (encodeDirent ROOTINO [46]), decodeDirent (encodeDirent ROOTINO [46, 46]),
    fs ++ List.replicate m (decodeDirent (List.replicate direntSize 0)), ?_, ?_, ?_, ?_, ?_, ?_, ?_⟩
  · rw [tree_type hroot, tree_nlink hroot]
    exact ⟨h.root, h.nlink ROOTINO (by decide) (by show 1 < _; omega)⟩
  · rw [tree_dirents hroot h.root, hdirents, ← hfs]
    rfl
  · exact ⟨inum_encodeDirent (by decide) _, by rw [namecmp_encodeDirent]; decide⟩
  · exact ⟨inum_encodeDirent (by decide) _, by rw [namecmp_encodeDirent]; decide⟩
  · intro i hi htype
    have hty := hfile i hi
    have hlt : 0 < i ∧ i < files.length + 2 := by
      by_contra hno
      rw [if_neg hno] at hty
      exact htype hty
    rw [if_pos hlt] at hty
    refine ⟨by rw [hty]; decide, ?_, ?_⟩
    · rw [tree_nlink (Nat.lt_of_lt_of_le hlt.2 hlen)]
      exact h.nlink i hlt.1 hlt.2
    · have hfree : (List.replicate m (decodeDirent (List.replicate direntSize 0))).countP
          (fun e => e.inum.toNat = i) = 0 := by
        rw [List.countP_eq_zero]
        intro e he heq
        rw [hzero e he, decide_eq_true_eq] at heq
        have h0 : (0 : BitVec 16).toNat = 0 := rfl
        omega
      have hi2 : i ∈ List.range' 2 files.length := by
        rw [List.mem_range'_1]
        have hne : i ≠ 1 := hi
        omega
      have hone : (List.range' 2 files.length).count i = 1 :=
        List.count_eq_one_of_mem (List.nodup_range' ..) hi2
      rw [← hinums, List.count, List.countP_map] at hone
      rw [List.countP_append, hfree, Nat.add_zero]
      exact hone
  · intro e he hne
    rcases List.mem_append.mp he with he | he
    · have hmem : e.inum.toNat ∈ List.range' 2 files.length := by
        rw [← hinums]
        exact List.mem_map_of_mem he
      rw [List.mem_range'_1] at hmem
      have hroot' : e.inum.toNat ≠ ROOTINO := by
        show _ ≠ 1
        omega
      refine ⟨hroot', ?_⟩
      rw [hfile _ hroot', if_pos (by omega)]
      decide
    · exact absurd (hzero e he) hne
  · rw [hfile 0 (by decide), if_neg (by omega)]

/-! ### The image without files -/

theorem updated_updated (d d' : Dinode) :
    updated sb (updated sb σ i d) i d' = updated sb σ i d' := by
  unfold updated
  rw [Function.update_self, encodeDinode_encodeDinode, Function.update_idem]

theorem update_updated {w : Nat} (h : w ≠ sb.iblock i) (v : Block) (d : Dinode) :
    Function.update (updated sb σ i d) w v = updated sb (Function.update σ w v) i d := by
  unfold updated
  rw [Function.update_of_ne h.symm, Function.update_comm h.symm]

theorem fileBlock_first {din : Dinode} :
    im.fileBlock din 0 = .ok (((im.addrSlot din (slotOf 0)).1.addrs (slotOf 0)).toNat,
      im.addrSlot din (slotOf 0)) := by
  unfold fileBlock
  rw [if_neg (by rw [MAXFILE_eq]; omega), if_pos (by decide)]

/-- An entry goes into the first block of a directory. -/
theorem iappend_first {σ : Contents} {d d' : Dinode} {p : List Byte} {n m m' w off : Nat}
    (hslot : addrSlot ⟨updated sb σ i d, n, m⟩ d (slotOf 0) = (d', ⟨updated sb σ i d, n, m'⟩))
    (haddr : (d'.addrs (slotOf 0)).toNat = w) (hw : w ≠ sb.iblock i) (hsize : d.size.toNat = off)
    (hp : p.length = direntSize) (hfit : off + direntSize ≤ BSIZE) :
    iappend sb ⟨updated sb σ i d, n, m⟩ i p =
      .ok ⟨updated sb (Function.update σ w (patch (σ w) off p)) i
        { d' with size := BitVec.ofNat 32 (off + direntSize) }, n, m'⟩ := by
  have hB := BSIZE_eq
  have hD := direntSize_eq
  have hself : dinode sb (updated sb σ i d) i = d := dinode_updated_self d
  have hdiv : off / BSIZE = 0 := by
    rw [hB]
    omega
  have hmod : off % BSIZE = off := by
    rw [hB]
    omega
  have hblock : fileBlock ⟨updated sb σ i d, n, m⟩ (dinode sb (updated sb σ i d) i) (off / BSIZE) =
      .ok (w, d', ⟨updated sb σ i d, n, m'⟩) := by
    rw [hself, hdiv, fileBlock_first, hslot, haddr]
  have hsize' : (dinode sb (updated sb σ i d) i).size.toNat = off := by
    rw [hself, hsize]
  have hread : updated sb σ i d w = σ w := Function.update_of_ne hw _ _
  rw [iappend_one (by omega) (by omega) hblock hsize', hp]
  unfold winode
  dsimp only
  rw [hread, hmod, update_updated hw, updated_updated]

/-- The inode of the root directory, before its first entry and when it has `n` bytes. -/
def emptyRoot : Dinode := ⟨T_DIR, 0, 0, 1, 0, fun _ => 0⟩

def rootAt (n : Nat) : Dinode := ⟨T_DIR, 0, 0, 1, BitVec.ofNat 32 n, rootDinode.addrs⟩

/-- The image when the root directory has `blk`. -/
def rootedAt (blk : Block) (d : Dinode) (m : Nat) : Image :=
  ⟨updated Superblock.mkfs (Function.update (fun _ _ => 0) 143 blk) ROOTINO d, 2, m⟩

theorem addrSlot_emptyRoot (blk : Block) :
    (rootedAt blk emptyRoot 143).addrSlot emptyRoot (slotOf 0) =
      (rootAt 0, rootedAt blk emptyRoot 144) := by
  have haddrs : Function.update (fun _ => 0 : Fin 9 → BitVec 32) (slotOf 0) 143 =
      rootDinode.addrs := by
    funext k
    revert k
    decide
  have hd : ({ emptyRoot with
      addrs := Function.update emptyRoot.addrs (slotOf 0) (BitVec.ofNat 32 143) } : Dinode) =
      rootAt 0 := congrArg (Dinode.mk T_DIR 0 0 1 0) haddrs
  rw [← hd]
  exact if_pos rfl

theorem addrSlot_rootAt (blk : Block) (n m : Nat) :
    (rootedAt blk (rootAt n) m).addrSlot (rootAt n) (slotOf 0) =
      (rootAt n, rootedAt blk (rootAt n) m) := by
  have hne : (rootAt n).addrs (slotOf 0) ≠ 0 := by
    show rootDinode.addrs (slotOf 0) ≠ 0
    decide
  exact if_neg hne

theorem iappend_rootedAt {blk : Block} {d : Dinode} {p : List Byte} {m m' off : Nat}
    (hslot : (rootedAt blk d m).addrSlot d (slotOf 0) = (rootAt off, rootedAt blk d m'))
    (hsize : d.size.toNat = off) (hp : p.length = direntSize) (hfit : off + direntSize ≤ BSIZE) :
    (rootedAt blk d m).iappend Superblock.mkfs ROOTINO p =
      .ok (rootedAt (patch blk off p) (rootAt (off + direntSize)) m') := by
  have h := @iappend_first Superblock.mkfs ROOTINO (Function.update (fun _ _ => 0) 143 blk) d
    (rootAt off) p 2 m m' 143 off hslot rfl (by decide) hsize hp hfit
  rw [Function.update_self, Function.update_idem] at h
  exact h

theorem start_mkfs : ((formatted Superblock.mkfs).ialloc Superblock.mkfs T_DIR).2 =
    rootedAt (fun _ => 0) emptyRoot 143 := by
  have hzero : ((formatted Superblock.mkfs).zeroed Superblock.mkfs ROOTINO).disk =
      Function.update (fun _ _ => 0) 143 fun _ => 0 := by
    have hblk : (formatted Superblock.mkfs).disk (Superblock.mkfs.iblock ROOTINO) =
        fun _ => 0 := rfl
    unfold zeroed
    dsimp only
    rw [hblk, patch_zeros]
    exact (Function.update_eq_self _ _).trans (Function.update_eq_self _ _).symm
  exact congrArg (fun σ => (⟨updated Superblock.mkfs σ ROOTINO emptyRoot, 2, 143⟩ : Image)) hzero

theorem calls_nil : (formatted Superblock.mkfs).calls Superblock.mkfs (mainCalls []) =
    .ok (rootedAt rootBlock (rootAt 32) 144) := by
  have hfirst : ∀ im : Image, im.calls Superblock.mkfs (mainCalls []) =
      ((im.ialloc Superblock.mkfs T_DIR).2.iappend Superblock.mkfs ROOTINO
        (encodeDirent ROOTINO [46])).bind fun im =>
          (im.iappend Superblock.mkfs ROOTINO (encodeDirent ROOTINO [46, 46])).bind .ok :=
    fun _ => rfl
  have hok : ∀ (im : Image) (f : Image → Except Fault Image), (Except.ok im).bind f = f im :=
    fun _ _ => rfl
  have hblk : patch (patch (fun _ => 0) 0 (encodeDirent ROOTINO [46])) (0 + direntSize)
      (encodeDirent ROOTINO [46, 46]) = rootBlock := patch_append _ _ _ _ rfl
  rw [hfirst, start_mkfs,
    iappend_rootedAt (addrSlot_emptyRoot _) rfl (length_encodeDirent _ _) (by decide), hok,
    iappend_rootedAt (addrSlot_rootAt _ _ _) rfl (length_encodeDirent _ _) (by decide), hok, hblk]
  rfl

theorem main_nil : main Superblock.mkfs [] = .ok rootImage := by
  have hfix : (rootedAt rootBlock (rootAt 32) 144).fixRoot Superblock.mkfs =
      rootedAt rootBlock (rootAt 512) 144 := by
    unfold rootedAt fixRoot rinode winode
    dsimp only
    rw [dinode_updated_self, updated_updated]
    rfl
  have hlt : 144 < BPB := by decide
  have hused : Image.balloc Superblock.mkfs (rootedAt rootBlock (rootAt 512) 144) =
      .ok (Function.update (updated Superblock.mkfs (Function.update (fun _ _ => 0) 143 rootBlock)
        ROOTINO (rootAt 512)) 118 (usedBlock 144)) := if_pos hlt
  have hok : ∀ (im : Image) (f : Image → Except Fault Contents), (Except.ok im).bind f = f im :=
    fun _ _ => rfl
  rw [main_eq (by simp), calls_nil, hok, hfix, hused, ← update_updated (by decide),
    Function.update_comm (by decide)]
  rfl

end Xv6.Fs
