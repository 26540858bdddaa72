import Xv6.Fs.Build
import Xv6.Fs.Syscall
import Xv6.Fs.Ownership

/-!
# The image with its files (project3/mkfs.c:67-168, main)

`main` makes the root directory and the files, rounds the size of the root directory up, and
writes the free map. The size that it gives the directory is always more than what was
appended, so that it may end behind the last block.
-/

namespace Xv6.Fs
open Buffer Forest Transition Image

/-- A file that is given to mkfs: its name and what `read` gives. -/
structure ArgFile where
  name : List Byte
  bytes : List Byte

-- Skip leading _ in name when writing to file system.
def imageName : List Byte → List Byte
  | [] => []
  | b :: name => if b = 95 then name else b :: name

def chunksLoop : Nat → List Byte → List (List Byte)
  | 0, _ => []
  | n + 1, bs => if bs = [] then [] else bs.take BSIZE :: chunksLoop n (bs.drop BSIZE)

/-- What `read(fd, buf, sizeof(buf))` gives until it gives nothing. -/
def chunks (bs : List Byte) : List (List Byte) := chunksLoop bs.length bs

namespace Image

variable (sb : Superblock)

def appendChunks (im : Image) (inum : Nat) : List (List Byte) → Except Fault Image
  | [] => .ok im
  | buf :: bufs => do
    let im ← im.iappend sb inum buf
    appendChunks im inum bufs

/-- A turn of the loop of `main` over its arguments. -/
def mainFile (im : Image) (f : ArgFile) : Except Fault Image :=
  -- assert(index(argv[i], '/') == 0)
  if 47 ∈ f.name then .error .assertion
  else
    let (inum, im) := im.ialloc sb T_FILE
    do
      let im ← im.iappend sb ROOTINO (encodeDirent inum (imageName f.name))
      im.appendChunks sb inum (chunks f.bytes)

def mainFiles (im : Image) : List ArgFile → Except Fault Image
  | [] => .ok im
  | f :: files => do
    let im ← im.mainFile sb f
    mainFiles im files

-- fix size of root inode dir
def fixRoot (im : Image) : Image :=
  let din := im.rinode sb ROOTINO
  let off := (din.size.toNat / BSIZE + 1) * BSIZE
  im.winode sb ROOTINO { din with size := BitVec.ofNat 32 off }

def balloc (im : Image) : Except Fault Contents :=
  -- assert(used < BSIZE*8)
  if im.freeblock < BPB then
    .ok (Function.update im.disk sb.bmapstart (usedBlock im.freeblock))
  else .error .assertion

def main (files : List ArgFile) : Except Fault Contents :=
  let (rootino, im) := (formatted sb).ialloc sb T_DIR
  if rootino ≠ ROOTINO then .error .assertion
  else do
    let im ← im.iappend sb rootino (encodeDirent rootino [46])
    let im ← im.iappend sb rootino (encodeDirent rootino [46, 46])
    let im ← im.mainFiles sb files
    (im.fixRoot sb).balloc sb

end Image

variable {sb : Superblock} {devsw : Fin NDEV → Devsw} {im im' : Image} {T : AddrTable}
  {σ : Contents} {i j n : Nat} {content : Nat → List Byte} {files : List ArgFile}

/-! ### The calls that main makes -/

/-- The calls for one file, which gets inode `inum`. -/
def fileCalls (inum : Nat) (f : ArgFile) : List Image.Call :=
  .ialloc T_FILE :: .iappend ROOTINO (encodeDirent inum (imageName f.name)) ::
    (chunks f.bytes).map (.iappend inum)

def filesCalls : Nat → List ArgFile → List Image.Call
  | _, [] => []
  | inum, f :: files => fileCalls inum f ++ filesCalls (inum + 1) files

def mainCalls (files : List ArgFile) : List Image.Call :=
  .ialloc T_DIR :: .iappend ROOTINO (encodeDirent ROOTINO [46]) ::
    .iappend ROOTINO (encodeDirent ROOTINO [46, 46]) :: filesCalls 2 files

theorem calls_append (im : Image) (cs ds : List Image.Call) :
    im.calls sb (cs ++ ds) = (im.calls sb cs).bind fun im => im.calls sb ds := by
  induction cs generalizing im with
  | nil => rfl
  | cons c cs ih =>
    show (im.call sb c).bind (fun im => im.calls sb (cs ++ ds)) = _
    cases hc : im.call sb c with
    | error e =>
      have hcalls : im.calls sb (c :: cs) = .error e := by
        show (im.call sb c).bind (fun im => im.calls sb cs) = _
        rw [hc]
        rfl
      rw [hcalls]
      rfl
    | ok im1 =>
      have hcalls : im.calls sb (c :: cs) = im1.calls sb cs := by
        show (im.call sb c).bind (fun im => im.calls sb cs) = _
        rw [hc]
        rfl
      rw [hcalls, ← ih im1]
      rfl

theorem appendChunks_eq (im : Image) (inum : Nat) (bufs : List (List Byte)) :
    im.appendChunks sb inum bufs = im.calls sb (bufs.map (.iappend inum)) := by
  induction bufs generalizing im with
  | nil => rfl
  | cons buf bufs ih =>
    show (im.iappend sb inum buf).bind _ = (im.iappend sb inum buf).bind _
    congr 1
    funext im1
    exact ih im1

theorem mainFile_eq {f : ArgFile} (hname : 47 ∉ f.name) :
    im.mainFile sb f = im.calls sb (fileCalls im.freeinode f) := by
  unfold mainFile
  rw [if_neg hname]
  show ((im.ialloc sb T_FILE).2.iappend sb ROOTINO _).bind _ =
    ((im.ialloc sb T_FILE).2.iappend sb ROOTINO _).bind _
  congr 1
  funext im1
  exact appendChunks_eq im1 im.freeinode (chunks f.bytes)

/-- How many inodes the calls take. -/
def inodesTaken : List Image.Call → Nat
  | [] => 0
  | .ialloc _ :: cs => inodesTaken cs + 1
  | .iappend _ _ :: cs => inodesTaken cs

theorem fileBlock_freeinode {din din' : Dinode} {fbn x : Nat}
    (h : im.fileBlock din fbn = .ok (x, din', im')) : im'.freeinode = im.freeinode := by
  have hslot : ∀ k, (im.addrSlot din k).2.freeinode = im.freeinode := by
    intro k
    unfold addrSlot
    split_ifs
    · rfl
    · rfl
  have hindirect : ∀ (jm : Image) w k, (jm.indirectSlot w k).2.freeinode = jm.freeinode := by
    intro jm w k
    unfold indirectSlot
    dsimp only
    split_ifs
    · rfl
    · rfl
  unfold fileBlock at h
  split_ifs at h
  · cases h
    exact hslot _
  · dsimp only at h
    simp only [Except.ok.injEq, Prod.mk.injEq] at h
    obtain ⟨-, -, rfl⟩ := h
    rw [hindirect, hslot]

theorem appendLoop_freeinode (turns : Nat) {din din' : Dinode} {p : List Byte} {off off' n : Nat}
    (h : im.appendLoop turns din p off n = .ok (im', din', off')) :
    im'.freeinode = im.freeinode := by
  induction turns generalizing im din p off n with
  | zero =>
    cases h
    rfl
  | succ turns ih =>
    unfold appendLoop at h
    split_ifs at h
    · cases h
      rfl
    · dsimp only at h
      cases hblock : im.fileBlock din (off / BSIZE) with
      | error e =>
        rw [hblock] at h
        cases h
      | ok r =>
        obtain ⟨x, din1, im1⟩ := r
        rw [hblock] at h
        have hrest := ih h
        have hfirst : im1.freeinode = im.freeinode := fileBlock_freeinode hblock
        exact hrest.trans hfirst

theorem iappend_freeinode {p : List Byte} (h : im.iappend sb i p = .ok im') :
    im'.freeinode = im.freeinode := by
  unfold iappend at h
  dsimp only at h
  cases hloop : im.appendLoop p.length (im.rinode sb i) p (im.rinode sb i).size.toNat p.length with
  | error e =>
    rw [hloop] at h
    cases h
  | ok r =>
    obtain ⟨im1, din1, off1⟩ := r
    rw [hloop] at h
    cases h
    have hsame : im1.freeinode = im.freeinode := appendLoop_freeinode _ hloop
    exact hsame

theorem calls_freeinode (cs : List Image.Call) (h : im.calls sb cs = .ok im') :
    im'.freeinode = im.freeinode + inodesTaken cs := by
  induction cs generalizing im with
  | nil =>
    cases h
    rfl
  | cons c cs ih =>
    cases hc : im.call sb c with
    | error e =>
      unfold calls at h
      rw [hc] at h
      cases h
    | ok im1 =>
      unfold calls at h
      rw [hc] at h
      have hrest := ih h
      cases c with
      | ialloc type =>
        cases hc
        rw [hrest]
        show im.freeinode + 1 + _ = im.freeinode + (inodesTaken cs + 1)
        omega
      | iappend inum p =>
        rw [hrest, iappend_freeinode hc]
        rfl

theorem inodesTaken_append (cs ds : List Image.Call) :
    inodesTaken (cs ++ ds) = inodesTaken cs + inodesTaken ds := by
  induction cs with
  | nil => exact (Nat.zero_add _).symm
  | cons c cs ih =>
    cases c with
    | ialloc type =>
      show inodesTaken (cs ++ ds) + 1 = inodesTaken cs + 1 + inodesTaken ds
      omega
    | iappend inum p => exact ih

theorem inodesTaken_iappends (inum : Nat) (bufs : List (List Byte)) :
    inodesTaken (bufs.map (.iappend inum)) = 0 := by
  induction bufs with
  | nil => rfl
  | cons buf bufs ih => exact ih

theorem inodesTaken_fileCalls (inum : Nat) (f : ArgFile) : inodesTaken (fileCalls inum f) = 1 := by
  show inodesTaken ((chunks f.bytes).map (.iappend inum)) + 1 = 1
  rw [inodesTaken_iappends]

theorem mainFiles_eq (hnames : ∀ f ∈ files, 47 ∉ f.name) :
    im.mainFiles sb files = im.calls sb (filesCalls im.freeinode files) := by
  induction files generalizing im with
  | nil => rfl
  | cons f files ih =>
    have hfile := @mainFile_eq sb im f (hnames f List.mem_cons_self)
    show (im.mainFile sb f).bind (fun im => im.mainFiles sb files) =
      im.calls sb (fileCalls im.freeinode f ++ filesCalls (im.freeinode + 1) files)
    rw [calls_append, ← hfile]
    cases hrun : im.mainFile sb f with
    | error e => rfl
    | ok im1 =>
      rw [hfile] at hrun
      have hnext := calls_freeinode _ hrun
      rw [inodesTaken_fileCalls] at hnext
      rw [← hnext]
      exact ih fun g hg => hnames g (List.mem_cons_of_mem f hg)

theorem names_of_mainFiles (h : im.mainFiles sb files = .ok im') : ∀ f ∈ files, 47 ∉ f.name := by
  induction files generalizing im with
  | nil =>
    intro f hf
    cases hf
  | cons g files ih =>
    intro f hf
    have hbind : (im.mainFile sb g).bind (fun im => im.mainFiles sb files) = .ok im' := h
    cases hrun : im.mainFile sb g with
    | error e =>
      rw [hrun] at hbind
      cases hbind
    | ok im1 =>
      rw [hrun] at hbind
      cases hf with
      | head =>
        intro hmem
        unfold mainFile at hrun
        rw [if_pos hmem] at hrun
        cases hrun
      | tail _ hf => exact ih hbind f hf

theorem main_eq (hnames : ∀ f ∈ files, 47 ∉ f.name) :
    main sb files = ((formatted sb).calls sb (mainCalls files)).bind fun im =>
      (im.fixRoot sb).balloc sb := by
  have hroot : ((formatted sb).ialloc sb T_DIR).1 = ROOTINO := rfl
  unfold main
  dsimp only
  rw [hroot, if_neg (not_not.mpr rfl)]
  show (((formatted sb).ialloc sb T_DIR).2.iappend sb ROOTINO _).bind _ =
    ((((formatted sb).ialloc sb T_DIR).2.iappend sb ROOTINO _).bind _).bind _
  cases hdot : ((formatted sb).ialloc sb T_DIR).2.iappend sb ROOTINO (encodeDirent ROOTINO [46]) with
  | error e => rfl
  | ok im1 =>
    show (im1.iappend sb ROOTINO _).bind _ = ((im1.iappend sb ROOTINO _).bind _).bind _
    cases hdots : im1.iappend sb ROOTINO (encodeDirent ROOTINO [46, 46]) with
    | error e => rfl
    | ok im2 =>
      have hnext : im2.freeinode = 2 := (iappend_freeinode hdots).trans (iappend_freeinode hdot)
      show (im2.mainFiles sb files).bind _ = (im2.calls sb (filesCalls 2 files)).bind _
      rw [mainFiles_eq hnames, hnext]

theorem names_of_main (h : main sb files = .ok σ) : ∀ f ∈ files, 47 ∉ f.name := by
  have hroot : ((formatted sb).ialloc sb T_DIR).1 = ROOTINO := rfl
  unfold main at h
  dsimp only at h
  rw [hroot, if_neg (not_not.mpr rfl)] at h
  cases hdot : ((formatted sb).ialloc sb T_DIR).2.iappend sb ROOTINO (encodeDirent ROOTINO [46]) with
  | error e =>
    rw [hdot] at h
    cases h
  | ok im1 =>
    rw [hdot] at h
    have h1 : (im1.iappend sb ROOTINO (encodeDirent ROOTINO [46, 46])).bind
        (fun im => (im.mainFiles sb files).bind fun im => (im.fixRoot sb).balloc sb) = .ok σ := h
    cases hdots : im1.iappend sb ROOTINO (encodeDirent ROOTINO [46, 46]) with
    | error e =>
      rw [hdots] at h1
      cases h1
    | ok im2 =>
      rw [hdots] at h1
      have h2 : (im2.mainFiles sb files).bind (fun im => (im.fixRoot sb).balloc sb) = .ok σ := h1
      cases hfiles : im2.mainFiles sb files with
      | error e =>
        rw [hfiles] at h2
        cases h2
      | ok im3 => exact names_of_mainFiles hfiles

/-! ### What the calls make -/

/-- The inodes that have been allocated have a type, and the free map is not written yet. -/
structure Made (sb : Superblock) (im : Image) : Prop where
  type : ∀ i, 0 < i → i < im.freeinode → (dinode sb im.disk i).type ≠ 0
  map : ∀ b, sb.bmapstart ≤ b → b < sb.datastart → im.disk b = fun _ => 0

theorem made_formatted (sb : Superblock) : Made sb (formatted sb) := by
  refine ⟨?_, fun _ _ _ => rfl⟩
  intro i h0 hi
  have hi' : i < 1 := hi
  omega

theorem Made.winode (h : Made sb im) (hi : i < sb.ninodes) {d : Dinode} (hd : d.type ≠ 0) :
    Made sb (im.winode sb i d) := by
  constructor
  · intro j h0 hj
    by_cases hji : j = i
    · subst hji
      have hself : dinode sb (im.winode sb j d).disk j = d := dinode_updated_self d
      rw [hself]
      exact hd
    · have hother : dinode sb (im.winode sb i d).disk j = dinode sb im.disk j :=
        dinode_updated_ne d hji
      rw [hother]
      exact h.type j h0 hj
  · intro b hb hlt
    exact (updated_high hi d hb).trans (h.map b hb hlt)

theorem Made.later (h : Made sb im) (hl : im.Later sb im') (hn : im.freeinode ≤ sb.ninodes) :
    Made sb im' := by
  constructor
  · intro i h0 hi
    rw [hl.freeinode] at hi
    have hlow : sb.iblock i < sb.datastart :=
      Nat.lt_trans (Superblock.iblock_lt (by omega)) sb.bmapstart_lt_datastart
    rw [dinode_congr (hl.low _ hlow)]
    exact h.type i h0 hi
  · intro b hb hlt
    rw [hl.low b hlt]
    exact h.map b hb hlt

theorem Made.ialloc (h : Made sb im) (hi : im.freeinode < sb.ninodes) {type : BitVec 16}
    (htype : type ≠ 0) : Made sb (im.ialloc sb type).2 := by
  constructor
  · intro j h0 hj
    have hj' : j < im.freeinode + 1 := hj
    by_cases hji : j = im.freeinode
    · subst hji
      have hself : dinode sb (im.ialloc sb type).2.disk im.freeinode
          = { Dinode.zero with type := type, nlink := 1 } := dinode_updated_self _
      rw [hself]
      exact htype
    · have hother : dinode sb (im.ialloc sb type).2.disk j = dinode sb im.disk j :=
        (dinode_updated_ne _ hji).trans (dinode_zeroed_ne hji)
      rw [hother]
      exact h.type j h0 (by omega)
  · intro b hb hlt
    have hblock := Superblock.iblock_lt hi
    exact (updated_high hi _ hb).trans
      ((Function.update_of_ne (by omega) _ _).trans (h.map b hb hlt))

namespace Image.Holds

/-- `iappend` works on data blocks and then writes the inode. -/
theorem iappend_later (h : Holds sb T im content) (hi : i < sb.ninodes) {p : List Byte}
    (hfits : (content i ++ p).length ≤ limit)
    (hroom : blocks sb (Function.update content i (content i ++ p)) ≤ sb.size - sb.datastart) :
    ∃ a n im1, im.iappend sb i p = .ok (im1.winode sb i
      { dinode sb im.disk i with addrs := a, size := n }) ∧ im.Later sb im1 := by
  rw [List.length_append] at hfits
  obtain ⟨a, im1, bs, happ, hlater, -⟩ := h.appends hi rfl hfits (h.need_le hi hroom)
  exact ⟨a, _, im1, happ, hlater⟩

end Image.Holds

/-- Whatever the image holds, if no file is too long there are blocks for it. -/
def Roomy (sb : Superblock) : Prop :=
  ∀ content : Nat → List Byte, (∀ i, (content i).length ≤ limit) →
    blocks sb content ≤ sb.size - sb.datastart

/-- From calls that return the image has the bytes. -/
theorem calls_made (hroomy : Roomy sb) (cs : List Image.Call) (h : Holds sb T im content)
    (hm : Made sb im) (hlegal : Legal sb im.freeinode cs) (htypes : .ialloc 0 ∉ cs)
    (hok : im.calls sb cs = .ok im') :
    ∃ T', Holds sb T' im' (fun i => content i ++ appended i cs) ∧ Made sb im' := by
  induction cs generalizing im T content with
  | nil =>
    cases hok
    simp only [appended, List.append_nil]
    exact ⟨T, h, hm⟩
  | cons c cs ih =>
    have hrest : .ialloc 0 ∉ cs := fun hmem => htypes (List.mem_cons_of_mem c hmem)
    unfold calls at hok
    cases c with
    | ialloc type =>
      obtain ⟨hi, htype, hlater⟩ := hlegal
      have hne : type ≠ 0 := by
        intro heq
        exact htypes (heq ▸ List.mem_cons_self)
      exact ih (h.ialloc hi htype) (hm.ialloc hi hne) hlater hrest hok
    | iappend i p =>
      obtain ⟨h0, hi, hlater⟩ := hlegal
      have hlt := h.inodes i h0 hi
      have hfits : (content i ++ p).length ≤ limit := by
        by_contra hbig
        rw [List.length_append] at hbig
        have hloop := appendLoop_outOfBounds p.length im (im.rinode sb i) p (Nat.le_refl _)
          (h.fits i) (by omega)
        have hcall : im.call sb (.iappend i p) = .error .outOfBounds := by
          show im.iappend sb i p = _
          unfold Image.iappend rinode
          dsimp only
          rw [h.size i hlt]
          unfold rinode at hloop
          rw [hloop]
          rfl
        rw [hcall] at hok
        cases hok
      have hroom : blocks sb (Function.update content i (content i ++ p))
          ≤ sb.size - sb.datastart := by
        apply hroomy
        intro j
        by_cases hji : j = i
        · rw [hji, Function.update_self]
          exact hfits
        · rw [Function.update_of_ne hji]
          exact h.fits j
      obtain ⟨T', im1, happ, hnext, -, h'⟩ := h.iappend h0 hi hfits hroom
      obtain ⟨a, n, im2, happ', hl⟩ := h.iappend_later hlt hfits hroom
      rw [happ] at happ'
      cases happ'
      have hinodes : im.freeinode ≤ sb.ninodes := by
        by_contra hgt
        have hlast := h.inodes (im.freeinode - 1) (by omega) (by omega)
        omega
      have hm' := (hm.later hl hinodes).winode hlt (d := { dinode sb im.disk i with addrs := a, size := n })
        (hm.type i h0 hi)
      have hcall : im.call sb (.iappend i p) = .ok _ := happ
      rw [hcall] at hok
      rw [← hnext] at hlater
      rw [← update_append]
      exact ih h' hm' hlater hrest hok

/-! ### The calls of main -/

theorem legal_iappends {inum : Nat} (h0 : 0 < inum) (hlt : inum < n) (bufs : List (List Byte))
    {cs : List Image.Call} (h : Legal sb n cs) :
    Legal sb n (bufs.map (.iappend inum) ++ cs) := by
  induction bufs with
  | nil => exact h
  | cons buf bufs ih => exact ⟨h0, hlt, ih⟩

theorem legal_filesCalls (hn : 2 ≤ n) (hlen : n + files.length ≤ sb.ninodes) :
    Legal sb n (filesCalls n files) := by
  induction files generalizing n with
  | nil => trivial
  | cons f files ih =>
    rw [List.length_cons] at hlen
    refine ⟨by omega, by decide, by decide, by show 1 < n + 1; omega, ?_⟩
    apply legal_iappends (by omega) (Nat.lt_succ_self n)
    exact ih (by omega) (by omega)

theorem legal_mainCalls (hlen : files.length + 2 ≤ sb.ninodes) :
    Legal sb 1 (mainCalls files) := by
  refine ⟨by omega, by decide, by decide, by decide, by decide, by decide, ?_⟩
  exact legal_filesCalls (Nat.le_refl 2) (by omega)

theorem ialloc_not_mem_filesCalls : Image.Call.ialloc 0 ∉ filesCalls n files := by
  induction files generalizing n with
  | nil => exact List.not_mem_nil
  | cons f files ih =>
    unfold filesCalls fileCalls
    simpa [T_FILE] using @ih (n + 1)

theorem ialloc_not_mem_mainCalls : Image.Call.ialloc 0 ∉ mainCalls files := by
  unfold mainCalls
  simpa [T_DIR] using @ialloc_not_mem_filesCalls 2 files

theorem appended_iappends {inum : Nat} (hne : inum ≠ i) (bufs : List (List Byte)) :
    appended i (bufs.map (.iappend inum)) = [] := by
  induction bufs with
  | nil => rfl
  | cons buf bufs ih =>
    rw [List.map_cons, appended, if_neg hne, ih]

theorem length_appended_files (hn : 2 ≤ n) :
    (appended ROOTINO (filesCalls n files)).length = direntSize * files.length := by
  induction files generalizing n with
  | nil => rfl
  | cons f files ih =>
    have hne : n ≠ ROOTINO := by
      intro heq
      rw [heq] at hn
      exact absurd hn (by decide)
    show (appended ROOTINO (fileCalls n f ++ filesCalls (n + 1) files)).length = _
    rw [appended_append, List.length_append, ih (by omega)]
    unfold fileCalls
    rw [appended, appended, if_pos rfl, appended_iappends hne, List.append_nil, length_encodeDirent,
      List.length_cons]
    rw [direntSize_eq]
    omega

theorem length_appended_root :
    (appended ROOTINO (mainCalls files)).length = direntSize * (files.length + 2) := by
  unfold mainCalls
  rw [appended, appended, if_pos rfl, appended, if_pos rfl, List.length_append, List.length_append,
    length_encodeDirent, length_encodeDirent, length_appended_files (Nat.le_refl 2)]
  rw [direntSize_eq]
  omega

theorem appended_zero {cs : List Image.Call} (h : Legal sb n cs) : appended 0 cs = [] := by
  induction cs generalizing n with
  | nil => rfl
  | cons c cs ih =>
    cases c with
    | ialloc type => exact ih h.2.2
    | iappend inum p =>
      rw [appended, if_neg (Nat.pos_iff_ne_zero.mp h.1)]
      exact ih h.2.2

theorem length_branch (i bn : Nat) : (branch i bn).length = (branch 0 bn).length := by
  unfold branch
  rw [List.length_map, List.length_map]

theorem roomy_mkfs : Roomy Superblock.mkfs := by
  intro content hfits
  have hone : ∀ i, (pieceTree i 0 (content i).length).card ≤ 262 := by
    intro i
    have hmono := Finset.card_le_card (pieceTree_mono (i := i) (hfits i))
    have hle := @card_pieceTree_le i limit (by decide)
    have hlength : ((List.range' 0 ((limit - 1) / BSIZE + 1)).flatMap (branch i)).length = 262 := by
      rw [List.length_flatMap]
      have hfun : (fun bn => (branch i bn).length) = fun bn => (branch 0 bn).length := by
        funext bn
        exact length_branch i bn
      rw [hfun]
      decide +kernel
    omega
  have hsum := Finset.sum_le_card_nsmul (Finset.range Superblock.mkfs.ninodes) _ 262
    fun i _ => hone i
  rw [Finset.card_range] at hsum
  have hmul : Superblock.mkfs.ninodes • 262 ≤ Superblock.mkfs.size - Superblock.mkfs.datastart := by
    decide
  exact Nat.le_trans hsum hmul

/-! ### The finished image -/

theorem usedBlock_zero : usedBlock 0 = fun _ => 0 := by
  funext k
  unfold usedBlock
  rw [Nat.zero_sub]
  rfl

/-- `balloc` writes the free map of the counter. -/
theorem balloc_marked (hm : Made sb im) (hn : im.freeblock < BPB) :
    Function.update im.disk sb.bmapstart (usedBlock im.freeblock) = im.contents sb := by
  have hlt := sb.bmapstart_lt_datastart
  funext b
  unfold Image.contents marked
  by_cases hb : b = sb.bmapstart
  · rw [hb, Function.update_self, if_pos ⟨Nat.le_refl _, hlt⟩, Nat.sub_self, Nat.zero_mul,
      Nat.sub_zero]
  · rw [Function.update_of_ne hb]
    split_ifs with hmap
    · have hpos : 1 ≤ b - sb.bmapstart := by omega
      have hle : BPB ≤ (b - sb.bmapstart) * BPB := Nat.le_mul_of_pos_left BPB hpos
      rw [hm.map b hmap.1 hmap.2, Nat.sub_eq_zero_of_le (by omega), usedBlock_zero]
    · rfl

/-- A block is one of the first `m` bytes. -/
theorem place_mem_pieceTree {bn m : Nat} (hbn : bn < MAXFILE) (hm : m ≤ MAXFILE * BSIZE)
    (h : place i bn ∈ pieceTree i 0 m) : bn * BSIZE < m := by
  obtain ⟨o, -, ho, hmem⟩ := mem_pieceTree.mp h
  obtain ⟨js, hjs, heq⟩ := List.mem_map.mp hmem
  have hslot : (path (o / BSIZE)).1 = (path bn).1 := by
    have h1 := congrArg (fun p : Place => p.1.2) heq
    exact h1
  have hjs' : js = (path bn).2 := congrArg (fun p : Place => p.2) heq
  have hlen : js.length = (path (o / BSIZE)).2.length := by
    rw [hjs', length_path, length_path, hslot]
  have hwhole : js = (path (o / BSIZE)).2 :=
    ((List.mem_tails _ _).mp hjs).eq_of_length hlen
  have hpath : path bn = path (o / BSIZE) := Prod.ext hslot.symm (hjs'.symm.trans hwhole)
  have hlt : o / BSIZE < MAXFILE := Nat.div_lt_of_lt_mul (by rw [Nat.mul_comm]; omega)
  rw [path_inj hbn hlt hpath]
  exact Nat.lt_of_le_of_lt (Nat.div_mul_le_self o BSIZE) (by omega)

/-- The size that `main` gives the root directory. -/
def rootSize (files : List ArgFile) : Nat := (direntSize * (files.length + 2) / BSIZE + 1) * BSIZE

/-- What is on the disk of a finished image. -/
structure Finished (sb : Superblock) (T : AddrTable) (content : Nat → List Byte) (size : Nat)
    (σ : Contents) : Prop where
  consistent : Consistent sb T σ
  addrs : ∀ i, i < sb.ninodes → (dinode sb σ i).addrs = T i
  present : ∀ p, (shape sb).Valid p →
    (blockAt T σ p ≠ 0 ↔ p ∈ pieceTree p.1.1 0 (content p.1.1).length)
  root : (dinode sb σ ROOTINO).size.toNat = size
  size : ∀ i, i ≠ ROOTINO → i < sb.ninodes → (dinode sb σ i).size.toNat = (content i).length
  fits : ∀ i, (content i).length ≤ limit
  free : ∀ i, i < sb.ninodes → (dinode sb σ i).type = 0 → content i = []

/-- `main` gives the root directory its size, and writes the free map. -/
theorem Image.Holds.fixed (h : Holds sb T im content) (hm : Made sb im)
    (hroot : ROOTINO < im.freeinode) (hok : (im.fixRoot sb).balloc sb = .ok σ) :
    σ = updated sb (im.contents sb) ROOTINO { dinode sb im.disk ROOTINO with
      size := BitVec.ofNat 32 (((content ROOTINO).length / BSIZE + 1) * BSIZE) } := by
  have hi := h.inodes ROOTINO (by decide) hroot
  have hsize := h.size ROOTINO hi
  generalize hd : ({ dinode sb im.disk ROOTINO with
    size := BitVec.ofNat 32 (((content ROOTINO).length / BSIZE + 1) * BSIZE) } : Dinode) = d
  have hfix : im.fixRoot sb = im.winode sb ROOTINO d := by
    unfold fixRoot rinode
    dsimp only
    rw [hsize, hd]
  have hm' : Made sb (im.winode sb ROOTINO d) := by
    apply hm.winode hi
    rw [← hd]
    exact hm.type ROOTINO (by decide) hroot
  unfold Image.balloc at hok
  rw [hfix] at hok
  split_ifs at hok with hn
  cases hok
  rw [balloc_marked hm' hn, contents_winode hi]

theorem Image.Holds.finished (h : Holds sb T im content) (hm : Made sb im)
    (hroot : ROOTINO < im.freeinode) (hzero : content 0 = [])
    (hok : (im.fixRoot sb).balloc sb = .ok σ) :
    Finished sb T content (((content ROOTINO).length / BSIZE + 1) * BSIZE) σ := by
  have hi := h.inodes ROOTINO (by decide) hroot
  have hfits := h.fits ROOTINO
  have hlimit := limit_eq
  rw [h.fixed hm hroot hok]
  generalize hd : ({ dinode sb im.disk ROOTINO with
    size := BitVec.ofNat 32 (((content ROOTINO).length / BSIZE + 1) * BSIZE) } : Dinode) = d
  have hmap := h.consistent.sameMap_updated hi d
  have hread : ∀ i, i < sb.ninodes → dinode sb (im.contents sb) i = dinode sb im.disk i := by
    intro i hlt
    exact dinode_congr (marked_low (Superblock.iblock_lt hlt))
  have hself : dinode sb (updated sb (im.contents sb) ROOTINO d) ROOTINO = d :=
    dinode_updated_self d
  have hother : ∀ i, i ≠ ROOTINO → i < sb.ninodes →
      dinode sb (updated sb (im.contents sb) ROOTINO d) i = dinode sb im.disk i := by
    intro i hne hlt
    rw [dinode_updated_ne d hne, hread i hlt]
  refine ⟨hmap.consistent h.consistent, ?_, ?_, ?_, ?_, h.fits, ?_⟩
  · intro i hlt
    by_cases hne : i = ROOTINO
    · rw [hne, hself, ← hd]
      exact h.addrs ROOTINO hi
    · rw [hother i hne hlt]
      exact h.addrs i hlt
  · intro p hp
    rw [hmap.blockAt_eq hp]
    exact h.present p hp
  · rw [hself, ← hd]
    show (BitVec.ofNat 32 _).toNat = _
    rw [BitVec.toNat_ofNat, BSIZE_eq]
    omega
  · intro i hne hlt
    rw [hother i hne hlt]
    exact h.size i hlt
  · intro i hlt htype
    by_cases hne : i = ROOTINO
    · rw [hne, hself, ← hd] at htype
      exact absurd htype (hm.type ROOTINO (by decide) hroot)
    · rw [hother i hne hlt] at htype
      rcases Nat.eq_zero_or_pos i with rfl | hpos
      · exact hzero
      · apply h.new i
        by_contra hnew
        exact hm.type i hpos (by omega) htype

theorem finished_of_main (hroomy : Roomy sb) (hlen : files.length + 2 ≤ sb.ninodes)
    (hmain : main sb files = .ok σ) :
    ∃ T, Finished sb T (fun i => appended i (mainCalls files)) (rootSize files) σ := by
  rw [main_eq (names_of_main hmain)] at hmain
  cases hcalls : (formatted sb).calls sb (mainCalls files) with
  | error e =>
    rw [hcalls] at hmain
    cases hmain
  | ok im =>
    rw [hcalls] at hmain
    have hlegal : Legal sb 1 (mainCalls files) := legal_mainCalls hlen
    obtain ⟨T, h, hm⟩ := calls_made hroomy _ (holds_formatted sb) (made_formatted sb) hlegal
      ialloc_not_mem_mainCalls hcalls
    have hroot : ROOTINO < im.freeinode := by
      have hnext := calls_freeinode _ hcalls
      have hone : (formatted sb).freeinode = 1 := rfl
      have hcount : inodesTaken (mainCalls files) = inodesTaken (filesCalls 2 files) + 1 := rfl
      show 1 < im.freeinode
      omega
    have hfin := h.finished hm hroot (appended_zero hlegal) hmain
    rw [List.nil_append, length_appended_root] at hfin
    exact ⟨T, hfin⟩

section Finished

variable {size : Nat}

theorem Finished.below (h : Finished sb T content size σ) (hi : i < sb.ninodes) {o : Nat}
    (ho : o / BSIZE * BSIZE < (content i).length) : Present T σ i o := by
  have hleaf : Leaf sb (place i (o / BSIZE)) := leaf_place hi _
  apply (h.present _ hleaf.valid).mpr
  have hmem := @mem_pieceTree_place i _ _ ho
  rw [Nat.mul_div_cancel _ (show 0 < BSIZE by decide)] at hmem
  exact hmem

/-- Without a block at its end the root directory has no hole. -/
theorem Finished.sound (h : Finished sb T content size σ)
    (hsize : size = ((content ROOTINO).length / BSIZE + 1) * BSIZE)
    (hmod : (content ROOTINO).length % BSIZE ≠ 0) : Sound sb σ := by
  have hlimit := limit_eq
  apply Sound.of_table h.consistent h.addrs
  · intro j hj
    have hfits := h.fits j
    by_cases hne : j = ROOTINO
    · subst hne
      rw [h.root, hsize]
      constructor
      · rw [MAXFILE_BSIZE, BSIZE_eq]
        omega
      · intro o ho
        apply h.below hj
        rw [BSIZE_eq] at ho hmod ⊢
        omega
    · rw [h.size j hne hj]
      constructor
      · exact Nat.le_trans hfits limit_le
      · intro o ho
        exact h.below hj (Nat.lt_of_le_of_lt (Nat.div_mul_le_self o BSIZE) ho)
  · intro j hj htype
    rw [h.addrs j hj]
    have hempty := h.free j hj htype
    funext k
    by_contra hne
    have hpres := h.present ((j, k), []) ⟨hj, Nat.zero_le _⟩
    rw [hempty] at hpres
    have hmem := hpres.mp fun h0 => hne (toNat_eq_zero.mp h0)
    obtain ⟨o, -, ho, -⟩ := mem_pieceTree.mp hmem
    exact absurd ho (Nat.not_lt_zero o)

/-- With blocks that are full the root directory ends in a hole. -/
theorem Finished.hole (h : Finished sb T content size σ) (hi : ROOTINO < sb.ninodes)
    (hmod : (content ROOTINO).length % BSIZE = 0) :
    blockAt (table sb σ) σ (place ROOTINO ((content ROOTINO).length / BSIZE)) = 0 := by
  have hfits := h.fits ROOTINO
  have hlimit := limit_eq
  have hleaf : Leaf sb (place ROOTINO ((content ROOTINO).length / BSIZE)) := leaf_place hi _
  have htable : ∀ j, j < sb.ninodes → table sb σ j = T j := h.addrs
  rw [blockAt_congr_table htable hleaf.valid]
  by_contra hne
  have hmem := (h.present _ hleaf.valid).mp hne
  have hlt := place_mem_pieceTree (by rw [MAXFILE_eq, BSIZE_eq]; omega)
    (Nat.le_trans hfits limit_le) hmem
  rw [BSIZE_eq] at hlt hmod
  omega

end Finished

/-! ### Reading in every run -/

/-- Every block below the size of an inode is there, and a read of a locked inode returns and
logs nothing. -/
structure Whole (sb : Superblock) (devsw : Fin NDEV → Devsw) (k : Kernel) : Prop where
  blocks : ∀ i, i < sb.ninodes → ∀ bn, bn * BSIZE < (dinode sb k.disk i).size.toNat →
    blockAt (table sb k.disk) k.disk (place i bn) ≠ 0
  reads : ∀ s, k.holds s → ∀ off n, ∃ res bs,
    Does (readi sb devsw (k.icache s) off n) k.disk (res, bs, k.icache s) k.disk ∅

theorem Kernel.Inv.whole {k : Kernel} (h : k.Inv sb) : Whole sb devsw k := by
  constructor
  · intro i hi bn hbn
    have hpres := (h.disk.noHoles i hi).present (bn * BSIZE) hbn
    unfold Present at hpres
    rw [Nat.mul_div_cancel _ (show 0 < BSIZE by decide)] at hpres
    exact hpres
  · intro s hs off n
    obtain ⟨hi, hc⟩ := h.held hs
    exact h.disk.readi_does hi hc off n

/-- The blocks are there in every run exactly if the entries of the root directory do not fill
its blocks. -/
theorem whole_iff (hlen : files.length + 2 ≤ Superblock.mkfs.ninodes)
    (hmain : main Superblock.mkfs files = .ok σ) :
    (∀ k, Reachable (Kernel.step Superblock.mkfs devsw) (Kernel.boot σ) k →
      Whole Superblock.mkfs devsw k) ↔ (files.length + 2) % 32 ≠ 0 := by
  obtain ⟨T, h⟩ := finished_of_main roomy_mkfs hlen hmain
  have hlength : (appended ROOTINO (mainCalls files)).length = 16 * (files.length + 2) :=
    length_appended_root
  constructor
  · intro hall hmod
    have hwhole := hall _ (Reach.refl _)
    apply hwhole.blocks ROOTINO (by decide) ((appended ROOTINO (mainCalls files)).length / BSIZE)
    · show _ < (dinode Superblock.mkfs σ ROOTINO).size.toNat
      rw [h.root]
      unfold rootSize
      rw [← direntSize_eq] at hlength
      rw [hlength, direntSize_eq, BSIZE_eq]
      omega
    · apply h.hole (by decide)
      rw [hlength, BSIZE_eq]
      omega
  · intro hmod k hk
    have hsound : Sound Superblock.mkfs σ := by
      apply h.sound
      · unfold rootSize
        rw [length_appended_root]
      · rw [hlength, BSIZE_eq]
        omega
    exact ((Kernel.Inv.booted hsound).reach hk).whole

/-- The conditions under which there is an image. -/
theorem main_ok (hlen : files.length + 2 ≤ sb.ninodes) (hnames : ∀ f ∈ files, 47 ∉ f.name)
    (hfits : ∀ i, (appended i (mainCalls files)).length ≤ limit)
    (hroom : sb.datastart + blocks sb (fun i => appended i (mainCalls files)) < BPB)
    (hsize : BPB ≤ sb.size) : ∃ σ, main sb files = .ok σ := by
  have hlegal : Legal sb 1 (mainCalls files ++ []) := by
    rw [List.append_nil]
    exact legal_mainCalls hlen
  obtain ⟨T, im, hcalls, -, h⟩ := calls_holds (mainCalls files) (holds_formatted sb) hlegal hfits
    (by simp only [List.nil_append]; omega)
  have hcount := h.count
  simp only [List.nil_append] at hcount
  rw [main_eq hnames, hcalls]
  refine ⟨_, if_pos ?_⟩
  show im.freeblock < BPB
  omega

theorem appended_noBytes (hbytes : ∀ f ∈ files, f.bytes = []) (hi : i ≠ ROOTINO) :
    appended i (filesCalls n files) = [] := by
  induction files generalizing n with
  | nil => rfl
  | cons f files ih =>
    show appended i (fileCalls n f ++ filesCalls (n + 1) files) = []
    rw [appended_append, ih fun g hg => hbytes g (List.mem_cons_of_mem f hg), List.append_nil]
    unfold fileCalls
    rw [appended, appended, if_neg (Ne.symm hi), hbytes f List.mem_cons_self]
    rfl

theorem main_noBytes (hlen : files.length + 2 ≤ 200) (hnames : ∀ f ∈ files, 47 ∉ f.name)
    (hbytes : ∀ f ∈ files, f.bytes = []) : ∃ σ, main Superblock.mkfs files = .ok σ := by
  have hcontent : (fun i => appended i (mainCalls files)) =
      Function.update (fun _ => []) ROOTINO (appended ROOTINO (mainCalls files)) := by
    funext i
    by_cases hi : i = ROOTINO
    · rw [hi, Function.update_self]
    · rw [Function.update_of_ne hi]
      unfold mainCalls
      rw [appended, appended, if_neg (Ne.symm hi), appended, if_neg (Ne.symm hi),
        appended_noBytes hbytes hi]
  have hroot := @length_appended_root files
  rw [direntSize_eq] at hroot
  have hlimit := limit_eq
  have hfits : ∀ i, (appended i (mainCalls files)).length ≤ limit := by
    intro i
    rw [show appended i (mainCalls files) = _ from congrFun hcontent i]
    by_cases hi : i = ROOTINO
    · rw [hi, Function.update_self]
      omega
    · rw [Function.update_of_ne hi]
      exact Nat.zero_le _
  apply main_ok hlen hnames hfits
  · rw [hcontent, blocks_single (by decide)]
    have hmono := Finset.card_le_card (@pieceTree_mono ROOTINO _ 3200
      (show (appended ROOTINO (mainCalls files)).length ≤ 3200 by omega))
    have hseven : (pieceTree ROOTINO 0 3200).card ≤ 9 :=
      Nat.le_trans (card_pieceTree_le (by decide)) (by decide)
    have hstart : Superblock.mkfs.datastart = 143 := by decide
    have hbits : BPB = 4096 := rfl
    omega
  · decide

/-- Two files, one of two blocks. -/
def twoFiles : List ArgFile := [⟨[102], [104, 105]⟩, ⟨[103], List.replicate 600 7⟩]

theorem main_twoFiles : ∃ σ, main Superblock.mkfs twoFiles = .ok σ := by
  have hok : (main Superblock.mkfs twoFiles).isOk := by decide +kernel
  generalize main Superblock.mkfs twoFiles = r at hok ⊢
  cases r with
  | ok σ => exact ⟨σ, rfl⟩
  | error e => cases hok

theorem whole_iff_twoFiles : ∃ σ, main Superblock.mkfs twoFiles = .ok σ ∧
    ∀ k, Reachable (Kernel.step Superblock.mkfs noDevices) (Kernel.boot σ) k →
      Whole Superblock.mkfs noDevices k := by
  obtain ⟨σ, hσ⟩ := main_twoFiles
  exact ⟨σ, hσ, (whole_iff (by decide) hσ).mpr (by decide)⟩

/-- Thirty files without bytes. -/
def thirtyFiles : List ArgFile := (List.range 30).map fun k => ⟨[BitVec.ofNat 8 (97 + k)], []⟩

/-- The root directory has 1024 bytes and no second block. -/
theorem hole_thirtyFiles : ∃ σ, main Superblock.mkfs thirtyFiles = .ok σ ∧
    (dinode Superblock.mkfs σ ROOTINO).size.toNat = 1024 ∧
    blockAt (table Superblock.mkfs σ) σ (place ROOTINO 1) = 0 := by
  have hbytes : ∀ f ∈ thirtyFiles, f.bytes = [] := by
    intro f hf
    obtain ⟨k, -, rfl⟩ := List.mem_map.mp hf
    rfl
  obtain ⟨σ, hσ⟩ := @main_noBytes thirtyFiles (by decide) (by decide) hbytes
  obtain ⟨T, h⟩ := finished_of_main roomy_mkfs (by decide) hσ
  have hlength : (appended ROOTINO (mainCalls thirtyFiles)).length = 512 := length_appended_root
  refine ⟨σ, hσ, h.root, ?_⟩
  have hhole := h.hole (by decide) (by rw [hlength]; decide)
  rw [hlength] at hhole
  exact hhole

end Xv6.Fs
