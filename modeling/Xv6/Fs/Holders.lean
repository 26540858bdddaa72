import Xv6.Fs.Refs

/-!
# Who holds the references (project3/file.c, sysfile.c, proc.c)

Between system calls the references of an entry are those of the open files and of the
directories of the processes.
-/

namespace Xv6.Fs
open Code Transition

/-- The inode of a file that is open. -/
def File.inode (r : File) : Option CacheSlot :=
  if r.ref = 0 ∨ r.type = .none then none else some r.ip

/-- The open files on an entry, and the processes whose directory it is. -/
def users (s : Sys) (i : CacheSlot) : Nat :=
  tally (fun f => (s.file f).inode) (some i) + tally (fun p => (s.proc p).cwd) (some i)

/-- Beside the files and processes `extra` holds references. -/
structure Held (extra : CacheSlot → Nat) (s : Sys) : Prop where
  refs : ∀ i, refs s.kernel i = users s i + extra i
  free : ∀ f, (s.file f).ref = 0 → (s.file f).type = .none
  cwd : ∀ p, (s.proc p).state = .live ↔ (s.proc p).cwd ≠ none

theorem held_eq (o : Option CacheSlot) (i : CacheSlot) :
    held o i = if o = some i then 1 else 0 := by
  cases o with
  | none => rfl
  | some ip =>
    show (if i = ip then 1 else 0) = _
    by_cases h : i = ip
    · rw [if_pos h, if_pos (congrArg some h.symm)]
    · rw [if_neg h, if_neg fun heq => h (Option.some.inj heq).symm]

theorem users_setFile (s : Sys) (f : Fin NFILE) (r : File) (i : CacheSlot) :
    users (s.setFile f r) i + held (s.file f).inode i = users s i + held r.inode i := by
  have hfun : (fun g => ((s.setFile f r).file g).inode) =
      Function.update (fun g => (s.file g).inode) f r.inode := by
    funext g
    by_cases hg : g = f
    · subst hg
      show (Function.update s.file g r g).inode = _
      rw [Function.update_self, Function.update_self]
    · show (Function.update s.file f r g).inode = _
      rw [Function.update_of_ne hg, Function.update_of_ne hg]
  have htally := tally_update (fun g => (s.file g).inode) f r.inode (some i)
  unfold users
  rw [hfun, held_eq, held_eq]
  show _ + tally (fun p => (s.proc p).cwd) (some i) + _ = _
  omega

theorem users_setProc (s : Sys) (p : Fin NPROC) (r : Proc) (i : CacheSlot) :
    users (s.setProc p r) i + held (s.proc p).cwd i = users s i + held r.cwd i := by
  have hfun : (fun q => ((s.setProc p r).proc q).cwd) =
      Function.update (fun q => (s.proc q).cwd) p r.cwd := by
    funext q
    by_cases hq : q = p
    · subst hq
      show (Function.update s.proc q r q).cwd = _
      rw [Function.update_self, Function.update_self]
    · show (Function.update s.proc p r q).cwd = _
      rw [Function.update_of_ne hq, Function.update_of_ne hq]
  have htally := tally_update (fun q => (s.proc q).cwd) p r.cwd (some i)
  unfold users
  rw [hfun, held_eq, held_eq]
  show tally (fun f => (s.file f).inode) (some i) + _ + _ = _
  omega

variable {sb : Superblock} {devsw : Fin NDEV → Devsw} {extra extra' : CacheSlot → Nat} {s t : Sys}

namespace Held

theorem congr (h : Held extra s) (heq : ∀ i, extra' i = extra i) : Held extra' s := by
  refine ⟨?_, h.free, h.cwd⟩
  intro i
  rw [heq]
  exact h.refs i

theorem setFile (h : Held extra s) (f : Fin NFILE) {r : File} (hfree : r.ref = 0 → r.type = .none)
    (heq : ∀ i, extra i + held (s.file f).inode i = extra' i + held r.inode i) :
    Held extra' (s.setFile f r) := by
  refine ⟨?_, ?_, h.cwd⟩
  · intro i
    have hrefs := h.refs i
    have husers := users_setFile s f r i
    have hextra := heq i
    show Fs.refs s.kernel i = _
    omega
  · intro g
    by_cases hg : g = f
    · show (Function.update s.file f r g).ref = 0 → (Function.update s.file f r g).type = .none
      rw [hg, Function.update_self]
      exact hfree
    · show (Function.update s.file f r g).ref = 0 → (Function.update s.file f r g).type = .none
      rw [Function.update_of_ne hg]
      exact h.free g

theorem setProc (h : Held extra s) (p : Fin NPROC) {r : Proc}
    (hcwd : r.state = .live ↔ r.cwd ≠ none)
    (heq : ∀ i, extra i + held (s.proc p).cwd i = extra' i + held r.cwd i) :
    Held extra' (s.setProc p r) := by
  refine ⟨?_, h.free, ?_⟩
  · intro i
    have hrefs := h.refs i
    have husers := users_setProc s p r i
    have hextra := heq i
    show Fs.refs s.kernel i = _
    omega
  · intro q
    by_cases hq : q = p
    · show (Function.update s.proc p r q).state = .live ↔ (Function.update s.proc p r q).cwd ≠ none
      rw [hq, Function.update_self]
      exact hcwd
    · show (Function.update s.proc p r q).state = .live ↔ (Function.update s.proc p r q).cwd ≠ none
      rw [Function.update_of_ne hq]
      exact h.cwd q

theorem setRef (h : Held extra s) (f : Fin NFILE) {n : Nat} (hf : (s.file f).ref ≠ 0)
    (hn : n ≠ 0) : Held extra (s.setFile f { s.file f with ref := n }) := by
  apply h.setFile f
  · intro h0
    exact absurd h0 hn
  · intro i
    have hsame : ({ s.file f with ref := n } : File).inode = (s.file f).inode := by
      unfold File.inode
      dsimp only
      by_cases ht : (s.file f).type = .none
      · rw [if_pos (Or.inr ht), if_pos (Or.inr ht)]
      · rw [if_neg (not_or.mpr ⟨hn, ht⟩), if_neg (not_or.mpr ⟨hf, ht⟩)]
    rw [hsame]

/-- The files of a process do not matter. -/
theorem setOfile (h : Held extra s) (p : Fin NPROC) (fd : Fin NOFILE) (f : Option (Fin NFILE)) :
    Held extra (s.setOfile p fd f) := h.setProc p (h.cwd p) fun _ => rfl

/-- A call on the inode cache. -/
theorem kernel {α : Type} {p : Call α} {give : CacheSlot → Nat} {take : α → CacheSlot → Nat}
    {a : α} {k : Kernel} (h : Held extra s) (hp : Trades Fs.refs p give take)
    (hcover : ∀ i, give i ≤ Fs.refs s.kernel i) (hrun : p s.kernel = .ok (a, k))
    (heq : ∀ i, extra i + take a i = extra' i + give i) :
    Held extra' { s with kernel := k } := by
  refine ⟨?_, h.free, h.cwd⟩
  intro i
  have hrefs := h.refs i
  have htrade := hp s.kernel a k hcover hrun i
  have hextra := heq i
  show Fs.refs k i = users s i + extra' i
  omega

end Held

namespace Syscall

/-! ### file.c -/

/-- A call that gives up what is held beside the files and processes. -/
theorem kernel_spec {α : Type} {p : Call α} {give : CacheSlot → Nat} {take : α → CacheSlot → Nat}
    (hp : Trades refs p give take) (f : CacheSlot → Nat) :
    Spec (Held fun i => give i + f i) (kernel p) fun a => Held fun i => take a i + f i := by
  intro s a t h hrun
  obtain ⟨k, hk, rfl⟩ := lift_eq_ok.mp hrun
  apply h.kernel hp _ hk
  · intro i
    omega
  · intro i
    have hrefs := h.refs i
    omega

/-- A file that was taken and is not set up. -/
def Fresh (f : Fin NFILE) (s : Sys) : Prop := (s.file f).ref = 1 ∧ (s.file f).type = .none

theorem filealloc_spec :
    Spec (Held extra) filealloc fun r s => Held extra s ∧ ∀ f, r = some f → Fresh f s := by
  intro s r t h hrun
  unfold filealloc at hrun
  cases hfind : (List.finRange NFILE).find? fun f => (s.file f).ref = 0 with
  | none =>
    rw [hfind] at hrun
    cases hrun
    refine ⟨h, ?_⟩
    intro f hf
    cases hf
  | some f =>
    rw [hfind] at hrun
    cases hrun
    have hfree : (s.file f).ref = 0 := by
      have hsome := List.find?_some hfind
      rw [decide_eq_true_eq] at hsome
      exact hsome
    have htype := h.free f hfree
    constructor
    · apply h.setFile f
      · intro h1
        cases h1
      · intro i
        have h0 : (s.file f).inode = none := if_pos (Or.inl hfree)
        have h1 : ({ s.file f with ref := 1 } : File).inode = none := if_pos (Or.inr htype)
        rw [h0, h1]
    · intro g hg
      cases hg
      unfold Fresh
      rw [Sys.setFile_self]
      exact ⟨rfl, htype⟩

theorem filedup_spec (f : Fin NFILE) : Spec (Held extra) (filedup f) fun _ => Held extra := by
  intro s r t h hrun
  unfold filedup at hrun
  split at hrun
  · cases hrun
  · next hf =>
    cases hrun
    exact h.setRef f (by omega) (Nat.succ_ne_zero _)

theorem filedrop_spec (f : Fin NFILE) :
    Spec (Held extra) (filedrop f) fun r => Held fun i => extra i + held r i := by
  intro s r t h hrun
  unfold filedrop at hrun
  split at hrun
  · cases hrun
  · next hf =>
    split at hrun
    · next hmany =>
      cases hrun
      apply (h.setRef f (by omega) (by omega)).congr
      intro i
      rfl
    · cases hrun
      apply h.setFile f
      · intro _
        rfl
      · intro i
        have hnew : ({ s.file f with ref := 0, type := .none } : File).inode = none :=
          if_pos (Or.inl rfl)
        have hold : (s.file f).inode =
            if (s.file f).type = .inode then some (s.file f).ip else none := by
          unfold File.inode
          cases ht : (s.file f).type with
          | none => rw [if_pos (Or.inr rfl), if_neg FileType.noConfusion]
          | inode =>
            rw [if_neg (by simp; omega), if_pos rfl]
        rw [hnew, hold]
        rfl

theorem fileclose_spec (f : Fin NFILE) :
    Spec (Held extra) (fileclose sb f) fun _ => Held extra := by
  refine Spec.bind (filedrop_spec f) ?_
  intro r
  cases r with
  | none => exact Spec.pure fun _ h => h
  | some ip =>
    have hput := kernel_spec (@Call.iput_trades sb ip) extra
    intro s a t h hrun
    apply (hput s a t (h.congr fun i => Nat.add_comm _ _) hrun).congr
    intro i
    exact (Nat.zero_add _).symm

/-! ### sysfile.c -/

theorem fdalloc_spec (cur : Fin NPROC) (f : Fin NFILE) :
    Spec (Held extra) (fdalloc cur f) fun _ => Held extra := by
  intro s r t h hrun
  unfold fdalloc at hrun
  cases hfind : (List.finRange NOFILE).find? fun fd => (s.proc cur).ofile fd = none with
  | none =>
    rw [hfind] at hrun
    cases hrun
    exact h
  | some fd =>
    rw [hfind] at hrun
    cases hrun
    exact h.setOfile cur fd _

theorem fdalloc_file {cur : Fin NPROC} {f : Fin NFILE} {r : Option (Fin NOFILE)}
    (hrun : fdalloc cur f s = .ok (r, t)) : t.file = s.file := by
  unfold fdalloc at hrun
  cases hfind : (List.finRange NOFILE).find? fun fd => (s.proc cur).ofile fd = none with
  | none =>
    rw [hfind] at hrun
    cases hrun
    rfl
  | some fd =>
    rw [hfind] at hrun
    cases hrun
    rfl

theorem fdalloc_fresh (cur : Fin NPROC) (f : Fin NFILE) :
    Spec (fun s => Held extra s ∧ Fresh f s) (fdalloc cur f)
      fun _ s => Held extra s ∧ Fresh f s := by
  intro s r t h hrun
  refine ⟨fdalloc_spec cur f s r t h.1 hrun, ?_⟩
  unfold Fresh
  rw [fdalloc_file hrun]
  exact h.2

/-- The file takes over the reference. -/
theorem setInodeFile_spec (f : Fin NFILE) (ip : CacheSlot) (omode : Nat) :
    Spec (fun s => Held (fun i => own ip i + extra i) s ∧ Fresh f s) (setInodeFile f ip omode)
      fun _ => Held extra := by
  intro s r t h hrun
  cases hrun
  obtain ⟨h, hone, htype⟩ := h
  apply h.setFile f
  · intro h0
    rw [show (s.file f).ref = 0 from h0] at hone
    cases hone
  · intro i
    have hold : (s.file f).inode = none := if_pos (Or.inr htype)
    have hnew : ∀ readable writable, File.inode
        ⟨.inode, (s.file f).ref, readable, writable, ip, 0⟩ = some ip := by
      intro readable writable
      unfold File.inode
      rw [if_neg]
      simp
      omega
    rw [hold, hnew]
    show own ip i + extra i + 0 = extra i + own ip i
    omega

theorem openFile_spec (cur : Fin NPROC) (ip : CacheSlot) (omode : Nat) :
    Spec (Held fun i => own ip i + extra i) (openFile sb cur ip omode) fun _ => Held extra := by
  have hput : Spec (Held fun i => own ip i + extra i) (do
      kernel (Call.iunlockput sb ip)
      pure (-1) : Syscall Int) fun _ => Held extra := by
    refine Spec.bind (kernel_spec (Call.iunlockput_trades ip) extra) ?_
    intro _
    apply Spec.pure
    intro s h
    exact h.congr fun i => (Nat.zero_add _).symm
  refine Spec.bind filealloc_spec ?_
  intro r
  cases r with
  | none =>
    intro s a t h hrun
    exact hput s a t h.1 hrun
  | some f =>
    have hfresh : ∀ s : Sys, (Held (fun i => own ip i + extra i) s ∧
        ∀ g, some f = some g → Fresh g s) → Held (fun i => own ip i + extra i) s ∧ Fresh f s :=
      fun s h => ⟨h.1, h.2 f rfl⟩
    refine Spec.pre ?_ hfresh
    refine Spec.bind (fdalloc_fresh cur f) ?_
    intro r
    cases r with
    | none =>
      intro s a t h hrun
      exact Spec.bind (fileclose_spec f) (fun _ => hput) s a t h.1 hrun
    | some fd =>
      have hunlock : Spec (fun s => Held (fun i => own ip i + extra i) s ∧ Fresh f s)
          (kernel (Call.iunlock ip)) fun _ s => Held (fun i => own ip i + extra i) s ∧
            Fresh f s := by
        intro s a t h hrun
        have hkernel := kernel_spec ((Call.iunlock_trades ip).keeps (own ip)) extra s a t h.1 hrun
        obtain ⟨k, hk, rfl⟩ := lift_eq_ok.mp hrun
        exact ⟨hkernel, h.2⟩
      refine Spec.bind hunlock ?_
      intro _
      refine Spec.bind (setInodeFile_spec f ip omode) ?_
      intro _
      exact Spec.pure fun _ h => h

theorem inside_spec {α : Type} (cur : Fin NPROC) {p : CacheSlot → Call α}
    {take : α → CacheSlot → Nat} (hp : ∀ cwd, Trades refs (p cwd) nil take) :
    Spec (Held extra) (inside cur p) fun a => Held fun i => take a i + extra i := by
  intro s a t h hrun
  exact kernel_spec (hp (cwd cur s)) extra s a t (h.congr fun i => Nat.zero_add _) hrun

theorem opened_spec {cur : Fin NPROC} {p : CacheSlot → Call (Option CacheSlot)} (omode : Nat)
    (hp : ∀ cwd, Trades refs (p cwd) nil held) : Spec (Held extra) (do
      match ← inside cur p with
      | none => pure (-1)
      | some ip => openFile sb cur ip omode : Syscall Int) fun _ => Held extra := by
  refine Spec.bind (inside_spec cur hp) ?_
  intro r
  cases r with
  | none =>
    apply Spec.pure
    intro s h
    exact h.congr fun i => (Nat.zero_add _).symm
  | some ip => exact openFile_spec cur ip omode

theorem sysOpen_spec (turns : Nat) (cur : Fin NPROC) (path : List Byte) (omode : Nat) :
    Spec (Held extra) (sysOpen sb devsw turns cur path omode) fun _ => Held extra :=
  opened_spec omode fun cwd => Call.openInode_trades turns cwd path omode

theorem sysLsopen_spec (cur : Fin NPROC) (path : List Byte) (omode : Nat) :
    Spec (Held extra) (sysLsopen sb devsw cur path omode) fun _ => Held extra :=
  opened_spec omode fun cwd => Call.lsopenInode_trades cwd path omode

theorem sysClose_spec (cur : Fin NPROC) (fd : Int) :
    Spec (Held extra) (sysClose sb cur fd) fun _ => Held extra := by
  intro s a t h hrun
  unfold sysClose at hrun
  cases hfd : argfd cur fd s with
  | none =>
    rw [hfd] at hrun
    cases hrun
    exact h
  | some r =>
    rw [hfd] at hrun
    dsimp only at hrun
    cases hclose : fileclose sb r.2 (s.setOfile cur r.1 none) with
    | error e =>
      rw [hclose] at hrun
      cases hrun
    | ok q =>
      rw [hclose] at hrun
      cases hrun
      exact fileclose_spec r.2 _ _ _ (h.setOfile cur r.1 none) hclose

theorem dupFile_spec (cur : Fin NPROC) (f : Fin NFILE) :
    Spec (Held extra) (dupFile cur f) fun _ => Held extra := by
  refine Spec.bind (fdalloc_spec cur f) ?_
  intro found
  cases found with
  | none => exact Spec.pure fun _ h => h
  | some fd =>
    refine Spec.bind (filedup_spec f) ?_
    intro _
    exact Spec.pure fun _ h => h

theorem sysDup_spec (cur : Fin NPROC) (fd : Int) :
    Spec (Held extra) (sysDup cur fd) fun _ => Held extra := by
  intro s a t h hrun
  unfold sysDup at hrun
  cases hfd : argfd cur fd s with
  | none =>
    rw [hfd] at hrun
    cases hrun
    exact h
  | some r =>
    rw [hfd] at hrun
    exact dupFile_spec cur r.2 s a t h hrun

end Syscall

/-! ### The directory of a process -/

/-- The process without its directory. -/
def Sys.detach (s : Sys) (p : Fin NPROC) : Sys :=
  s.setProc p { s.proc p with state := .unused, cwd := none }

theorem Held.detach (h : Held extra s) {p : Fin NPROC} {c : CacheSlot}
    (hc : (s.proc p).cwd = some c) : Held (fun i => own c i + extra i) (s.detach p) := by
  apply h.setProc p
  · constructor
    · intro hlive
      cases hlive
    · intro hnone
      exact absurd rfl hnone
  · intro i
    rw [hc]
    show extra i + own c i = own c i + extra i + 0
    omega

theorem Held.attach {p : Fin NPROC} {r : Proc} {c : CacheSlot}
    (h : Held (fun i => own c i + extra i) (s.detach p)) (hr : r.cwd = some c)
    (hlive : r.state = .live) : Held extra (s.setProc p r) := by
  have hback : s.setProc p r = (s.detach p).setProc p r := by
    unfold Sys.detach Sys.setProc
    rw [Function.update_idem]
  rw [hback]
  apply h.setProc p
  · rw [hr, hlive]
    simp
  · intro i
    have hnone : ((s.detach p).proc p).cwd = none := by
      unfold Sys.detach
      rw [Sys.setProc_self]
    rw [hnone, hr]
    show own c i + extra i + 0 = extra i + own c i
    omega

namespace Syscall

theorem cwd_eq {cur : Fin NPROC} {c : CacheSlot} (h : (s.proc cur).cwd = some c) :
    cwd cur s = c := by
  unfold cwd
  rw [h]
  rfl

theorem sysChdir_spec {cur : Fin NPROC} (path : List Byte) :
    Spec (fun s => Held extra s ∧ (s.proc cur).state = .live) (sysChdir sb devsw cur path)
      fun _ => Held extra := by
  intro s a t hs hrun
  obtain ⟨h, hlive⟩ := hs
  obtain ⟨c, hc⟩ := Option.ne_none_iff_exists'.mp ((h.cwd cur).mp hlive)
  obtain ⟨r, s1, hchdir, h1⟩ := bind_eq_ok.mp hrun
  unfold inside at hchdir
  rw [cwd_eq hc] at hchdir
  obtain ⟨k, hk, rfl⟩ := lift_eq_ok.mp hchdir
  have hgone := kernel_spec (Call.chdirInode_trades c path) extra (s.detach cur) r
    { s.detach cur with kernel := k } (h.detach hc) (lift_eq_ok.mpr ⟨k, hk, rfl⟩)
  cases r with
  | none =>
    obtain ⟨-, rfl⟩ := pure_eq_ok.mp h1
    have hself : ({ s with kernel := k } : Sys).setProc cur (s.proc cur) =
        { s with kernel := k } := by
      unfold Sys.setProc
      rw [Function.update_eq_self]
    rw [← hself]
    exact Held.attach hgone hc hlive
  | some ip =>
    obtain ⟨u, s2, hset, h2⟩ := bind_eq_ok.mp h1
    cases hset
    obtain ⟨-, rfl⟩ := pure_eq_ok.mp h2
    exact Held.attach hgone rfl hlive

/-! ### proc.c -/

theorem setOfile_cwd (s : Sys) (p q : Fin NPROC) (fd : Fin NOFILE) (f : Option (Fin NFILE)) :
    ((s.setOfile p fd f).proc q).cwd = (s.proc q).cwd := by
  unfold Sys.setOfile
  by_cases hq : q = p
  · rw [hq, Sys.setProc_self]
  · rw [Sys.setProc_ne _ _ hq]

/-- What the copying and the closing of files keep: the references and the directories. -/
def Files (extra : CacheSlot → Nat) (cwd : Fin NPROC → Option CacheSlot) (s : Sys) : Prop :=
  Held extra s ∧ ∀ p, (s.proc p).cwd = cwd p

theorem Files.setOfile {cwd : Fin NPROC → Option CacheSlot} (h : Files extra cwd s)
    (p : Fin NPROC) (fd : Fin NOFILE) (f : Option (Fin NFILE)) :
    Files extra cwd (s.setOfile p fd f) := by
  refine ⟨h.1.setOfile p fd f, ?_⟩
  intro q
  rw [setOfile_cwd]
  exact h.2 q

theorem setOfile_spec {cwd : Fin NPROC → Option CacheSlot} (p : Fin NPROC) (fd : Fin NOFILE)
    (f : Option (Fin NFILE)) : Spec (Files extra cwd)
      (Code.modify (fun s : Sys => s.setOfile p fd f) : Syscall Unit) fun _ => Files extra cwd := by
  intro s a t h hrun
  cases hrun
  exact h.setOfile p fd f

theorem filedup_files {cwd : Fin NPROC → Option CacheSlot} (f : Fin NFILE) :
    Spec (Files extra cwd) (filedup f) fun _ => Files extra cwd := by
  intro s a t h hrun
  refine ⟨filedup_spec f s a t h.1 hrun, ?_⟩
  unfold filedup at hrun
  split at hrun
  · cases hrun
  · cases hrun
    exact h.2

theorem fileclose_files {cwd : Fin NPROC → Option CacheSlot} (f : Fin NFILE) :
    Spec (Files extra cwd) (fileclose sb f) fun _ => Files extra cwd := by
  intro s a t h hrun
  refine ⟨fileclose_spec f s a t h.1 hrun, ?_⟩
  have hproc : t.proc = s.proc := by
    obtain ⟨r, s1, hdrop, hrest⟩ := bind_eq_ok.mp hrun
    have hdropped : s1.proc = s.proc := by
      unfold filedrop at hdrop
      split at hdrop
      · cases hdrop
      · split at hdrop
        · cases hdrop
          rfl
        · cases hdrop
          rfl
    rw [← hdropped]
    cases r with
    | none =>
      obtain ⟨-, rfl⟩ := pure_eq_ok.mp hrest
      rfl
    | some ip =>
      obtain ⟨k, -, rfl⟩ := lift_eq_ok.mp hrest
      rfl
  rw [hproc]
  exact h.2

theorem dupFiles_spec {cwd : Fin NPROC → Option CacheSlot} (cur np : Fin NPROC)
    (fds : List (Fin NOFILE)) :
    Spec (Files extra cwd) (dupFiles cur np fds) fun _ => Files extra cwd := by
  induction fds with
  | nil => exact Spec.pure fun _ h => h
  | cons fd fds ih =>
    intro s a t h hrun
    obtain ⟨s1, s2, hget, hrest⟩ := bind_eq_ok.mp hrun
    cases hget
    cases hfd : (s.proc cur).ofile fd with
    | none =>
      rw [hfd] at hrest
      exact ih s a t h hrest
    | some f =>
      rw [hfd] at hrest
      have hdup : Spec (Files extra cwd) (do
          filedup f
          Code.modify fun s => s.setOfile np fd (some f)
          dupFiles cur np fds : Syscall Unit) fun _ => Files extra cwd := by
        refine Spec.bind (filedup_files f) ?_
        intro _
        refine Spec.bind (setOfile_spec np fd (some f)) ?_
        intro _
        exact ih
      exact hdup s a t h hrest

theorem closeFiles_spec {cwd : Fin NPROC → Option CacheSlot} (cur : Fin NPROC)
    (fds : List (Fin NOFILE)) :
    Spec (Files extra cwd) (closeFiles sb cur fds) fun _ => Files extra cwd := by
  induction fds with
  | nil => exact Spec.pure fun _ h => h
  | cons fd fds ih =>
    intro s a t h hrun
    obtain ⟨s1, s2, hget, hrest⟩ := bind_eq_ok.mp hrun
    cases hget
    cases hfd : (s.proc cur).ofile fd with
    | none =>
      rw [hfd] at hrest
      exact ih s a t h hrest
    | some f =>
      rw [hfd] at hrest
      have hclose : Spec (Files extra cwd) (do
          fileclose sb f
          Code.modify fun s => s.setOfile cur fd none
          closeFiles sb cur fds : Syscall Unit) fun _ => Files extra cwd := by
        refine Spec.bind (fileclose_files f) ?_
        intro _
        refine Spec.bind (setOfile_spec cur fd none) ?_
        intro _
        exact ih
      exact hclose s a t h hrest

theorem fork_spec (mem : Bool) (cur : Fin NPROC) :
    Spec (fun s => Held extra s ∧ (s.proc cur).state = .live) (fork mem cur)
      fun _ => Held extra := by
  intro s a t hs hrun
  obtain ⟨h, hlive⟩ := hs
  unfold fork at hrun
  cases hfind : (List.finRange NPROC).find? fun p => (s.proc p).state = .unused with
  | none =>
    rw [hfind] at hrun
    cases hrun
    exact h
  | some np =>
    rw [hfind] at hrun
    dsimp only at hrun
    by_cases hmem : mem = true
    · rw [if_pos hmem] at hrun
      have hunused : (s.proc np).state = .unused := by
        have hsome := List.find?_some hfind
        rw [decide_eq_true_eq] at hsome
        exact hsome
      have hnone : (s.proc np).cwd = none := by
        by_contra hne
        have hl := (h.cwd np).mpr hne
        rw [hunused] at hl
        cases hl
      obtain ⟨u, s1, hdup, h1⟩ := bind_eq_ok.mp hrun
      obtain ⟨hheld1, hcwd1⟩ := dupFiles_spec cur np _ s u s1 ⟨h, fun _ => rfl⟩ hdup
      obtain ⟨v, s2, hidup, h2⟩ := bind_eq_ok.mp h1
      have hheld2 := kernel_spec (Call.idup_trades (cwd cur s)) extra s1 v s2
        (hheld1.congr fun i => Nat.zero_add _) hidup
      have hcwd2 : (s2.proc np).cwd = none := by
        obtain ⟨k, -, rfl⟩ := lift_eq_ok.mp hidup
        exact (hcwd1 np).trans hnone
      obtain ⟨w, s3, hstart, h3⟩ := bind_eq_ok.mp h2
      cases hstart
      obtain ⟨-, rfl⟩ := pure_eq_ok.mp h3
      apply hheld2.setProc np
      · simp
      · intro i
        rw [hcwd2]
        show own (cwd cur s) i + extra i + 0 = extra i + own (cwd cur s) i
        omega
    · rw [if_neg hmem] at hrun
      cases hrun
      exact h

theorem exit_spec (cur : Fin NPROC) :
    Spec (fun s => Held extra s ∧ (s.proc cur).state = .live) (exit sb cur)
      fun _ => Held extra := by
  intro s a t hs hrun
  obtain ⟨h, hlive⟩ := hs
  obtain ⟨c, hc⟩ := Option.ne_none_iff_exists'.mp ((h.cwd cur).mp hlive)
  unfold exit at hrun
  split at hrun
  · cases hrun
  · rw [cwd_eq hc] at hrun
    obtain ⟨u, s1, hclose, h1⟩ := bind_eq_ok.mp hrun
    obtain ⟨hheld1, hcwd1⟩ := closeFiles_spec cur _ s u s1 ⟨h, fun _ => rfl⟩ hclose
    obtain ⟨v, s2, hput, h2⟩ := bind_eq_ok.mp h1
    obtain ⟨k, hk, rfl⟩ := lift_eq_ok.mp hput
    cases h2
    -- The process gives up its directory, and its reference is put.
    have hgone := kernel_spec (Call.iput_trades c) extra (s1.detach cur) v
      { s1.detach cur with kernel := k } (hheld1.detach ((hcwd1 cur).trans hc))
      (lift_eq_ok.mpr ⟨k, hk, rfl⟩)
    have hback : ({ s1 with kernel := k } : Sys).setProc cur
        { s1.proc cur with cwd := none, state := .zombie } =
        ({ s1.detach cur with kernel := k } : Sys).setProc cur
          { s1.proc cur with cwd := none, state := .zombie } := by
      unfold Sys.detach Sys.setProc
      rw [Function.update_idem]
    show Held extra (({ s1 with kernel := k } : Sys).setProc cur
      { s1.proc cur with cwd := none, state := .zombie })
    rw [hback]
    apply hgone.setProc cur
    · simp
    · intro i
      have hnone : ((({ s1.detach cur with kernel := k } : Sys)).proc cur).cwd = none := by
        show ((s1.detach cur).proc cur).cwd = none
        unfold Sys.detach
        rw [Sys.setProc_self]
      rw [hnone]
      show nil i + extra i + 0 = extra i + 0
      exact Nat.zero_add _

theorem reap_spec (p : Fin NPROC) : Spec (Held extra) (reap p) fun _ => Held extra := by
  intro s a t h hrun
  unfold reap at hrun
  split at hrun
  · next hz =>
    cases hrun
    apply h.setProc p
    · have hno : ¬ (s.proc p).cwd ≠ none := by
        intro hne
        have hl := (h.cwd p).mpr hne
        rw [hz] at hl
        cases hl
      constructor
      · intro hl
        cases hl
      · intro hne
        exact absurd hne hno
    · intro i
      rfl
  · cases hrun
    exact h

end Syscall

/-! ### Runs -/

open SysAction in
theorem after_eq_some {α : Type} {p : Syscall α} (h : after p s = some t) :
    ∃ a, p s = .ok (a, t) := by
  unfold after at h
  cases hp : p s with
  | error e =>
    rw [hp] at h
    cases h
  | ok r =>
    rw [hp] at h
    cases h
    exact ⟨r.1, rfl⟩

/-- No `slink` to a file that is there. -/
def NoLeak (sb : Superblock) (devsw : Fin NDEV → Devsw) (s : Sys) : Fin NPROC × SysAction → Prop
  | (cur, .slink old _) => ¬ Call.NamesFile sb devsw s.kernel (Syscall.cwd cur s) old
  | _ => True

theorem inside_held {α : Type} {cur : Fin NPROC} {p : CacheSlot → Call α}
    (hp : ∀ cwd, Trades refs (p cwd) nil fun _ => nil) (h : Held extra s)
    (hrun : SysAction.after (Syscall.inside cur p) s = some t) : Held extra t := by
  obtain ⟨a, ha⟩ := after_eq_some hrun
  exact (Syscall.inside_spec cur hp s a t h ha).congr fun i => (Nat.zero_add _).symm

/-- Between system calls nobody else gets references. -/
theorem Held.step {cur : Fin NPROC} {a : SysAction} (h : Held extra s)
    (hok : NoLeak sb devsw s (cur, a)) (hrun : s.step sb devsw (cur, a) = some t) :
    Held extra t := by
  obtain ⟨hlive, hrun⟩ := Option.ite_none_right_eq_some.mp hrun
  dsimp only at hlive hrun
  cases a with
  | «open» path omode turns =>
    obtain ⟨r, hr⟩ := after_eq_some hrun
    exact Syscall.sysOpen_spec turns cur path omode s r t h hr
  | lsopen path omode =>
    obtain ⟨r, hr⟩ := after_eq_some hrun
    exact Syscall.sysLsopen_spec cur path omode s r t h hr
  | close fd =>
    obtain ⟨r, hr⟩ := after_eq_some hrun
    exact Syscall.sysClose_spec cur fd s r t h hr
  | dup fd =>
    obtain ⟨r, hr⟩ := after_eq_some hrun
    exact Syscall.sysDup_spec cur fd s r t h hr
  | fork mem =>
    obtain ⟨r, hr⟩ := after_eq_some hrun
    exact Syscall.fork_spec mem cur s r t ⟨h, hlive⟩ hr
  | exit =>
    obtain ⟨r, hr⟩ := after_eq_some hrun
    exact Syscall.exit_spec cur s r t ⟨h, hlive⟩ hr
  | reap p =>
    obtain ⟨r, hr⟩ := after_eq_some hrun
    exact Syscall.reap_spec p s r t h hr
  | chdir path =>
    obtain ⟨r, hr⟩ := after_eq_some hrun
    exact Syscall.sysChdir_spec path s r t ⟨h, hlive⟩ hr
  | link old new => exact inside_held (fun cwd => Call.sysLink_trades cwd old new) h hrun
  | slink old new =>
    obtain ⟨r, hr⟩ := after_eq_some hrun
    have hkernel : Syscall.kernel
        (Call.sysSlink sb devsw (Syscall.cwd cur s) old new) s = .ok (r, t) := hr
    obtain ⟨k, hk, rfl⟩ := lift_eq_ok.mp hkernel
    have hsame := Call.sysSlink_refs hok hk
    refine ⟨?_, h.free, h.cwd⟩
    intro i
    show Fs.refs k i = users s i + extra i
    rw [hsame]
    exact h.refs i
  | unlink path => exact inside_held (fun cwd => Call.sysUnlink_trades cwd path) h hrun
  | mkdir path => exact inside_held (fun cwd => Call.make_trades cwd path _ _ _) h hrun
  | mknod path major minor =>
    exact inside_held (fun cwd => Call.make_trades cwd path _ _ _) h hrun

theorem Held.one_le (h : Held extra s) {cur : Fin NPROC} (hlive : (s.proc cur).state = .live) :
    1 ≤ Fs.refs s.kernel (Syscall.cwd cur s) := by
  obtain ⟨c, hc⟩ := Option.ne_none_iff_exists'.mp ((h.cwd cur).mp hlive)
  have hpos := tally_pos (f := fun p => (s.proc p).cwd) hc
  have hrefs := h.refs c
  unfold users at hrefs
  rw [Syscall.cwd_eq hc]
  omega

theorem Held.boot (σ : Contents) : Held nil (Sys.boot σ) := by
  have hfile : ∀ i, tally (fun f => ((Sys.boot σ).file f).inode) (some i) = 0 := by
    intro i
    rw [tally_eq_zero]
    intro f heq
    cases heq
  have hproc : ∀ i : CacheSlot,
      tally (fun p => ((Sys.boot σ).proc p).cwd) (some i) = if i = 0 then 1 else 0 := by
    intro i
    have hfun : (fun p => ((Sys.boot σ).proc p).cwd) =
        Function.update (fun _ => none) 0 (some 0) := by
      funext p
      by_cases hp : p = 0
      · rw [hp, Function.update_self]
        rfl
      · rw [Function.update_of_ne hp]
        exact if_neg hp
    have htally := tally_update (fun _ : Fin NPROC => (none : Option CacheSlot)) 0 (some 0) (some i)
    have hnone : tally (fun _ : Fin NPROC => (none : Option CacheSlot)) (some i) = 0 := by
      rw [tally_eq_zero]
      intro p heq
      cases heq
    rw [hfun]
    rw [hnone, if_neg (by simp)] at htally
    by_cases hi : i = 0
    · rw [if_pos hi]
      rw [if_pos (congrArg some hi.symm)] at htally
      exact htally
    · rw [if_neg hi]
      rw [if_neg fun heq => hi (Option.some.inj heq).symm] at htally
      exact htally
  refine ⟨?_, fun _ _ => rfl, ?_⟩
  · intro i
    show ((Sys.boot σ).kernel.icache i).ref = _ + _ + 0
    rw [hfile, hproc]
    by_cases hi : i = 0
    · rw [if_pos hi, hi]
      rfl
    · rw [if_neg hi]
      show (if i = 0 then _ else Inode.unset).ref = _
      rw [if_neg hi]
      rfl
  · intro p
    by_cases hp : p = 0
    · subst hp
      simp [Sys.boot]
    · simp [Sys.boot, hp]

/-- The references of an entry are those of the open files on it and of the processes in it. So
the last `fileclose` meets the last reference, and `iget` finds an entry unless all of them are
in use. -/
structure Balanced (s : Sys) : Prop where
  ref : ∀ i, (s.kernel.icache i).ref = users s i
  last : ∀ f i, (s.file f).inode = some i → users s i = 1 → (s.kernel.icache i).ref = 1
  full : ∀ inum e, s.kernel.iget inum = .error e → ∀ i, 1 ≤ users s i

theorem Held.balanced (h : Held nil s) : Balanced s := by
  have href : ∀ i, (s.kernel.icache i).ref = users s i := h.refs
  refine ⟨href, ?_, ?_⟩
  · intro f i _ hone
    rw [href, hone]
  · intro inum e hget i
    rw [← href]
    unfold Kernel.iget at hget
    cases hfind : (List.finRange NINODE).find? fun s_1 =>
        0 < (s.kernel.icache s_1).ref ∧ (s.kernel.icache s_1).inum = inum with
    | some j =>
      rw [hfind] at hget
      cases hget
    | none =>
      rw [hfind] at hget
      cases hempty : (List.finRange NINODE).find? fun s_1 => (s.kernel.icache s_1).ref = 0 with
      | some j =>
        rw [hempty] at hget
        cases hget
      | none =>
        have hno := List.find?_eq_none.mp hempty i (List.mem_finRange i)
        rw [decide_eq_true_eq] at hno
        omega

theorem users_of_reach {σ : Contents}
    (hr : Reach (Sys.step sb devsw) (NoLeak sb devsw) (Sys.boot σ) s) : Balanced s := by
  have hheld : Held nil s := hr.invariant (Held.boot σ) fun _ _ _ h hok hs => h.step hok hs
  exact hheld.balanced

/-- A file is made and opened. -/
def fileOpened : Sys :=
  (Sys.step Superblock.mkfs noDevices (Sys.boot rootImage) (0, .open [102] O_CREATE 0)).getD
    (Sys.boot rootImage)

theorem not_namesFile_fileOpened :
    ¬ Call.NamesFile Superblock.mkfs noDevices fileOpened.kernel (Syscall.cwd 0 fileOpened)
      [103] := by
  rintro ⟨ip, k, k', hfound, -, -⟩
  have hnone : (Call.namei Superblock.mkfs noDevices (Syscall.cwd 0 fileOpened) [103]
      fileOpened.kernel).toOption.map Prod.fst = some none := by decide +kernel
  rw [hfound] at hnone
  cases hnone

/-- A symbolic link to nothing fails, and the open file keeps its reference. -/
theorem users_of_reach_open : ∃ s,
    Sys.step Superblock.mkfs noDevices fileOpened (0, .slink [103] [108]) = some s ∧
      Balanced s ∧ users s 1 = 1 := by
  have hopen : Sys.step Superblock.mkfs noDevices (Sys.boot rootImage)
      (0, .open [102] O_CREATE 0) = some fileOpened := eq_some_getD (by decide +kernel)
  have hrun : ((Sys.step Superblock.mkfs noDevices fileOpened (0, .slink [103] [108])).map
      fun s => users s 1) = some 1 := by decide +kernel
  obtain ⟨s, hs, hone⟩ := Option.map_eq_some_iff.mp hrun
  have hok : NoLeak Superblock.mkfs noDevices (Sys.boot rootImage) (0, .open [102] O_CREATE 0) :=
    trivial
  have hok' : NoLeak Superblock.mkfs noDevices fileOpened (0, .slink [103] [108]) :=
    not_namesFile_fileOpened
  exact ⟨s, hs, users_of_reach (Reach.tail (Reach.tail (Reach.refl _) hok hopen) hok' hs), hone⟩

/-- A file is made and closed, and "l" is a symbolic link to it. -/
def leakRun : List SysAction := [.open [102] O_CREATE 0, .close 0, .slink [102] [108]]

/-- The file has a reference that nobody holds. -/
theorem not_balanced_leakRun : ∃ s, alone leakRun = some s ∧ ¬ Balanced s := by
  have hrun : (alone leakRun).map (fun s => ((s.kernel.icache 1).ref, users s 1)) =
      some (1, 0) := by decide +kernel
  obtain ⟨s, hs, hrefs⟩ := Option.map_eq_some_iff.mp hrun
  refine ⟨s, hs, ?_⟩
  intro h
  have href := h.ref 1
  rw [(Prod.mk.inj hrefs).1, (Prod.mk.inj hrefs).2] at href
  cases href

end Xv6.Fs
