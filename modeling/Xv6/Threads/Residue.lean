import Xv6.Threads.Balance
import Xv6.Threads.Kill

/-!
# What a new thread or process finds in its slot

`fork` and `thread_create` copy the descriptors that are open (proc.c:222-225, 703-706), and
nobody clears `killed`. So a new slot is as its last owner left it, apart from what was copied.
The loop reads one descriptor after the other, and the main thread that `thread_create` copies
from may run in between.
-/

namespace Xv6.Threads

open Mlfq (NPROC Slot Procstate)
open Transition

/-! ### The law -/

/-- The thread whose files were copied and the new slot, when `fork` or `thread_create` returns
without failure. -/
def State.returns (s : State) : Action → Option (Slot × Slot)
  | .forkNext i _ =>
    match s.pc i with
    | .fork np .runnable => some (i, np)
    | _ => none
  | .threadNext i _ =>
    match s.pc i with
    | .thread np main .runnable => some (main, np)
    | _ => none
  | _ => none

/-- The new slot has the descriptors of the thread that forks, or of the main thread, and it is
not marked as killed. -/
structure ResidueLaw (s : State) (a : Action) (t : State) : Prop where
  ofile : ∀ p np, s.returns a = some (p, np) → (t.proc np).ofile = (t.proc p).ofile
  killed : ∀ p np, s.returns a = some (p, np) → (t.proc np).killed = false

/-- The slots that come out of use have no open file. -/
def closedOk (s : State) (a : Action) : Bool :=
  ∀ q, s.frees a q = true → ∀ fd, (s.proc q).ofile fd = none

/-- `kill` finds no slot that a thread is setting up. -/
def killOk (s : State) : Action → Bool
  | .kill pid => ((List.finRange NPROC).find? fun p => (s.proc p).pid = pid).all fun p =>
    ∀ i, (s.pc i).owns ≠ some p
  | _ => true

/-- What the loop has read. -/
def CopyStage.read : CopyStage → Fin NOFILE → Bool
  | .ofile fd', fd => fd < fd'
  | .filedup fd' _, fd | .setOfile fd' _, fd => fd ≤ fd'
  | _, _ => true

/-- The loop of a `thread_create` has read the descriptor of the main thread. -/
def Pc.read (k : Pc) (p : Slot) (fd : Fin NOFILE) : Bool :=
  match k with
  | .thread _ main (.files st) => main = p ∧ st.read fd
  | .thread _ main .runnable => main = p
  | _ => false

/-- The descriptor that the step sets. -/
def State.sets (s : State) : Action → Option (Slot × Fin NOFILE)
  | .fs i op =>
    match s.pc i, op with
    | .fs (.open _ _), .fdalloc | .fs (.ends _ _), .fdalloc | .fs (.io _), .dup _ =>
      (s.fdalloc i).map fun fd => (i, fd)
    | .fs (.fd0 _ _ fd), .fdalloc => some (i, (s.fdalloc i).getD fd)
    | .fs (.io _), .close fd => some (i, fd)
    | _, _ => none
  | .closeNext i =>
    match s.pc i with
    | .exit (.clear fd _) | .threadExit _ (.clear fd _) => some (i, fd)
    | _ => none
  | .forkNext i _ | .threadNext i _ =>
    match s.pc i with
    | .fork np (.files (.setOfile fd _)) | .thread np _ (.files (.setOfile fd _)) => some (np, fd)
    | _ => none
  | _ => none

/-- No step sets a descriptor of the main thread behind the loop of a `thread_create`. -/
def copyOk (s : State) (a : Action) : Bool :=
  (s.sets a).all fun x => ∀ i, (s.pc i).read x.1 x.2 = false

def ResidueOk (s : State) (a : Action) : Prop :=
  idsOk s a = true ∧ closedOk s a = true ∧ killOk s a = true ∧ copyOk s a = true

instance (s : State) (a : Action) : Decidable (ResidueOk s a) :=
  inferInstanceAs (Decidable (_ ∧ _ ∧ _ ∧ _))

section Residue

variable {s t : State} {a : Action} {i q np : Slot}

theorem closedOk_frees (hok : closedOk s a = true) (hq : s.frees a q = true) :
    ∀ fd, (s.proc q).ofile fd = none := by
  have h : ∀ q, s.frees a q = true → ∀ fd, (s.proc q).ofile fd = none := of_decide_eq_true hok
  exact h q hq

theorem killOk_kill {pid : Int} (hok : killOk s (.kill pid) = true)
    (hq : (List.finRange NPROC).find? (fun p => (s.proc p).pid = pid) = some q) :
    ∀ i, (s.pc i).owns ≠ some q := by
  unfold killOk at hok
  dsimp only at hok
  rw [hq] at hok
  exact of_decide_eq_true hok

theorem copyOk_sets {fd : Fin NOFILE} (hok : copyOk s a = true) (h : s.sets a = some (q, fd))
    (i : Slot) : (s.pc i).read q fd = false := by
  unfold copyOk at hok
  rw [h] at hok
  exact of_decide_eq_true hok i

/-! ### The mark -/

/-- A slot that comes out of use is no longer marked. -/
theorem freed_killed (h : Effect s a t) (hq : s.frees a q = true) :
    (t.proc q).killed = false := by
  have hno : s.frees a q = false → False := by
    intro hf
    rw [hf] at hq
    cases hq
  cases h with
  | kept hf => exact (hno (hf q)).elim
  | alloc hf => exact (hno (hf q)).elim
  | abort hf => exact (hno (hf q)).elim
  | exitLast i hrun hpc hfree =>
    rw [exitLast_killed, if_pos (of_decide_eq_true hq).2]
  | threadExitLast i retval hrun hpc =>
    have hpc' := (of_decide_eq_true hq).1
    rw [hpc] at hpc'
    cases hpc'
  | reap i p hrun hpc hw =>
    have hp : p = q := Option.some.inj (hw.symm.trans (of_decide_eq_true hq))
    subst hp
    rw [wait_self hw]
    rfl
  | join i p thread hrun hpc hj =>
    have hp : p = q := Option.some.inj (hj.symm.trans (of_decide_eq_true hq))
    rw [State.setPc_proc, vacate_killed, if_pos (decide_eq_true hp.symm)]
  | cleanforexec i pd hrun hpc hidle hfree =>
    have hq' := of_decide_eq_true hq
    unfold State.cleanforexec
    rw [State.setPc_proc, if_neg hq'.1, vacate_killed, if_pos hq'.2]
  | _ => exact (hno rfl).elim

/-- `kill` finds no free slot: its pid is 0, and so is that of init in the first slot. -/
theorem kill_not_unused (hs : Sound s) (h0 : s.initproc = 0) {pid : Int}
    (hq : (List.finRange NPROC).find? (fun p => (s.proc p).pid = pid) = some q) :
    (s.proc q).phase ≠ .unused := by
  intro hunused
  have hpid : (s.proc q).pid = pid := by
    have hfind := List.find?_some hq
    simpa using hfind
  have hfree : (s.proc q).pid = 0 := hs.base.pids.freePid q hunused
  have hinit : (s.proc 0).pid = 0 := by
    have hi := hs.base.pids.init
    dsimp only [State.ids] at hi
    rwa [h0] at hi
  have hhead : (List.finRange NPROC).find? (fun p => (s.proc p).pid = pid) = some 0 := by
    rw [← hpid, hfree]
    have hcons : List.finRange NPROC = 0 :: (List.finRange NPROC).tail := by decide
    rw [hcons, List.find?_cons_of_pos (by simp [hinit])]
  rw [hhead] at hq
  cases hq
  have halive := hs.base.births.initAlive
  dsimp only [State.ids] at halive
  rw [h0, hunused] at halive
  cases halive

/-- A mark in a slot that is free or being set up comes from before the step. -/
theorem not_marked (hs : Sound s) (h0 : s.initproc = 0) (hok : killOk s a = true)
    (h : step s a = some t) (hq : (s.proc q).phase = .unused ∨ (s.pc i).owns = some q)
    (hk : (s.proc q).killed = false) : (t.proc q).killed = false := by
  cases marked_step h q with
  | same h => rw [h, hk]
  | freed hf h => exact h
  | kill pid hfind h =>
    rcases hq with hq | hq
    · exact absurd hq (kill_not_unused hs h0 hfind)
    · exact absurd hq (killOk_kill hok hfind i)

/-- A slot that is free after the step was freed by it, or it was free or given back. -/
theorem unused_step (hs : Sound s) (h : Effect s a t) (ht : (t.proc q).phase = .unused) :
    s.frees a q = true ∨ (s.proc q).phase = .unused ∨ ∃ i, (s.pc i).owns = some q := by
  have hstarted : s.started q → s.frees a q = true := by
    intro hq
    rcases (change_effect hs hq h).stays hq with hst | hst
    · have htq := hst.started
      rcases htq with htq | htq
      · exact Phase.noConfusion (ht.symm.trans htq)
      · exact Phase.noConfusion (ht.symm.trans htq)
    · exact hst.1
  cases hq : (s.proc q).phase with
  | unused => exact Or.inr (Or.inl rfl)
  | alive => exact Or.inl (hstarted (Or.inl hq))
  | zombie => exact Or.inl (hstarted (Or.inr hq))
  | embryo =>
    rcases embryo_effect h hq with hp | hp | hf | hp
    · exact Phase.noConfusion (ht.symm.trans hp)
    · exact Phase.noConfusion (ht.symm.trans hp)
    · exact Or.inl hf
    · obtain ⟨i, hpc⟩ := hp
      refine Or.inr (Or.inr ⟨i, ?_⟩)
      rcases hpc with hpc | ⟨main, hpc⟩ <;> rw [hpc] <;> rfl

/-! ### The descriptors -/

theorem ofile_setFd_ne (s : State) {i q : Slot} {fd fd' : Fin NOFILE} (f : Option (Fin NFILE))
    (h : q ≠ i ∨ fd' ≠ fd) : ((s.setFd i fd f).proc q).ofile fd' = (s.proc q).ofile fd' := by
  unfold State.setFd
  rw [State.setProc_proc]
  split_ifs with hq
  · exact Function.update_of_ne (h.resolve_left fun hne => hne hq) _ _
  · rfl

/-- A file system call changes the descriptor that `sets` names. -/
theorem sets_fsNext {st st' : FsStage} {op : FsOp} {u : State} {fd : Fin NOFILE}
    (hpc : s.pc i = .fs st) (h : s.fsNext i st op = some (u, st'))
    (hne : (u.proc i).ofile fd ≠ (s.proc i).ofile fd) : s.sets (.fs i op) = some (i, fd) := by
  have hset : ∀ {fd' f}, u = s.setFd i fd' f → fd = fd' := by
    intro fd' f hu
    by_contra hfd
    exact hne (by rw [hu, ofile_setFd_ne s f (Or.inr hfd)])
  unfold State.sets
  dsimp only
  rw [hpc]
  unfold State.fsNext at h
  split at h
  · cases h
    exact absurd rfl hne
  · split_ifs at h
    cases h
    exact absurd rfl hne
  · obtain ⟨f, -, h⟩ := Option.map_eq_some_iff.mp h
    cases h
    exact absurd rfl hne
  · split at h
    · next fd' hfd =>
      cases h
      dsimp only
      rw [hfd, hset rfl]
      rfl
    · cases h
      exact absurd rfl hne
  · split_ifs at h
    cases h
    exact absurd rfl hne
  · cases h
    rw [proc_iput] at hne
    exact absurd rfl hne
  · split_ifs at h
    cases h
    rw [State.setProc_proc_self] at hne
    exact absurd rfl hne
  · split at h
    · next fd' _ hfd =>
      cases h
      dsimp only
      rw [hfd, hset rfl]
      rfl
    · cases h
  · split_ifs at h
    cases h
    exact absurd rfl hne
  · obtain ⟨f, -, h⟩ := Option.map_eq_some_iff.mp h
    cases h
    exact absurd rfl hne
  · split at h
    · cases h
      exact absurd rfl hne
    · cases h
      exact absurd rfl hne
  · split_ifs at h
    · cases h
      exact absurd rfl hne
    · cases h
      exact absurd rfl hne
  · split at h
    · next fd' hfd =>
      cases h
      dsimp only
      rw [hfd, hset rfl]
      rfl
    · cases h
      exact absurd rfl hne
  · split at h
    · next fd' hfd =>
      cases h
      dsimp only
      rw [hfd, hset rfl]
      rfl
    · next hfd =>
      cases h
      dsimp only
      rw [hfd, hset rfl]
      rfl
  · obtain ⟨f, -, h⟩ := Option.map_eq_some_iff.mp h
    cases h
    dsimp only
    rw [hset rfl]
  · split_ifs at h
    cases h
    rw [proc_fileclose] at hne
    exact absurd rfl hne
  · cases h

theorem sets_closeNext {retval : Option Nat} {st st' : CloseStage} {u : State} {fd : Fin NOFILE}
    (hpc : s.pc i = .close retval st) (h : s.closeNext i st = some (u, st'))
    (hne : (u.proc i).ofile fd ≠ (s.proc i).ofile fd) :
    s.sets (.closeNext i) = some (i, fd) := by
  cases st with
  | ofile fd' =>
    unfold State.closeNext at h
    dsimp only at h
    split at h
    · split_ifs at h
      split at h
      · cases h
        rw [proc_fileclose] at hne
        exact absurd rfl hne
      · cases h
        rw [proc_fileclose] at hne
        exact absurd rfl hne
    · cases h
      exact absurd rfl hne
  | iput fd' f ip =>
    cases h
    exact absurd rfl hne
  | clear fd' f =>
    cases h
    have hfd : fd = fd' := by
      by_contra hfd
      exact hne (ofile_setFd_ne s none (Or.inr hfd))
    unfold State.sets
    dsimp only
    rw [hpc, hfd]
    cases retval <;> rfl
  | cwd =>
    cases h
    rw [proc_iput] at hne
    exact absurd rfl hne
  | clearCwd ip =>
    unfold State.closeNext at h
    dsimp only at h
    split_ifs at h
    cases h
    rw [State.setProc_proc_self] at hne
    exact absurd rfl hne
  | last => cases h

theorem sets_copyNext {main : Option Slot} {st : CopyStage} {fd : Fin NOFILE}
    (ha : (∃ pd, a = .forkNext i pd) ∨ ∃ enough, a = .threadNext i enough)
    (hpc : s.pc i = .copy main np (some st))
    (hne : ((s.copyNext (main.getD i) np st).1.proc np).ofile fd ≠ (s.proc np).ofile fd) :
    s.sets a = some (np, fd) := by
  cases st with
  | ofile fd' =>
    unfold State.copyNext at hne
    dsimp only at hne
    split at hne
    · exact absurd rfl hne
    · exact absurd rfl hne
  | filedup fd' f => exact absurd rfl hne
  | setOfile fd' f =>
    have hfd : fd = fd' := by
      by_contra hfd
      exact hne (ofile_setFd_ne s (some f) (Or.inr hfd))
    rcases ha with ⟨pd, rfl⟩ | ⟨enough, rfl⟩
    · unfold State.sets
      dsimp only
      rw [hpc, hfd]
      cases main <;> rfl
    · unfold State.sets
      dsimp only
      rw [hpc, hfd]
      cases main <;> rfl
  | cwd =>
    unfold State.copyNext at hne
    dsimp only at hne
    split at hne
    · exact absurd rfl hne
    · exact absurd rfl hne
  | idup ip => exact absurd rfl hne
  | setCwd ip =>
    unfold State.copyNext at hne
    dsimp only at hne
    rw [State.setProc_proc_self] at hne
    exact absurd rfl hne

/-- A step changes no other descriptor than the one that `sets` names. -/
theorem sets_effect {fd : Fin NOFILE} (h : FilesEffect s a t)
    (hne : (t.proc q).ofile fd ≠ (s.proc q).ofile fd) : s.sets a = some (q, fd) := by
  have honly : ∀ {i : Slot} {u : State} {k : Pc}, OnlyFiles i s u → t = u.setPc i k → q = i := by
    intro i u k hu ht
    by_contra hqi
    rw [ht, State.setPc_proc, hu.other q hqi] at hne
    exact hne rfl
  cases h with
  | same h _ _ => exact absurd (congrFun (h.ofile q) fd) hne
  | fs i op st st' u ha hrun hpc h ht =>
    have hq := honly (.fsNext h) ht
    subst hq
    rw [ht] at hne
    rw [ha]
    exact sets_fsNext hpc h hne
  | close i retval st st' u ha hrun hpc h ht =>
    have hq := honly (.closeNext h) ht
    subst hq
    rw [ht] at hne
    rw [ha]
    exact sets_closeNext hpc h hne
  | put i pd ip hrun hpc ht =>
    rw [ht] at hne
    exact absurd rfl hne
  | copy i np main st ha hrun hpc ht =>
    have hq : q = np := by
      by_contra hqn
      rw [ht, State.setPc_proc, (OnlyFiles.copyNext s _ np st).other q hqn] at hne
      exact hne rfl
    subst hq
    rw [ht] at hne
    exact sets_copyNext ha hpc hne

end Residue

/-! ### The copy -/

/-- The slot has the descriptors that the loop has passed, and the source still has the one
that the loop has read last. -/
structure Agrees (st : Option CopyStage) (r r' : Proc) : Prop where
  set : ∀ fd, (∀ st', st = some st' → ¬ st'.Ahead (.fd fd)) → r'.ofile fd = r.ofile fd
  read : ∀ fd f, st = some (.filedup fd f) ∨ st = some (.setOfile fd f) → r.ofile fd = some f

section Copy

variable {s t : State} {a : Action} {i np : Slot} {main : Option Slot}

theorem Pc.copy_inj {main' : Option Slot} {np' : Slot} {st st' : Option CopyStage}
    (h : Pc.copy main np st = .copy main' np' st') : main = main' ∧ np = np' ∧ st = st' := by
  cases main with
  | none =>
    cases main' with
    | none => cases st <;> cases st' <;> cases h <;> exact ⟨rfl, rfl, rfl⟩
    | some main' => cases h
  | some main =>
    cases main' with
    | none => cases h
    | some main' => cases st <;> cases st' <;> cases h <;> exact ⟨rfl, rfl, rfl⟩

theorem not_ahead_nextFd {fd fd' : Fin NOFILE} (h : ¬(State.nextFd fd).Ahead (.fd fd')) :
    fd' = fd ∨ ¬(CopyStage.ofile fd).Ahead (.fd fd') := by
  have hlt := fd'.isLt
  by_cases hle : fd' = fd
  · exact Or.inl hle
  refine Or.inr fun hahead => ?_
  have hle' : fd.val ≤ fd'.val := hahead
  have hne : fd'.val ≠ fd.val := fun hc => hle (Fin.ext hc)
  unfold State.nextFd at h
  split at h
  · have hlast : ¬ fd.val + 1 ≤ fd'.val := h
    omega
  · omega

/-- One access of the loop; what it has not come to is empty in the new slot. -/
theorem Agrees.copyNext {p : Slot} {st : CopyStage} (h : Agrees (some st) (s.proc p) (s.proc np))
    (hempty : ∀ fd, st.Ahead (.fd fd) → (s.proc np).ofile fd = none) :
    Agrees (s.copyNext p np st).2 ((s.copyNext p np st).1.proc p)
      ((s.copyNext p np st).1.proc np) := by
  have hset : ∀ fd, ¬ st.Ahead (.fd fd) → (s.proc np).ofile fd = (s.proc p).ofile fd :=
    fun fd hfd => h.set fd fun st' hst' => Option.some.inj hst' ▸ hfd
  have hnoread : ∀ (fd fd' : Fin NOFILE) f,
      ¬ (some (State.nextFd fd) = some (.filedup fd' f) ∨
        some (State.nextFd fd) = some (.setOfile fd' f)) := by
    intro fd fd' f hc
    unfold State.nextFd at hc
    split at hc <;> rcases hc with hc | hc <;> cases hc
  cases st with
  | ofile fd =>
    unfold State.copyNext
    dsimp only
    split
    · next f hf =>
      refine ⟨fun fd' hfd' => hset fd' fun hx => hfd' (.filedup fd f) rfl hx,
        fun fd' f' hread => ?_⟩
      rcases hread with hread | hread
      · cases hread
        exact hf
      · cases hread
    · next hf =>
      refine ⟨fun fd' hfd' => ?_, fun fd' f' hread => absurd hread (hnoread fd fd' f')⟩
      rcases not_ahead_nextFd (hfd' _ rfl) with heq | hahead
      · rw [heq, hf]
        exact hempty fd le_rfl
      · exact hset fd' hahead
  | filedup fd f =>
    refine ⟨fun fd' hfd' => hset fd' fun hx => hfd' (.setOfile fd f) rfl hx,
      fun fd' f' hread => ?_⟩
    rcases hread with hread | hread
    · cases hread
    · cases hread
      exact h.read fd f (Or.inl rfl)
  | setOfile fd f =>
    refine ⟨fun fd' hfd' => ?_, fun fd' f' hread => absurd hread (hnoread fd fd' f')⟩
    have hread := h.read fd f (Or.inr rfl)
    change ((s.setFd np fd (some f)).proc np).ofile fd' =
      ((s.setFd np fd (some f)).proc p).ofile fd'
    by_cases hp : p = np
    · rw [hp]
    rw [ofile_setFd_ne s (some f) (Or.inl hp)]
    by_cases heq : fd' = fd
    · rw [heq, ofile_setFd, hread]
    · rw [ofile_setFd_ne s (some f) (Or.inr heq)]
      exact hset fd' ((not_ahead_nextFd (hfd' _ rfl)).resolve_left heq)
  | cwd =>
    unfold State.copyNext
    dsimp only
    split
    · refine ⟨fun fd' _ => hset fd' id, fun fd' f' hread => ?_⟩
      rcases hread with hread | hread <;> cases hread
    · refine ⟨fun fd' _ => hset fd' id, fun fd' f' hread => ?_⟩
      rcases hread with hread | hread <;> cases hread
  | idup ip =>
    refine ⟨fun fd' _ => hset fd' id, fun fd' f' hread => ?_⟩
    rcases hread with hread | hread <;> cases hread
  | setCwd ip =>
    have hsame : ∀ q, ((s.copyNext p np (.setCwd ip)).1.proc q).ofile = (s.proc q).ofile := by
      intro q
      unfold State.copyNext
      dsimp only
      rw [State.setProc_proc]
      split_ifs <;> rfl
    refine ⟨fun fd' _ => ?_, fun fd' f' hread => ?_⟩
    · rw [hsame, hsame]
      exact hset fd' id
    · rcases hread with hread | hread <;> cases hread

theorem Agrees.first (r r' : Proc) : Agrees (some .first) r r' := by
  refine ⟨fun fd hfd => absurd (Nat.zero_le _) (hfd _ rfl), fun fd f hread => ?_⟩
  rcases hread with hread | hread <;> cases hread

/-- The source keeps what the loop has read. -/
theorem Agrees.kept {st : Option CopyStage} {r r' u u' : Proc} (h : Agrees st r r')
    (hnew : u'.ofile = r'.ofile)
    (hold : ∀ fd, (∀ st', st = some st' → st'.read fd = true) → u.ofile fd = r.ofile fd) :
    Agrees st u u' := by
  refine ⟨fun fd hfd => ?_, fun fd f hread => ?_⟩
  · rw [hnew, h.set fd hfd]
    refine (hold fd fun st' hst' => ?_).symm
    have hahead := hfd st' hst'
    cases st' with
    | ofile fd' => exact decide_eq_true (not_le.mp hahead)
    | filedup fd' f => exact decide_eq_true (not_le.mp hahead).le
    | setOfile fd' f => exact decide_eq_true (not_le.mp hahead).le
    | _ => rfl
  · refine (hold fd fun st' hst' => ?_).trans (h.read fd f hread)
    rcases hread with hread | hread
    · cases hst'.symm.trans hread
      exact decide_eq_true le_rfl
    · cases hst'.symm.trans hread
      exact decide_eq_true le_rfl

/-- How a thread comes to a place in the loop. -/
theorem copy_before (hs : Sound s) (hst : Sound t) (h : Effect s a t) {st : Option CopyStage}
    (ht : t.pc i = .copy main np st) :
    (∃ st', s.pc i = .copy main np (some st') ∧ st = (s.copyNext (main.getD i) np st').2 ∧
      t.proc = (s.copyNext (main.getD i) np st').1.proc) ∨
    (s.pc i = .copy main np st ∧ (t.proc np).ofile = (s.proc np).ofile) ∨ st = some .first := by
  have howns : (t.pc i).owns = some np := by rw [ht, Pc.owns_copy]
  have hembryo := hst.embryo howns
  have hno : ∀ {u : State} {k : Pc}, OnlyFiles np s u → t = u.setPc np k →
      (s.proc np).state = .running → False := by
    intro u k hu hu' hrun
    have halive := (hu.quiet.proc np).phase.trans (Proc.phase_alive hrun)
    rw [hu', State.setPc_proc, halive] at hembryo
    cases hembryo
  cases (files_effect h).slot np with
  | fs op st st' u hrun hpc h htu => exact (hno (.fsNext h) htu hrun).elim
  | close retval st st' u hrun hpc h htu => exact (hno (.closeNext h) htu hrun).elim
  | copy j main' st' hrun hpc htu =>
    have hj : t.pc j = .copy main' np (s.copyNext (main'.getD j) np st').2 := by
      rw [htu, State.setPc_pc, if_pos rfl]
    have hij := hst.owner howns (j := j) (by rw [hj, Pc.owns_copy])
    subst hij
    obtain ⟨rfl, -, hst'⟩ := Pc.copy_inj (ht.symm.trans hj)
    exact Or.inl ⟨st', hpc, hst', by rw [htu, State.setPc_proc]⟩
  | same ho hcw hc =>
    cases shaped_effect hs h howns with
    | taken k hpc hq hk =>
      rw [State.setPc_pc, if_pos rfl] at ht
      rcases hk with hk | ⟨main', -, hk⟩
      · rw [hk] at ht
        cases main <;> cases st <;> cases ht
      · rw [hk] at ht
        cases main <;> cases st <;> cases ht
    | other hpc hleft hparent => exact Or.inr (Or.inl ⟨hpc.symm.trans ht, ho⟩)
    | fork pd st' hrun hpc hvm =>
      cases st' with
      | files st' =>
        have hj : (s.forkNext i np pd (.files st')).pc i =
            .copy none np (s.copyNext i np st').2 := by
          rw [State.forkNext, State.setPc_pc, if_pos rfl]
          rfl
        obtain ⟨rfl, -, hst'⟩ := Pc.copy_inj (ht.symm.trans hj)
        exact Or.inl ⟨st', hpc, hst', rfl⟩
      | memorylimit =>
        have hj : (s.forkNext i np pd .memorylimit).pc i = .copy none np (some .first) := by
          rw [State.forkNext, State.setPc_pc, if_pos rfl]
          rfl
        exact Or.inr (Or.inr (Pc.copy_inj (ht.symm.trans hj)).2.2)
      | _ =>
        rw [State.forkNext, State.setPc_pc, if_pos rfl] at ht
        cases main <;> cases st <;> cases ht
    | thread main' enough st' hrun hpc =>
      cases st' with
      | files st' =>
        have hj : (s.threadNext i np main' enough (.files st')).pc i =
            .copy (some main') np (s.copyNext main' np st').2 := by
          rw [State.threadNext, State.setPc_pc, if_pos rfl]
          rfl
        obtain ⟨rfl, -, hst'⟩ := Pc.copy_inj (ht.symm.trans hj)
        exact Or.inl ⟨st', hpc, hst', rfl⟩
      | limit =>
        unfold State.threadNext at ht
        dsimp only at ht
        split_ifs at ht <;> rw [State.setPc_pc, if_pos rfl] at ht <;> cases main <;> cases st <;>
          cases ht
      | alloc =>
        rw [State.threadNext, State.setPc_pc, if_pos rfl] at ht
        split_ifs at ht <;> cases main <;> cases st <;> cases ht
      | copyout =>
        rw [State.threadNext, State.setPc_pc, if_pos rfl] at ht
        cases enough with
        | true =>
          have hj : Pc.copy (some main') np (some .first) = .copy main np st := ht
          exact Or.inr (Or.inr (Pc.copy_inj hj).2.2.symm)
        | false => cases main <;> cases st <;> cases ht
      | _ =>
        rw [State.threadNext, State.setPc_pc, if_pos rfl] at ht
        cases main <;> cases st <;> cases ht

end Copy

/-! ### The invariant -/

/-- Slots that are free, ZOMBIE or set up are as they must be. -/
structure Fresh (s : State) : Prop where
  sound : Sound s
  init : s.initproc = 0
  clean : ∀ fd, Clean s (.fd fd)
  unused : ∀ q, (s.proc q).phase = .unused → (s.proc q).killed = false
  owned : ∀ i q, (s.pc i).owns = some q → (s.proc q).killed = false
  copied : ∀ i main np st, s.pc i = .copy main np st →
    Agrees st (s.proc (main.getD i)) (s.proc np)

section Fresh

variable {s t : State} {a : Action} {i q np p : Slot}

namespace Fresh

/-- A slot that is set up after a step was free before it or set up by the same thread. -/
theorem owned_before (hf : Fresh s) (h : Effect s a t) (ht : (t.pc i).owns = some q) :
    (s.proc q).phase = .unused ∨ (s.pc i).owns = some q := by
  cases shaped_effect hf.sound h ht with
  | taken k hpc hq hk => exact Or.inl (Proc.phase_unused.mpr hq)
  | other hpc hleft hparent =>
    rw [hpc] at ht
    exact Or.inr ht
  | fork pd st hrun hpc hvm =>
    right
    rw [hpc]
    rfl
  | thread main enough st hrun hpc =>
    right
    rw [hpc]
    rfl

/-- No step changes a descriptor of the source that the loop has read. -/
theorem source_kept (hf : Fresh s) (hok : copyOk s a = true) (h : FilesEffect s a t)
    {main : Option Slot} {st : Option CopyStage} (hpc : s.pc i = .copy main np st)
    {fd : Fin NOFILE} (hread : ∀ st', st = some st' → st'.read fd = true) :
    (t.proc (main.getD i)).ofile fd = (s.proc (main.getD i)).ofile fd := by
  cases main with
  | some main =>
    by_contra hne
    have hno := copyOk_sets hok (sets_effect h hne) i
    have hyes : (s.pc i).read main fd = true := by
      rw [hpc]
      cases st with
      | none => exact decide_eq_true rfl
      | some st => exact decide_eq_true ⟨rfl, hread st rfl⟩
    exact absurd (hno.symm.trans hyes) nofun
  | none =>
    -- a thread in fork sets no descriptor of its own
    have howns : (s.pc i).owns = some np := by rw [hpc, Pc.owns_copy]
    cases h.slot i with
    | same ho hcw hc => exact congrFun ho fd
    | fs op st st' u hrun hpc' h ht =>
      rw [hpc'] at howns
      cases howns
    | close retval st st' u hrun hpc' h ht =>
      rw [hpc'] at howns
      cases retval <;> cases howns
    | copy j main st hrun hpc' ht =>
      have hembryo := hf.sound.embryo (i := j) (q := i) (by rw [hpc', Pc.owns_copy])
      have halive := hf.sound.busy i fun hu => by
        rw [hu] at howns
        cases howns
      rw [halive] at hembryo
      cases hembryo

theorem copied_step (hf : Fresh s) (hst : Sound t) (hok : copyOk s a = true) (h : Effect s a t)
    {main : Option Slot} {st : Option CopyStage} (ht : t.pc i = .copy main np st) :
    Agrees st (t.proc (main.getD i)) (t.proc np) := by
  rcases copy_before hf.sound hst h ht with ⟨st', hpc, hst', hproc⟩ | ⟨hpc, hnew⟩ | hfirst
  · rw [hproc, hst']
    refine (hf.copied i main np _ hpc).copyNext fun fd hahead => ?_
    apply (hf.clean fd).ahead i np
    rw [hpc]
    exact Pc.ahead_copy.mpr ⟨rfl, st', rfl, hahead⟩
  · exact (hf.copied i main np st hpc).kept hnew fun fd hread =>
      hf.source_kept hok (files_effect h) hpc hread
  · rw [hfirst]
    exact .first _ _

theorem step (hf : Fresh s) (hok : ResidueOk s a) (h : step s a = some t) : Fresh t := by
  obtain ⟨hids, hclosed, hkill, hcopy⟩ := hok
  have heff := step_effect h
  have hst : Sound t := hf.sound.step hids h
  constructor
  · exact hst
  · exact (Ids.init_steps (ids_effect hf.sound.base hf.sound.init hids heff)).trans hf.init
  · intro fd
    exact (hf.clean fd).step hf.sound heff hst fun q hq => closedOk_frees hclosed hq fd
  · intro q hq
    rcases unused_step hf.sound heff hq with hfree | hunused | ⟨j, hown⟩
    · exact freed_killed heff hfree
    · exact not_marked hf.sound hf.init hkill h (i := q) (Or.inl hunused) (hf.unused q hunused)
    · exact not_marked hf.sound hf.init hkill h (Or.inr hown) (hf.owned j q hown)
  · intro i q hq
    have hbefore := hf.owned_before heff hq
    apply not_marked hf.sound hf.init hkill h hbefore
    rcases hbefore with hunused | hown
    · exact hf.unused q hunused
    · exact hf.owned i q hown
  · intro i main np st ht
    exact hf.copied_step hst hcopy heff ht

end Fresh

/-- `fork` and `thread_create` return from the place behind the loop. -/
theorem returns_spec (h : s.returns a = some (p, np)) (hstep : Threads.step s a = some t) :
    (∃ i main, s.pc i = .copy main np none ∧ p = main.getD i) ∧
      ∀ q, (t.proc q).ofile = (s.proc q).ofile := by
  unfold Threads.step at hstep
  split_ifs at hstep
  cases a with
  | forkNext i pd =>
    unfold State.returns at h
    dsimp only at h hstep
    split at h
    · next np' hpc =>
      cases h
      refine ⟨⟨p, none, hpc, rfl⟩, fun q => ?_⟩
      rw [hpc] at hstep
      dsimp only at hstep
      obtain ⟨-, hstep⟩ := Option.ite_none_right_eq_some.mp hstep
      cases hstep
      rw [State.forkNext, State.setPc_proc, State.setProc_proc]
      split_ifs <;> rfl
    · cases h
  | threadNext i enough =>
    unfold State.returns at h
    dsimp only at h hstep
    split at h
    · next np' main hpc =>
      cases h
      refine ⟨⟨i, some p, hpc, rfl⟩, fun q => ?_⟩
      rw [hpc] at hstep
      dsimp only at hstep
      obtain ⟨-, hstep⟩ := Option.ite_none_right_eq_some.mp hstep
      cases hstep
      rw [State.threadNext, State.setPc_proc, State.setProc_proc]
      split_ifs <;> rfl
    · cases h
  | _ => cases h

theorem Fresh.residueLaw (hf : Fresh s) (hok : ResidueOk s a) (h : Threads.step s a = some t) :
    ResidueLaw s a t := by
  constructor
  · intro p np hret
    obtain ⟨⟨i, main, hpc, rfl⟩, hsame⟩ := returns_spec hret h
    rw [hsame, hsame]
    funext fd
    exact (hf.copied i main np none hpc).set fd nofun
  · intro p np hret
    obtain ⟨⟨i, main, hpc, -⟩, -⟩ := returns_spec hret h
    have hown : (s.pc i).owns = some np := by rw [hpc, Pc.owns_copy]
    exact not_marked hf.sound hf.init hok.2.2.1 h (Or.inr hown) (hf.owned i np hown)

theorem fresh_userinit : Fresh userinit := by
  have hkilled : ∀ q, (userinit.proc q).killed = false := by
    intro q
    dsimp only [userinit]
    rw [Function.update_apply]
    split_ifs <;> rfl
  refine ⟨sound_userinit, rfl, fun fd => clean_userinit (.fd fd), fun q _ => hkilled q,
    fun i q _ => hkilled q, fun i main np st h => ?_⟩
  cases main <;> cases h

/-- A new slot has nothing of its last owner. -/
theorem residueLaw_of_reach (hr : Reach Threads.step ResidueOk userinit s) (hok : ResidueOk s a)
    (h : Threads.step s a = some t) : ResidueLaw s a t := by
  have hf : Fresh s := by
    apply hr.invariant (I := Fresh) fresh_userinit
    intro u b v hu hb hv
    exact hu.step hb hv
  exact hf.residueLaw hok h

end Fresh

def residueAfter (as : List Action) : State :=
  (run (guarded step ResidueOk) userinit as).getD userinit

theorem reach_residueAfter {as : List Action}
    (h : (run (guarded step ResidueOk) userinit as).isSome) :
    Reach step ResidueOk userinit (residueAfter as) :=
  reach_of_guarded_run (eq_some_getD h)

-- The process 1 opens a file and creates a thread; the last statement is left.
def opensAndCreates : List Action :=
  .sched 0 :: forkSteps 0 1 0 ++ [.yield 0, .sched 1] ++ openSteps 1 5 ++ (threadSteps 1 1).dropLast

def threadAtReturn : State := residueAfter opensAndCreates

def threadMade : State := (step threadAtReturn (.threadNext 1 true)).getD userinit

theorem residueLaw_of_reach_thread :
    ResidueLaw threadAtReturn (.threadNext 1 true) threadMade ∧
      (threadMade.proc 2).ofile firstFd = some firstFile := by
  have hfacts : (run (guarded step ResidueOk) userinit opensAndCreates).isSome ∧
      (step threadAtReturn (.threadNext 1 true)).isSome ∧
      ResidueOk threadAtReturn (.threadNext 1 true) ∧
      (threadMade.proc 2).ofile firstFd = some firstFile := by decide +kernel
  obtain ⟨hrun, hstep, hok, hfile⟩ := hfacts
  exact ⟨residueLaw_of_reach (reach_residueAfter hrun) hok (eq_some_getD hstep), hfile⟩

/-- A thread has opened a file when its process exits, and init forks into its slot. -/
def slotLeft : List Action :=
  processAndThread ++ [.yield 1, .sched 2] ++ openSteps 2 6 ++ [.yield 2, .sched 1] ++
    exitSteps 1 0 ++ [.sched 0] ++ (forkSteps 0 2 0).dropLast

theorem not_residueLaw : ¬ ∀ s a t, Reach step (fun s a => idsOk s a = true) userinit s →
    step s a = some t → ResidueLaw s a t := by
  intro hall
  have hrun : ((run (guarded step fun s a => idsOk s a = true) userinit slotLeft).bind fun s =>
      (step s (.forkNext 0 2)).map fun t => (s, t)).any (fun x =>
        x.1.returns (.forkNext 0 2) == some (0, 2) &&
          (x.2.proc 2).ofile firstFd == some firstFile &&
          (x.2.proc 0).ofile firstFd == none) = true := by
    decide +kernel
  obtain ⟨x, hx, hview⟩ := (Option.any_eq_true _ _).mp hrun
  obtain ⟨s, hs, ht⟩ := Option.bind_eq_some_iff.mp hx
  obtain ⟨t, hstep, heq⟩ := Option.map_eq_some_iff.mp ht
  subst heq
  simp only [Bool.and_eq_true, beq_iff_eq] at hview
  obtain ⟨⟨hret, hnew⟩, hold⟩ := hview
  have hlaw := (hall s _ t (reach_of_guarded_run hs) hstep).ofile 0 2 hret
  rw [hlaw, hold] at hnew
  cases hnew

end Xv6.Threads
