import Mathlib.Tactic.SplitIfs
import Xv6.Threads.Table

/-!
# What a step does to the table

`Effect` lists the steps by what they do to the identity and the memory of the
slots. All steps of the scheduler, of files and of the log keep both and are one
case.
-/

namespace Xv6.Threads

open Mlfq (NPROC Slot Procstate)

/-- RUNNABLE, RUNNING and SLEEPING are one phase in the life of a slot. -/
inductive Phase where
  | unused | embryo | alive | zombie
  deriving DecidableEq, Repr

def Proc.phase (r : Proc) : Phase :=
  match r.state with
  | .unused => .unused
  | .embryo => .embryo
  | .sleeping | .runnable | .running => .alive
  | .zombie => .zombie

theorem Proc.phase_unused {r : Proc} : r.phase = .unused ↔ r.state = .unused := by
  unfold Proc.phase
  cases r.state <;> simp

theorem Proc.phase_zombie {r : Proc} : r.phase = .zombie ↔ r.state = .zombie := by
  unfold Proc.phase
  cases r.state <;> simp

theorem Proc.phase_alive {r : Proc} (h : r.state = .running) : r.phase = .alive := by
  unfold Proc.phase
  rw [h]

namespace Pc

/-- The slot that the thread is setting up. -/
def owns : Pc → Option Slot
  | .fork np _ => some np
  | .thread np _ _ => some np
  | _ => none

/-- Neither setting up a slot nor in `exec` with a page directory of its own. -/
def plain : Pc → Bool
  | .user | .fs _ | .exit _ | .threadExit _ _ | .wait | .join _ => true
  | _ => false

theorem bad_plain (st : ExecStage) : st.bad.plain := by cases st <;> rfl

/-- Where `wait` and `thread_join` are called and go on. -/
def waits : Pc → Bool
  | .user | .wait | .join _ => true
  | _ => false

/-- The place in `exit`, or in `thread_exit` with a value. -/
def close (retval : Option Nat) (st : CloseStage) : Pc :=
  match retval with
  | none => .exit st
  | some v => .threadExit v st

/-- On the way out of `exit` or `thread_exit`. -/
def leaving : Pc → Bool
  | .exit _ | .threadExit _ _ => true
  | _ => false

end Pc

/-- The references in the local variables of a thread, and those that it has dropped already
while its slot still shows them, or shows before it takes them. -/
structure Refs where
  files : List (Fin NFILE)
  inodes : List Nat
  owedFiles : List (Fin NFILE)
  owedInodes : List Nat
  deriving DecidableEq

def Refs.none : Refs := ⟨[], [], [], []⟩

def FsStage.refs : FsStage → Refs
  | .io ips => ⟨[], ips, [], []⟩
  | .open ip f => ⟨[f], [ip], [], []⟩
  | .opened ip _ => ⟨[], [ip], [], []⟩
  | .chdir ip cwd => ⟨[], [ip], [], cwd.toList⟩
  | .dup f => ⟨[], [], [f], []⟩
  | .pipe rf => ⟨[rf], [], [], []⟩
  | .pipes rf wf | .ends rf wf => ⟨[rf, wf], [], [], []⟩
  | .fd0 _ wf _ => ⟨[wf], [], [], []⟩
  | .close f fs ips => ⟨f :: fs, ips, [], []⟩

def CloseStage.refs : CloseStage → Refs
  | .iput _ f ip => ⟨[], [ip], [f], []⟩
  | .clear _ f => ⟨[], [], [f], []⟩
  | .clearCwd ip => ⟨[], [], [], ip.toList⟩
  | _ => .none

def CopyStage.refs : CopyStage → Refs
  | .setOfile _ f => ⟨[f], [], [], []⟩
  | .setCwd ip => ⟨[], ip.toList, [], []⟩
  | _ => .none

def Pc.refs : Pc → Refs
  | .fs st => st.refs
  | .exit st | .threadExit _ st => st.refs
  | .fork _ (.files st) | .thread _ _ (.files st) => st.refs
  | .exec _ (.load ip) => ⟨[], [ip], [], []⟩
  | _ => .none

namespace Pc

variable {k : Pc}

theorem plain_of_waits (h : k.waits) : k.plain := by
  cases k with
  | user | wait | join thread => rfl
  | _ => cases h

theorem inFs_of_waits (h : k.waits) : k.inFs = false := by
  cases k with
  | user | wait | join thread => rfl
  | _ => cases h

theorem refs_of_waits (h : k.waits) : k.refs = .none := by
  cases k with
  | user | wait | join thread => rfl
  | _ => cases h

end Pc

/-- A place that says nothing about the descriptors and the current directory of the thread. -/
def Pc.loose : Pc → Bool
  | .fs (.io _) => true
  | .fs _ => false
  | .exit st | .threadExit _ st => st = .first
  | _ => true

/-- The same identity and memory. -/
structure Proc.Same (r r' : Proc) : Prop where
  phase : r'.phase = r.phase
  pid : r'.pid = r.pid
  tid : r'.tid = r.tid
  parent : r'.parent = r.parent
  mainthread : r'.mainthread = r.mainthread
  pgdir : r'.pgdir = r.pgdir
  sz : r'.sz = r.sz
  memorylimit : r'.memorylimit = r.memorylimit
  retval : r'.retval = r.retval

theorem Proc.Same.refl (r : Proc) : r.Same r := ⟨rfl, rfl, rfl, rfl, rfl, rfl, rfl, rfl, rfl⟩

theorem Proc.Same.trans {r r' r'' : Proc} (h : r.Same r') (h' : r'.Same r'') : r.Same r'' :=
  ⟨h'.phase.trans h.phase, h'.pid.trans h.pid, h'.tid.trans h.tid, h'.parent.trans h.parent,
    h'.mainthread.trans h.mainthread, h'.pgdir.trans h.pgdir, h'.sz.trans h.sz,
    h'.memorylimit.trans h.memorylimit, h'.retval.trans h.retval⟩

/-- The table is kept, apart from the scheduler's fields and the open files. -/
structure Keeps (s t : State) : Prop where
  proc : ∀ q, (s.proc q).Same (t.proc q)
  initproc : t.initproc = s.initproc
  nextpid : t.nextpid = s.nextpid
  nexttid : t.nexttid = s.nexttid
  vm : t.vm = s.vm
  forker : t.forker = s.forker

theorem Keeps.refl (s : State) : Keeps s s := ⟨fun _ => .refl _, rfl, rfl, rfl, rfl, rfl⟩

theorem Keeps.trans {s t u : State} (h : Keeps s t) (h' : Keeps t u) : Keeps s u :=
  ⟨fun q => (h.proc q).trans (h'.proc q), h'.initproc.trans h.initproc,
    h'.nextpid.trans h.nextpid, h'.nexttid.trans h.nexttid, h'.vm.trans h.vm,
    h'.forker.trans h.forker⟩

/-- Not only the table is kept, but also where the threads are in the kernel and in
the file system. -/
structure Quiet (s t : State) : Prop extends Keeps s t where
  pc : t.pc = s.pc
  inOp : t.inOp = s.inOp
  lock : t.lock = s.lock
  outstanding : t.outstanding = s.outstanding

theorem Quiet.refl (s : State) : Quiet s s := ⟨.refl s, rfl, rfl, rfl, rfl⟩

theorem Quiet.trans {s t u : State} (h : Quiet s t) (h' : Quiet t u) : Quiet s u :=
  ⟨h.toKeeps.trans h'.toKeeps, h'.pc.trans h.pc, h'.inOp.trans h.inOp, h'.lock.trans h.lock,
    h'.outstanding.trans h.outstanding⟩

/-! ### Small lemmas about the access functions -/

namespace State

variable (s : State) (p q : Slot) (f : Proc → Proc) (k : Pc)

@[simp] theorem setProc_proc_self : (s.setProc p f).proc p = f (s.proc p) := by
  simp [setProc]

@[simp] theorem setProc_proc_ne (h : q ≠ p) : (s.setProc p f).proc q = s.proc q := by
  simp [setProc, h]

theorem setProc_proc : (s.setProc p f).proc q = if q = p then f (s.proc q) else s.proc q := by
  by_cases h : q = p
  · subst h
    simp
  · simp [h]

@[simp] theorem setProc_pc : (s.setProc p f).pc = s.pc := rfl
@[simp] theorem setProc_initproc : (s.setProc p f).initproc = s.initproc := rfl
@[simp] theorem setProc_nextpid : (s.setProc p f).nextpid = s.nextpid := rfl
@[simp] theorem setProc_nexttid : (s.setProc p f).nexttid = s.nexttid := rfl
@[simp] theorem setProc_vm : (s.setProc p f).vm = s.vm := rfl
@[simp] theorem setProc_forker : (s.setProc p f).forker = s.forker := rfl
@[simp] theorem setProc_file : (s.setProc p f).file = s.file := rfl
@[simp] theorem setProc_iref : (s.setProc p f).iref = s.iref := rfl
@[simp] theorem setProc_inOp : (s.setProc p f).inOp = s.inOp := rfl
@[simp] theorem setProc_lock : (s.setProc p f).lock = s.lock := rfl
@[simp] theorem setProc_outstanding : (s.setProc p f).outstanding = s.outstanding := rfl

theorem setPc_pc : (s.setPc p k).pc q = if q = p then k else s.pc q := by
  simp only [setPc, Function.update_apply]

@[simp] theorem setPc_proc : (s.setPc p k).proc = s.proc := rfl
@[simp] theorem setPc_initproc : (s.setPc p k).initproc = s.initproc := rfl
@[simp] theorem setPc_nextpid : (s.setPc p k).nextpid = s.nextpid := rfl
@[simp] theorem setPc_nexttid : (s.setPc p k).nexttid = s.nexttid := rfl
@[simp] theorem setPc_vm : (s.setPc p k).vm = s.vm := rfl
@[simp] theorem setPc_forker : (s.setPc p k).forker = s.forker := rfl
@[simp] theorem setPc_file : (s.setPc p k).file = s.file := rfl
@[simp] theorem setPc_iref : (s.setPc p k).iref = s.iref := rfl
@[simp] theorem setPc_inOp : (s.setPc p k).inOp = s.inOp := rfl
@[simp] theorem setPc_lock : (s.setPc p k).lock = s.lock := rfl
@[simp] theorem setPc_outstanding : (s.setPc p k).outstanding = s.outstanding := rfl

/-! ### Functions that keep the table -/

variable {s p q f}

theorem quiet_setProc (h : (s.proc p).Same (f (s.proc p))) : Quiet s (s.setProc p f) := by
  refine ⟨⟨fun q => ?_, rfl, rfl, rfl, rfl, rfl⟩, rfl, rfl, rfl, rfl⟩
  rw [setProc_proc]
  split_ifs with hq
  · rw [hq]
    exact h
  · exact .refl _

theorem keeps_setPc (s : State) (p : Slot) (k : Pc) : Keeps s (s.setPc p k) :=
  ⟨fun _ => .refl _, rfl, rfl, rfl, rfl, rfl⟩

theorem same_wake {r : Proc} (h : r.state = .sleeping) : r.Same { r with state := .runnable } := by
  refine ⟨?_, rfl, rfl, rfl, rfl, rfl, rfl, rfl, rfl⟩
  unfold Proc.phase
  rw [h]

theorem quiet_wakeup1 (s : State) (chan : Chan) : Quiet s (s.wakeup1 chan) := by
  refine ⟨⟨fun q => ?_, rfl, rfl, rfl, rfl, rfl⟩, rfl, rfl, rfl, rfl⟩
  dsimp only [wakeup1]
  split_ifs with h
  · exact same_wake h.1
  · exact .refl _

theorem quiet_wakeParent (s : State) (i : Slot) : Quiet s (s.wakeParent i) := by
  unfold wakeParent
  split
  · exact quiet_wakeup1 s _
  · exact quiet_wakeup1 s _

theorem quiet_kill (s : State) (pid : Int) : Quiet s (s.kill pid) := by
  unfold kill
  split
  · exact .refl s
  · refine quiet_setProc ⟨?_, rfl, rfl, rfl, rfl, rfl, rfl, rfl, rfl⟩
    unfold Proc.phase
    dsimp only
    split_ifs with h
    · rw [h]
    · rfl

end State

/-- Only open files and inodes change, and what the slot `i` has open. -/
structure OnlyFiles (i : Slot) (s t : State) : Prop where
  own : ∃ ofile cwd, t.proc i = { s.proc i with ofile := ofile, cwd := cwd }
  other : ∀ q, q ≠ i → t.proc q = s.proc q
  rest : t = { s with proc := t.proc, file := t.file, iref := t.iref }

namespace OnlyFiles

variable {i : Slot} {s t u : State}

theorem refl (i : Slot) (s : State) : OnlyFiles i s s := ⟨⟨_, _, rfl⟩, fun _ _ => rfl, rfl⟩

theorem trans (h : OnlyFiles i s t) (h' : OnlyFiles i t u) : OnlyFiles i s u := by
  obtain ⟨ofile, cwd, ht⟩ := h.own
  obtain ⟨ofile', cwd', hu⟩ := h'.own
  refine ⟨⟨ofile', cwd', ?_⟩, fun q hq => (h'.other q hq).trans (h.other q hq), ?_⟩
  · rw [hu, ht]
  · have hr := h'.rest
    rw [h.rest] at hr
    exact hr

theorem setProc {f : Proc → Proc} (ofile : Fin NOFILE → Option (Fin NFILE)) (cwd : Option Nat)
    (h : f (s.proc i) = { s.proc i with ofile := ofile, cwd := cwd }) :
    OnlyFiles i s (s.setProc i f) :=
  ⟨⟨ofile, cwd, by rw [State.setProc_proc_self, h]⟩,
    fun q hq => State.setProc_proc_ne _ _ _ _ hq, rfl⟩

theorem of_proc (hp : t.proc = s.proc)
    (h : t = { s with proc := t.proc, file := t.file, iref := t.iref }) : OnlyFiles i s t :=
  ⟨⟨_, _, congrFun hp i⟩, fun q _ => congrFun hp q, h⟩

theorem setFd (s : State) (i : Slot) (fd : Fin NOFILE) (f : Option (Fin NFILE)) :
    OnlyFiles i s (s.setFd i fd f) := setProc _ _ rfl

theorem setCwd (s : State) (i : Slot) (ip : Option Nat) :
    OnlyFiles i s (s.setProc i fun r => { r with cwd := ip }) := setProc _ _ rfl

theorem idup (i : Slot) (s : State) (ip : Option Nat) : OnlyFiles i s (s.idup ip) := by
  cases ip <;> exact of_proc rfl rfl

theorem iput (i : Slot) (s : State) (ip : Option Nat) : OnlyFiles i s (s.iput ip) := by
  cases ip <;> exact of_proc rfl rfl

theorem setFile (i : Slot) (s : State) (f : Fin NFILE) (r : File) :
    OnlyFiles i s { s with file := Function.update s.file f r } := of_proc rfl rfl

theorem fileclose (i : Slot) (s : State) (f : Fin NFILE) : OnlyFiles i s (s.fileclose f).1 := by
  unfold State.fileclose
  dsimp only
  split_ifs <;> exact of_proc rfl rfl

theorem quiet (h : OnlyFiles i s t) : Quiet s t := by
  obtain ⟨ofile, cwd, hi⟩ := h.own
  have hproc : ∀ q, (s.proc q).Same (t.proc q) := by
    intro q
    by_cases hq : q = i
    · rw [hq, hi]
      exact ⟨rfl, rfl, rfl, rfl, rfl, rfl, rfl, rfl, rfl⟩
    · rw [h.other q hq]
      exact .refl _
  rw [h.rest] at hproc ⊢
  exact ⟨⟨hproc, rfl, rfl, rfl, rfl, rfl⟩, rfl, rfl, rfl, rfl⟩

theorem fsNext {st st' : FsStage} {op : FsOp} (h : s.fsNext i st op = some (t, st')) :
    OnlyFiles i s t := by
  unfold State.fsNext at h
  split at h
  · cases h
    exact idup i s _
  · split_ifs at h
    cases h
    exact iput i s _
  · obtain ⟨f, -, h⟩ := Option.map_eq_some_iff.mp h
    cases h
    exact setFile i s f _
  · split at h
    · cases h
      exact setFd s i _ _
    · cases h
      exact refl i s
  · split_ifs at h
    cases h
    exact setFile i s _ _
  · cases h
    exact iput i s _
  · split_ifs at h
    cases h
    exact setCwd s i _
  · split at h
    · cases h
      exact setFd s i _ _
    · cases h
  · split_ifs at h
    cases h
    exact setFile i s _ _
  · obtain ⟨f, -, h⟩ := Option.map_eq_some_iff.mp h
    cases h
    exact setFile i s f _
  · split at h
    · cases h
      exact setFile i s _ _
    · cases h
      exact refl i s
  · split_ifs at h
    · cases h
      exact (setFile i s _ _).trans (setFile i _ _ _)
    · cases h
      exact refl i s
  · split at h
    · cases h
      exact setFd s i _ _
    · cases h
      exact refl i s
  · split at h
    · cases h
      exact setFd s i _ _
    · cases h
      exact setFd s i _ _
  · obtain ⟨f, -, h⟩ := Option.map_eq_some_iff.mp h
    cases h
    exact setFd s i _ _
  · split_ifs at h
    cases h
    exact fileclose i s _
  · cases h

theorem closeNext {st st' : CloseStage} (h : s.closeNext i st = some (t, st')) :
    OnlyFiles i s t := by
  cases st with
  | ofile fd =>
    unfold State.closeNext at h
    dsimp only at h
    split at h
    · split_ifs at h
      split at h
      · cases h
        exact fileclose i s _
      · cases h
        exact fileclose i s _
    · cases h
      exact refl i s
  | iput fd f ip =>
    cases h
    exact iput i s _
  | clear fd f =>
    cases h
    exact setFd s i fd none
  | cwd =>
    cases h
    exact iput i s _
  | clearCwd cwd =>
    unfold State.closeNext at h
    dsimp only at h
    split_ifs at h
    cases h
    exact setCwd s i none
  | last => cases h

theorem copyNext (s : State) (p np : Slot) (st : CopyStage) :
    OnlyFiles np s (s.copyNext p np st).1 := by
  cases st with
  | ofile fd =>
    unfold State.copyNext
    dsimp only
    split <;> exact refl np s
  | filedup fd f => exact setFile np s f _
  | setOfile fd f => exact setFd s np fd (some f)
  | cwd =>
    unfold State.copyNext
    dsimp only
    split <;> exact refl np s
  | idup ip => exact idup np s (some ip)
  | setCwd ip => exact setCwd s np ip

end OnlyFiles

theorem State.quiet_copyNext (s : State) (p np : Slot) (st : CopyStage) :
    Quiet s (s.copyNext p np st).1 := (OnlyFiles.copyNext s p np st).quiet

/-! ### Every step -/

/-- A thread moves between plain places. Only init never leaves, and a thread comes out of the
file system without an operation and without a sleeplock. -/
structure Moved (s t : State) (q : Slot) : Prop where
  alive : (s.proc q).phase = .alive
  before : (s.pc q).plain
  after : (t.pc q).plain
  leaving : (t.pc q).leaving → (s.pc q).leaving ∨ q ≠ s.initproc
  idle : (t.pc q).inFs = false → (s.pc q).inFs = false ∨ s.idle q

/-- A thread stays where it is, moves, or has loaded a program. -/
def Moves (s t : State) : Prop :=
  ∀ q, t.pc q = s.pc q ∨ Moved s t q ∨
    (s.proc q).phase = .alive ∧ ∃ pd ip, s.pc q = .exec pd (.load ip) ∧ t.pc q = .exec pd .clean

/-- The open files and the references to inodes are the same. -/
structure SameFiles (s t : State) : Prop where
  file : t.file = s.file
  iref : t.iref = s.iref
  ofile : ∀ q, (t.proc q).ofile = (s.proc q).ofile
  cwd : ∀ q, (t.proc q).cwd = (s.proc q).cwd

theorem SameFiles.refl (s : State) : SameFiles s s := ⟨rfl, rfl, fun _ => rfl, fun _ => rfl⟩

theorem SameFiles.trans {s t u : State} (h : SameFiles s t) (h' : SameFiles t u) : SameFiles s u :=
  ⟨h'.file.trans h.file, h'.iref.trans h.iref, fun q => (h'.ofile q).trans (h.ofile q),
    fun q => (h'.cwd q).trans (h.cwd q)⟩

theorem SameFiles.setPc {s t : State} (h : SameFiles s t) (i : Slot) (k : Pc) :
    SameFiles s (t.setPc i k) := ⟨h.file, h.iref, h.ofile, h.cwd⟩

theorem sameFiles_of {s t : State} (hp : t.proc = s.proc) (hf : t.file = s.file)
    (hr : t.iref = s.iref) : SameFiles s t :=
  ⟨hf, hr, fun q => by rw [hp], fun q => by rw [hp]⟩

theorem sameFiles_setProc {s : State} {p : Slot} {f : Proc → Proc}
    (ho : (f (s.proc p)).ofile = (s.proc p).ofile) (hc : (f (s.proc p)).cwd = (s.proc p).cwd) :
    SameFiles s (s.setProc p f) := by
  refine ⟨rfl, rfl, fun q => ?_, fun q => ?_⟩
  · rw [State.setProc_proc]
    split_ifs with hq
    · rw [hq, ho]
    · rfl
  · rw [State.setProc_proc]
    split_ifs with hq
    · rw [hq, hc]
    · rfl

theorem sameFiles_wakeup1 (s : State) (chan : Chan) : SameFiles s (s.wakeup1 chan) := by
  refine ⟨rfl, rfl, fun q => ?_, fun q => ?_⟩
  · dsimp only [State.wakeup1]
    split_ifs <;> rfl
  · dsimp only [State.wakeup1]
    split_ifs <;> rfl

theorem sameFiles_kill (s : State) (pid : Int) : SameFiles s (s.kill pid) := by
  unfold State.kill
  split
  · exact .refl s
  · exact sameFiles_setProc rfl rfl

/-- What a step that keeps the table does to the open files. -/
inductive FileStep (s : State) (a : Action) (t : State) : Prop where
  | same (h : SameFiles s t) (hr : ∀ q, (t.pc q).refs = (s.pc q).refs)
      (hc : ∀ q, t.pc q = s.pc q ∨ (t.pc q).loose = true)
  | fs (i : Slot) (op : FsOp) (st st' : FsStage) (u : State) (ha : a = .fs i op)
      (hi : (s.proc i).state = .running) (hpc : s.pc i = .fs st)
      (h : s.fsNext i st op = some (u, st')) (ht : t = u.setPc i (.fs st'))
  | close (i : Slot) (retval : Option Nat) (st st' : CloseStage) (u : State)
      (ha : a = .closeNext i) (hi : (s.proc i).state = .running) (hpc : s.pc i = .close retval st)
      (h : s.closeNext i st = some (u, st')) (ht : t = u.setPc i (.close retval st'))
  | put (i : Slot) (pd ip : Nat) (hi : (s.proc i).state = .running)
      (hpc : s.pc i = .exec pd (.load ip)) (ht : t = s.execPut i pd ip)

/-- What it does to the operations of the log and to the sleeplocks. -/
inductive LogStep (s t : State) : Prop where
  | same (hop : t.inOp = s.inOp) (hl : t.lock = s.lock) (ho : t.outstanding = s.outstanding)
  | beginOp (i : Slot) (hi : (s.proc i).state = .running) (hfs : (s.pc i).inFs = true)
      (hpc : t.pc = s.pc) (h0 : s.inOp i = false)
      (hop : t.inOp = Function.update s.inOp i true) (hl : t.lock = s.lock)
      (ho : t.outstanding = s.outstanding + 1)
  | endOp (i : Slot) (hi : (s.proc i).state = .running) (h0 : s.inOp i = true)
      (hop : t.inOp = Function.update s.inOp i false) (hl : t.lock = s.lock)
      (ho : t.outstanding = s.outstanding - 1)
  | acquire (i : Slot) (l : Fin (NINODE + NBUF)) (hi : (s.proc i).state = .running)
      (hfs : (s.pc i).inFs = true) (hpc : t.pc = s.pc) (hop : t.inOp = s.inOp)
      (hl : t.lock = Function.update s.lock l (.held i)) (ho : t.outstanding = s.outstanding)
  | release (i : Slot) (l : Fin (NINODE + NBUF)) (hop : t.inOp = s.inOp)
      (hl : t.lock = Function.update s.lock l .unlocked) (ho : t.outstanding = s.outstanding)

/-- The slots that come out of use in a step. -/
def State.frees (s : State) : Action → Slot → Bool
  | .exitLast i, q => s.pc i = .exit .last ∧ s.siblings i q = true
  | .cleanforexec i, q => (s.proc i).tid ≠ 0 ∧ s.siblings i q = true
  | .wait i, q => s.waitFor i = some q
  | .threadJoin _ thread, q => s.joinFor thread = some q
  | _, _ => false

/-- The steps, with the guards that later proofs use. -/
inductive Effect (s : State) : Action → State → Prop where
  | kept {a : Action} {t : State} (hf : ∀ q, s.frees a q = false) (h : Keeps s t)
      (hpc : Moves s t) (hfile : FileStep s a t) (hlog : LogStep s t) : Effect s a t
  | alloc {a : Action} (hf : ∀ q, s.frees a q = false) (i np : Slot) (k : Pc)
      (hi : (s.proc i).state = .running)
      (hpc : s.pc i = .user) (hnp : (s.proc np).state = .unused)
      (hk : k = .fork np .pgdir ∨
        ∃ main, (s.proc i).mainthread = some main ∧ k = .thread np main .pgdir) :
      Effect s a ((s.setProc np fun r => { r with state := .embryo }).setPc i k)
  | abort {a : Action} (hf : ∀ q, s.frees a q = false) (i np : Slot) (pgdir : Option Nat)
      (hi : (s.proc i).state = .running)
      (hpc : s.pc i = .fork np .pgdir ∨ ∃ main, s.pc i = .thread np main .pgdir) :
      Effect s a ((s.setProc np fun r => { r with pgdir := pgdir, state := .unused }).setPc i .user)
  | forkNext (i np : Slot) (pd : Nat) (st : ForkStage) (hi : (s.proc i).state = .running)
      (hpc : s.pc i = .fork np st) (hvm : st = .pgdir → s.vm pd = false)
      (hdup : s.dupOk st.dup = true) : Effect s (.forkNext i pd) (s.forkNext i np pd st)
  | threadNext (i np main : Slot) (enough : Bool) (st : ThreadStage)
      (hi : (s.proc i).state = .running) (hpc : s.pc i = .thread np main st)
      (hdup : s.dupOk st.dup = true) :
      Effect s (.threadNext i enough) (s.threadNext i np main enough st)
  | exitLast (i : Slot) (hi : (s.proc i).state = .running) (hpc : s.pc i = .exit .last)
      (hfree : ¬s.freeSibling i) : Effect s (.exitLast i) (s.exitLast i)
  | threadExitLast (i : Slot) (retval : Nat) (hi : (s.proc i).state = .running)
      (hpc : s.pc i = .threadExit retval .last) :
      Effect s (.exitLast i) (s.threadExitLast i retval)
  | reap (i p : Slot) (hi : (s.proc i).state = .running) (hpc : (s.pc i).waits)
      (hw : s.waitFor i = some p) : Effect s (.wait i) (s.wait i)
  | join (i p : Slot) (thread : Nat) (hi : (s.proc i).state = .running) (hpc : (s.pc i).waits)
      (hj : s.joinFor thread = some p) :
      Effect s (.threadJoin i thread) ((s.vacate fun q => q = p).setPc i .user)
  | exec (i : Slot) (pd ip : Nat) (hi : (s.proc i).state = .running)
      (hpc : s.pc i = .fs (.io [ip])) (hvm : s.vm pd = false) :
      Effect s (.exec i pd) (s.exec i pd ip)
  | execBad (i : Slot) (pd : Nat) (st : ExecStage) (hi : (s.proc i).state = .running)
      (hpc : s.pc i = .exec pd st) (hst : (∃ ip, st = .load ip) ∨ st = .stack) :
      Effect s (.execBad i) (s.execBad i pd st)
  | cleanforexec (i : Slot) (pd : Nat) (hi : (s.proc i).state = .running)
      (hpc : s.pc i = .exec pd .clean) (hidle : s.idle i)
      (hfree : (s.proc i).tid ≠ 0 → ¬s.freeSibling i) :
      Effect s (.cleanforexec i) ((s.cleanforexec i).setPc i (.exec pd .stack))
  | execCommit (i : Slot) (pd sz oldpgdir : Nat) (hi : (s.proc i).state = .running)
      (hpc : s.pc i = .exec pd .stack) (hold : (s.proc i).pgdir = some oldpgdir) :
      Effect s (.execCommit i sz)
        ((s.setProc i fun r => { r with pgdir := some pd, sz := sz }).setPc i (.exec oldpgdir .free))
  | execFree (i : Slot) (oldpgdir : Nat) (hi : (s.proc i).state = .running)
      (hpc : s.pc i = .exec oldpgdir .free) : Effect s (.execFree i) (s.execFree i oldpgdir)
  | growproc (i main : Slot) (n : Int) (enough : Bool) (sz : Nat)
      (hlimit : (s.proc main).memorylimit = 0 ∨ sz ≤ (s.proc main).sz ∨
        sz ≤ uint (s.proc main).memorylimit)
      (hmain : (s.proc i).mainthread = some main) :
      Effect s (.growproc i n enough) (s.setProc main fun r => { r with sz := sz })
  | setmemorylimit (i p : Slot) (pid limit : Int) (h0 : 0 ≤ limit)
      (hp : (List.finRange NPROC).find? (fun p => (s.proc p).pid = pid) = some p)
      (hsz : (s.proc p).sz ≤ uint limit) :
      Effect s (.setmemorylimit i pid limit) (s.setProc p fun r => { r with memorylimit := limit })

theorem moves_setPc {s t : State} {i : Slot} {k : Pc} (ht : t.pc = s.pc)
    (hi : (s.proc i).state = .running) (hp : (s.pc i).plain) (hk : k.plain)
    (hl : k.leaving → (s.pc i).leaving ∨ i ≠ s.initproc)
    (hfs : k.inFs = false → (s.pc i).inFs = false ∨ s.idle i) : Moves s (t.setPc i k) := by
  intro q
  by_cases hq : q = i
  · subst hq
    have hpc : (t.setPc q k).pc q = k := by rw [State.setPc_pc, if_pos rfl]
    right
    left
    refine ⟨Proc.phase_alive hi, hp, ?_, ?_, ?_⟩
    · rw [hpc]
      exact hk
    · rw [hpc]
      exact hl
    · rw [hpc]
      exact hfs
  · left
    rw [State.setPc_pc, if_neg hq, ht]

theorem refs_setPc {s t : State} {i : Slot} {k : Pc} (ht : t.pc = s.pc)
    (hk : k.refs = (s.pc i).refs) (q : Slot) : ((t.setPc i k).pc q).refs = (s.pc q).refs := by
  rw [State.setPc_pc]
  split_ifs with hq
  · rw [hq, hk]
  · rw [ht]

theorem loose_setPc {s t : State} {i : Slot} {k : Pc} (ht : t.pc = s.pc) (hk : k.loose = true)
    (q : Slot) : (t.setPc i k).pc q = s.pc q ∨ ((t.setPc i k).pc q).loose = true := by
  rw [State.setPc_pc]
  split_ifs
  · exact Or.inr hk
  · exact Or.inl (congrFun ht q)

/-- A step that changes a place but leaves the table. -/
theorem Effect.of_setPc {s t : State} {a : Action} {i : Slot} {k : Pc}
    (hf : ∀ q, s.frees a q = false) (h : Quiet s t) (hs : SameFiles s t)
    (hm : Moves s (t.setPc i k)) (hr : k.refs = (s.pc i).refs) (hc : k.loose = true) :
    Effect s a (t.setPc i k) :=
  .kept hf (h.toKeeps.trans (State.keeps_setPc t i k)) hm
    (.same (hs.setPc i k) (refs_setPc h.pc hr) (loose_setPc h.pc hc))
    (.same h.inOp h.lock h.outstanding)

theorem Effect.of_files {s t : State} {a : Action} {i : Slot} {k : Pc}
    (hf : ∀ q, s.frees a q = false) (h : OnlyFiles i s t) (hm : Moves s (t.setPc i k))
    (hfile : FileStep s a (t.setPc i k)) : Effect s a (t.setPc i k) :=
  .kept hf (h.quiet.toKeeps.trans (State.keeps_setPc t i k)) hm hfile
    (.same h.quiet.inOp h.quiet.lock h.quiet.outstanding)

theorem fileStep_of_pc {s t : State} {a : Action} (hs : SameFiles s t) (hpc : t.pc = s.pc) :
    FileStep s a t :=
  .same hs (fun q => by rw [hpc]) fun q => Or.inl (congrFun hpc q)

theorem Effect.of_quiet {s t : State} {a : Action} (hf : ∀ q, s.frees a q = false)
    (h : Quiet s t) (hs : SameFiles s t) : Effect s a t :=
  .kept hf h.toKeeps (fun q => Or.inl (congrFun h.pc q)) (fileStep_of_pc hs h.pc)
    (.same h.inOp h.lock h.outstanding)

theorem Effect.of_refl {s : State} {a : Action} (hf : ∀ q, s.frees a q = false) : Effect s a s :=
  .of_quiet hf (.refl s) (.refl s)

theorem Effect.of_log {s t : State} {a : Action} (hf : ∀ q, s.frees a q = false)
    (h : Keeps s t) (hpc : t.pc = s.pc) (hs : SameFiles s t) (hlog : LogStep s t) :
    Effect s a t :=
  .kept hf h (fun q => Or.inl (congrFun hpc q)) (fileStep_of_pc hs hpc) hlog

theorem nextClose_ne_last (fd : Fin NOFILE) : State.nextClose fd ≠ .last := by
  unfold State.nextClose
  split <;> exact nofun

theorem allocuvm_le (oldsz newsz : Nat) (enough : Bool) :
    State.allocuvm oldsz newsz enough ≤ oldsz ∨ State.allocuvm oldsz newsz enough ≤ newsz := by
  unfold State.allocuvm
  split_ifs
  · exact Or.inl (Nat.zero_le _)
  · exact Or.inl le_rfl
  · exact Or.inr le_rfl
  · exact Or.inl (Nat.zero_le _)

theorem deallocuvm_le (oldsz newsz : Nat) : State.deallocuvm oldsz newsz ≤ oldsz := by
  unfold State.deallocuvm
  split_ifs <;> omega

theorem refs_first : CloseStage.first.refs = .none := rfl

theorem close_effect {s u : State} {i : Slot} (retval : Option Nat) {st st' : CloseStage}
    (hi : (s.proc i).state = .running) (hpc : s.pc i = .close retval st)
    (h : s.closeNext i st = some (u, st')) :
    Effect s (.closeNext i) (u.setPc i (.close retval st')) := by
  have hfiles : OnlyFiles i s u := .closeNext h
  have hplain : ∀ st, (Pc.close retval st).plain := fun st => by cases retval <;> rfl
  have hleaving : (s.pc i).leaving := by
    rw [hpc]
    cases retval <;> rfl
  have hidle : (Pc.close retval st').inFs = false → (s.pc i).inFs = false ∨ s.idle i := by
    intro hlast
    have hst : st' = .last := by
      cases retval <;> simpa [Pc.close, Pc.inFs] using hlast
    subst hst
    right
    cases st with
    | clearCwd cwd =>
      unfold State.closeNext at h
      dsimp only at h
      split_ifs at h with hidle
      exact hidle
    | ofile fd =>
      unfold State.closeNext at h
      dsimp only at h
      split at h
      · split_ifs at h
        split at h <;> cases h
      · exact absurd (Prod.mk.inj (Option.some.inj h)).2 (nextClose_ne_last fd)
    | clear fd f => exact absurd (Prod.mk.inj (Option.some.inj h)).2 (nextClose_ne_last fd)
    | _ => cases h
  exact .of_files (fun _ => rfl) hfiles
    (moves_setPc hfiles.quiet.pc hi (by rw [hpc]; exact hplain st) (hplain st')
      (fun _ => Or.inl hleaving) hidle)
    (.close i retval st st' u rfl hi hpc h rfl)

theorem growproc_effect {s t : State} {i : Slot} {n : Int} {enough : Bool}
    (h : s.growproc i n enough = some t) : Effect s (.growproc i n enough) t := by
  obtain ⟨main, hmain, h⟩ := Option.map_eq_some_iff.mp h
  have hfail : Effect s (.growproc i n enough) { s with lockHeld := true } :=
    .of_quiet (fun _ => rfl) ⟨⟨fun _ => .refl _, rfl, rfl, rfl, rfl, rfl⟩, rfl, rfl, rfl, rfl⟩
      (sameFiles_of rfl rfl rfl)
  dsimp only at h
  by_cases hlimit : (s.proc main).memorylimit ≠ 0 ∧
      uint (s.proc main).memorylimit < uint ((s.proc main).sz + n)
  · rw [if_pos hlimit] at h
    rw [← h]
    exact hfail
  rw [if_neg hlimit] at h
  generalize hsz : (if 0 < n then
      State.allocuvm (s.proc main).sz (uint ((s.proc main).sz + n)) enough
    else if n < 0 then State.deallocuvm (s.proc main).sz (uint ((s.proc main).sz + n))
    else (s.proc main).sz) = sz at h
  by_cases h0 : n ≠ 0 ∧ sz = 0
  · rw [if_pos h0] at h
    rw [← h]
    exact hfail
  rw [if_neg h0] at h
  rw [← h]
  refine .growproc i main n enough sz ?_ hmain
  by_cases hl0 : (s.proc main).memorylimit = 0
  · exact Or.inl hl0
  have hle : uint ((s.proc main).sz + n) ≤ uint (s.proc main).memorylimit :=
    Nat.le_of_not_lt fun hlt => hlimit ⟨hl0, hlt⟩
  right
  rw [← hsz]
  split_ifs
  · rcases allocuvm_le (s.proc main).sz (uint ((s.proc main).sz + n)) enough with hsz | hsz
    · exact Or.inl hsz
    · exact Or.inr (hsz.trans hle)
  · exact Or.inl (deallocuvm_le _ _)
  · exact Or.inl le_rfl

theorem step_effect {s t : State} {a : Action} (h : step s a = some t) : Effect s a t := by
  unfold step at h
  split_ifs at h with hlock
  cases a with
  | sched p =>
    dsimp only at h
    split_ifs at h with hp
    cases h
    refine .of_quiet (fun _ => rfl)
      (State.quiet_setProc ⟨?_, rfl, rfl, rfl, rfl, rfl, rfl, rfl, rfl⟩)
      (sameFiles_setProc rfl rfl)
    unfold Proc.phase
    rw [hp.1]
  | yield p =>
    dsimp only at h
    split_ifs at h with hp
    cases h
    refine .of_quiet (fun _ => rfl)
      (State.quiet_setProc ⟨?_, rfl, rfl, rfl, rfl, rfl, rfl, rfl, rfl⟩)
      (sameFiles_setProc rfl rfl)
    unfold Proc.phase
    rw [hp]
  | sleep p n =>
    dsimp only at h
    split_ifs at h with hp
    cases h
    refine .of_quiet (fun _ => rfl)
      (State.quiet_setProc ⟨?_, rfl, rfl, rfl, rfl, rfl, rfl, rfl, rfl⟩)
      (sameFiles_setProc rfl rfl)
    unfold Proc.phase
    rw [hp]
  | wakeup chan =>
    cases h
    exact .of_quiet (fun _ => rfl) (State.quiet_wakeup1 s chan) (sameFiles_wakeup1 s chan)
  | kill pid =>
    cases h
    exact .of_quiet (fun _ => rfl) (State.quiet_kill s pid) (sameFiles_kill s pid)
  | fork i =>
    dsimp only at h
    split_ifs at h with hi
    cases h
    unfold State.fork
    cases hnp : s.allocproc with
    | none => exact .of_refl fun _ => rfl
    | some np =>
      exact .alloc (fun _ => rfl) i np _ hi.1 hi.2 (by simpa using List.find?_some hnp) (Or.inl rfl)
  | allocFail i =>
    dsimp only at h
    split at h
    · next np hpc =>
      split_ifs at h with hi
      cases h
      exact .abort (fun _ => rfl) i np (s.proc np).pgdir hi (Or.inl hpc)
    · next np main hpc =>
      split_ifs at h with hi
      cases h
      exact .abort (fun _ => rfl) i np (s.proc np).pgdir hi (Or.inr ⟨main, hpc⟩)
    · cases h
  | forkFail i =>
    dsimp only at h
    split at h
    · next np hpc =>
      split_ifs at h with hi
      cases h
      exact .abort (fun _ => rfl) i np none hi (Or.inl hpc)
    · cases h
  | forkNext i pd =>
    dsimp only at h
    split at h
    · next np st hpc =>
      split_ifs at h with hi
      cases h
      exact .forkNext i np pd st hi.1 hpc hi.2.1 hi.2.2
    · cases h
  | threadCreate i =>
    dsimp only at h
    split_ifs at h with hi
    obtain ⟨main, hmain, h⟩ := Option.map_eq_some_iff.mp h
    cases hnp : s.allocproc with
    | none =>
      rw [hnp] at h
      cases h
      exact .of_refl fun _ => rfl
    | some np =>
      rw [hnp] at h
      cases h
      exact .alloc (fun _ => rfl) i np _ hi.1 hi.2 (by simpa using List.find?_some hnp)
        (Or.inr ⟨main, hmain, rfl⟩)
  | threadNext i enough =>
    dsimp only at h
    split at h
    · next np main st hpc =>
      split_ifs at h with hi
      cases h
      exact .threadNext i np main enough st hi.1 hpc hi.2
    · cases h
  | exit i =>
    dsimp only at h
    split_ifs at h with hi
    cases h
    have hm : Moves s (s.setPc i (.exit .first)) :=
      moves_setPc rfl hi.1.1 (by rw [hi.1.2]; rfl) rfl (fun _ => Or.inr hi.2) nofun
    refine .of_setPc (fun _ => rfl) (.refl s) (.refl s) hm ?_ rfl
    rw [hi.1.2]
    exact refs_first
  | threadExit i retval =>
    dsimp only at h
    split_ifs at h with hi
    cases h
    have hm : Moves s (s.setPc i (.threadExit retval .first)) :=
      moves_setPc rfl hi.1.1 (by rw [hi.1.2]; rfl) rfl (fun _ => Or.inr hi.2) nofun
    refine .of_setPc (fun _ => rfl) (.refl s) (.refl s) hm ?_ rfl
    rw [hi.1.2]
    exact refs_first
  | closeNext i =>
    dsimp only at h
    split at h
    · next st hpc =>
      split_ifs at h with hi
      obtain ⟨r, hr, h⟩ := Option.map_eq_some_iff.mp h
      cases h
      exact close_effect none hi hpc hr
    · next retval st hpc =>
      split_ifs at h with hi
      obtain ⟨r, hr, h⟩ := Option.map_eq_some_iff.mp h
      cases h
      exact close_effect (some retval) hi hpc hr
    · cases h
  | exitLast i =>
    dsimp only at h
    split at h
    · next hpc =>
      split_ifs at h with hi
      cases h
      exact .exitLast i hi.1 hpc hi.2
    · next retval hpc =>
      split_ifs at h with hi
      cases h
      exact .threadExitLast i retval hi hpc
    · cases h
  | wait i =>
    dsimp only at h
    split_ifs at h with hi
    cases h
    have hwaits : (s.pc i).waits := by rcases hi.2 with hpc | hpc <;> rw [hpc] <;> rfl
    have hplain := Pc.plain_of_waits hwaits
    have hrefs := Pc.refs_of_waits hwaits
    have hfs := Pc.inFs_of_waits hwaits
    cases hw : s.waitFor i with
    | some p => exact .reap i p hi.1 hwaits hw
    | none =>
      have hf : ∀ q, s.frees (.wait i) q = false := by
        intro q
        simp [State.frees, hw]
      unfold State.wait
      rw [hw]
      dsimp only
      split_ifs
      · exact .of_setPc hf (.refl s) (.refl s)
          (moves_setPc rfl hi.1 hplain rfl nofun fun _ => Or.inl hfs) hrefs.symm rfl
      · refine .of_setPc hf (State.quiet_setProc ?_) (sameFiles_setProc rfl rfl)
          (moves_setPc rfl hi.1 hplain rfl nofun fun _ => Or.inl hfs) hrefs.symm rfl
        refine ⟨?_, rfl, rfl, rfl, rfl, rfl, rfl, rfl, rfl⟩
        unfold Proc.phase
        rw [hi.1]
  | threadJoin i thread =>
    dsimp only at h
    split_ifs at h with hi
    cases h
    have hwaits : (s.pc i).waits := by rcases hi.2 with hpc | hpc <;> rw [hpc] <;> rfl
    have hplain := Pc.plain_of_waits hwaits
    have hrefs := Pc.refs_of_waits hwaits
    have hfs := Pc.inFs_of_waits hwaits
    unfold State.threadJoin
    cases hj : s.joinFor thread with
    | some p => exact .join i p thread hi.1 hwaits hj
    | none =>
      have hf : ∀ q, s.frees (.threadJoin i thread) q = false := by
        intro q
        simp [State.frees, hj]
      dsimp only
      split_ifs
      · exact .of_setPc hf (.refl s) (.refl s)
          (moves_setPc rfl hi.1 hplain rfl nofun fun _ => Or.inl hfs) hrefs.symm rfl
      · refine .of_setPc hf (State.quiet_setProc ?_) (sameFiles_setProc rfl rfl)
          (moves_setPc rfl hi.1 hplain rfl nofun fun _ => Or.inl hfs) hrefs.symm rfl
        refine ⟨?_, rfl, rfl, rfl, rfl, rfl, rfl, rfl, rfl⟩
        unfold Proc.phase
        rw [hi.1]
  | exec i pd =>
    dsimp only at h
    split at h
    · next ip hpc =>
      split_ifs at h with hi
      cases h
      exact .exec i pd ip hi.1 hpc hi.2
    · cases h
  | execPut i =>
    dsimp only at h
    split at h
    · next pd ip hpc =>
      split_ifs at h with hi
      cases h
      have hq := (OnlyFiles.iput i s (some ip)).quiet
      refine .kept (fun _ => rfl) (hq.toKeeps.trans (State.keeps_setPc _ i _)) (fun q => ?_)
        (.put i pd ip hi hpc rfl) (.same hq.inOp hq.lock hq.outstanding)
      unfold State.execPut
      by_cases hqi : q = i
      · subst hqi
        exact Or.inr (Or.inr ⟨Proc.phase_alive hi, pd, ip, hpc, by rw [State.setPc_pc, if_pos rfl]⟩)
      · left
        rw [State.setPc_pc, if_neg hqi, hq.pc]
    · cases h
  | execBad i =>
    dsimp only at h
    split at h
    · next pd ip hpc =>
      split_ifs at h with hi
      cases h
      exact .execBad i pd (.load ip) hi hpc (Or.inl ⟨ip, rfl⟩)
    · next pd hpc =>
      split_ifs at h with hi
      cases h
      exact .execBad i pd .stack hi hpc (Or.inr rfl)
    · cases h
  | cleanforexec i =>
    dsimp only at h
    split at h
    · next pd hpc =>
      split_ifs at h with hi
      cases h
      exact .cleanforexec i pd hi.1 hpc hi.2.1 hi.2.2
    · cases h
  | execCommit i sz =>
    dsimp only at h
    split at h
    · next pd hpc =>
      split_ifs at h with hi
      obtain ⟨oldpgdir, hold, h⟩ := Option.map_eq_some_iff.mp h
      cases h
      exact .execCommit i pd sz oldpgdir hi.1 hpc hold
    · cases h
  | execFree i =>
    dsimp only at h
    split at h
    · next oldpgdir hpc =>
      split_ifs at h with hi
      cases h
      exact .execFree i oldpgdir hi hpc
    · cases h
  | growproc i n enough =>
    dsimp only at h
    split_ifs at h with hi
    exact growproc_effect h
  | setmemorylimit i pid limit =>
    dsimp only at h
    split_ifs at h with hi
    cases h
    unfold State.setmemorylimit
    split_ifs with h0
    · exact .of_refl fun _ => rfl
    · cases hp : (List.finRange NPROC).find? fun p => (s.proc p).pid = pid with
      | none => exact .of_refl fun _ => rfl
      | some p =>
        dsimp only
        split_ifs with hsz
        · exact .of_refl fun _ => rfl
        · exact .setmemorylimit i p pid limit (by omega) hp (by omega)
  | fsCall i =>
    dsimp only at h
    split_ifs at h with hi
    cases h
    have hm : Moves s (s.setPc i (.fs (.io []))) :=
      moves_setPc rfl hi.1 (by rw [hi.2]; rfl) rfl nofun nofun
    exact .of_setPc (fun _ => rfl) (.refl s) (.refl s) hm (by rw [hi.2]; rfl) rfl
  | fs i op =>
    dsimp only at h
    split at h
    · next st hpc =>
      split_ifs at h with hi
      obtain ⟨r, hr, h⟩ := Option.map_eq_some_iff.mp h
      cases h
      have hfiles : OnlyFiles i s r.1 := .fsNext hr
      exact .of_files (fun _ => rfl) hfiles
        (moves_setPc hfiles.quiet.pc hi (by rw [hpc]; rfl) rfl nofun nofun)
        (.fs i op st r.2 r.1 rfl hi hpc hr rfl)
    · cases h
  | fsReturn i =>
    dsimp only at h
    split at h
    · next hpc =>
      split_ifs at h with hi
      cases h
      have hm : Moves s (s.setPc i .user) :=
        moves_setPc rfl hi.1 (by rw [hpc]; rfl) rfl nofun fun _ => Or.inr hi.2
      exact .of_setPc (fun _ => rfl) (.refl s) (.refl s) hm (by rw [hpc]; rfl) rfl
    · cases h
  | beginOp i =>
    dsimp only at h
    split_ifs at h with hi
    cases h
    exact .of_log (fun _ => rfl) ⟨fun _ => .refl _, rfl, rfl, rfl, rfl, rfl⟩ rfl
      (sameFiles_of rfl rfl rfl) (.beginOp i hi.1 hi.2.1 rfl hi.2.2 rfl rfl rfl)
  | endOp i =>
    dsimp only at h
    split_ifs at h with hi
    cases h
    exact .of_log (fun _ => rfl) ⟨fun _ => .refl _, rfl, rfl, rfl, rfl, rfl⟩ rfl
      (sameFiles_of rfl rfl rfl) (.endOp i hi.1 hi.2.2 rfl rfl rfl)
  | acquiresleep i l =>
    dsimp only at h
    split_ifs at h with hi
    cases h
    exact .of_log (fun _ => rfl) ⟨fun _ => .refl _, rfl, rfl, rfl, rfl, rfl⟩ rfl
      (sameFiles_of rfl rfl rfl) (.acquire i l hi.1 hi.2.1 rfl rfl rfl rfl)
  | releasesleep i l =>
    dsimp only at h
    split_ifs at h with hi
    cases h
    exact .of_log (fun _ => rfl) ⟨fun _ => .refl _, rfl, rfl, rfl, rfl, rfl⟩ rfl
      (sameFiles_of rfl rfl rfl) (.release i l rfl rfl rfl)

end Xv6.Threads
