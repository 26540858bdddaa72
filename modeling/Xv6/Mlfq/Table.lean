import Mathlib.Data.List.FinRange
import Mathlib.Logic.Function.Basic
import Xv6.Mlfq.Queue

/-!
# The process table of project1 (project1/proc.h, project1/proc.c)

The part of `struct proc` and of `ptable` that the scheduler reads and writes,
and the functions of proc.c on it. Each function below is one critical section
under `ptable.lock`, apart from `setPriority` (proc.c:563-577), which takes no
lock: it looks for the pid and writes the one field `priority`, in one step here.
Other code outside the lock writes none of these fields: `getLevel` reads its
caller's own level, and `Pc` records the two places where a system call goes on
after a critical section.
-/

namespace Xv6.Mlfq

/-- `enum procstate` (proc.h). -/
inductive Procstate where
  | unused | embryo | sleeping | runnable | running | zombie
  deriving DecidableEq, Repr

/-- What a `void *chan` points to: a process table entry (`wait`), or any other
kernel object. -/
inductive Chan where
  | proc (p : Slot)
  | other (n : Nat)
  deriving DecidableEq, Repr

/-- Between two critical sections of one system call a process is not back in
user space: `fork` holds the slot that `allocproc` gave it, `wait` goes round
its loop again when it is woken, and `schedulerLock` has still to reset
`mlfqticks`. -/
inductive Pc where
  | user
  | fork (np : Slot)
  | wait
  | schedulerLock
  deriving DecidableEq, Repr

/-- `struct proc` (proc.h). -/
structure Proc where
  state : Procstate
  pid : Int
  parent : Option Slot
  chan : Option Chan
  killed : Bool
  priority : Int
  usedtime : Int
  level : Int
  deriving DecidableEq, Repr

/-- `ptable`, the globals `nextpid`, `initproc` and `mlfqticks`, and where each
process is in the kernel. `L` is indexed by C's `int`; only `L[0..2]` exist, and
`Inv.level` below shows that no other index is used. `dropped` is a ghost: it
records that some `enqueue` or `insertqueue` met a full queue and lost its
process. -/
structure State where
  proc : Slot → Proc
  L : Int → Queue
  lockproc : Option Slot
  initproc : Slot
  nextpid : Int
  mlfqticks : Nat
  pc : Slot → Pc
  dropped : Bool

/-- `PASSWORD` (param.h). -/
def PASSWORD : Int := 2021035487

/-- `nextpid++` on a 32-bit `int`. -/
def nextPid (n : Int) : Int := Int.bmod (n + 1) 4294967296

namespace State

/-! ### Access to one entry -/

/-- Writes fields of one table entry. -/
def setProc (s : State) (p : Slot) (f : Proc → Proc) : State :=
  { s with proc := Function.update s.proc p (f (s.proc p)) }

def setPc (s : State) (p : Slot) (k : Pc) : State :=
  { s with pc := Function.update s.pc p k }

def setL (s : State) (l : Int) (q : Queue) : State :=
  { s with L := Function.update s.L l q }

/-- The processes waiting in `L[l]`, front first. -/
def queued (s : State) (l : Int) : List Slot := (s.L l).toList

/-- `enqueue(&ptable.L[l], p)`. -/
def enqueue (s : State) (l : Int) (p : Slot) : State :=
  { s.setL l ((s.L l).enqueue p) with dropped := s.dropped || !decide ((s.L l).size < NPROC) }

/-- `insertqueue(&ptable.L[l], p)`. -/
def insertqueue (s : State) (l : Int) (p : Slot) : State :=
  { s.setL l ((s.L l).insertqueue p) with dropped := s.dropped || !decide ((s.L l).size < NPROC) }

/-- `p->state = RUNNABLE; enqueue(&ptable.L[p->level], p);`, which `userinit`,
`fork`, `yield`, `wakeup1` and `kill` share. -/
def ready (s : State) (p : Slot) : State :=
  (s.setProc p fun r => { r with state := .runnable }).enqueue (s.proc p).level p

/-! ### The functions of proc.c -/

/-- `allocproc` up to the allocation of the kernel stack; `i` is the caller, which
goes on with the slot. -/
def allocproc (s : State) (i : Slot) : State :=
  match (List.finRange NPROC).find? fun p => (s.proc p).state = .unused with
  | none => s
  | some np =>
    { (s.setProc np fun r =>
        { r with state := .embryo, pid := s.nextpid, priority := 3, usedtime := 0, level := 0 })
      with nextpid := nextPid s.nextpid }.setPc i (.fork np)

-- fork() when kalloc or copyuvm fails, and after copyuvm succeeded.
def forkFail (s : State) (i np : Slot) : State :=
  (s.setProc np fun r => { r with state := .unused }).setPc i .user

def fork (s : State) (i np : Slot) : State :=
  ((s.setProc np fun r => { r with parent := some i }).ready np).setPc i .user

def wakeup1 (s : State) (chan : Option Chan) : State :=
  (List.finRange NPROC).foldl
    (fun s p => if (s.proc p).state = .sleeping ∧ (s.proc p).chan = chan then s.ready p else s) s

-- The loop of exit() that passes abandoned children to init.
def reparent (s : State) (i : Slot) : State :=
  (List.finRange NPROC).foldl
    (fun s p =>
      if (s.proc p).parent = some i then
        let s := s.setProc p fun r => { r with parent := some s.initproc }
        if (s.proc p).state = .zombie then s.wakeup1 (some (.proc s.initproc)) else s
      else s) s

/-- `exit` once the files are closed; `none` is the panic of init exiting. -/
def exit (s : State) (i : Slot) : Option State :=
  if i = s.initproc then none
  else
    let s := s.wakeup1 ((s.proc i).parent.map .proc)
    let s := s.reparent i
    let s := s.setProc i fun r => { r with state := .zombie }
    some { s with lockproc := none }

-- One round of the for(;;) loop.
def wait (s : State) (i : Slot) : State :=
  let kids := (List.finRange NPROC).filter fun p => (s.proc p).parent = some i
  match kids.find? fun p => (s.proc p).state = .zombie with
  | some p =>
    (s.setProc p fun r =>
      { r with pid := 0, parent := none, killed := false, state := .unused }).setPc i .user
  | none =>
    if kids = [] ∨ (s.proc i).killed then s.setPc i .user
    else (s.setProc i fun r => { r with chan := some (.proc i), state := .sleeping }).setPc i .wait

def yield (s : State) (p : Slot) : State :=
  match s.lockproc with
  | some q => if (s.proc q).pid = (s.proc p).pid then s else s.ready p
  | none => s.ready p

-- The p->chan = 0 on the way out is left to the next sleep: chan counts only in SLEEPING.
def sleep (s : State) (p : Slot) (chan : Chan) : State :=
  s.setProc p fun r => { r with chan := some chan, state := .sleeping }

def kill (s : State) (pid : Int) : State :=
  match (List.finRange NPROC).find? fun p => (s.proc p).pid = pid with
  | none => s
  | some p =>
    let s := s.setProc p fun r => { r with killed := true }
    if (s.proc p).state = .sleeping then s.ready p else s

def setPriority (s : State) (pid priority : Int) : State :=
  if priority < 0 ∨ 3 < priority then s
  else
    match (List.finRange NPROC).find? fun p => (s.proc p).pid = pid with
    | none => s
    | some p => s.setProc p fun r => { r with priority := priority }

/-- `schedulerLock` up to the release of `ptable.lock`. -/
def schedulerLock (s : State) (p : Slot) (password : Int) : Option State :=
  if password ≠ PASSWORD then s.exit p
  else
    match s.lockproc with
    | some _ => some s
    | none => some ({ s with lockproc := some p }.setPc p .schedulerLock)

/-- The second critical section of `schedulerLock`, under `mlfqtickslock`. -/
def resetTicks (s : State) (p : Slot) : State := { s with mlfqticks := 0 }.setPc p .user

def schedulerUnlock (s : State) (p : Slot) (password : Int) : Option State :=
  if password ≠ PASSWORD then s.exit p
  else
    match s.lockproc with
    | none => some s
    | some q =>
      if (s.proc q).pid ≠ (s.proc p).pid then some s
      else
        let s := { s with lockproc := none }
        let s := s.setProc p fun r =>
          { r with level := 0, usedtime := 0, priority := 3, state := .runnable }
        some (s.insertqueue 0 p)

-- p = the first entry of the first non-empty queue.
def firstReady (s : State) : Option Slot :=
  ([0, 1, 2] : List Int).findSome? fun i => if 0 < (s.L i).size then some (s.L i).front else none

-- Within L[2] the least priority value wins, the earliest entry among equals.
def choose (s : State) : Option Slot :=
  s.firstReady.map fun p =>
    if (s.proc p).level = 2 then
      (s.queued 2).tail.foldl
        (fun p q => if (s.proc q).priority < (s.proc p).priority then q else p) p
    else p

-- switchuvm(p), p->state = RUNNING and the removal of p from its queue.
def take (s : State) (p : Slot) : State :=
  let s := s.setProc p fun r => { r with state := .running }
  let l := (s.proc p).level
  if l = 2 then s.setL 2 ((s.L 2).remove (fun q => (s.proc q).pid) (s.proc p).pid)
  else s.setL l (s.L l).dequeue

-- The time quantum of p is charged on the switch to it.
def account (s : State) (p : Slot) : State :=
  let s := s.setProc p fun r => { r with usedtime := r.usedtime + 1 }
  let r := s.proc p
  if (s.L r.level).timequantum ≤ r.usedtime then
    if r.level < 2 then s.setProc p fun r => { r with usedtime := 0, level := r.level + 1 }
    else
      s.setProc p fun r =>
        { r with usedtime := 0, priority := if 0 < r.priority then r.priority - 1 else r.priority }
  else s

/-- One round of the loop that switches to a process; `none` when no queue has an
entry. -/
def mlfqscheduler (s : State) : Option State :=
  s.choose.map fun p => (s.take p).account p

-- The body of the inner loop of priorityboosting().
def boostOne (s : State) (i : Int) : State :=
  let p := (s.L i).front
  let s := s.setProc p fun r => { r with priority := 3, usedtime := 0, level := 0 }
  if 0 < i then (s.setL i (s.L i).dequeue).enqueue 0 p else s

/-- The inner loop of `priorityboosting`, `for(s = n; s < L[i].size; s++)`. The
size does not grow during the loop, so the size before it bounds the rounds. -/
def boostLoop (i : Int) : (rounds n : Nat) → State → State
  | 0, _, s => s
  | rounds + 1, n, s =>
    if n < (s.L i).size then boostLoop i rounds (n + 1) (s.boostOne i) else s

def boostQueue (s : State) (i : Int) : State := boostLoop i (s.L i).size 0 s

-- The end of priorityboosting(): the scheduler lock is taken away.
def boostLockproc (s : State) : State :=
  match s.lockproc with
  | none => s
  | some p =>
    { s with lockproc := none }.setProc p fun r => { r with level := 0, usedtime := 0, priority := 3 }

def priorityboosting (s : State) : State :=
  (((s.boostQueue 0).boostQueue 1).boostQueue 2).boostLockproc

/-- The timer interrupt on CPU 0 (trap.c). `mlfqtickslock` is held from the
count to the end of the boosting; the `wakeup(&ticks)` that follows is an action
of its own. -/
def tick (s : State) : State :=
  let s := { s with mlfqticks := (s.mlfqticks + 1) % 100 }
  if s.mlfqticks = 0 then s.priorityboosting else s

end State

/-- The table entry of a slot that was never used. -/
def Proc.zero : Proc := ⟨.unused, 0, none, none, false, 0, 0, 0⟩

def pinit : State where
  proc := fun _ => Proc.zero
  L := fun i => ⟨Vector.replicate (NPROC + 1) 0, 0, 2 * i + 4, Nat.zero_le _⟩
  lockproc := none
  initproc := 0
  nextpid := 1
  mlfqticks := 0
  pc := fun _ => .user
  dropped := false

-- init is created in slot 0.
def userinit : State := ((pinit.allocproc 0).ready 0).setPc 0 .user

/-! ### Steps -/

/-- The critical sections, with the process that runs them. `wakeup`, `kill` and
`setPriority` can come from any process or interrupt handler. -/
inductive Action where
  | allocproc (i : Slot)
  | forkFail (i : Slot)
  | fork (i : Slot)
  | exit (i : Slot)
  | wait (i : Slot)
  | yield (i : Slot)
  | sleep (i : Slot) (chan : Chan)
  | wakeup (chan : Chan)
  | kill (pid : Int)
  | setPriority (pid priority : Int)
  | schedulerLock (i : Slot) (password : Int)
  | resetTicks (i : Slot)
  | schedulerUnlock (i : Slot) (password : Int)
  | tick
  | mlfqscheduler
  deriving DecidableEq, Repr

/-- A process acts only while it is RUNNING, and starts a system call only from
user space. `yield` also comes from the timer interrupt, anywhere in the
kernel. -/
def step (s : State) : Action → Option State
  | .allocproc i =>
    if (s.proc i).state = .running ∧ s.pc i = .user then some (s.allocproc i) else none
  | .forkFail i =>
    match s.pc i with
    | .fork np => if (s.proc i).state = .running then some (s.forkFail i np) else none
    | _ => none
  | .fork i =>
    match s.pc i with
    | .fork np => if (s.proc i).state = .running then some (s.fork i np) else none
    | _ => none
  | .exit i => if (s.proc i).state = .running ∧ s.pc i = .user then s.exit i else none
  | .wait i =>
    if (s.proc i).state = .running ∧ (s.pc i = .user ∨ s.pc i = .wait) then some (s.wait i)
    else none
  | .yield i => if (s.proc i).state = .running then some (s.yield i) else none
  | .sleep i chan =>
    if (s.proc i).state = .running ∧ s.pc i = .user then some (s.sleep i chan) else none
  | .wakeup chan => some (s.wakeup1 (some chan))
  | .kill pid => some (s.kill pid)
  | .setPriority pid priority => some (s.setPriority pid priority)
  | .schedulerLock i password =>
    if (s.proc i).state = .running ∧ s.pc i = .user then s.schedulerLock i password else none
  | .resetTicks i =>
    if (s.proc i).state = .running ∧ s.pc i = .schedulerLock then some (s.resetTicks i) else none
  | .schedulerUnlock i password =>
    if (s.proc i).state = .running ∧ s.pc i = .user then s.schedulerUnlock i password else none
  | .tick => some s.tick
  | .mlfqscheduler => s.mlfqscheduler

end Xv6.Mlfq
