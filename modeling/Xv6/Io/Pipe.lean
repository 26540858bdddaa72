import Mathlib.Algebra.BigOperators.Group.Finset.Basic
import Mathlib.Data.Fintype.Basic
import Xv6.Lib.ByteBuffer
import Xv6.Lib.Ring
import Xv6.Lib.Transition
import Xv6.Lib.Wait

/-!
# Pipes (project3/pipe.c:22-121, file.c:44-80)

Processes of any type `P` have descriptors of the two ends of a pipe, write to it and read from
it. What a process does under `p->lock` is one step; `kill` does not take that lock, and so a
process may have read `killed` before it was set.
-/

namespace Xv6.Pipes
open Buffer Transition Wait

def PIPESIZE : Nat := 512

instance : NeZero PIPESIZE := ⟨Nat.succ_ne_zero 511⟩

structure Pipe where
  data : Fin PIPESIZE → Byte
  /-- number of bytes read -/
  nread : BitVec 32
  /-- number of bytes written -/
  nwrite : BitVec 32
  /-- read fd is still open -/
  readopen : Bool
  /-- write fd is still open -/
  writeopen : Bool

/-- `&p->nread` and `&p->nwrite`. -/
inductive Chan where
  | nread
  | nwrite
  deriving DecidableEq

/-- The two files of a pipe. -/
inductive End where
  | read
  | write
  deriving DecidableEq

/-- Where a process is: in a call, with the variable `i` of `pipewrite`, or about to close an end
of which it had the last descriptor. -/
inductive Pc where
  | idle
  | pipewrite (addr : List Byte) (i : Nat)
  | piperead (n : Nat)
  | pipeclose (e : End)
  deriving DecidableEq

namespace Pipe

-- p->nwrite == p->nread + PIPESIZE
def full (p : Pipe) : Bool := p.nwrite == p.nread + BitVec.ofNat 32 PIPESIZE

-- p->nread == p->nwrite
def empty (p : Pipe) : Bool := p.nread == p.nwrite

-- p->data[p->nwrite++ % PIPESIZE] = addr[i];
def put (p : Pipe) (b : Byte) : Pipe :=
  { p with data := Function.update p.data (slot PIPESIZE p.nwrite) b, nwrite := p.nwrite + 1 }

/-- The loop of `pipewrite` up to a pipe that is full: how many bytes it stores. -/
def fill : Pipe → List Byte → Pipe × Nat
  | p, [] => (p, 0)
  | p, b :: bs =>
    if p.full then (p, 0)
    else
      let r := fill (p.put b) bs
      (r.1, r.2 + 1)

-- DOC: piperead-copy
def drain : Nat → Pipe → Pipe × List Byte
  | 0, p => (p, [])
  | n + 1, p =>
    if p.empty then (p, [])
    else
      let r := drain n { p with nread := p.nread + 1 }
      (r.1, p.data (slot PIPESIZE p.nread) :: r.2)

/-- The bytes that were written and not read. -/
def contents (p : Pipe) : List Byte := window p.data p.nread p.nwrite

/-- What a process that sleeps on the channel waits for. -/
def blocked (p : Pipe) : Chan → Prop
  | .nread => p.empty = true ∧ p.writeopen = true
  | .nwrite => p.full = true ∧ p.readopen = true

end Pipe

/-- Beside the pipe and its files: the value that the last call of a process returned, with what
`piperead` copied, what its earlier calls of `pipewrite` stored, and the bytes that came into the
pipe and went out of it so far. -/
structure State (P : Type*) where
  pipe : Pipe
  /-- `ref` of the two files. -/
  ref : End → Nat
  /-- How many times `kfree` was called for the page of the pipe. -/
  kfrees : Nat
  fds : P → End → Nat
  pc : P → Pc
  chan : P → Option Chan
  killed : P → Bool
  ret : P → Int
  copied : P → List Byte
  stored : P → List Byte
  sent : List (P × Byte)
  received : List Byte

inductive Action (P : Type*) where
  | write (p : P) (addr : List Byte)
  | read (p : P) (n : Nat)
  /-- What `p` reads of `killed` is `seen`. -/
  | run (p : P) (seen : Bool)
  | kill (p : P)
  | dup (p : P) (e : End)
  | fork (p c : P)
  | close (p : P) (e : End)
  deriving DecidableEq

variable {P : Type*} [DecidableEq P]

/-- After `pipealloc` the process `p` has both ends. -/
def pipealloc (p : P) (data : Fin PIPESIZE → Byte) : State P where
  pipe := ⟨data, 0, 0, true, true⟩
  ref := fun _ => 1
  kfrees := 0
  fds := fun q _ => if q = p then 1 else 0
  pc := fun _ => .idle
  chan := fun _ => none
  killed := fun _ => false
  ret := fun _ => 0
  copied := fun _ => []
  stored := fun _ => []
  sent := []
  received := []

namespace State

def setPc (s : State P) (p : P) (k : Pc) : State P := { s with pc := Function.update s.pc p k }

/-- The call of `p` returns `r`. -/
def done (s : State P) (p : P) (r : Int) (bs : List Byte) : State P :=
  { s with
    pc := Function.update s.pc p .idle
    ret := Function.update s.ret p r
    copied := Function.update s.copied p bs }

/-- A call of `pipewrite` is over. -/
def gone (s : State P) (p : P) (bs : List Byte) : State P :=
  { s with stored := Function.update s.stored p (s.stored p ++ bs) }

/-- `pipewrite` from its loop on, with `i` bytes written. -/
def pipewrite (s : State P) (p : P) (seen : Bool) (addr : List Byte) (i : Nat) : State P :=
  let r := s.pipe.fill (addr.drop i)
  let s := { s with
    pipe := r.1
    sent := s.sent ++ ((addr.drop i).take r.2).map fun b => (p, b) }
  if i + r.2 = addr.length then
    { s with chan := wakeup s.chan .nread }.gone p addr |>.done p addr.length []
  else if r.1.readopen = false ∨ seen = true then
    s.gone p (addr.take (i + r.2)) |>.done p (-1) []
  else
    { s with chan := sleep (wakeup s.chan .nread) p .nwrite }.setPc p (.pipewrite addr (i + r.2))

def piperead (s : State P) (p : P) (seen : Bool) (n : Nat) : State P :=
  if s.pipe.empty = true ∧ s.pipe.writeopen = true then
    if seen then s.done p (-1) []
    else { s with chan := sleep s.chan p .nread }
  else
    let r := s.pipe.drain n
    { s with
      pipe := r.1
      received := s.received ++ r.2
      chan := wakeup s.chan .nwrite }.done p r.2.length r.2

def pipeclose (s : State P) (e : End) : State P :=
  let s := match e with
    | .write => { s with
        pipe := { s.pipe with writeopen := false }, chan := wakeup s.chan .nread }
    | .read => { s with
        pipe := { s.pipe with readopen := false }, chan := wakeup s.chan .nwrite }
  if s.pipe.readopen = false ∧ s.pipe.writeopen = false then { s with kfrees := s.kfrees + 1 }
  else s

/-- Another descriptor for the file. -/
def filedup (s : State P) (p : P) (e : End) : State P :=
  { s with
    ref := Function.update s.ref e (s.ref e + 1)
    fds := Function.update s.fds p (Function.update (s.fds p) e (s.fds p e + 1)) }

def fileclose (s : State P) (p : P) (e : End) : State P :=
  let s := { s with
    ref := Function.update s.ref e (s.ref e - 1)
    fds := Function.update s.fds p (Function.update (s.fds p) e (s.fds p e - 1)) }
  if 0 < s.ref e then s else s.setPc p (.pipeclose e)

/-- The child gets the descriptors of its parent. -/
def fork (s : State P) (p c : P) : State P :=
  { s with
    ref := fun e => s.ref e + s.fds p e
    fds := Function.update s.fds c (s.fds p)
    killed := Function.update s.killed c false }

def run (s : State P) (p : P) (seen : Bool) : Option (State P) :=
  match s.pc p with
  | .idle => none
  | .pipewrite addr i => some (s.pipewrite p seen addr i)
  | .piperead n => some (s.piperead p seen n)
  | .pipeclose e => some ((s.pipeclose e).setPc p .idle)

end State

/-- A call is made with a descriptor, by a process that was not killed when it entered the
kernel. A process that sleeps does not run. -/
def step (s : State P) : Action P → Option (State P)
  | .write p addr =>
    if s.pc p = .idle ∧ 0 < s.fds p .write ∧ s.killed p = false then
      some (s.setPc p (.pipewrite addr 0))
    else none
  | .read p n =>
    if s.pc p = .idle ∧ 0 < s.fds p .read ∧ s.killed p = false then
      some (s.setPc p (.piperead n))
    else none
  | .run p seen =>
    if s.chan p = none ∧ (seen = true → s.killed p = true) then s.run p seen else none
  | .kill p => some { s with killed := Function.update s.killed p true, chan := rouse s.chan p }
  | .dup p e => if s.pc p = .idle ∧ 0 < s.fds p e then some (s.filedup p e) else none
  | .fork p c =>
    if s.pc p = .idle ∧ s.pc c = .idle ∧ s.fds c .read = 0 ∧ s.fds c .write = 0 then some (s.fork p c) else none
  | .close p e => if s.pc p = .idle ∧ 0 < s.fds p e then some (s.fileclose p e) else none

end Xv6.Pipes
