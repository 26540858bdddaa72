import Xv6.Disk.Bcache
import Xv6.Lib.Transition
import Xv6.Lib.Wait

/-!
# Buffers and the disk among processes (project3/bio.c:38-141, ide.c:73-170, sleeplock.c)

Processes of any type `P` ask for blocks, change them and write them back. What a process does
under `bcache.lock`, `idelock` or the spinlock of a sleep lock is one step, and the disk works on
its own between two steps.
-/

namespace Xv6.Bio
open Disk Transition Wait

/-- Where a process is: between two calls, in `acquiresleep` for `bget`, at the test of `bread`,
in `iderw` before and after the request, or in `brelse` after `releasesleep`. -/
inductive Pc where
  | idle
  | acquiresleep (i : Fin NBUF)
  | bread (i : Fin NBUF)
  | iderw (i : Fin NBUF)
  | waiting (i : Fin NBUF)
  | brelse (i : Fin NBUF)
  deriving DecidableEq

/-- `&b->lock` and `b`. -/
inductive Chan where
  | lock (i : Fin NBUF)
  | buf (i : Fin NBUF)
  deriving DecidableEq

inductive Panic where
  | noBuffers         -- "bget: no buffers"
  | bufNotLocked      -- "iderw: buf not locked"
  | nothingToDo       -- "iderw: nothing to do"
  | incorrectBlockno  -- "incorrect blockno"
  deriving DecidableEq

/-- The disk: it has a command, with the data that `outsl` sent for a write, or it is done, with
the data for `insl` unless the command was a write or failed. -/
inductive Drive where
  | idle
  | busy (b : Nat) (w : Option Block)
  | ready (r : Option Block)

/-- `order` is the list of `bcache`, most recently used first; `holder` is `lock.pid` of the
buffers that are locked. The ghost `contents` has what was last put into each block. -/
structure State (P : Type*) where
  buf : Fin NBUF → Buf
  order : List (Fin NBUF)
  holder : Fin NBUF → Option P
  idequeue : List (Fin NBUF)
  drive : Drive
  disk : Nat → Block
  pc : P → Pc
  chan : P → Option Chan
  panic : Option Panic
  contents : Nat → Block

inductive Action (P : Type*) where
  | bread (p : P) (b : Nat)
  | run (p : P)
  | setData (p : P) (i : Fin NBUF) (v : Block)
  /-- `log_write` pins the buffer. -/
  | pin (p : P) (i : Fin NBUF)
  | bwrite (p : P) (i : Fin NBUF)
  | brelse (p : P) (i : Fin NBUF)
  | kill (p : P)
  /-- The disk is done with its command, or fails. -/
  | complete (ok : Bool)
  | ideintr

-- (b->flags & (B_VALID|B_DIRTY)) == B_VALID
def synced (r : Buf) : Bool := r.valid && !r.dirty

variable {P : Type*}

def binit (disk : Nat → Block) (blank : Block) : State P where
  buf := fun _ => ⟨none, false, false, 0, blank⟩
  order := (List.finRange NBUF).reverse
  holder := fun _ => none
  idequeue := []
  drive := .idle
  disk := disk
  pc := fun _ => .idle
  chan := fun _ => none
  panic := none
  contents := disk

namespace State

def setBuf (s : State P) (i : Fin NBUF) (r : Buf) : State P :=
  { s with buf := Function.update s.buf i r }

def cached (s : State P) (b : Nat) : Option (Fin NBUF) :=
  s.order.find? fun i => (s.buf i).blockno = some b

def unused (s : State P) : Option (Fin NBUF) :=
  s.order.reverse.find? fun i => (s.buf i).refcnt = 0 ∧ (s.buf i).dirty = false

def idestart (s : State P) (i : Fin NBUF) : State P :=
  match (s.buf i).blockno with
  | none => s
  | some b =>
    if FSSIZE ≤ b then { s with panic := some .incorrectBlockno }
    else { s with drive := .busy b (if (s.buf i).dirty then some (s.buf i).data else none) }

/-- The request of the first buffer is done, and `q` is what remains of the queue. -/
def finish (s : State P) (i : Fin NBUF) (q : List (Fin NBUF)) (r : Option Block) : State P :=
  { s with
    idequeue := q
    drive := .idle
    chan := wakeup s.chan (.buf i) }.setBuf i { s.buf i with
      -- Read data if needed.
      data := if (s.buf i).dirty then (s.buf i).data else r.getD (s.buf i).data
      valid := true
      dirty := false }

/-- An interrupt comes when the disk is done. -/
def ideintr (s : State P) : Option (State P) :=
  match s.idequeue, s.drive with
  | [], _ => some s
  | [i], .ready r => some (s.finish i [] r)
  | i :: j :: q, .ready r => some ((s.finish i (j :: q) r).idestart j)
  | _ :: _, _ => none

/-- A write replaces the block, and the data of a read can be fetched. -/
def complete (s : State P) (ok : Bool) : Option (State P) :=
  match s.drive with
  | .busy b (some d) =>
    some { s with disk := if ok then Function.update s.disk b d else s.disk, drive := .ready none }
  | .busy b none => some { s with drive := .ready (if ok then some (s.disk b) else none) }
  | _ => none

variable [DecidableEq P]

def setPc (s : State P) (p : P) (k : Pc) : State P := { s with pc := Function.update s.pc p k }

def bget (s : State P) (p : P) (b : Nat) : State P :=
  match s.cached b with
  | some i =>
    (s.setBuf i { s.buf i with refcnt := (s.buf i).refcnt + 1 }).setPc p (.acquiresleep i)
  | none =>
    match s.unused with
    | some i =>
      (s.setBuf i { s.buf i with
        blockno := some b, valid := false, dirty := false, refcnt := 1 }).setPc p (.acquiresleep i)
    | none => { s with panic := some .noBuffers }

def acquiresleep (s : State P) (p : P) (i : Fin NBUF) : State P :=
  if s.holder i = none then
    { s with holder := Function.update s.holder i (some p) }.setPc p (.bread i)
  else { s with chan := sleep s.chan p (.lock i) }

/-- Wait for request to finish. -/
def wait (s : State P) (p : P) (i : Fin NBUF) : State P :=
  if synced (s.buf i) then s.setPc p .idle
  else { s with chan := sleep s.chan p (.buf i) }.setPc p (.waiting i)

def iderw (s : State P) (p : P) (i : Fin NBUF) : State P :=
  if s.holder i ≠ some p then { s with panic := some .bufNotLocked }
  else if synced (s.buf i) then { s with panic := some .nothingToDo }
  else
    -- Append b to idequeue.
    let t := { s with idequeue := s.idequeue ++ [i] }
    -- Start disk if necessary.
    (if s.idequeue = [] then t.idestart i else t).wait p i

/-- The end of `brelse`. -/
def release (s : State P) (p : P) (i : Fin NBUF) : State P :=
  let n := (s.buf i).refcnt - 1
  let t := (s.setBuf i { s.buf i with refcnt := n }).setPc p .idle
  if n = 0 then { t with order := i :: s.order.erase i } else t

def run (s : State P) (p : P) : Option (State P) :=
  match s.pc p with
  | .idle => none
  | .acquiresleep i => some (s.acquiresleep p i)
  | .bread i => some (s.setPc p (if (s.buf i).valid then .idle else .iderw i))
  | .iderw i => some (s.iderw p i)
  | .waiting i => some (s.wait p i)
  | .brelse i => some (s.release p i)

end State

variable [DecidableEq P]

/-- A process changes, writes and gives back the buffers that it has locked. -/
def next (s : State P) : Action P → Option (State P)
  | .bread p b => if s.pc p = .idle then some (s.bget p b) else none
  | .run p => if s.chan p = none then s.run p else none
  | .setData p i v =>
    if s.pc p = .idle ∧ s.holder i = some p then
      match (s.buf i).blockno with
      | none => none
      | some b => some ({ s with
          contents := Function.update s.contents b v }.setBuf i { s.buf i with data := v })
    else none
  | .pin p i =>
    if s.pc p = .idle ∧ s.holder i = some p then
      some (s.setBuf i { s.buf i with dirty := true })
    else none
  | .bwrite p i =>
    if s.pc p = .idle ∧ s.holder i = some p then
      some ((s.setBuf i { s.buf i with dirty := true }).setPc p (.iderw i))
    else none
  | .brelse p i =>
    if s.pc p = .idle ∧ s.holder i = some p then
      some ({ s with
        holder := Function.update s.holder i none
        chan := wakeup s.chan (.lock i) }.setPc p (.brelse i))
    else none
  | .kill p => some { s with chan := rouse s.chan p }
  | .complete ok => s.complete ok
  | .ideintr => s.ideintr

/-- A machine that has panicked does not go on. -/
def step (s : State P) (a : Action P) : Option (State P) :=
  if s.panic = none then next s a else none

end Xv6.Bio
