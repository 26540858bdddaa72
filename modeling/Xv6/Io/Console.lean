import Xv6.Lib.ByteBuffer
import Xv6.Lib.Ring
import Xv6.Lib.Transition
import Xv6.Lib.Wait

/-!
# The console (project3/console.c:191-271)

`consoleintr` edits a line in a circular buffer, and `consoleread` takes finished lines out of it.
What either does under `cons.lock` is one step.
-/

namespace Xv6.Console
open Buffer Transition Wait

def INPUT_BUF : Nat := 128

instance : NeZero INPUT_BUF := ⟨Nat.succ_ne_zero 127⟩

def chr (c : Char) : Byte := BitVec.ofNat 8 c.toNat

/-- Control-x. -/
def C (x : Char) : Byte := chr x - chr '@'

structure Input where
  buf : Fin INPUT_BUF → Byte
  /-- Read index -/
  r : BitVec 32
  /-- Write index -/
  w : BitVec 32
  /-- Edit index -/
  e : BitVec 32

/-- What `consputc` is called with. -/
inductive Echo where
  | char (c : Byte)
  | BACKSPACE
  deriving DecidableEq

/-- `&input.r`. -/
inductive Chan where
  | r
  deriving DecidableEq

/-- The call in which a process is, with what `consoleread` has copied. -/
inductive Pc where
  | idle
  | consoleread (target : Nat) (dst : List Byte)
  deriving DecidableEq

/-- Beside the console: the value that the last call of a process returned and what it copied, and
the bytes that the read index has passed so far. -/
structure State (P : Type*) where
  input : Input
  out : List Echo
  pc : P → Pc
  chan : P → Option Chan
  killed : P → Bool
  ret : P → Int
  copied : P → List Byte
  taken : List Byte

inductive Action (P : Type*) where
  /-- What `getc` gives until it has no more. -/
  | intr (cs : List Byte)
  | read (p : P) (n : Nat)
  /-- What `p` reads of `killed` is `seen`. -/
  | run (p : P) (seen : Bool)
  | kill (p : P)
  deriving DecidableEq

namespace Input

-- input.buf[input.e++ % INPUT_BUF] = c;
def put (i : Input) (c : Byte) : Input :=
  { i with buf := Function.update i.buf (slot INPUT_BUF i.e) c, e := i.e + 1 }

def last (i : Input) : Byte := i.buf (slot INPUT_BUF (i.e - 1))

/-- How many characters are being edited. -/
def editing (i : Input) : Nat := (i.e - i.w).toNat

/-- The loop of `consoleread` with `n` bytes to go, up to an empty buffer or the end of the call:
what it has copied, and whether the buffer was empty. -/
def consoleread (target : Nat) : Nat → Input → List Byte → Input × List Byte × Bool
  | 0, i, dst => (i, dst, false)
  | n + 1, i, dst =>
    if i.r = i.w then (i, dst, true)
    else
      let c := i.buf (slot INPUT_BUF i.r)
      let i := { i with r := i.r + 1 }
      if c = C 'D' then  -- EOF
        -- Save ^D for next time
        (if n + 1 < target then { i with r := i.r - 1 } else i, dst, false)
      else if c = chr '\n' then (i, dst ++ [c], false)
      else consoleread target n i (dst ++ [c])

end Input

variable {P : Type*} [DecidableEq P]

def consoleinit (buf : Fin INPUT_BUF → Byte) : State P where
  input := ⟨buf, 0, 0, 0⟩
  out := []
  pc := fun _ => .idle
  chan := fun _ => none
  killed := fun _ => false
  ret := fun _ => 0
  copied := fun _ => []
  taken := []

namespace State

def erase (s : State P) : State P :=
  { s with input := { s.input with e := s.input.e - 1 }, out := s.out ++ [.BACKSPACE] }

/-- `Kill line`, at most `n` turns of the loop. -/
def killLine : Nat → State P → State P
  | 0, s => s
  | n + 1, s =>
    if s.input.e ≠ s.input.w ∧ s.input.last ≠ chr '\n' then killLine n s.erase else s

def store (s : State P) (c : Byte) : State P :=
  let s := { s with input := s.input.put c, out := s.out ++ [.char c] }
  if c = chr '\n' ∨ c = C 'D' ∨ s.input.e = s.input.r + BitVec.ofNat 32 INPUT_BUF then
    { s with input := { s.input with w := s.input.e }, chan := wakeup s.chan .r }
  else s

/-- The `switch` of `consoleintr`. -/
def key (s : State P) (c : Byte) : State P :=
  if c = C 'P' then s
  else if c = C 'U' then s.killLine s.input.editing
  else if c = C 'H' ∨ c = 127 then if s.input.e ≠ s.input.w then s.erase else s
  else if c ≠ 0 ∧ (s.input.e - s.input.r).toNat < INPUT_BUF then
    s.store (if c = chr '\r' then chr '\n' else c)
  else s

def consoleintr (s : State P) (cs : List Byte) : State P := cs.foldl key s

/-- The call of `p` returns `r`. -/
def done (s : State P) (p : P) (r : Int) (bs : List Byte) : State P :=
  { s with
    pc := Function.update s.pc p .idle
    ret := Function.update s.ret p r
    copied := Function.update s.copied p bs }

/-- `consoleread` from its loop on, with the bytes `dst` copied. -/
def consoleread (s : State P) (p : P) (seen : Bool) (target : Nat) (dst : List Byte) : State P :=
  let x := s.input.consoleread target (target - dst.length) dst
  let s := { s with
    input := x.1
    taken := s.taken ++ window s.input.buf s.input.r x.1.r }
  if x.2.2 then
    if seen then s.done p (-1) x.2.1
    else { s with
      chan := sleep s.chan p .r
      pc := Function.update s.pc p (.consoleread target x.2.1) }
  else s.done p x.2.1.length x.2.1

def run (s : State P) (p : P) (seen : Bool) : Option (State P) :=
  match s.pc p with
  | .idle => none
  | .consoleread target dst => some (s.consoleread p seen target dst)

end State

/-- A call is made by a process that was not killed when it entered the kernel. A process that
sleeps does not run. -/
def step (s : State P) : Action P → Option (State P)
  | .intr cs => some (s.consoleintr cs)
  | .read p n =>
    if s.pc p = .idle ∧ s.killed p = false then
      some { s with pc := Function.update s.pc p (.consoleread n []) }
    else none
  | .run p seen =>
    if s.chan p = none ∧ (seen = true → s.killed p = true) then s.run p seen else none
  | .kill p => some { s with killed := Function.update s.killed p true, chan := rouse s.chan p }

end Xv6.Console
