import Mathlib.Data.List.Basic
import Mathlib.Tactic.SplitIfs

/-!
# `struct log` (project3/log.c:34-66, 125-227)

The in-memory log and the pieces of `begin_op`, `end_op`, `log_write` and `sync`
that run under `log.lock`. There is one device, so `log.dev` is left out.
-/

namespace Xv6

/-- Upper bound on the blocks that one operation writes (param.h). -/
def MAXOPBLOCKS : Nat := 30

def LOGSIZE : Nat := MAXOPBLOCKS * 3

/-- `struct log`. `lh` holds the entries in use of `lh.block`, so that `lh.n` is
its length. -/
structure Log where
  start : Nat
  size : Int
  outstanding : Int
  committing : Bool
  lh : List Nat
  deriving DecidableEq, Repr

/-- Where the machine stops. -/
inductive LogPanic where
  | committing    -- "log.committing"
  | tooBig        -- "too big a transaction"
  | outsideTrans  -- "log_write outside of trans"
  | noBuffers     -- "bget: no buffers"
  deriving DecidableEq, Repr

namespace Log

variable (l : Log)

/-- The test of `begin_op` for log space. -/
def full : Prop := (LOGSIZE : Int) < l.lh.length + (l.outstanding + 1) * MAXOPBLOCKS

instance : Decidable l.full := inferInstanceAs (Decidable (_ < _))

/-- `begin_op` has to wait. -/
def blocked : Prop := l.committing = true ∨ l.full

instance : Decidable l.blocked := inferInstanceAs (Decidable (_ ∨ _))

-- The decrement in end_op().
def ended : Log := { l with outstanding := l.outstanding - 1 }

/-- What `end_op` does after the decrement. -/
inductive EndOp where
  | panic | wakeup | commit | leaveOpen
  deriving DecidableEq, Repr

def endOp : EndOp :=
  if l.committing then .panic
  else if 0 < l.outstanding then .wakeup
  else if LOGSIZE < l.lh.length + MAXOPBLOCKS then .commit
  else .leaveOpen

/-- The tests of `log_write`, made without the lock. -/
def writeCheck : Option LogPanic :=
  if LOGSIZE ≤ l.lh.length ∨ l.size - 1 ≤ l.lh.length then some .tooBig
  else if l.outstanding < 1 then some .outsideTrans
  else none

/-- The part of `log_write` under the lock: `i` runs to the entry of the block, or
past the last entry. -/
def absorb (b : Nat) : Log :=
  let i := l.lh.idxOf b
  if i = l.lh.length then { l with lh := l.lh ++ [b] } else { l with lh := l.lh.set i b }

theorem absorb_lh (b : Nat) :
    (l.absorb b).lh = if b ∈ l.lh then l.lh else l.lh ++ [b] := by
  by_cases h : b ∈ l.lh
  · have hlt : l.lh.idxOf b < l.lh.length := List.idxOf_lt_length_iff.mpr h
    have hne : l.lh.idxOf b ≠ l.lh.length := by omega
    simp only [absorb, if_neg hne, if_pos h]
    apply List.ext_getElem (List.length_set ..)
    intro j hj hj'
    rw [List.getElem_set]
    split_ifs with hij
    · subst hij
      exact (List.getElem_idxOf hlt).symm
    · rfl
  · have heq : l.lh.idxOf b = l.lh.length := List.idxOf_eq_length_iff.mpr h
    simp only [absorb, if_pos heq, if_neg h]

@[simp] theorem absorb_outstanding (b : Nat) : (l.absorb b).outstanding = l.outstanding := by
  simp only [absorb]
  split_ifs <;> rfl

@[simp] theorem absorb_committing (b : Nat) : (l.absorb b).committing = l.committing := by
  simp only [absorb]
  split_ifs <;> rfl

theorem length_absorb (b : Nat) : l.lh.length ≤ (l.absorb b).lh.length := by
  rw [absorb_lh]
  split_ifs
  · exact Nat.le_refl _
  · simp

end Log

/-- `initlog`: the log is empty after `recover_from_log`. -/
def initlog (start : Nat) (size : Int) : Log := ⟨start, size, 0, false, []⟩

end Xv6
