import Mathlib.Logic.Function.Basic
import Xv6.Lib.Transition
import Xv6.Log.Record

/-!
# Operations and syncs of many processes (project3/log.c:125-246)

The processes of any type `P` run `begin_op`, `log_write`, `end_op` and `sync`
side by side. A step of a process goes to the next point at which it can be
preempted or sleep: the parts under `log.lock` are one step each, and so is every
round of the loops of `commit`, which read `log.lh` without the lock. What
`commit` copies is left to the disk model.
-/

namespace Xv6.Protocol

/-- The stages of `commit`. -/
inductive Stage where
  | enter
  | writeLog (tail : Nat)
  | writeHead
  | installTrans (tail : Nat)
  | reset
  | clearHead
  deriving DecidableEq, Repr

/-- Where a process is. In `sync`, `ret` is the value `n` read on entry for a
`sync` system call, and `none` for the call that `end_op` makes. -/
inductive Pc where
  | user
  | beginOp
  | sleeping
  | op
  | logWrite (b : Nat)
  | sync (ret : Option Nat)
  | commit (ret : Option Nat) (stage : Stage)
  | finish (ret : Option Nat)
  deriving DecidableEq, Repr

structure State (P : Type*) where
  log : Log
  pc : P → Pc
  panic : Option LogPanic

inductive Action (P : Type*) where
  | beginOp (p : P)
  | logWrite (p : P) (b : Nat)
  | endOp (p : P)
  | sync (p : P)
  | kill (p : P)
  | run (p : P)
  deriving Repr

/-- After `initlog`, nobody has called anything. -/
def init (P : Type*) (start : Nat) (size : Int) : State P :=
  ⟨initlog start size, fun _ => .user, none⟩

namespace State

variable {P : Type*}

/-- `wakeup(&log)`: a woken process takes `log.lock` again and repeats its tests. -/
def wakeup (s : State P) : State P :=
  { s with pc := fun p => if s.pc p = .sleeping then .beginOp else s.pc p }

@[simp] theorem wakeup_log (s : State P) : s.wakeup.log = s.log := rfl
@[simp] theorem wakeup_panic (s : State P) : s.wakeup.panic = s.panic := rfl

theorem wakeup_pc (s : State P) (p : P) :
    s.wakeup.pc p = if s.pc p = .sleeping then .beginOp else s.pc p := rfl

/-- A test that does not tell a woken process from a sleeping one. -/
theorem wakeup_keeps {f : Pc → Bool} (hf : f .sleeping = f .beginOp) (s : State P) (p : P) :
    f (s.wakeup.pc p) = f (s.pc p) := by
  rw [wakeup_pc]
  split_ifs with h
  · rw [h, hf]
  · rfl

variable [DecidableEq P]

def setPc (s : State P) (p : P) (k : Pc) : State P :=
  { s with pc := Function.update s.pc p k }

-- One round of the while(1) loop of begin_op().
def enterOp (s : State P) (p : P) : State P :=
  if s.log.blocked then s.setPc p .sleeping
  else { s with log := { s.log with outstanding := s.log.outstanding + 1 } }.setPc p .op

def logWrite (s : State P) (p : P) (b : Nat) : State P :=
  match s.log.writeCheck with
  | some e => { s with panic := some e }
  | none => s.setPc p (.logWrite b)

def endOp (s : State P) (p : P) : State P :=
  let s := { s with log := s.log.ended }
  match s.log.endOp with
  | .panic => { s with panic := some .committing }
  | .wakeup => s.wakeup.setPc p .user
  | .commit => s.setPc p (.sync none)
  | .leaveOpen => s.setPc p .user

def commit (s : State P) (p : P) (ret : Option Nat) : Stage → State P
  | .enter =>
    if 0 < s.log.lh.length then s.setPc p (.commit ret (.writeLog 0)) else s.setPc p (.finish ret)
  | .writeLog tail =>
    if tail < s.log.lh.length then s.setPc p (.commit ret (.writeLog (tail + 1)))
    else s.setPc p (.commit ret .writeHead)
  | .writeHead => s.setPc p (.commit ret (.installTrans 0))
  | .installTrans tail =>
    if tail < s.log.lh.length then s.setPc p (.commit ret (.installTrans (tail + 1)))
    else s.setPc p (.commit ret .reset)
  | .reset => { s with log := { s.log with lh := [] } }.setPc p (.commit ret .clearHead)
  | .clearHead => s.setPc p (.finish ret)

def finish (s : State P) (p : P) : State P :=
  { s with log := { s.log with committing := false } }.wakeup.setPc p .user

/-- The next step of a process inside one of the calls. -/
def run (s : State P) (p : P) : Option (State P) :=
  match s.pc p with
  | .beginOp => some (s.enterOp p)
  | .logWrite b => some ({ s with log := s.log.absorb b }.setPc p .op)
  | .sync ret =>
    some ({ s with log := { s.log with committing := true } }.setPc p (.commit ret .enter))
  | .commit ret stage => some (s.commit p ret stage)
  | .finish _ => some (s.finish p)
  | _ => none

end State

variable {P : Type*} [DecidableEq P]

/-- After a panic nothing runs any more. -/
def step (s : State P) (a : Action P) : Option (State P) :=
  if s.panic.isSome then none
  else
    match a with
    | .beginOp p => if s.pc p = .user then some (s.setPc p .beginOp) else none
    | .logWrite p b => if s.pc p = .op then some (s.logWrite p b) else none
    | .endOp p => if s.pc p = .op then some (s.endOp p) else none
    | .sync p => if s.pc p = .user then some (s.setPc p (.sync (some s.log.lh.length))) else none
    | .kill p => if s.pc p = .sleeping then some (s.setPc p .beginOp) else none
    | .run p => s.run p

/-! ### Kinds of places -/

namespace Pc

/-- Between `begin_op` and `end_op`. -/
def inOp : Pc → Bool
  | .op | .logWrite _ => true
  | _ => false

/-- Inside `commit`. -/
def inCommit : Pc → Bool
  | .commit _ _ => true
  | _ => false

/-- `log.committing` is set by this process and not yet cleared. -/
def holds : Pc → Bool
  | .commit _ _ | .finish _ => true
  | _ => false

/-- From the decision of `end_op`, or from the setting of `log.committing` in a
`sync` system call, to its clearing. -/
def pending : Pc → Bool
  | .sync none | .commit _ _ | .finish _ => true
  | _ => false

end Pc

namespace State

@[simp] theorem setPc_pc (s : State P) (p q : P) (k : Pc) :
    (s.setPc p k).pc q = if q = p then k else s.pc q := by
  simp only [setPc, Function.update_apply]

@[simp] theorem setPc_log (s : State P) (p : P) (k : Pc) : (s.setPc p k).log = s.log := rfl
@[simp] theorem setPc_panic (s : State P) (p : P) (k : Pc) : (s.setPc p k).panic = s.panic := rfl

end State

/-! ### What a step can do -/

/-- The steps of a process that only move it on. -/
inductive Quiet : Pc → Pc → Prop where
  | beginOp : Quiet .user .beginOp
  | sync (n : Nat) : Quiet .user (.sync (some n))
  | kill : Quiet .sleeping .beginOp
  | logWrite (b : Nat) : Quiet .op (.logWrite b)
  | commit (ret : Option Nat) (st st' : Stage) : Quiet (.commit ret st) (.commit ret st')
  | finish (ret : Option Nat) (st : Stage) : Quiet (.commit ret st) (.finish ret)

theorem Quiet.keeps {k k' : Pc} (h : Quiet k k') :
    k'.inOp = k.inOp ∧ k'.pending = k.pending ∧ k'.holds = k.holds ∧ k' ≠ .sync none ∧
      k' ≠ .sleeping := by
  cases h <;> exact ⟨rfl, rfl, rfl, by simp, by simp⟩

/-- Every step, with the guard under which it is taken. -/
inductive Effect (s : State P) : Action P → State P → Prop where
  | quiet {a : Action P} (p : P) (k : Pc) (h : Quiet (s.pc p) k) : Effect s a (s.setPc p k)
  | panicWrite {a : Action P} (p : P) (e : LogPanic) (h : s.pc p = .op)
      (he : s.log.writeCheck = some e) : Effect s a { s with panic := some e }
  | sleep (p : P) (h : s.pc p = .beginOp) (hb : s.log.blocked) :
      Effect s (.run p) (s.setPc p .sleeping)
  | admission (p : P) (h : s.pc p = .beginOp) (hb : ¬ s.log.blocked) : Effect s (.run p)
      ({ s with log := { s.log with outstanding := s.log.outstanding + 1 } }.setPc p .op)
  | absorb (p : P) (b : Nat) (h : s.pc p = .logWrite b) : Effect s (.run p)
      ({ s with log := s.log.absorb b }.setPc p .op)
  | endOp (p : P) (h : s.pc p = .op) : Effect s (.endOp p) (s.endOp p)
  | lock (p : P) (ret : Option Nat) (h : s.pc p = .sync ret) : Effect s (.run p)
      ({ s with log := { s.log with committing := true } }.setPc p (.commit ret .enter))
  | reset (p : P) (ret : Option Nat) (h : s.pc p = .commit ret .reset) : Effect s (.run p)
      ({ s with log := { s.log with lh := [] } }.setPc p (.commit ret .clearHead))
  | unlock (p : P) (ret : Option Nat) (h : s.pc p = .finish ret) :
      Effect s (.run p) (s.finish p)

theorem State.commit_effect (s : State P) (p : P) (ret : Option Nat) (st : Stage)
    (h : s.pc p = .commit ret st) : Effect s (.run p) (s.commit p ret st) := by
  have hq : ∀ k, Quiet (.commit ret st) k → Effect s (.run p) (s.setPc p k) :=
    fun k hk => .quiet p k (by rw [h]; exact hk)
  cases st with
  | enter =>
    simp only [State.commit]
    split_ifs
    · exact hq _ (.commit ret _ _)
    · exact hq _ (.finish ret _)
  | writeLog tail =>
    simp only [State.commit]
    split_ifs
    · exact hq _ (.commit ret _ _)
    · exact hq _ (.commit ret _ _)
  | writeHead => exact hq _ (.commit ret _ _)
  | installTrans tail =>
    simp only [State.commit]
    split_ifs
    · exact hq _ (.commit ret _ _)
    · exact hq _ (.commit ret _ _)
  | reset => exact .reset p ret h
  | clearHead => exact hq _ (.finish ret _)

theorem step_effect {s t : State P} {a : Action P} (h : step s a = some t) :
    s.panic = none ∧ Effect s a t := by
  unfold step at h
  split_ifs at h with hp
  have hp' : s.panic = none := by
    cases hs : s.panic with
    | none => rfl
    | some e => simp [hs] at hp
  refine ⟨hp', ?_⟩
  cases a with
  | beginOp p =>
    dsimp only at h
    split_ifs at h with hpc
    cases h
    exact .quiet p _ (by rw [hpc]; exact .beginOp)
  | logWrite p b =>
    dsimp only at h
    split_ifs at h with hpc
    cases h
    unfold State.logWrite
    cases hw : s.log.writeCheck with
    | some e => exact .panicWrite p e hpc hw
    | none => exact .quiet p _ (by rw [hpc]; exact .logWrite b)
  | endOp p =>
    dsimp only at h
    split_ifs at h with hpc
    cases h
    exact .endOp p hpc
  | sync p =>
    dsimp only at h
    split_ifs at h with hpc
    cases h
    exact .quiet p _ (by rw [hpc]; exact .sync _)
  | kill p =>
    dsimp only at h
    split_ifs at h with hpc
    cases h
    exact .quiet p _ (by rw [hpc]; exact .kill)
  | run p =>
    dsimp only [State.run] at h
    split at h
    · next hpc =>
      cases h
      unfold State.enterOp
      split_ifs with hb
      · exact .sleep p hpc hb
      · exact .admission p hpc hb
    · next b hpc =>
      cases h
      exact .absorb p b hpc
    · next ret hpc =>
      cases h
      exact .lock p ret hpc
    · next ret st hpc =>
      cases h
      exact s.commit_effect p ret st hpc
    · next ret hpc =>
      cases h
      exact .unlock p ret hpc
    · cases h

/-! ### Single steps -/

section Step

variable {s : State P} {p : P} {ret : Option Nat} {st : Stage}

theorem step_beginOp (hn : s.panic = none) (hp : s.pc p = .user) :
    Protocol.step s (.beginOp p) = some (s.setPc p .beginOp) := by
  have hno : ¬ s.panic.isSome := by simp [hn]
  unfold step
  rw [if_neg hno]
  exact if_pos hp

theorem step_endOp (hn : s.panic = none) (hp : s.pc p = .op) :
    Protocol.step s (.endOp p) = some (s.endOp p) := by
  have hno : ¬ s.panic.isSome := by simp [hn]
  unfold step
  rw [if_neg hno]
  exact if_pos hp

theorem step_logWrite {b : Nat} (hn : s.panic = none) (hp : s.pc p = .op)
    (hcheck : s.log.writeCheck = none) :
    Protocol.step s (.logWrite p b) = some (s.setPc p (.logWrite b)) := by
  have hno : ¬ s.panic.isSome := by simp [hn]
  have hset : s.logWrite p b = s.setPc p (.logWrite b) := by
    unfold State.logWrite
    rw [hcheck]
  unfold step
  rw [if_neg hno]
  dsimp only
  rw [if_pos hp, hset]

theorem run_beginOp (hn : s.panic = none) (hp : s.pc p = .beginOp) :
    Protocol.step s (.run p) = some (s.enterOp p) := by
  have hno : ¬ s.panic.isSome := by simp [hn]
  unfold step
  rw [if_neg hno]
  unfold State.run
  dsimp only
  rw [hp]

theorem run_logWrite {b : Nat} (hn : s.panic = none) (hp : s.pc p = .logWrite b) :
    Protocol.step s (.run p) = some ({ s with log := s.log.absorb b }.setPc p .op) := by
  have hno : ¬ s.panic.isSome := by simp [hn]
  unfold step
  rw [if_neg hno]
  unfold State.run
  dsimp only
  rw [hp]

theorem run_commit (hn : s.panic = none) (hp : s.pc p = .commit ret st) :
    Protocol.step s (.run p) = some (s.commit p ret st) := by
  have hno : ¬ s.panic.isSome := by simp [hn]
  unfold step
  rw [if_neg hno]
  unfold State.run
  dsimp only
  rw [hp]

end Step

end Xv6.Protocol
