import Mathlib.Data.Finset.Card
import Xv6.Log.Protocol

/-!
# Who waits in `begin_op` (project3/log.c:125-168)

A process sleeps in `begin_op` for a commit or for log space. Commits end with a
wakeup, and so does an `end_op` that leaves other operations running. An `end_op`
that leaves the transaction open frees its reservation without one.
-/

namespace Xv6.Protocol
open Xv6.Transition

variable {P : Type*}

/-- With no commit pending and room in the log, nobody sleeps in `begin_op`. -/
def NoLostWakeup (s : State P) : Prop :=
  s.log.committing = false → (∀ p, (s.pc p).pending = false) → ¬ s.log.full →
    ∀ p, s.pc p ≠ .sleeping

/-- The last `end_op`, where it leaves the transaction open and no commit is
pending, finds nobody asleep in `begin_op`. -/
def EndOpOk (s : State P) : Action P → Prop
  | .endOp _ => s.log.outstanding ≤ 1 → s.log.lh.length + MAXOPBLOCKS ≤ LOGSIZE →
      s.log.committing = false → (∀ q, (s.pc q).pending = false) → ∀ q, s.pc q ≠ .sleeping
  | _ => True

namespace NoLostWakeup

variable {s t : State P} {p : P}

theorem of_pending (h : (t.pc p).pending) : NoLostWakeup t := by
  intro _ hnone
  rw [hnone p] at h
  cases h

variable [DecidableEq P]

theorem of_pending_setPc {k : Pc} (hk : k.pending) : NoLostWakeup (s.setPc p k) := by
  refine of_pending (p := p) ?_
  rw [State.setPc_pc, if_pos rfl]
  exact hk

theorem of_wakeup {k : Pc} (hk : k ≠ .sleeping) : NoLostWakeup (s.wakeup.setPc p k) := by
  intro _ _ _ q
  rw [State.setPc_pc, State.wakeup_pc]
  split_ifs with hq hs
  · exact hk
  · exact Pc.noConfusion
  · exact hs

/-- A step of `p` to a place where it does not sleep, when log space only shrinks. -/
theorem move (h : NoLostWakeup s) {k : Pc} {l : Log} (hk : k ≠ .sleeping)
    (hpend : (s.pc p).pending = false) (hcom : l.committing = s.log.committing)
    (hfull : s.log.full → l.full) : NoLostWakeup ({ s with log := l }.setPc p k) := by
  intro hc hnone hroom q
  rw [State.setPc_pc]
  split_ifs with hq
  · exact hk
  · refine h (by rw [← hcom]; exact hc) (fun r => ?_) (fun hf => hroom (hfull hf)) q
    have hr := hnone r
    rw [State.setPc_pc] at hr
    split_ifs at hr with hrp
    · rw [hrp]
      exact hpend
    · exact hr

theorem full_of_le {l l' : Log} (hlen : l.lh.length ≤ l'.lh.length)
    (hout : l.outstanding ≤ l'.outstanding) (hf : l.full) : l'.full := by
  unfold Log.full MAXOPBLOCKS LOGSIZE at *
  omega

theorem endOp (hok : EndOpOk s (.endOp p)) (hp : s.pc p = .op) :
    NoLostWakeup (s.endOp p) := by
  simp only [State.endOp]
  cases he : s.log.ended.endOp with
  | panic =>
    intro hc
    unfold Log.endOp at he
    split_ifs at he with hcom
    rw [show s.log.ended.committing = false from hc] at hcom
    cases hcom
  | wakeup => exact of_wakeup Pc.noConfusion
  | commit => exact of_pending_setPc rfl
  | leaveOpen =>
    have hcase : s.log.outstanding ≤ 1 ∧ s.log.lh.length + MAXOPBLOCKS ≤ LOGSIZE := by
      unfold Log.endOp at he
      split_ifs at he with _ hout hlen
      have hout' : ¬ 0 < s.log.outstanding - 1 := hout
      have hlen' : ¬ LOGSIZE < s.log.lh.length + MAXOPBLOCKS := hlen
      omega
    intro hc hnone _ q
    have hnone' : ∀ r, (s.pc r).pending = false := by
      intro r
      have hr := hnone r
      rw [State.setPc_pc] at hr
      split_ifs at hr with hrp
      · rw [hrp, hp]
        rfl
      · exact hr
    rw [State.setPc_pc]
    split_ifs
    · exact Pc.noConfusion
    · exact hok hcase.1 hcase.2 hc hnone' q

theorem step (h : NoLostWakeup s) {a : Action P} (hok : EndOpOk s a)
    (hs : Protocol.step s a = some t) : NoLostWakeup t := by
  obtain ⟨hpanic, he⟩ := step_effect hs
  cases he with
  | quiet p k hq =>
    obtain ⟨-, hpend, -, -, hk⟩ := hq.keeps
    cases hb : (s.pc p).pending with
    | true => exact of_pending_setPc (hpend.trans hb)
    | false => exact h.move (l := s.log) hk hb rfl id
  | panicWrite p e hp he => exact h
  | sleep p hp hb =>
    intro hcom _ hroom
    rcases hb with hc | hf
    · rw [show s.log.committing = false from hcom] at hc
      cases hc
    · exact absurd hf hroom
  | admission p hp hb =>
    refine h.move (by simp) (by rw [hp]; rfl) rfl (full_of_le (Nat.le_refl _) ?_)
    show s.log.outstanding ≤ s.log.outstanding + 1
    omega
  | absorb p b hp =>
    exact h.move (by simp) (by rw [hp]; rfl) (s.log.absorb_committing b)
      (full_of_le (s.log.length_absorb b) (by simp))
  | endOp p hp => exact endOp hok hp
  | lock p ret hp => exact of_pending_setPc rfl
  | reset p ret hp => exact of_pending_setPc rfl
  | unlock p ret hp => exact of_wakeup Pc.noConfusion

end NoLostWakeup

variable [DecidableEq P]

/-- No wakeup is lost in a run in which no `end_op` leaves the transaction open
while a process waits for log space. -/
theorem noLostWakeup_of_reach {start : Nat} {size : Int} {s : State P}
    (hr : Reach step EndOpOk (init P start size) s) : NoLostWakeup s := by
  refine hr.invariant (fun _ _ _ p => ?_) fun _ _ _ h hok hs => h.step hok hs
  exact Pc.noConfusion

/-- The condition is exact: where it fails, the step itself loses the wakeup. -/
theorem not_noLostWakeup_of_endOp {s t : State P} {p : P} (ht : step s (.endOp p) = some t)
    (hbad : ¬ EndOpOk s (.endOp p)) : ¬ NoLostWakeup t := by
  have hcase : s.log.outstanding ≤ 1 ∧ s.log.lh.length + MAXOPBLOCKS ≤ LOGSIZE ∧
      s.log.committing = false ∧ (∀ q, (s.pc q).pending = false) ∧ ∃ q, s.pc q = .sleeping := by
    simp only [EndOpOk] at hbad
    push Not at hbad
    exact hbad
  obtain ⟨hout, hlen, hcom, hnone, q, hq⟩ := hcase
  simp only [step] at ht
  split_ifs at ht with hpanic hp
  have hend : s.log.ended.endOp = .leaveOpen := by
    have hout' : ¬ 0 < s.log.outstanding - 1 := by omega
    have hlen' : ¬ LOGSIZE < s.log.lh.length + MAXOPBLOCKS := by omega
    simp only [Log.endOp, Log.ended, hcom, hout', hlen', if_false, Bool.false_eq_true]
  have ht' : t = { s with log := s.log.ended }.setPc p .user := by
    rw [← Option.some.inj ht]
    simp only [State.endOp, hend]
  have hqp : q ≠ p := by
    rintro rfl
    rw [hp] at hq
    cases hq
  intro h
  subst ht'
  refine h hcom ?_ ?_ q ?_
  · intro r
    rw [State.setPc_pc]
    split_ifs
    · rfl
    · exact hnone r
  · show ¬ (LOGSIZE : Int) < s.log.lh.length + (s.log.outstanding - 1 + 1) * MAXOPBLOCKS
    unfold MAXOPBLOCKS LOGSIZE at *
    unfold MAXOPBLOCKS at *
    omega
  · rw [State.setPc_pc, if_neg hqp]
    exact hq

instance [Fintype P] (s : State P) (a : Action P) : Decidable (EndOpOk s a) :=
  match a with
  | .endOp _ => inferInstanceAs (Decidable (_ → _))
  | .beginOp _ | .logWrite _ _ | .sync _ | .kill _ | .run _ => .isTrue trivial

/-- One `log_write` of each block of `bs` by process `p`. -/
def writes (p : Bool) (bs : List Nat) : List (Action Bool) :=
  (bs.map fun b => [.logWrite p b, .run p]).flatten

/-- Two operations of 30 blocks each are over and a third one runs, so `begin_op` lets the other
process sleep. -/
def waiter : State Bool :=
  (run (guarded step EndOpOk) (init Bool 2 90)
    ([.beginOp false, .run false] ++ writes false (List.range 30) ++
      [.endOp false, .beginOp false, .run false] ++ writes false (List.range' 30 30) ++
      [.endOp false, .beginOp false, .run false] ++ writes false [60] ++
      [.beginOp true, .run true])).getD (init Bool 2 90)

/-- The third operation ends with a commit of its 61 blocks, and the other process is admitted. -/
def waiterAdmitted : State Bool :=
  (run (guarded step EndOpOk) waiter
    (.endOp false :: List.replicate 130 (.run false) ++ [.run true])).getD waiter

theorem noLostWakeup_of_admitted :
    waiter.pc true = .sleeping ∧ waiterAdmitted.pc true = .op ∧ NoLostWakeup waiterAdmitted := by
  have hasleep : Reach step EndOpOk (init Bool 2 90) waiter :=
    reach_of_guarded_run (eq_some_getD (by decide +kernel))
  have hawake : Reach step EndOpOk waiter waiterAdmitted :=
    reach_of_guarded_run (eq_some_getD (by decide +kernel))
  exact ⟨by decide +kernel, by decide +kernel, noLostWakeup_of_reach (hasleep.trans hawake)⟩

/-- Two operations of 20 blocks each, and another process that asks for admission
during the second one. -/
def waiterLeftAsleep : List (Action Bool) :=
  [.beginOp false, .run false] ++ writes false (List.range 20) ++ [.endOp false, .beginOp false, .run false] ++
    writes false (List.range' 20 20) ++ [.beginOp true, .run true, .endOp false]

theorem not_noLostWakeup_of_reachable :
    ¬ ∀ s, Reachable step (init Bool 2 90) s → NoLostWakeup s := by
  intro hall
  have hrun : (run step (init Bool 2 90) waiterLeftAsleep).any
      (fun s => !s.log.committing && !(s.pc false).pending && !(s.pc true).pending &&
        decide (¬ s.log.full) && s.pc true == .sleeping) = true := by decide +kernel
  obtain ⟨s, hs, hview⟩ := (Option.any_eq_true _ _).mp hrun
  simp only [Bool.and_eq_true, Bool.not_eq_true', beq_iff_eq, decide_eq_true_eq] at hview
  obtain ⟨⟨⟨⟨hcom, h0⟩, h1⟩, hroom⟩, hsleep⟩ := hview
  refine hall s (reachable_of_run hs) hcom ?_ hroom true hsleep
  intro p
  cases p with
  | false => exact h0
  | true => exact h1

end Xv6.Protocol
