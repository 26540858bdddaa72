import Xv6.Mlfq.QueueLaw

/-!
# Who holds the scheduler lock (project1/proc.c:580-661)

`ptable.lockproc` is set by `schedulerLock` and cleared by `schedulerUnlock`,
`priorityboosting` and `exit`. The first two look at the holder; `exit` does not.
-/

namespace Xv6.Mlfq

open Transition

/-- The process that runs `exit` in the action: by itself, after it was killed, or
for a wrong password. -/
def exiting : Action → Option Slot
  | .exit i => some i
  | .schedulerLock i password => if password ≠ PASSWORD then some i else none
  | .schedulerUnlock i password => if password ≠ PASSWORD then some i else none
  | _ => none

/-- The events that take the lock from its holder `q`. -/
def Releases (s : State) (q : Slot) (a : Action) : Prop :=
  a = .schedulerUnlock q PASSWORD ∨ exiting a = some q ∨ a = .tick ∧ (s.mlfqticks + 1) % 100 = 0

instance (s : State) (q : Slot) (a : Action) : Decidable (Releases s q a) :=
  inferInstanceAs (Decidable (_ ∨ _ ∨ _))

/-- No other process than `q` exits, and none that has the pid of `q` calls
`schedulerUnlock`. -/
def OthersKeep (s : State) (q : Slot) (a : Action) : Prop :=
  (∀ i, exiting a = some i → i = q) ∧
    ∀ i, a = .schedulerUnlock i PASSWORD → i ≠ q → (s.proc i).pid ≠ (s.proc q).pid

instance (s : State) (q : Slot) (a : Action) : Decidable (OthersKeep s q a) :=
  inferInstanceAs (Decidable (_ ∧ _))

namespace State

/-! ### The functions that leave the lock alone -/

variable (s : State)

@[simp] theorem setPc_lockproc (p : Slot) (k : Pc) : (s.setPc p k).lockproc = s.lockproc := rfl
@[simp] theorem ready_lockproc (p : Slot) : (s.ready p).lockproc = s.lockproc := rfl

theorem wakeup1_lockproc (chan : Option Chan) : (s.wakeup1 chan).lockproc = s.lockproc := by
  refine foldl_keeps (P := fun t => t.lockproc = s.lockproc) ?_ _ s rfl
  intro t p ht
  split_ifs
  · exact ht
  · exact ht

theorem allocproc_lockproc (i : Slot) : (s.allocproc i).lockproc = s.lockproc := by
  unfold allocproc
  split
  · rfl
  · rfl

theorem wait_lockproc (i : Slot) : (s.wait i).lockproc = s.lockproc := by
  unfold wait
  dsimp only
  split
  · rfl
  · split_ifs
    · rfl
    · rfl

theorem yield_lockproc (p : Slot) : (s.yield p).lockproc = s.lockproc := by
  unfold yield
  split
  · split_ifs
    · rfl
    · rfl
  · rfl

theorem kill_lockproc (pid : Int) : (s.kill pid).lockproc = s.lockproc := by
  unfold kill
  split
  · rfl
  · dsimp only
    split_ifs
    · rfl
    · rfl

theorem setPriority_lockproc (pid priority : Int) :
    (s.setPriority pid priority).lockproc = s.lockproc := by
  unfold setPriority
  split_ifs
  · rfl
  · split
    · rfl
    · rfl

theorem mlfqscheduler_lockproc {t : State} (h : s.mlfqscheduler = some t) :
    t.lockproc = s.lockproc := by
  obtain ⟨p, -, rfl⟩ := Option.map_eq_some_iff.mp h
  simp only [account, take]
  split_ifs <;> rfl

/-! ### The functions that clear it -/

theorem exit_lockproc {i : Slot} {t : State} (h : s.exit i = some t) : t.lockproc = none := by
  unfold exit at h
  split_ifs at h
  cases h
  rfl

theorem schedulerUnlock_lockproc {i q : Slot} {t : State} (hq : s.lockproc = some q)
    (h : s.schedulerUnlock i PASSWORD = some t) :
    t.lockproc = if (s.proc i).pid = (s.proc q).pid then none else some q := by
  unfold schedulerUnlock at h
  rw [if_neg fun hne => hne rfl, hq] at h
  dsimp only at h
  split_ifs at h with hpid
  · cases h
    rw [if_neg (Ne.symm hpid), hq]
  · cases h
    rw [if_pos (not_not.mp hpid).symm]
    rfl

theorem tick_lockproc : s.tick.lockproc =
    if (s.mlfqticks + 1) % 100 = 0 then none else s.lockproc := by
  simp only [tick]
  split_ifs with h0
  · show (boostLockproc (boostQueues _)).lockproc = none
    unfold boostLockproc
    split
    · assumption
    · rfl
  · rfl

end State

/-! ### One step -/

theorem exiting_lockproc {s t : State} {a : Action} {i : Slot} (hi : exiting a = some i)
    (hs : step s a = some t) : t.lockproc = none := by
  cases a with
  | exit j =>
    simp only [step] at hs
    split_ifs at hs
    exact State.exit_lockproc _ hs
  | schedulerLock j password =>
    simp only [exiting] at hi
    simp only [step] at hs
    split_ifs at hi hs with hpw
    unfold State.schedulerLock at hs
    rw [if_pos hpw] at hs
    exact State.exit_lockproc _ hs
  | schedulerUnlock j password =>
    simp only [exiting] at hi
    simp only [step] at hs
    split_ifs at hi hs with hpw
    unfold State.schedulerUnlock at hs
    rw [if_pos hpw] at hs
    exact State.exit_lockproc _ hs
  | _ => cases hi

/-- The actions other than an exit, an unlock and a tick leave the lock with `q`. -/
theorem step_lockproc {s t : State} {a : Action} {q : Slot} (hq : s.lockproc = some q)
    (he : exiting a = none) (hu : ∀ i, a ≠ .schedulerUnlock i PASSWORD) (htick : a ≠ .tick)
    (hs : step s a = some t) : t.lockproc = some q := by
  rw [← hq]
  cases a with
  | allocproc i =>
    simp only [step] at hs
    split_ifs at hs
    cases hs
    exact s.allocproc_lockproc i
  | forkFail i =>
    simp only [step] at hs
    split at hs
    · split_ifs at hs
      cases hs
      rfl
    · cases hs
  | fork i =>
    simp only [step] at hs
    split at hs
    · split_ifs at hs
      cases hs
      rfl
    · cases hs
  | exit i => cases he
  | wait i =>
    simp only [step] at hs
    split_ifs at hs
    cases hs
    exact s.wait_lockproc i
  | yield i =>
    simp only [step] at hs
    split_ifs at hs
    cases hs
    exact s.yield_lockproc i
  | sleep i chan =>
    simp only [step] at hs
    split_ifs at hs
    cases hs
    rfl
  | wakeup chan =>
    simp only [step, Option.some.injEq] at hs
    subst hs
    exact s.wakeup1_lockproc _
  | kill pid =>
    cases hs
    exact s.kill_lockproc pid
  | setPriority pid priority =>
    cases hs
    exact s.setPriority_lockproc pid priority
  | schedulerLock i password =>
    simp only [exiting] at he
    simp only [step] at hs
    split_ifs at he hs with hpw
    unfold State.schedulerLock at hs
    rw [if_neg hpw, hq] at hs
    cases hs
    rfl
  | resetTicks i =>
    simp only [step] at hs
    split_ifs at hs
    cases hs
    rfl
  | schedulerUnlock i password =>
    simp only [exiting] at he
    split_ifs at he with hpw
    exact absurd (congrArg (Action.schedulerUnlock i) (not_not.mp hpw)) (hu i)
  | tick => exact absurd rfl htick
  | mlfqscheduler => exact s.mlfqscheduler_lockproc hs

/-- A step keeps the lock with `q` exactly when it is none of the events that
release it and no other process interferes. -/
theorem step_lockproc_iff {s t : State} {a : Action} {q : Slot} (hq : s.lockproc = some q)
    (hs : step s a = some t) :
    t.lockproc = some q ↔ ¬ Releases s q a ∧ OthersKeep s q a := by
  by_cases he : exiting a = none
  · by_cases hu : ∃ i, a = .schedulerUnlock i PASSWORD
    · obtain ⟨i, rfl⟩ := hu
      simp only [step] at hs
      split_ifs at hs
      have ht := s.schedulerUnlock_lockproc hq hs
      constructor
      · intro hkeep
        have hpid : (s.proc i).pid ≠ (s.proc q).pid := by
          intro hpid
          rw [ht, if_pos hpid] at hkeep
          cases hkeep
        refine ⟨?_, ?_, ?_⟩
        · intro hr
          rcases hr with hr | hr | ⟨hr, -⟩
          · cases hr
            exact hpid rfl
          · rw [he] at hr
            cases hr
          · cases hr
        · intro j hj
          rw [he] at hj
          cases hj
        · intro j hj _
          cases hj
          exact hpid
      · rintro ⟨hr, -, hp⟩
        have hiq : i ≠ q := by
          intro hiq
          exact hr (Or.inl (by rw [hiq]))
        rw [ht, if_neg (hp i rfl hiq)]
    · push Not at hu
      by_cases htick : a = .tick
      · subst htick
        cases hs
        rw [s.tick_lockproc, hq]
        constructor
        · intro hkeep
          have h0 : (s.mlfqticks + 1) % 100 ≠ 0 := by
            intro h0
            rw [if_pos h0] at hkeep
            cases hkeep
          refine ⟨?_, ?_, ?_⟩
          · intro hr
            rcases hr with hr | hr | ⟨-, hr⟩
            · cases hr
            · cases hr
            · exact h0 hr
          · intro j hj
            cases hj
          · intro j hj
            cases hj
        · rintro ⟨hr, -⟩
          rw [if_neg fun h0 => hr (Or.inr (Or.inr ⟨rfl, h0⟩))]
      · have ht := step_lockproc hq he hu htick hs
        refine ⟨fun _ => ⟨?_, ?_, ?_⟩, fun _ => ht⟩
        · intro hr
          rcases hr with hr | hr | ⟨hr, -⟩
          · exact hu q hr
          · rw [he] at hr
            cases hr
          · exact htick hr
        · intro j hj
          rw [he] at hj
          cases hj
        · exact fun j hj => absurd hj (hu j)
  · obtain ⟨i, hi⟩ := Option.ne_none_iff_exists'.mp he
    rw [exiting_lockproc hi hs]
    constructor
    · intro hkeep
      cases hkeep
    · rintro ⟨hr, hex, -⟩
      have hiq := hex i hi
      subst hiq
      exact absurd (Or.inr (Or.inl hi)) hr

/-- Each of the three events leaves the lock free. -/
theorem lockproc_of_releases {s t : State} {a : Action} {q : Slot} (hq : s.lockproc = some q)
    (hr : Releases s q a) (hs : step s a = some t) : t.lockproc = none := by
  rcases hr with rfl | he | ⟨rfl, h0⟩
  · simp only [step] at hs
    split_ifs at hs
    rw [s.schedulerUnlock_lockproc hq hs, if_pos rfl]
  · exact exiting_lockproc he hs
  · cases hs
    rw [s.tick_lockproc, if_pos h0]

theorem schedulerLock_lockproc {s t : State} {q : Slot} (h0 : s.lockproc = none)
    (hs : step s (.schedulerLock q PASSWORD) = some t) : t.lockproc = some q := by
  simp only [step] at hs
  split_ifs at hs
  unfold State.schedulerLock at hs
  rw [if_neg fun hne => hne rfl, h0] at hs
  cases hs
  rfl

/-! ### Runs -/

/-- From the step in which `q` takes the lock, `lockproc` is `q` in every state of
a run without one of the three events in which no other process exits and none
with the pid of `q` unlocks; each of the three events then frees the lock. -/
theorem lockproc_of_reach {s t u : State} {q : Slot} (h0 : s.lockproc = none)
    (hl : step s (.schedulerLock q PASSWORD) = some t)
    (hr : Reach step (fun v a => ¬ Releases v q a ∧ OthersKeep v q a) t u) :
    u.lockproc = some q ∧
      ∀ a v, Releases u q a → step u a = some v → v.lockproc = none := by
  have hu : u.lockproc = some q := by
    refine hr.invariant (I := fun v => v.lockproc = some q) (schedulerLock_lockproc h0 hl) ?_
    intro v a w hv hok hs
    exact (step_lockproc_iff hv hs).mpr hok
  exact ⟨hu, fun a v hrel hs => lockproc_of_releases hu hrel hs⟩

/-- init creates two processes and sleeps, and the first of them runs. -/
def twoProcs : State :=
  (run step userinit [.mlfqscheduler, .allocproc 0, .fork 0, .allocproc 0, .fork 0,
    .sleep 0 (.other 0), .mlfqscheduler]).getD userinit

/-- It takes the lock, and sleeps while the other one is switched to. -/
def lockTaken : State := (step twoProcs (.schedulerLock 1 PASSWORD)).getD twoProcs

def holderAsleep : State :=
  (run step lockTaken [.resetTicks 1, .sleep 1 (.other 1), .mlfqscheduler]).getD lockTaken

theorem reachable_twoProcs : Reachable step userinit twoProcs :=
  reachable_of_run (eq_some_getD (by decide +kernel))

theorem step_twoProcs : step twoProcs (.schedulerLock 1 PASSWORD) = some lockTaken :=
  eq_some_getD (by decide +kernel)

theorem lockproc_of_reach_asleep : holderAsleep.lockproc = some 1 := by
  have h0 : twoProcs.lockproc = none := by decide +kernel
  have hr : Reach step (fun v a => ¬ Releases v 1 a ∧ OthersKeep v 1 a) lockTaken
      ((run (guarded step fun v a => ¬ Releases v 1 a ∧ OthersKeep v 1 a) lockTaken
        [.resetTicks 1, .sleep 1 (.other 1), .mlfqscheduler]).getD lockTaken) :=
    reach_of_guarded_run (eq_some_getD (by decide +kernel))
  exact (lockproc_of_reach h0 step_twoProcs hr).1

/-- While the holder sleeps the other process exits, and the lock is free. -/
theorem not_lockproc_of_reach :
    ¬ ∀ s t u q, Reachable step userinit s → s.lockproc = none →
      step s (.schedulerLock q PASSWORD) = some t →
      Reach step (fun v a => ¬ Releases v q a) t u → u.lockproc = some q := by
  intro hall
  have hrun : (run (guarded step fun v a => ¬ Releases v 1 a) lockTaken
      [.resetTicks 1, .sleep 1 (.other 1), .mlfqscheduler, .exit 2]).any
      (fun u => u.lockproc == none) = true := by decide +kernel
  obtain ⟨u, hu, hfree⟩ := (Option.any_eq_true _ _).mp hrun
  have hkept := hall twoProcs lockTaken u 1 reachable_twoProcs (by decide +kernel) step_twoProcs
    (reach_of_guarded_run hu)
  rw [beq_iff_eq.mp hfree] at hkept
  cases hkept

end Xv6.Mlfq
