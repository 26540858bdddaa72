import Xv6.Mlfq.LockOwner

/-!
# What the steps leave of the ticks and of the accounting

Most critical sections touch neither `mlfqticks` nor the level, the time and the priority of a
process (`Calm`). `tooEarly_iff` is about the ticks that a fresh lock gets: `schedulerLock` sets
`mlfqticks` to 0 in a second critical section, and a tick may come before it.
-/

namespace Xv6.Mlfq
open Transition

/-- The fields of the accounting. -/
def Proc.charge (r : Proc) : Int × Int × Int := (r.level, r.usedtime, r.priority)

/-- The ticks, the accounting and the time quanta are as before, and nobody has locked. -/
structure Calm (s t : State) : Prop where
  ticks : t.mlfqticks = s.mlfqticks
  charge : ∀ p, (t.proc p).charge = (s.proc p).charge
  quantum : ∀ l, (t.L l).timequantum = (s.L l).timequantum
  lock : s.lockproc = none → t.lockproc = none

theorem Queue.enqueue_timequantum (q : Queue) (p : Slot) :
    (q.enqueue p).timequantum = q.timequantum := by
  unfold Queue.enqueue
  split_ifs <;> rfl

theorem Queue.dequeue_timequantum (q : Queue) : q.dequeue.timequantum = q.timequantum := by
  unfold Queue.dequeue
  split_ifs <;> rfl

theorem Queue.remove_timequantum (q : Queue) (pidOf : Slot → Int) (pid : Int) :
    (q.remove pidOf pid).timequantum = q.timequantum := by
  unfold Queue.remove
  dsimp only
  split_ifs <;> rfl

theorem Queue.insertqueue_timequantum (q : Queue) (p : Slot) :
    (q.insertqueue p).timequantum = q.timequantum := by
  unfold Queue.insertqueue
  split_ifs <;> rfl

theorem State.setL_timequantum (s : State) {m : Int} {k : Queue}
    (hk : k.timequantum = (s.L m).timequantum) (l : Int) :
    ((s.setL m k).L l).timequantum = (s.L l).timequantum := by
  show (Function.update s.L m k l).timequantum = _
  by_cases hl : l = m
  · rw [hl, Function.update_self]
    exact hk
  · rw [Function.update_of_ne hl]

theorem State.setProc_charge (s : State) (p q : Slot) (f : Proc → Proc) :
    ((s.setProc p f).proc q).charge = if q = p then (f (s.proc p)).charge else (s.proc q).charge := by
  by_cases hq : q = p
  · rw [hq, State.setProc_proc_self, if_pos rfl]
  · rw [State.setProc_proc_ne _ _ _ _ hq, if_neg hq]

namespace Calm

variable {s t u : State} {i p : Slot}

theorem refl (s : State) : Calm s s := ⟨rfl, fun _ => rfl, fun _ => rfl, id⟩

theorem trans (h : Calm s t) (h' : Calm t u) : Calm s u where
  ticks := h'.ticks.trans h.ticks
  charge p := (h'.charge p).trans (h.charge p)
  quantum l := (h'.quantum l).trans (h.quantum l)
  lock hs := h'.lock (h.lock hs)

theorem setPc (h : Calm s t) (i : Slot) (k : Pc) : Calm s (t.setPc i k) :=
  ⟨h.ticks, h.charge, h.quantum, h.lock⟩

theorem setProc (s : State) (p : Slot) {f : Proc → Proc} (hf : ∀ r, (f r).charge = r.charge) :
    Calm s (s.setProc p f) := by
  refine ⟨rfl, ?_, fun _ => rfl, id⟩
  intro q
  rw [State.setProc_charge]
  split_ifs with hq
  · rw [hf, hq]
  · rfl

theorem setState (s : State) (p : Slot) (x : Procstate) :
    Calm s (s.setProc p fun r => { r with state := x }) := setProc s p fun _ => rfl

theorem ready (s : State) (p : Slot) : Calm s (s.ready p) := by
  have h := setState s p .runnable
  refine ⟨h.ticks, h.charge, ?_, h.lock⟩
  intro l
  apply State.setL_timequantum
  exact Queue.enqueue_timequantum _ _

theorem wakeup1 (s : State) (chan : Option Chan) : Calm s (s.wakeup1 chan) := by
  apply State.foldl_keeps (P := fun t => Calm s t) _ _ s (refl s)
  intro t p ht
  split_ifs
  · exact ht.trans (ready t p)
  · exact ht

theorem reparent (s : State) (i : Slot) : Calm s (s.reparent i) := by
  apply State.foldl_keeps (P := fun t => Calm s t) _ _ s (refl s)
  intro t p ht
  have hset : Calm s (t.setProc p fun r => { r with parent := some t.initproc }) :=
    ht.trans (setProc t p fun _ => rfl)
  dsimp only
  split_ifs
  · exact hset.trans (wakeup1 _ _)
  · exact hset
  · exact ht

theorem unlock (h : Calm s t) : Calm s { t with lockproc := none } :=
  ⟨h.ticks, h.charge, h.quantum, fun _ => rfl⟩

theorem exit (h : s.exit i = some t) : Calm s t := by
  unfold State.exit at h
  split_ifs at h
  have heq := Option.some.inj h
  subst heq
  have h1 := wakeup1 s ((s.proc i).parent.map .proc)
  have h2 := h1.trans (reparent _ i)
  exact (h2.trans (setState _ i .zombie)).unlock

theorem wait (s : State) (i : Slot) : Calm s (s.wait i) := by
  unfold State.wait
  dsimp only
  split
  · apply setPc
    exact setProc s _ fun _ => rfl
  · split_ifs
    · exact (refl s).setPc i .user
    · apply setPc
      exact setProc s _ fun _ => rfl

theorem yield (s : State) (p : Slot) : Calm s (s.yield p) := by
  unfold State.yield
  split
  · split_ifs
    · exact refl s
    · exact ready s p
  · exact ready s p

theorem kill (s : State) (pid : Int) : Calm s (s.kill pid) := by
  unfold State.kill
  split
  · exact refl s
  · next p _ =>
    have hset : Calm s (s.setProc p fun r => { r with killed := true }) :=
      setProc s p fun _ => rfl
    dsimp only
    split_ifs
    · exact hset.trans (ready _ p)
    · exact hset

theorem fork (s : State) (i np : Slot) : Calm s (s.fork i np) := by
  have h1 : Calm s (s.setProc np fun r => { r with parent := some i }) :=
    setProc s np fun _ => rfl
  exact (h1.trans (ready _ np)).setPc i .user

theorem schedulerUnlock {password : Int} (hlock : s.lockproc = none)
    (h : s.schedulerUnlock i password = some t) : Calm s t := by
  unfold State.schedulerUnlock at h
  rw [hlock] at h
  split_ifs at h
  · exact exit h
  · cases h
    exact refl s

end Calm

/-- The actions that write to the ticks, the accounting or the lock. -/
def Charges : Action → Prop
  | .allocproc _ => True
  | .setPriority _ _ => True
  | .schedulerLock _ password => password = PASSWORD
  | .resetTicks _ => True
  | .schedulerUnlock _ _ => True
  | .tick => True
  | .mlfqscheduler => True
  | _ => False

theorem step_calm {s t : State} {a : Action} (ha : ¬ Charges a) (hs : step s a = some t) :
    Calm s t := by
  cases a with
  | allocproc i => exact absurd trivial ha
  | forkFail i =>
    simp only [step] at hs
    split at hs
    · split_ifs at hs
      cases hs
      exact (Calm.setState s _ .unused).setPc i .user
    · cases hs
  | fork i =>
    simp only [step] at hs
    split at hs
    · split_ifs at hs
      cases hs
      exact Calm.fork s i _
    · cases hs
  | exit i =>
    simp only [step] at hs
    split_ifs at hs
    exact Calm.exit hs
  | wait i =>
    simp only [step] at hs
    split_ifs at hs
    cases hs
    exact Calm.wait s i
  | yield i =>
    simp only [step] at hs
    split_ifs at hs
    cases hs
    exact Calm.yield s i
  | sleep i chan =>
    simp only [step] at hs
    split_ifs at hs
    cases hs
    exact Calm.setProc s i fun _ => rfl
  | wakeup chan =>
    simp only [step, Option.some.injEq] at hs
    subst hs
    exact Calm.wakeup1 s (some chan)
  | kill pid =>
    cases hs
    exact Calm.kill s pid
  | setPriority pid priority => exact absurd trivial ha
  | schedulerLock i password =>
    simp only [step] at hs
    split_ifs at hs
    unfold State.schedulerLock at hs
    have hpw : password ≠ PASSWORD := ha
    rw [if_pos hpw] at hs
    exact Calm.exit hs
  | resetTicks i => exact absurd trivial ha
  | schedulerUnlock i password => exact absurd trivial ha
  | tick => exact absurd trivial ha
  | mlfqscheduler => exact absurd trivial ha

/-! ### The ticks -/

namespace State

variable (s : State)

theorem boostQueue_ticks (i : Int) : (s.boostQueue i).mlfqticks = s.mlfqticks := by
  apply boostLoop_keeps (P := fun t => t.mlfqticks = s.mlfqticks) _ _ _ rfl
  intro t ht
  unfold boostOne
  dsimp only
  split_ifs
  · exact ht
  · exact ht

theorem tick_ticks : s.tick.mlfqticks = (s.mlfqticks + 1) % 100 := by
  unfold tick
  dsimp only
  split_ifs with hwrap
  · show (boostLockproc (boostQueues _)).mlfqticks = _
    have hqueues : ∀ t : State, t.boostQueues.mlfqticks = t.mlfqticks := by
      intro t
      unfold boostQueues
      rw [boostQueue_ticks, boostQueue_ticks, boostQueue_ticks]
    unfold boostLockproc
    split
    · exact hqueues _
    · exact hqueues _
  · rfl

end State

/-- Only the timer and `schedulerLock` write to `mlfqticks`. -/
theorem step_mlfqticks {s t : State} {a : Action} (htick : a ≠ .tick)
    (hreset : ∀ i, a ≠ .resetTicks i) (hs : step s a = some t) : t.mlfqticks = s.mlfqticks := by
  by_cases ha : Charges a
  · cases a with
    | allocproc i =>
      simp only [step] at hs
      split_ifs at hs
      cases hs
      unfold State.allocproc
      split
      · rfl
      · rfl
    | setPriority pid priority =>
      cases hs
      unfold State.setPriority
      split_ifs
      · rfl
      · split
        · rfl
        · rfl
    | schedulerLock i password =>
      simp only [step] at hs
      split_ifs at hs
      unfold State.schedulerLock at hs
      split_ifs at hs
      · exact (Calm.exit hs).ticks
      · split at hs
        · cases hs
          rfl
        · cases hs
          rfl
    | resetTicks i => exact absurd rfl (hreset i)
    | schedulerUnlock i password =>
      simp only [step] at hs
      split_ifs at hs
      unfold State.schedulerUnlock at hs
      split_ifs at hs
      · exact (Calm.exit hs).ticks
      · split at hs
        · cases hs
          rfl
        · split_ifs at hs
          · cases hs
            rfl
          · cases hs
            rfl
    | tick => exact absurd rfl htick
    | mlfqscheduler =>
      obtain ⟨p, -, rfl⟩ := Option.map_eq_some_iff.mp hs
      simp only [State.account, State.take]
      split_ifs <;> rfl
    | _ => exact absurd ha id
  · exact (step_calm ha hs).ticks

/-! ### A fresh lock -/

/-- The timer interrupts since the lock was taken, and whether the second critical section of a
`schedulerLock` has run since then. -/
structure Clock where
  sys : State
  count : Nat
  reset : Bool

namespace Clock

def step (c : Clock) (a : Action) : Option Clock :=
  (Mlfq.step c.sys a).map fun t => match a with
    | .tick => ⟨t, c.count + 1, c.reset⟩
    | .resetTicks _ => ⟨t, c.count, true⟩
    | _ => ⟨t, c.count, c.reset⟩

/-- While `q` holds the lock that it took at `start` ticks. -/
structure Runs (start : Nat) (q : Slot) (c : Clock) : Prop where
  bound : c.sys.mlfqticks < 100
  early : c.sys.lockproc = some q → c.reset = false → c.sys.mlfqticks = start + c.count
  late : c.sys.lockproc = some q → c.reset = true → c.sys.mlfqticks ≤ c.count

variable {start : Nat} {q : Slot} {c d : Clock} {a : Action}

theorem ticks_lt {s t : State} (h : s.mlfqticks < 100) (hs : Mlfq.step s a = some t) :
    t.mlfqticks < 100 := by
  by_cases htick : a = .tick
  · rw [htick] at hs
    have heq : t = s.tick := (Option.some.inj hs).symm
    rw [heq, s.tick_ticks]
    exact Nat.mod_lt _ (by decide)
  by_cases hreset : ∀ i, a ≠ .resetTicks i
  · rw [step_mlfqticks htick hreset hs]
    exact h
  · push Not at hreset
    obtain ⟨i, rfl⟩ := hreset
    simp only [Mlfq.step] at hs
    split_ifs at hs
    cases hs
    exact Nat.succ_pos 99

theorem Runs.step (h : Runs start q c) (hlock : c.sys.lockproc = some q)
    (hs : c.step a = some d) : Runs start q d := by
  obtain ⟨t, ht, rfl⟩ := Option.map_eq_some_iff.mp hs
  have hbound := ticks_lt h.bound ht
  have hsame : (∀ i, a ≠ .resetTicks i) → a ≠ .tick → t.mlfqticks = c.sys.mlfqticks :=
    fun hreset htick => step_mlfqticks htick hreset ht
  have hkeep : t.mlfqticks = c.sys.mlfqticks → Runs start q ⟨t, c.count, c.reset⟩ := by
    intro heq
    refine ⟨hbound, ?_, ?_⟩
    · intro _ hr
      rw [heq]
      exact h.early hlock hr
    · intro _ hr
      rw [heq]
      exact h.late hlock hr
  cases a with
  | tick =>
    have htick : t = c.sys.tick := (Option.some.inj ht).symm
    have hticks := c.sys.tick_ticks
    have hfree := c.sys.tick_lockproc
    rw [← htick] at hticks hfree
    have hlt := h.bound
    -- the tick that wraps takes the lock away
    have hwrap : t.lockproc = some q → (c.sys.mlfqticks + 1) % 100 ≠ 0 := by
      intro hq h0
      rw [if_pos h0, hq] at hfree
      cases hfree
    refine ⟨hbound, ?_, ?_⟩
    · intro hq hr
      have hne := hwrap hq
      have hold := h.early hlock hr
      show t.mlfqticks = start + (c.count + 1)
      rw [hticks]
      omega
    · intro hq hr
      have hold := h.late hlock hr
      show t.mlfqticks ≤ c.count + 1
      rw [hticks]
      omega
  | resetTicks i =>
    simp only [Mlfq.step] at ht
    split_ifs at ht
    cases ht
    refine ⟨hbound, ?_, ?_⟩
    · intro _ hr
      cases hr
    · intro _ _
      exact Nat.zero_le _
  | _ => exact hkeep (hsame (fun _ h => by cases h) fun h => by cases h)

end Clock

theorem ticks_lt_of_reach {s : State} (hr : Reachable step userinit s) : s.mlfqticks < 100 :=
  hr.invariant (by decide) fun _ _ _ hu _ hs => Clock.ticks_lt hu hs

/-- The boosting that takes a lock away comes after 100 ticks exactly if the ticks were reset
since the lock was taken, or started from 0. -/
theorem fullTime_iff {s t : State} {q : Slot} {c : Clock} (hs : Reachable step userinit s)
    (hlock : step s (.schedulerLock q PASSWORD) = some t)
    (hr : Reach Clock.step (fun c _ => c.sys.lockproc = some q) ⟨t, 0, false⟩ c)
    (hheld : c.sys.lockproc = some q) (hwrap : (c.sys.mlfqticks + 1) % 100 = 0) :
    100 ≤ c.count + 1 ↔ c.reset = true ∨ s.mlfqticks = 0 := by
  have hbound := ticks_lt_of_reach hs
  have hticks : t.mlfqticks = s.mlfqticks :=
    step_mlfqticks (fun h => by cases h) (fun _ h => by cases h) hlock
  have hstart : Clock.Runs s.mlfqticks q ⟨t, 0, false⟩ := by
    refine ⟨?_, ?_, ?_⟩
    · rw [hticks]
      exact hbound
    · intro _ _
      exact hticks
    · intro _ h
      cases h
  have hruns : Clock.Runs s.mlfqticks q c :=
    hr.invariant hstart fun _ _ _ hu hok hs => hu.step hok hs
  have hlt := hruns.bound
  cases hreset : c.reset with
  | true =>
    have hlate := hruns.late hheld hreset
    simp only [true_or, iff_true]
    omega
  | false =>
    have hearly := hruns.early hheld hreset
    simp only [Bool.false_eq_true, false_or]
    omega

/-- Init runs alone. -/
def initRuns : State := (run step userinit [.mlfqscheduler]).getD userinit

def initLocked : State := (step initRuns (.schedulerLock 0 PASSWORD)).getD initRuns

theorem reachable_initRuns : Reachable step userinit initRuns :=
  reachable_of_run (eq_some_getD (by decide +kernel))

theorem step_initRuns : step initRuns (.schedulerLock 0 PASSWORD) = some initLocked :=
  eq_some_getD (by decide +kernel)

theorem fullTime_iff_initRuns :
    ∃ c, run (guarded Clock.step fun c _ => c.sys.lockproc = some 0) ⟨initLocked, 0, false⟩
      (.resetTicks 0 :: List.replicate 99 .tick) = some c ∧
      (100 ≤ c.count + 1 ↔ c.reset = true ∨ initRuns.mlfqticks = 0) := by
  have hrun : (run (guarded Clock.step fun c _ => c.sys.lockproc = some 0) ⟨initLocked, 0, false⟩
      (.resetTicks 0 :: List.replicate 99 .tick)).any (fun c =>
        decide (c.sys.lockproc = some 0 ∧ (c.sys.mlfqticks + 1) % 100 = 0)) = true := by
    decide +kernel
  obtain ⟨c, hc, hview⟩ := (Option.any_eq_true _ _).mp hrun
  rw [decide_eq_true_eq] at hview
  exact ⟨c, hc, fullTime_iff reachable_initRuns step_initRuns
    (reach_of_guarded_run hc) hview.1 hview.2⟩

/-- A tick may come between the two critical sections of `schedulerLock`. -/
theorem not_fullTime :
    ¬ ∀ s t q c, Reachable step userinit s → s.lockproc = none →
      step s (.schedulerLock q PASSWORD) = some t →
      Reach Clock.step (fun c _ => c.sys.lockproc = some q) ⟨t, 0, false⟩ c →
      c.sys.lockproc = some q → (c.sys.mlfqticks + 1) % 100 = 0 → 100 ≤ c.count + 1 := by
  intro hall
  have hrun : (run step userinit (.mlfqscheduler :: List.replicate 99 .tick)).any (fun s =>
      decide (s.lockproc = none) && (step s (.schedulerLock 0 PASSWORD)).any fun t =>
        decide (t.lockproc = some 0 ∧ (t.mlfqticks + 1) % 100 = 0)) = true := by decide +kernel
  obtain ⟨s, hs, hview⟩ := (Option.any_eq_true _ _).mp hrun
  rw [Bool.and_eq_true, decide_eq_true_eq] at hview
  obtain ⟨t, ht, hlocked⟩ := (Option.any_eq_true _ _).mp hview.2
  rw [decide_eq_true_eq] at hlocked
  have hfull : 100 ≤ 0 + 1 := hall s t 0 ⟨t, 0, false⟩ (reachable_of_run hs) hview.1 ht (Reach.refl _)
    hlocked.1 hlocked.2
  exact absurd hfull (by decide)

end Xv6.Mlfq
