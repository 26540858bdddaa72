import Xv6.Mlfq.LockOrder

/-!
# Whether the lock holder goes first

Every step that `StaysFirst` permits leaves a RUNNABLE holder ahead, and with one
CPU a RUNNING holder is alone.
-/

namespace Xv6.Mlfq

open Transition

/-! ### Steps -/

/-- A holder of the lock that is RUNNABLE is the next process to run. -/
def First (s : State) : Prop := ∀ q, s.lockproc = some q → (s.proc q).state = .runnable → Ahead s q

section Steps

variable {s t u : State} {a : Action}

theorem First.of_sameOrder (h : First s) (hl : t.lockproc = s.lockproc) (ho : SameOrder s t)
    (hr : ∀ p, (t.proc p).state = .runnable → (s.proc p).state = .runnable) : First t := by
  intro q hq hqr
  rw [hl] at hq
  exact ho.ahead hr (h q hq (hr q hqr))

/-- A step that makes the processes of `readied` RUNNABLE, in table order. -/
theorem First.of_readied (h : First s) (hinv : Inv u) (hk : StaysFirst s a) (ho : SameOrder s u)
    (hstate : ∀ p, (u.proc p).state = (s.proc p).state)
    (hsorted : (s.readied a).Pairwise (· < ·))
    (hs : ∀ p ∈ s.readied a, (s.proc p).state ≠ .runnable ∧ (s.proc p).state ≠ .unused)
    (hl : t.lockproc = s.lockproc) (ht : SameOrder ((s.readied a).foldl State.ready u) t)
    (hr : ∀ p, (t.proc p).state = .runnable →
      (((s.readied a).foldl State.ready u).proc p).state = .runnable) : First t := by
  intro q hq hqr
  rw [hl] at hq
  have hkq := hk q hq
  refine ht.ahead hr (Ahead.readyAll hinv hsorted ?_ ?_ ?_ (hr q hqr))
  · intro p hp
    rw [hstate]
    exact hs p hp
  · intro hqu
    rw [hstate] at hqu
    refine ⟨ho.ahead (fun p hp => ?_) (h q hq hqu), ?_⟩
    · rw [hstate] at hp
      exact hp
    · intro p hp
      exact ho.behind.mpr (hkq.behind hqu p hp)
  · intro hqr
    obtain ⟨hout, hrest⟩ := hkq.joins (hs q hqr).1 hqr
    constructor
    · intro p hp
      rw [hstate] at hp
      exact ho.outranks.mpr (hout p hp)
    · intro p hp
      exact ⟨fun hlt => ho.outranks.mpr ((hrest p hp).1 hlt),
        fun hlt => ho.behind.mpr ((hrest p hp).2 hlt)⟩

theorem SameOrder.refl (s : State) : SameOrder s s := ⟨fun _ => rfl, fun _ => rfl, fun _ => rfl⟩

/-- `allocproc` resets the place of an UNUSED slot only. -/
theorem First.allocproc (h : First s) (i : Slot) : First (s.allocproc i) := by
  unfold State.allocproc
  cases hfind : (List.finRange NPROC).find? fun p => (s.proc p).state = .unused with
  | none => exact h
  | some np =>
    dsimp only
    intro q hq hqr p hpq hp
    have hne : ∀ r, ((s.setProc np fun r =>
        { r with state := .embryo, pid := s.nextpid, priority := 3, usedtime := 0, level := 0 }).proc
        r).state = .runnable → r ≠ np := by
      rintro r hr rfl
      rw [State.setProc_proc_self] at hr
      exact Procstate.noConfusion hr
    have hqn := hne q hqr
    have hpn := hne p hp
    simp only [State.setPc_proc, State.setProc_proc_ne _ _ _ _ hqn,
      State.setProc_proc_ne _ _ _ _ hpn] at hqr hp ⊢
    exact h q hq hqr p hpq hp

theorem First.fork (h : First s) (hg : Good s) {i np : Slot} (hi : s.pc i = .fork np)
    (hk : StaysFirst s (.fork i)) : First (s.fork i np) := by
  have hr : s.readied (.fork i) = [np] := by simp only [State.readied, hi]
  have he := hg.pcs.embryo i np hi
  refine h.of_readied (u := s.setProc np fun r => { r with parent := some i }) ?_ hk
    (SameOrder.setProc rfl rfl) ?_ ?_ ?_ rfl ?_ ?_
  · exact hg.inv.setProc_keep Iff.rfl rfl id fun _ => rfl
  · intro p
    by_cases hp : p = np
    · rw [hp, State.setProc_proc_self]
    · rw [State.setProc_proc_ne _ _ _ _ hp]
  · rw [hr]
    exact List.pairwise_singleton _ _
  · rw [hr]
    intro p hp
    rw [List.mem_singleton.mp hp, he]
    exact ⟨Procstate.noConfusion, Procstate.noConfusion⟩
  · rw [hr]
    exact ⟨fun _ => rfl, fun _ => rfl, fun _ => rfl⟩
  · rw [hr]
    exact fun p hp => hp

theorem First.yield (h : First s) (hg : Good s) {i : Slot} (hi : (s.proc i).state = .running)
    (hk : StaysFirst s (.yield i)) : First (s.yield i) := by
  by_cases hr : s.readied (.yield i) = []
  · have hy : s.yield i = s := by
      unfold State.readied at hr
      unfold State.yield
      cases hq : s.lockproc with
      | none =>
        rw [hq] at hr
        cases hr
      | some q =>
        rw [hq] at hr
        dsimp only at hr ⊢
        split_ifs at hr with hpid
        rw [if_pos hpid]
    rw [hy]
    exact h
  · have hy : s.readied (.yield i) = [i] ∧ s.yield i = s.ready i := by
      unfold State.readied at hr ⊢
      unfold State.yield
      cases hq : s.lockproc with
      | none => exact ⟨rfl, rfl⟩
      | some q =>
        rw [hq] at hr
        dsimp only at hr ⊢
        split_ifs at hr with hpid
        · exact absurd rfl hr
        · rw [if_neg hpid, if_neg hpid]
          exact ⟨rfl, rfl⟩
    rw [hy.2]
    refine h.of_readied hg.inv hk (SameOrder.refl s) (fun _ => rfl) ?_ ?_ rfl ?_ ?_
    · rw [hy.1]
      exact List.pairwise_singleton _ _
    · rw [hy.1]
      intro p hp
      rw [List.mem_singleton.mp hp, hi]
      exact ⟨Procstate.noConfusion, Procstate.noConfusion⟩
    · rw [hy.1]
      exact SameOrder.refl _
    · rw [hy.1]
      exact fun p hp => hp

theorem First.wakeup (h : First s) (hg : Good s) {chan : Chan}
    (hk : StaysFirst s (.wakeup chan)) : First (s.wakeup1 (some chan)) := by
  rw [wakeup1_eq]
  refine h.of_readied hg.inv hk (SameOrder.refl s) (fun _ => rfl) (sleepers_sorted s _) ?_ ?_
    (SameOrder.refl _) fun p hp => hp
  · intro p hp
    rw [sleeping_of_mem_sleepers hp]
    exact ⟨Procstate.noConfusion, Procstate.noConfusion⟩
  · rw [← wakeup1_eq, State.wakeup1_lockproc]

theorem First.kill (h : First s) (hg : Good s) {pid : Int} (hk : StaysFirst s (.kill pid)) :
    First (s.kill pid) := by
  unfold State.kill
  cases hfind : (List.finRange NPROC).find? fun p => (s.proc p).pid = pid with
  | none => exact h
  | some p =>
    have hsame : SameOrder s (s.setProc p fun r => { r with killed := true }) :=
      SameOrder.setProc rfl rfl
    have hstate : ∀ r, ((s.setProc p fun r => { r with killed := true }).proc r).state
        = (s.proc r).state := by
      intro r
      by_cases hr : r = p
      · rw [hr, State.setProc_proc_self]
      · rw [State.setProc_proc_ne _ _ _ _ hr]
    dsimp only
    rw [hstate]
    split_ifs with hs
    · have hr : s.readied (.kill pid) = [p] := by simp only [State.readied, hfind, if_pos hs]
      refine h.of_readied ?_ hk hsame hstate ?_ ?_ rfl ?_ ?_
      · exact hg.inv.setProc_keep Iff.rfl rfl id fun _ => rfl
      · rw [hr]
        exact List.pairwise_singleton _ _
      · rw [hr]
        intro r hr
        rw [List.mem_singleton.mp hr, hs]
        exact ⟨Procstate.noConfusion, Procstate.noConfusion⟩
      · rw [hr]
        exact SameOrder.refl _
      · rw [hr]
        exact fun r hr => hr
    · exact h.of_sameOrder rfl hsame fun r hr => by rwa [hstate] at hr

theorem First.setPriority (h : First s) {pid x : Int}
    (hk : StaysFirst s (.setPriority pid x)) : First (s.setPriority pid x) := by
  unfold State.setPriority
  split_ifs with hx
  · exact h
  · cases hfind : (List.finRange NPROC).find? fun p => (s.proc p).pid = pid with
    | none => exact h
    | some p =>
      dsimp only
      intro q hq hqr r hrq hrr
      have hfields : ∀ r, ((s.setProc p fun r => { r with priority := x }).proc r) =
          { s.proc r with priority := if r = p then x else (s.proc r).priority } := by
        intro r
        by_cases hr : r = p
        · rw [hr, State.setProc_proc_self, if_pos rfl]
        · rw [State.setProc_proc_ne _ _ _ _ hr, if_neg hr]
      simp only [hfields, Beats, State.setProc_queued] at hqr hrr ⊢
      rcases h q hq hqr r hrq hrr with hlt | ⟨heq, hrest⟩
      · exact Or.inl hlt
      · refine Or.inr ⟨heq, ?_⟩
        by_cases h2 : (s.proc q).level = 2
        · rw [if_pos h2]
          exact (hk q hq).place hqr (by omega) (by omega) h2 p hfind r hrq hrr (by rw [← heq, h2])
        · rw [if_neg h2] at hrest ⊢
          exact hrest

/-- The scheduler switches to the holder if that is RUNNABLE. -/
theorem First.mlfqscheduler (h : First s) (hg : Good s) (hs : s.mlfqscheduler = some t) :
    First t := by
  intro q hq hqr
  rw [s.mlfqscheduler_lockproc hs] at hq
  obtain ⟨p, hp, rfl⟩ := Option.map_eq_some_iff.mp hs
  have hstate : ∀ r, (((s.take p).account p).proc r).state = ((s.take p).proc r).state := by
    intro r
    simp only [State.account]
    by_cases hr : r = p
    · subst hr
      split_ifs <;> simp
    · split_ifs <;> simp [hr]
  rw [hstate] at hqr
  by_cases hqp : q = p
  · subst hqp
    rw [Inv.take_proc_self] at hqr
    exact Procstate.noConfusion hqr
  · rw [Inv.take_proc_ne s hqp] at hqr
    have hchoose := hg.inv.choose_of_ahead hqr (h q hq hqr)
    rw [hchoose] at hp
    exact absurd (Option.some.inj hp) hqp

theorem First.setPc (h : First s) (i : Slot) (k : Pc) : First (s.setPc i k) := h

/-- A process that goes to sleep or is reaped keeps its place in the order. -/
theorem First.setState (h : First s) {p : Slot} {f : Proc → Proc}
    (hlevel : (f (s.proc p)).level = (s.proc p).level)
    (hprio : (f (s.proc p)).priority = (s.proc p).priority)
    (hf : (f (s.proc p)).state ≠ .runnable) : First (s.setProc p f) := by
  refine h.of_sameOrder rfl (SameOrder.setProc hlevel hprio) ?_
  intro r hr
  by_cases hrp : r = p
  · subst hrp
    rw [State.setProc_proc_self] at hr
    exact absurd hr hf
  · rwa [State.setProc_proc_ne _ _ _ _ hrp] at hr

theorem First.wait (h : First s) (i : Slot) : First (s.wait i) := by
  unfold State.wait
  generalize List.finRange NPROC = ps
  dsimp only
  split
  · exact (h.setState rfl rfl Procstate.noConfusion).setPc i .user
  · split_ifs
    · exact h.setPc i .user
    · exact (h.setState rfl rfl Procstate.noConfusion).setPc i .wait

theorem first_step (h : First s) (hg : Good s) (hk : StaysFirst s a) (hs : step s a = some t) :
    First t := by
  cases a with
  | allocproc i =>
    simp only [step] at hs
    split_ifs at hs
    cases hs
    exact h.allocproc i
  | forkFail i =>
    simp only [step] at hs
    split at hs
    · split_ifs at hs
      cases hs
      exact (h.setState rfl rfl Procstate.noConfusion).setPc i .user
    · cases hs
  | fork i =>
    simp only [step] at hs
    split at hs
    · next np hi =>
      split_ifs at hs
      cases hs
      exact h.fork hg hi hk
    · cases hs
  | exit i =>
    intro q hq
    rw [exiting_lockproc rfl hs] at hq
    cases hq
  | wait i =>
    simp only [step] at hs
    split_ifs at hs
    cases hs
    exact h.wait i
  | yield i =>
    simp only [step] at hs
    split_ifs at hs with hi
    cases hs
    exact h.yield hg hi hk
  | sleep i chan =>
    simp only [step] at hs
    split_ifs at hs with hi
    cases hs
    exact h.setState rfl rfl Procstate.noConfusion
  | wakeup chan =>
    simp only [step, Option.some.injEq] at hs
    subst hs
    exact h.wakeup hg hk
  | kill pid =>
    cases hs
    exact h.kill hg hk
  | setPriority pid x =>
    cases hs
    exact h.setPriority hk
  | schedulerLock i password =>
    simp only [step] at hs
    split_ifs at hs with hi
    by_cases hpw : password = PASSWORD
    · unfold State.schedulerLock at hs
      rw [if_neg fun hne => hne hpw] at hs
      split at hs
      · cases hs
        exact h
      · cases hs
        -- the new holder is RUNNING
        intro q hq hqr
        cases hq
        rw [State.setPc_proc] at hqr
        exact Procstate.noConfusion (hi.1.symm.trans hqr)
    · intro q hq
      unfold State.schedulerLock at hs
      rw [if_pos hpw] at hs
      rw [State.exit_lockproc _ hs] at hq
      cases hq
  | resetTicks i =>
    simp only [step] at hs
    split_ifs at hs
    cases hs
    exact h.of_sameOrder rfl ⟨fun _ => rfl, fun _ => rfl, fun _ => rfl⟩ fun _ hp => hp
  | schedulerUnlock i password =>
    intro q hq
    simp only [step] at hs
    split_ifs at hs
    unfold State.schedulerUnlock at hs
    split_ifs at hs
    · rw [State.exit_lockproc _ hs] at hq
      cases hq
    · split at hs
      · next hfree =>
        cases hs
        rw [hfree] at hq
        cases hq
      · split_ifs at hs
        · cases hs
          exact h q hq
        · cases hs
          cases hq
  | tick =>
    cases hs
    by_cases h0 : (s.mlfqticks + 1) % 100 = 0
    · intro q hq
      rw [s.tick_lockproc, if_pos h0] at hq
      cases hq
    · have ht : s.tick = { s with mlfqticks := (s.mlfqticks + 1) % 100 } := by
        simp only [State.tick]
        rw [if_neg h0]
      rw [ht]
      exact h.of_sameOrder rfl ⟨fun _ => rfl, fun _ => rfl, fun _ => rfl⟩ fun _ hp => hp
  | mlfqscheduler => exact h.mlfqscheduler hg hs

end Steps

/-! ### One process on the CPU -/

/-- No process became RUNNING. -/
def NoNewRunning (s t : State) : Prop :=
  ∀ p, (t.proc p).state = .running → (s.proc p).state = .running

namespace NoNewRunning

variable {s t : State} {p i : Slot}

theorem setProc {f : Proc → Proc}
    (hf : (f (s.proc p)).state = .running → (s.proc p).state = .running) :
    NoNewRunning s (s.setProc p f) := by
  intro q hq
  by_cases hqp : q = p
  · subst hqp
    rw [State.setProc_proc_self] at hq
    exact hf hq
  · rwa [State.setProc_proc_ne _ _ _ _ hqp] at hq

theorem setPc (h : NoNewRunning s t) (k : Pc) : NoNewRunning s (t.setPc i k) := h

theorem ready (s : State) (p : Slot) : NoNewRunning s (s.ready p) := by
  intro q hq
  by_cases hqp : q = p
  · subst hqp
    rw [ready_proc_self] at hq
    exact Procstate.noConfusion hq
  · rwa [ready_proc_ne s hqp] at hq

theorem trans {u : State} (h : NoNewRunning s t) (h' : NoNewRunning t u) : NoNewRunning s u :=
  fun p hp => h p (h' p hp)

theorem wakeup1 (s : State) (chan : Option Chan) : NoNewRunning s (s.wakeup1 chan) := by
  refine State.foldl_keeps (P := fun t => NoNewRunning s t) ?_ _ s fun _ hp => hp
  intro t p ht
  split_ifs
  · exact ht.trans (ready t p)
  · exact ht

theorem reparent (s : State) (i : Slot) : NoNewRunning s (s.reparent i) := by
  refine State.foldl_keeps (P := fun t => NoNewRunning s t) ?_ _ s fun _ hp => hp
  intro t p ht
  split_ifs
  · have hp : NoNewRunning s (t.setProc p fun r => { r with parent := some t.initproc }) :=
      ht.trans (setProc id)
    dsimp only
    split_ifs
    · exact hp.trans (wakeup1 _ _)
    · exact hp
  · exact ht

theorem exit (h : s.exit i = some t) : NoNewRunning s t := by
  unfold State.exit at h
  split_ifs at h
  have hr := (wakeup1 s ((s.proc i).parent.map .proc)).trans (reparent _ i)
  dsimp only at h
  generalize (s.wakeup1 ((s.proc i).parent.map .proc)).reparent i = u at h hr
  cases h
  have hz : NoNewRunning u (u.setProc i fun r => { r with state := .zombie }) :=
    setProc fun hz => Procstate.noConfusion hz
  exact hr.trans hz

theorem priorityboosting (s : State) : NoNewRunning s s.priorityboosting := by
  have hq : NoNewRunning s s.boostQueues := by
    intro p hp
    rwa [State.boostQueues_state] at hp
  refine hq.trans ?_
  show NoNewRunning _ (State.boostLockproc _)
  unfold State.boostLockproc
  split
  · exact fun _ hp => hp
  · exact setProc id

theorem step {a : Action} (ha : a ≠ .mlfqscheduler) (hs : step s a = some t) :
    NoNewRunning s t := by
  have hkeep : NoNewRunning s s := fun _ hp => hp
  cases a with
  | allocproc i =>
    simp only [Mlfq.step] at hs
    split_ifs at hs
    cases hs
    unfold State.allocproc
    split
    · exact hkeep
    · next np _ =>
      have hz : NoNewRunning s (s.setProc np fun r =>
          { r with state := .embryo, pid := s.nextpid, priority := 3, usedtime := 0, level := 0 }) := by
        refine setProc ?_
        intro hz
        cases hz
      exact hz
  | forkFail i =>
    simp only [Mlfq.step] at hs
    split at hs
    · split_ifs at hs
      cases hs
      refine setPc (setProc ?_) _
      intro hz
      cases hz
    · cases hs
  | fork i =>
    simp only [Mlfq.step] at hs
    split at hs
    · split_ifs at hs
      cases hs
      exact trans (setProc id) (ready _ _)
    · cases hs
  | exit i =>
    simp only [Mlfq.step] at hs
    split_ifs at hs
    exact exit hs
  | wait i =>
    simp only [Mlfq.step] at hs
    split_ifs at hs
    cases hs
    unfold State.wait
    generalize List.finRange NPROC = ps
    dsimp only
    split
    · refine setPc (setProc ?_) _
      intro hz
      cases hz
    · split_ifs
      · exact hkeep
      · refine setPc (setProc ?_) _
        intro hz
        cases hz
  | yield i =>
    simp only [Mlfq.step] at hs
    split_ifs at hs
    cases hs
    unfold State.yield
    split
    · split_ifs
      · exact hkeep
      · exact ready s i
    · exact ready s i
  | sleep i chan =>
    simp only [Mlfq.step] at hs
    split_ifs at hs
    cases hs
    refine setProc ?_
    intro hz
    cases hz
  | wakeup chan =>
    simp only [Mlfq.step, Option.some.injEq] at hs
    subst hs
    exact wakeup1 s _
  | kill pid =>
    cases hs
    unfold State.kill
    split
    · exact hkeep
    · dsimp only
      split_ifs
      · exact trans (setProc id) (ready _ _)
      · exact setProc id
  | setPriority pid x =>
    cases hs
    unfold State.setPriority
    split_ifs
    · exact hkeep
    · split
      · exact hkeep
      · exact setProc id
  | schedulerLock i password =>
    simp only [Mlfq.step] at hs
    split_ifs at hs
    unfold State.schedulerLock at hs
    split_ifs at hs
    · exact exit hs
    · split at hs
      · cases hs
        exact hkeep
      · cases hs
        exact hkeep
  | resetTicks i =>
    simp only [Mlfq.step] at hs
    split_ifs at hs
    cases hs
    exact hkeep
  | schedulerUnlock i password =>
    simp only [Mlfq.step] at hs
    split_ifs at hs
    unfold State.schedulerUnlock at hs
    split_ifs at hs
    · exact exit hs
    · split at hs
      · cases hs
        exact hkeep
      · split_ifs at hs
        · cases hs
          exact hkeep
        · cases hs
          have hz : NoNewRunning s ({ s with lockproc := none }.setProc i fun r =>
              { r with level := 0, usedtime := 0, priority := 3, state := .runnable }) := by
            refine setProc (s := { s with lockproc := none }) ?_
            intro hz
            cases hz
          exact hz
  | tick =>
    cases hs
    simp only [State.tick]
    split_ifs
    · exact priorityboosting { s with mlfqticks := (s.mlfqticks + 1) % 100 }
    · exact hkeep
  | mlfqscheduler => exact absurd rfl ha

end NoNewRunning

/-- At most one process is RUNNING. -/
def OneRunning (s : State) : Prop :=
  ∀ p q, (s.proc p).state = .running → (s.proc q).state = .running → p = q

/-- What a dispatch of `p` does: `p` runs, and no other entry changes. -/
theorem dispatch_spec {s : State} {p : Slot} (h : s.choose = some p) :
    ∃ t, s.mlfqscheduler = some t ∧ (t.proc p).state = .running ∧
      ∀ q, q ≠ p → t.proc q = s.proc q := by
  refine ⟨(s.take p).account p, ?_, ?_, ?_⟩
  · unfold State.mlfqscheduler
    rw [h, Option.map_some]
  · rw [account_state, Inv.take_proc_self]
  · intro q hq
    rw [account_proc_ne _ hq, Inv.take_proc_ne s hq]

theorem oneRunning_step {s t : State} {a : Action} (h : OneRunning s) (hone : OneCpu s a)
    (hs : step s a = some t) : OneRunning t := by
  intro p q hp hq
  by_cases ha : a = .mlfqscheduler
  · subst ha
    have hnone := hone rfl
    obtain ⟨r, hr, -⟩ := Option.map_eq_some_iff.mp hs
    obtain ⟨u, hu, -, hother⟩ := dispatch_spec hr
    obtain rfl : t = u := Option.some.inj (hs.symm.trans hu)
    have honly : ∀ x, (t.proc x).state = .running → x = r := by
      intro x hx
      by_contra hxr
      rw [hother x hxr] at hx
      exact hnone x hx
    rw [honly p hp, honly q hq]
  · have hno := NoNewRunning.step ha hs
    exact h p q (hno p hp) (hno q hq)

/-! ### Runs -/

/-- While a process holds the scheduler lock: if it is RUNNABLE, the scheduler
switches to it and to no other process; if it is RUNNING, no other process runs
and the timer does not take the CPU from it. -/
structure HolderFirst (s : State) : Prop where
  next : ∀ q, s.lockproc = some q → (s.proc q).state = .runnable →
    ∃ t, s.mlfqscheduler = some t ∧ (t.proc q).state = .running ∧
      ∀ p, p ≠ q → t.proc p = s.proc p
  alone : ∀ q, s.lockproc = some q → (s.proc q).state = .running →
    (∀ p, (s.proc p).state = .running → p = q) ∧ s.yield q = s

/-- The steps under which the holder goes first. -/
def FirstOk (s : State) (a : Action) : Prop := OneCpu s a ∧ StepOk s a ∧ StaysFirst s a

instance (s : State) (a : Action) : Decidable (FirstOk s a) :=
  inferInstanceAs (Decidable (_ ∧ _ ∧ _))

theorem holderFirst_of_reach {s : State} (hr : Reach step FirstOk userinit s) : HolderFirst s := by
  have hinv : Good s ∧ First s ∧ OneRunning s := by
    refine hr.invariant (I := fun s => Good s ∧ First s ∧ OneRunning s) ?_ ?_
    · refine ⟨good_userinit, ?_, ?_⟩
      · intro q hq
        cases hq
      have hnone : ∀ p, (userinit.proc p).state ≠ .running := by decide +kernel
      exact fun p _ hp => absurd hp (hnone p)
    · intro u a v ⟨hg, hf, ho⟩ ⟨hone, hok, hk⟩ hs
      exact ⟨good_step hg hok hs, first_step hf hg hk hs, oneRunning_step ho hone hs⟩
  obtain ⟨hg, hf, ho⟩ := hinv
  constructor
  · intro q hq hrun
    exact dispatch_spec (hg.inv.choose_of_ahead hrun (hf q hq hrun))
  · intro q hq hrun
    refine ⟨fun p hp => ho p q hp hrun, ?_⟩
    unfold State.yield
    rw [hq]
    dsimp only
    rw [if_pos rfl]

/-- init creates two processes; the first takes the lock and sleeps while the
second one runs. -/
def holderSleeps : List Action :=
  [.mlfqscheduler, .allocproc 0, .fork 0, .allocproc 0, .fork 0, .sleep 0 (.other 0),
    .mlfqscheduler, .schedulerLock 1 PASSWORD, .resetTicks 1, .sleep 1 (.other 1), .mlfqscheduler]

-- The second one sleeps too, and the holder is woken.
def holderWoken : State :=
  (run (guarded step FirstOk) userinit
    (holderSleeps ++ [.sleep 2 (.other 2), .wakeup (.other 1)])).getD userinit

theorem holderFirst_of_reach_woken : HolderFirst holderWoken ∧ holderWoken.lockproc = some 1 ∧
    (holderWoken.proc 1).state = .runnable :=
  ⟨holderFirst_of_reach (reach_of_guarded_run (eq_some_getD (by decide +kernel))),
    by decide +kernel, by decide +kernel⟩

/-- The second one forks a child, and the holder is woken behind it. -/
theorem not_holderFirst_of_reach : ¬ ∀ s, Reach step OneCpu userinit s → HolderFirst s := by
  intro hall
  have hrun : (run (guarded step OneCpu) userinit (holderSleeps ++
      [.allocproc 2, .fork 2, .wakeup (.other 1)])).any (fun s => s.lockproc == some 1 &&
        (s.proc 1).state == .runnable && s.mlfqscheduler.any fun t => (t.proc 1).state == .runnable)
      = true := by decide +kernel
  obtain ⟨s, hs, hview⟩ := (Option.any_eq_true _ _).mp hrun
  simp only [Bool.and_eq_true, beq_iff_eq] at hview
  obtain ⟨⟨hl, hrunnable⟩, hother⟩ := hview
  obtain ⟨t, ht, hwaits⟩ := (Option.any_eq_true _ _).mp hother
  obtain ⟨u, hu, hfirst, -⟩ := (hall s (reach_of_guarded_run hs)).next 1 hl hrunnable
  obtain rfl : t = u := Option.some.inj (ht.symm.trans hu)
  rw [beq_iff_eq.mp hwaits] at hfirst
  cases hfirst

end Xv6.Mlfq
