import Xv6.Lib.Transition
import Xv6.Mlfq.Boost

/-!
# The queue law of the MLFQ scheduler

Every critical section of project1/proc.c keeps `Inv` and `PcInv`, with two
exceptions: `allocproc` once `nextpid` has wrapped round to a pid in use, and a
boosting tick that finds the holder of the scheduler lock in the second half of
`L[1]` or `L[2]`.
-/

namespace Xv6.Mlfq
open Xv6.Transition

/-- What the queues promise to the dispatcher. -/
structure QueueLaw (s : State) : Prop where
  runnable : ∀ p, (s.proc p).state = .runnable ↔ p ∈ s.queued 0 ++ s.queued 1 ++ s.queued 2
  once : ∀ p ∈ s.queued 0 ++ s.queued 1 ++ s.queued 2,
    (s.queued 0 ++ s.queued 1 ++ s.queued 2).count p = 1
  level : ∀ p ∈ s.queued 0 ++ s.queued 1 ++ s.queued 2,
    0 ≤ (s.proc p).level ∧ (s.proc p).level ≤ 2 ∧ p ∈ s.queued (s.proc p).level
  dispatch : ∀ p, s.choose = some p → (s.proc p).state = .runnable
  dropped : s.dropped = false

theorem QueueLaw.level_of_mem {s : State} (h : QueueLaw s) {p : Slot} {l : Int} (h0 : 0 ≤ l)
    (h2 : l ≤ 2) (hp : p ∈ s.queued l) : (s.proc p).level = l := by
  have hall : p ∈ s.queued 0 ++ s.queued 1 ++ s.queued 2 := by
    rcases (show l = 0 ∨ l = 1 ∨ l = 2 by omega) with rfl | rfl | rfl
    · simp [hp]
    · simp [hp]
    · simp [hp]
  have hone := h.once p hall
  obtain ⟨h0', h2', hp'⟩ := h.level p hall
  rw [List.count_append, List.count_append] at hone
  have hc := List.count_pos_iff.mpr hp
  have hc' := List.count_pos_iff.mpr hp'
  generalize (s.proc p).level = m at h0' h2' hp' hc'
  rcases (show l = 0 ∨ l = 1 ∨ l = 2 by omega) with rfl | rfl | rfl <;>
    rcases (show m = 0 ∨ m = 1 ∨ m = 2 by omega) with rfl | rfl | rfl <;> omega

theorem Inv.count_all {s : State} (h : Inv s) (p : Slot) :
    (s.queued 0 ++ s.queued 1 ++ s.queued 2).count p =
      if (s.proc p).state = .runnable then 1 else 0 := by
  have hr := h.level p
  rw [List.count_append, List.count_append, h.count p 0 le_rfl (by omega),
    h.count p 1 (by omega) (by omega), h.count p 2 (by omega) le_rfl]
  by_cases hs : (s.proc p).state = .runnable
  · simp only [hs, true_and, if_true]
    rcases (show (s.proc p).level = 0 ∨ (s.proc p).level = 1 ∨ (s.proc p).level = 2 by omega)
      with hl | hl | hl
    · simp [hl]
    · simp [hl]
    · simp [hl]
  · simp only [hs, false_and, if_false]

theorem Inv.queueLaw {s : State} (h : Inv s) : QueueLaw s := by
  have hrun : ∀ p, (s.proc p).state = .runnable ↔
      p ∈ s.queued 0 ++ s.queued 1 ++ s.queued 2 := by
    intro p
    rw [← List.count_pos_iff, h.count_all]
    split_ifs with hs
    · simp [hs]
    · simp [hs]
  refine ⟨hrun, ?_, ?_, fun p hp => (h.choose_spec hp).1, h.dropped⟩
  · intro p hp
    rw [h.count_all, if_pos ((hrun p).mpr hp)]
  · intro p hp
    have hr := h.level p
    exact ⟨hr.1, hr.2, (h.mem_queued hr.1 hr.2).mpr ⟨(hrun p).mpr hp, rfl⟩⟩

/-! ### The critical sections -/

/-- Both invariants together. -/
structure Good (s : State) : Prop where
  inv : Inv s
  pcs : PcInv s

namespace Good

variable {s : State} {i p : Slot}

/-- A process that is not EMBRYO changes fields that the queues do not depend on. -/
theorem setProc_keep (h : Good s) {f : Proc → Proc} (he : (s.proc p).state ≠ .embryo)
    (hs : (f (s.proc p)).state = .runnable ↔ (s.proc p).state = .runnable)
    (hl : (f (s.proc p)).level = (s.proc p).level)
    (hu : (f (s.proc p)).state ≠ .unused → (s.proc p).state ≠ .unused)
    (hpid : (f (s.proc p)).state ≠ .unused → (f (s.proc p)).pid = (s.proc p).pid) :
    Good (s.setProc p f) := by
  refine ⟨h.inv.setProc_keep hs hl hu hpid, h.pcs.of_embryo rfl ?_⟩
  intro q hq
  have hqp : q ≠ p := by
    rintro rfl
    exact he hq
  rw [State.setProc_proc_ne _ _ _ _ hqp]
  exact hq

theorem ready (h : Good s) (he : (s.proc p).state ≠ .embryo)
    (hs : (s.proc p).state ≠ .runnable) (hu : (s.proc p).state ≠ .unused) :
    Good (s.ready p) := by
  refine ⟨h.inv.ready hs hu, h.pcs.of_embryo rfl ?_⟩
  intro q hq
  have hqp : q ≠ p := by
    rintro rfl
    exact he hq
  rw [State.ready, State.enqueue_proc, State.setProc_proc_ne _ _ _ _ hqp]
  exact hq

theorem setPc (h : Good s) {k : Pc} (hk : ∀ np, k ≠ .fork np) : Good (s.setPc i k) :=
  ⟨h.inv.setPc i k, h.pcs.setPc i hk⟩

theorem setLockproc (h : Good s) (k : Option Slot) : Good { s with lockproc := k } :=
  ⟨h.inv.setLockproc k, ⟨h.pcs.embryo, h.pcs.one⟩⟩

theorem setTicks (h : Good s) (n : Nat) : Good { s with mlfqticks := n } :=
  ⟨h.inv.setTicks n, ⟨h.pcs.embryo, h.pcs.one⟩⟩

theorem wakeup1 (h : Good s) (chan : Option Chan) : Good (s.wakeup1 chan) := by
  refine ⟨h.inv.wakeup1 chan, h.pcs.of_embryo (State.wakeup1_pc s chan) ?_⟩
  intro q hq
  rw [State.wakeup1_state _ _ _ (by rw [hq]; exact Procstate.noConfusion)]
  exact hq

theorem reparent (h : Good s) : Good (s.reparent i) := by
  refine ⟨h.inv.reparent i, h.pcs.of_embryo (State.reparent_pc s i) ?_⟩
  intro q hq
  rw [State.reparent_state _ _ _ (by rw [hq]; exact Procstate.noConfusion)]
  exact hq

/-- `allocproc` needs a pid that no other entry has. -/
theorem allocproc (h : Good s)
    (hfresh : ∀ q, (s.proc q).state ≠ .unused → (s.proc q).pid ≠ s.nextpid) :
    Good (s.allocproc i) := by
  unfold State.allocproc
  generalize List.finRange NPROC = ps
  cases hf : ps.find? fun p => (s.proc p).state = .unused with
  | none => exact h
  | some np =>
    have hu : (s.proc np).state = .unused := by simpa using List.find?_some hf
    have hset : Inv (s.setProc np fun r =>
        { r with state := .embryo, pid := s.nextpid, priority := 3, usedtime := 0, level := 0 }) := by
      refine h.inv.setProc (by simp [hu]) (by simp [hu]) ⟨le_rfl, (by decide : (0 : Int) ≤ 2)⟩ ?_
      exact fun _ q _ hqu => hfresh q hqu
    refine ⟨⟨hset.count, hset.level, hset.pids, hset.dropped⟩, ?_⟩
    have hp := h.pcs.take i (f := fun r =>
      { r with state := .embryo, pid := s.nextpid, priority := 3, usedtime := 0, level := 0 }) hu rfl
    exact ⟨hp.embryo, hp.one⟩

theorem forkFail (h : Good s) {np : Slot} (hi : s.pc i = .fork np) :
    Good (s.forkFail i np) := by
  have he := h.pcs.embryo i np hi
  have hinv : Inv (s.setProc np fun r => { r with state := .unused }) :=
    h.inv.setProc_keep (by simp [he]) rfl (fun hne => absurd rfl hne) (fun hne => absurd rfl hne)
  refine ⟨hinv.setPc _ _, h.pcs.give hi rfl ?_⟩
  intro q hq
  rw [State.setProc_proc_ne _ _ _ _ hq]

theorem fork (h : Good s) {np : Slot} (hi : s.pc i = .fork np) : Good (s.fork i np) := by
  have he := h.pcs.embryo i np hi
  have hinv : Inv (s.setProc np fun r => { r with parent := some i }) :=
    h.inv.setProc_keep Iff.rfl rfl id fun _ => rfl
  have hready := hinv.ready (p := np) (by simp [he]) (by simp [he])
  refine ⟨hready.setPc _ _, h.pcs.give hi rfl ?_⟩
  intro q hq
  rw [State.ready, State.enqueue_proc, State.setProc_proc_ne _ _ _ _ hq,
    State.setProc_proc_ne _ _ _ _ hq]

theorem exit (h : Good s) (hi : (s.proc i).state = .running) {t : State}
    (ht : s.exit i = some t) : Good t := by
  unfold State.exit at ht
  split_ifs at ht with hinit
  have hw := h.wakeup1 ((s.proc i).parent.map .proc)
  have hr := hw.reparent (i := i)
  have hs : (((s.wakeup1 ((s.proc i).parent.map .proc)).reparent i).proc i).state = .running := by
    rw [State.reparent_state, State.wakeup1_state, hi]
    · simp [hi]
    · rw [State.wakeup1_state _ _ _ (by simp [hi]), hi]
      exact Procstate.noConfusion
  dsimp only at ht
  generalize (s.wakeup1 ((s.proc i).parent.map .proc)).reparent i = u at ht hr hs
  cases ht
  have hz : Good (u.setProc i fun r => { r with state := .zombie }) :=
    hr.setProc_keep (by simp [hs]) (by simp [hs]) rfl (by simp [hs]) fun _ => rfl
  exact hz.setLockproc none

theorem wait (h : Good s) (hi : (s.proc i).state = .running) : Good (s.wait i) := by
  unfold State.wait
  generalize List.finRange NPROC = ps
  dsimp only
  cases hf : (ps.filter fun p => (s.proc p).parent = some i).find? fun p =>
      (s.proc p).state = .zombie with
  | some p =>
    have hz : (s.proc p).state = .zombie := by simpa using List.find?_some hf
    refine Good.setPc ?_ fun np => Pc.noConfusion
    exact h.setProc_keep (by simp [hz]) (by simp [hz]) rfl (fun hne => absurd rfl hne)
      (fun hne => absurd rfl hne)
  | none =>
    dsimp only
    split_ifs
    · exact h.setPc fun np => Pc.noConfusion
    · refine Good.setPc ?_ fun np => Pc.noConfusion
      exact h.setProc_keep (by simp [hi]) (by simp [hi]) rfl (by simp [hi]) fun _ => rfl

theorem yield (h : Good s) (hi : (s.proc i).state = .running) : Good (s.yield i) := by
  have hready : Good (s.ready i) := h.ready (by simp [hi]) (by simp [hi]) (by simp [hi])
  unfold State.yield
  cases s.lockproc with
  | none => exact hready
  | some q =>
    dsimp only
    split_ifs
    · exact h
    · exact hready

theorem sleep (h : Good s) (hi : (s.proc i).state = .running) (chan : Chan) :
    Good (s.sleep i chan) :=
  h.setProc_keep (by simp [hi]) (by simp [hi]) rfl (by simp [hi]) fun _ => rfl

theorem setField (h : Good s) {f : Proc → Proc} (hs : ∀ r, (f r).state = r.state)
    (hl : ∀ r, (f r).level = r.level) (hpid : ∀ r, (f r).pid = r.pid) : Good (s.setProc p f) := by
  refine ⟨h.inv.setProc_keep ?_ (hl _) ?_ fun _ => hpid _, h.pcs.of_embryo rfl ?_⟩
  · rw [hs]
  · rw [hs]
    exact id
  · intro q hq
    by_cases hqp : q = p
    · subst hqp
      rw [State.setProc_proc_self, hs]
      exact hq
    · rw [State.setProc_proc_ne _ _ _ _ hqp]
      exact hq

theorem kill (h : Good s) (pid : Int) : Good (s.kill pid) := by
  unfold State.kill
  generalize List.finRange NPROC = ps
  cases ps.find? fun p => (s.proc p).pid = pid with
  | none => exact h
  | some p =>
    have hk : Good (s.setProc p fun r => { r with killed := true }) :=
      h.setField (fun _ => rfl) (fun _ => rfl) fun _ => rfl
    dsimp only
    split_ifs with hs
    · exact hk.ready (by rw [hs]; exact Procstate.noConfusion)
        (by rw [hs]; exact Procstate.noConfusion) (by rw [hs]; exact Procstate.noConfusion)
    · exact hk

theorem setPriority (h : Good s) (pid priority : Int) : Good (s.setPriority pid priority) := by
  unfold State.setPriority
  generalize List.finRange NPROC = ps
  split_ifs
  · exact h
  · cases ps.find? fun p => (s.proc p).pid = pid with
    | none => exact h
    | some p => exact h.setField (fun _ => rfl) (fun _ => rfl) fun _ => rfl

theorem schedulerLock (h : Good s) (hi : (s.proc i).state = .running) {password : Int}
    {t : State} (ht : s.schedulerLock i password = some t) : Good t := by
  unfold State.schedulerLock at ht
  split_ifs at ht with hpw
  · exact h.exit hi ht
  · cases hlock : s.lockproc with
    | some q =>
      rw [hlock] at ht
      cases ht
      exact h
    | none =>
      rw [hlock] at ht
      cases ht
      exact (h.setLockproc (some i)).setPc fun np => Pc.noConfusion

/-- The holder comes back at the front of `L[0]`, which is the queue of its new level. -/
theorem unlock (h : Good s) (hi : (s.proc i).state = .running) :
    Good (({ s with lockproc := none }.setProc i fun r =>
      { r with level := 0, usedtime := 0, priority := 3, state := .runnable }).insertqueue 0 i) := by
  have hroom : (({ s with lockproc := none }.setProc i fun r =>
      { r with level := 0, usedtime := 0, priority := 3, state := .runnable }).L 0).size
      < NPROC :=
    h.inv.room (p := i) le_rfl (by omega) (h.inv.not_mem_of_state le_rfl (by omega) (by simp [hi]))
  constructor
  · refine (h.inv.setLockproc none).enter (p := i)
      (f := fun r => { r with level := 0, usedtime := 0, priority := 3, state := .runnable })
      (by simp [hi]) (by simp [hi]) rfl rfl ⟨le_rfl, (by decide : (0 : Int) ≤ 2)⟩ rfl ?_ ?_
    · exact State.insertqueue_dropped _ _ _ hroom
    · intro q l
      rw [State.insertqueue_queued _ _ _ _ hroom, State.setProc_queued, State.setProc_queued]
      by_cases hl : l = 0
      · rw [if_pos hl, List.count_cons, hl]
        by_cases hqi : q = i
        · simp only [hqi, beq_self_eq_true, true_and]
        · simp only [beq_iff_eq, Ne.symm hqi, hqi, false_and]
      · rw [if_neg hl, if_neg fun hc => hl hc.2.symm, Nat.add_zero]
  · refine h.pcs.of_embryo rfl ?_
    intro q hq
    have hqi : q ≠ i := by
      rintro rfl
      rw [hi] at hq
      exact Procstate.noConfusion hq
    rw [State.insertqueue_proc, State.setProc_proc_ne _ _ _ _ hqi]
    exact hq

theorem schedulerUnlock (h : Good s) (hi : (s.proc i).state = .running) {password : Int}
    {t : State} (ht : s.schedulerUnlock i password = some t) : Good t := by
  unfold State.schedulerUnlock at ht
  split_ifs at ht with hpw
  · exact h.exit hi ht
  · cases hlock : s.lockproc with
    | none =>
      rw [hlock] at ht
      cases ht
      exact h
    | some q =>
      rw [hlock] at ht
      dsimp only at ht
      split_ifs at ht with hpid
      · cases ht
        exact h
      · cases ht
        exact h.unlock hi

theorem mlfqscheduler (h : Good s) {t : State} (ht : s.mlfqscheduler = some t) : Good t := by
  refine ⟨h.inv.mlfqscheduler ht, ?_⟩
  obtain ⟨p, hp, rfl⟩ := Option.map_eq_some_iff.mp ht
  have hrun := (h.inv.choose_spec hp).1
  refine h.pcs.of_embryo ?_ ?_
  · simp only [State.account, State.take]
    split_ifs <;> rfl
  · intro q hq
    have hqp : q ≠ p := by
      rintro rfl
      rw [hrun] at hq
      exact Procstate.noConfusion hq
    have ha : (((s.take p).account p).proc q) = (s.take p).proc q := by
      simp only [State.account]
      split_ifs <;> simp [hqp]
    rw [ha, Inv.take_proc_ne s hqp]
    exact hq

theorem priorityboosting (h : Good s) (hb : ¬ s.LeftBehind) : Good s.priorityboosting := by
  have hkeep : s.priorityboosting.pc = s.boostQueues.pc ∧
      ∀ q, (s.priorityboosting.proc q).state = (s.boostQueues.proc q).state := by
    show s.boostQueues.boostLockproc.pc = s.boostQueues.pc ∧ ∀ q,
      (s.boostQueues.boostLockproc.proc q).state = (s.boostQueues.proc q).state
    unfold State.boostLockproc
    cases s.boostQueues.lockproc with
    | none => exact ⟨rfl, fun _ => rfl⟩
    | some p =>
      refine ⟨rfl, fun q => ?_⟩
      by_cases hqp : q = p
      · rw [hqp, State.setProc_proc_self]
      · rw [State.setProc_proc_ne _ _ _ _ hqp]
  refine ⟨h.inv.priorityboosting hb, h.pcs.of_embryo ?_ ?_⟩
  · rw [hkeep.1]
    simp only [State.boostQueues, State.boostQueue_pc]
  · intro q hq
    rw [hkeep.2, State.boostQueues_state]
    exact hq

theorem tick (h : Good s) (hb : (s.mlfqticks + 1) % 100 = 0 → ¬ s.LeftBehind) :
    Good s.tick := by
  have ht := h.setTicks ((s.mlfqticks + 1) % 100)
  simp only [State.tick]
  split_ifs with hz
  · exact ht.priorityboosting (hb hz)
  · exact ht

end Good

/-! ### Runs -/

theorem good_pinit : Good pinit := by
  have hempty : ∀ l, pinit.queued l = [] := fun _ => rfl
  refine ⟨⟨?_, fun _ => ⟨le_rfl, (by decide : (0 : Int) ≤ 2)⟩, ?_, rfl⟩, ⟨?_, ?_⟩⟩
  · intro p l _ _
    rw [hempty, if_neg fun hc => Procstate.noConfusion hc.1]
    rfl
  · exact fun p _ hp => absurd rfl hp
  · exact fun i np hi => Pc.noConfusion hi
  · exact fun i j np hi => Pc.noConfusion hi

theorem good_userinit : Good userinit := by
  have ha := good_pinit.allocproc (i := 0) fun q hq => absurd rfl hq
  have hpc : (pinit.allocproc 0).pc 0 = .fork 0 := by decide
  have he := ha.pcs.embryo 0 0 hpc
  refine ⟨(ha.inv.ready (by simp [he]) (by simp [he])).setPc _ _, ha.pcs.give hpc rfl ?_⟩
  intro q hq
  rw [State.ready, State.enqueue_proc, State.setProc_proc_ne _ _ _ _ hq]

/-- The two steps that may break the law are taken only where they do not. -/
def StepOk (s : State) : Action → Prop
  | .allocproc _ => ∀ q, (s.proc q).state ≠ .unused → (s.proc q).pid ≠ s.nextpid
  | .tick => (s.mlfqticks + 1) % 100 = 0 → ¬ s.LeftBehind
  | _ => True

theorem good_step {s t : State} {a : Action} (h : Good s) (hok : StepOk s a)
    (hs : step s a = some t) : Good t := by
  cases a with
  | allocproc i =>
    simp only [step] at hs
    split_ifs at hs
    cases hs
    exact h.allocproc hok
  | forkFail i =>
    simp only [step] at hs
    split at hs
    · next np hi =>
      split_ifs at hs
      cases hs
      exact h.forkFail hi
    · cases hs
  | fork i =>
    simp only [step] at hs
    split at hs
    · next np hi =>
      split_ifs at hs
      cases hs
      exact h.fork hi
    · cases hs
  | exit i =>
    simp only [step] at hs
    split_ifs at hs with hc
    exact h.exit hc.1 hs
  | wait i =>
    simp only [step] at hs
    split_ifs at hs with hc
    cases hs
    exact h.wait hc.1
  | yield i =>
    simp only [step] at hs
    split_ifs at hs with hc
    cases hs
    exact h.yield hc
  | sleep i chan =>
    simp only [step] at hs
    split_ifs at hs with hc
    cases hs
    exact h.sleep hc.1 chan
  | wakeup chan =>
    simp only [step, Option.some.injEq] at hs
    subst hs
    exact h.wakeup1 _
  | kill pid =>
    cases hs
    exact h.kill pid
  | setPriority pid priority =>
    cases hs
    exact h.setPriority pid priority
  | schedulerLock i password =>
    simp only [step] at hs
    split_ifs at hs with hc
    exact h.schedulerLock hc.1 hs
  | resetTicks i =>
    simp only [step] at hs
    split_ifs at hs with hc
    cases hs
    exact (h.setTicks 0).setPc fun np => Pc.noConfusion
  | schedulerUnlock i password =>
    simp only [step] at hs
    split_ifs at hs with hc
    exact h.schedulerUnlock hc.1 hs
  | tick =>
    cases hs
    exact h.tick hok
  | mlfqscheduler => exact h.mlfqscheduler hs

/-- At a boosting tick the condition is exact. -/
theorem tick_queueLaw_iff {s : State} (h : Good s) (h0 : (s.mlfqticks + 1) % 100 = 0) :
    QueueLaw s.tick ↔ ¬ s.LeftBehind := by
  constructor
  · intro hlaw hb
    have ht := h.setTicks ((s.mlfqticks + 1) % 100)
    obtain ⟨p, l, hl, hl2, hp, hlevel⟩ := State.LeftBehind.misplaced ht.inv hb
    have htick : s.tick = ({ s with mlfqticks := (s.mlfqticks + 1) % 100 }).priorityboosting := by
      simp only [State.tick]
      rw [if_pos h0]
    rw [← htick] at hp hlevel
    have := hlaw.level_of_mem hl.le hl2 hp
    omega
  · intro hb
    exact (h.tick fun _ => hb).inv.queueLaw

/-- The queue law holds in every state of a run in which no pid is handed out
twice and no boosting tick finds the lock holder in the second half of `L[1]`
or `L[2]`. -/
theorem queueLaw_of_reach {s : State} (hr : Reach step StepOk userinit s) : QueueLaw s := by
  have hg : Good s := hr.invariant good_userinit fun _ _ _ h hok hs => good_step h hok hs
  exact hg.inv.queueLaw

theorem queueLaw_of_reach_fork : QueueLaw
    (((userinit.mlfqscheduler.getD userinit).allocproc 0).fork 0 1) := by
  have h1 : step userinit .mlfqscheduler = some (userinit.mlfqscheduler.getD userinit) := rfl
  generalize hs : userinit.mlfqscheduler.getD userinit = s at h1
  have h2 : step s (.allocproc 0) = some (s.allocproc 0) := by
    subst hs
    rw [step, if_pos]
    decide +kernel
  have hfresh : StepOk s (.allocproc 0) := by
    subst hs
    unfold StepOk
    decide +kernel
  have h3 : step (s.allocproc 0) (.fork 0) = some ((s.allocproc 0).fork 0 1) := by
    subst hs
    have hpc : ((userinit.mlfqscheduler.getD userinit).allocproc 0).pc 0 = .fork 1 := by
      decide +kernel
    simp only [step, hpc]
    rw [if_pos]
    decide +kernel
  exact queueLaw_of_reach
    ((((Reach.refl _).tail trivial h1).tail hfresh h2).tail (a := .fork 0) trivial h3)

/-- Two processes of level 1, one of which takes the scheduler lock, waits for an
event for 99 ticks, and is woken behind the other one just before boosting. -/
def lockHolderWoken : List Action :=
  [.mlfqscheduler, .allocproc 0, .fork 0, .allocproc 0, .fork 0, .sleep 0 (.other 0)] ++
  (List.replicate 4 [.mlfqscheduler, .yield 1, .mlfqscheduler, .yield 2]).flatten ++
  [.mlfqscheduler, .schedulerLock 1 PASSWORD, .resetTicks 1] ++ List.replicate 99 .tick ++
  [.sleep 1 (.other 1), .mlfqscheduler, .wakeup (.other 0), .yield 2, .mlfqscheduler,
    .wakeup (.other 1), .tick]

theorem not_queueLaw_of_reachable : ¬ ∀ s, Reachable step userinit s → QueueLaw s := by
  intro hall
  have hrun : (run step userinit lockHolderWoken).any
      (fun s => s.queued 1 == [1] && (s.proc 1).level == 0) = true := by decide +kernel
  obtain ⟨s, hs, hview⟩ := (Option.any_eq_true _ _).mp hrun
  simp only [Bool.and_eq_true, beq_iff_eq] at hview
  have hlaw := hall s (reachable_of_run hs)
  have hl := hlaw.level_of_mem (l := 1) (p := 1) (by omega) (by omega) (by simp [hview.1])
  omega

end Xv6.Mlfq
