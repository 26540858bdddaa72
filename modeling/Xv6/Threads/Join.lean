import Xv6.Threads.Sound

/-!
# thread_exit and thread_join (project2/proc.c:721-790)

What a thread that has ended with `thread_exit` leaves is there for one
`thread_join` of its own process, as long as the process is alive.
-/

namespace Xv6.Threads

open Mlfq (NPROC Slot Procstate)
open Transition

/-- The process of the slot has a thread that can run. -/
def State.processAlive (s : State) (q : Slot) : Prop :=
  ∃ r, (s.proc r).phase = .alive ∧ (s.proc r).pid = (s.proc q).pid

/-- The slot is a live or zombie sub-thread of the process of the thread `i`. -/
def State.subthread (s : State) (i q : Slot) : Prop :=
  ((s.proc q).phase = .alive ∨ (s.proc q).phase = .zombie) ∧ (s.proc q).tid ≠ 0 ∧
    (s.proc q).pid = (s.proc i).pid

instance (s : State) (q : Slot) : Decidable (s.processAlive q) :=
  inferInstanceAs (Decidable (∃ _, _))

instance (s : State) (i q : Slot) : Decidable (s.subthread i q) :=
  inferInstanceAs (Decidable (_ ∧ _))

/-- What a joiner of the slot gets. -/
structure Proc.Ended (r r' : Proc) : Prop where
  state : r'.state = .zombie
  tid : r'.tid = r.tid
  pid : r'.pid = r.pid
  retval : r'.retval = r.retval

/-- The process of the slot ends, or execs, in this step. -/
def Ends (s : State) (q : Slot) (a : Action) : Prop :=
  ∃ i, (s.proc i).pid = (s.proc q).pid ∧
    (a = .exitLast i ∧ s.pc i = .exit .last ∨ a = .cleanforexec i)

/-- `thread_exit` and `thread_join` in one step of the system. -/
structure JoinLaw (s : State) (a : Action) (t : State) : Prop where
  -- thread_exit leaves a slot with the value
  leaves : ∀ i v, a = .exitLast i → s.pc i = .threadExit v .last →
    (t.proc i).state = .zombie ∧ (t.proc i).retval = v ∧ (t.proc i).tid = (s.proc i).tid ∧
      (t.proc i).pid = (s.proc i).pid
  -- it stays until it is joined
  stays : ∀ q, (s.proc q).state = .zombie → s.processAlive q →
    (s.proc q).Ended (t.proc q) ∨ Ends s q a ∨
      ∃ i, a = .threadJoin i (s.proc q).tid ∧ s.subthread i q
  -- by a thread of the process, which gets the value
  joins : ∀ i q, a = .threadJoin i (s.proc q).tid → s.subthread i q →
    (s.proc q).state = .zombie →
    (s.threadJoin i (s.proc q).tid).1 = some (0, some (s.proc q).retval)
  -- every other `thread_join` fails
  fails : ∀ i thread, a = .threadJoin i thread →
    (¬ ∃ q, s.subthread i q ∧ (s.proc q).tid = thread) →
    (s.threadJoin i thread).1 = some (-1, none) ∧ t.proc = s.proc

/-- `wait` reaps no thread of a process that is alive. `thread_join` meets no slots
under its tid but sub-threads of its own process, or it gives up because its caller
is killed. -/
def joinOk (s : State) : Action → Bool
  | .wait i => (s.waitFor i).all fun p => ¬ s.processAlive p
  | .threadJoin i thread =>
    (∀ q, (s.proc q).tid = thread → s.subthread i q) ∨
      s.joinFor thread = none ∧ (s.proc i).killed = true
  | _ => true

def JoinOk (s : State) (a : Action) : Prop := idsOk s a = true ∧ joinOk s a = true

instance (s : State) (a : Action) : Decidable (JoinOk s a) :=
  inferInstanceAs (Decidable (_ ∧ _))

section Steps

variable {s t : State} {a : Action}

theorem Proc.Same.ended {r r' : Proc} (h : r.Same r') (hz : r.state = .zombie) : r.Ended r' :=
  ⟨Proc.phase_zombie.mp (h.phase.trans (Proc.phase_zombie.mpr hz)), h.tid, h.pid, h.retval⟩

theorem Sound.not_zombie {q : Slot} (hs : Sound s) (hpc : s.pc q ≠ .user) :
    (s.proc q).state ≠ .zombie := by
  intro hz
  have halive := hs.busy q hpc
  rw [Proc.phase_zombie.mpr hz] at halive
  cases halive

theorem JoinOk.subthread {i q : Slot} {thread : Nat} (hok : JoinOk s (.threadJoin i thread))
    (hj : s.joinFor thread = some q) : s.subthread i q := by
  rcases of_decide_eq_true hok.2 with hall | ⟨hnone, -⟩
  · exact hall q (joinFor_some hj).1
  · rw [hnone] at hj
    cases hj

/-- An ended thread stays until it is joined or its process ends. -/
theorem stays_step (hs : Sound s) (hok : JoinOk s a) (h : step s a = some t) {q : Slot}
    (hz : (s.proc q).state = .zombie) (halive : s.processAlive q) :
    (s.proc q).Ended (t.proc q) ∨ Ends s q a ∨
      ∃ i, a = .threadJoin i (s.proc q).tid ∧ s.subthread i q := by
  have hrunning : (s.proc q).state ≠ .running := by
    rw [hz]
    exact nofun
  cases change_effect hs (Or.inr (Proc.phase_zombie.mpr hz)) (step_effect h) with
  | same h => exact Or.inl (h.ended hz)
  | killed i hi hpc hq h hu =>
    exact Or.inr (Or.inl ⟨i, (of_decide_eq_true hq).1.symm, Or.inl ⟨rfl, hpc⟩⟩)
  | outlives i hi hpc hq hqi h =>
    exact Or.inl ⟨(Proc.Same.ended h hz).state, h.tid, h.pid, h.retval⟩
  | exits hi hpc h hu => exact absurd hi hrunning
  | threadExits retval hi hpc h hu => exact absurd hi hrunning
  | reaped i hi hw h =>
    have hw' := (Option.all_eq_true _ _).mp hok.2 q hw
    exact absurd halive (of_decide_eq_true hw')
  | joined i thread hi hj h =>
    have htid := (joinFor_some hj).1
    exact Or.inr (Or.inr ⟨i, by rw [htid], hok.subthread hj⟩)
  | cleaned i hi htid hq h hu =>
    exact Or.inr (Or.inl ⟨i, (of_decide_eq_true hq).1.symm, Or.inr rfl⟩)
  | image pd sz hpc h hold => exact absurd hz (hs.not_zombie (by rw [hpc]; exact nofun))
  | mainSz i np enough hpc h =>
    left
    rw [h]
    exact ⟨hz, rfl, rfl, rfl⟩
  | growproc i n enough sz hlimit h =>
    left
    rw [h]
    exact ⟨hz, rfl, rfl, rfl⟩
  | setmemorylimit i pid limit h0 hp hsz h =>
    left
    rw [h]
    exact ⟨hz, rfl, rfl, rfl⟩

/-- The only slot with the tid of a thread is the thread's. -/
theorem joinFor_of_zombie (hs : Sound s) {q : Slot} (hz : (s.proc q).state = .zombie)
    (htid : (s.proc q).tid ≠ 0) : s.joinFor (s.proc q).tid = some q := by
  cases hj : s.joinFor (s.proc q).tid with
  | none =>
    have hno := List.find?_eq_none.mp hj q (List.mem_finRange q)
    simp [hz] at hno
  | some p => rw [hs.base.tids.inj q p htid (joinFor_some hj).1.symm]

theorem joins_step (hs : Sound s) {i q : Slot} (hq : s.subthread i q)
    (hz : (s.proc q).state = .zombie) :
    s.threadJoin i (s.proc q).tid =
      (some (0, some (s.proc q).retval), (s.vacate fun p => p = q).setPc i .user) := by
  unfold State.threadJoin
  rw [joinFor_of_zombie hs hz hq.2.1]

theorem fails_step {i : Slot} {thread : Nat} (hok : JoinOk s (.threadJoin i thread))
    (hno : ¬ ∃ q, s.subthread i q ∧ (s.proc q).tid = thread) :
    s.threadJoin i thread = (some (-1, none), s.setPc i .user) := by
  have hnone : s.joinFor thread = none := by
    cases hj : s.joinFor thread with
    | none => rfl
    | some p => exact absurd ⟨p, hok.subthread hj, (joinFor_some hj).1⟩ hno
  unfold State.threadJoin
  rw [hnone]
  dsimp only
  rw [if_pos]
  rcases of_decide_eq_true hok.2 with hall | ⟨-, hkilled⟩
  · exact Or.inl fun p hp => hno ⟨p, hall p hp, hp⟩
  · exact Or.inr hkilled

theorem step_threadJoin {i : Slot} {thread : Nat} (h : step s (.threadJoin i thread) = some t) :
    t = (s.threadJoin i thread).2 := by
  unfold step at h
  dsimp only at h
  split_ifs at h
  cases h
  rfl

theorem leaves_step (h : step s a = some t) {i : Slot} {v : Nat} (ha : a = .exitLast i)
    (hpc : s.pc i = .threadExit v .last) :
    (t.proc i).state = .zombie ∧ (t.proc i).retval = v ∧ (t.proc i).tid = (s.proc i).tid ∧
      (t.proc i).pid = (s.proc i).pid := by
  subst ha
  unfold step at h
  dsimp only at h
  rw [hpc] at h
  dsimp only at h
  split_ifs at h
  cases h
  have hs := threadExitLast_self s i v
  exact ⟨Proc.phase_zombie.mp hs.phase, hs.retval, hs.tid, hs.pid⟩

theorem joinLaw_step (hs : Sound s) (hok : JoinOk s a) (h : step s a = some t) : JoinLaw s a t := by
  refine ⟨fun i v ha hpc => leaves_step h ha hpc, fun q hz hq => stays_step hs hok h hz hq, ?_, ?_⟩
  · intro i q _ hq hz
    rw [joins_step hs hq hz]
  · intro i thread ha hno
    subst ha
    rw [step_threadJoin h, fails_step hok hno]
    exact ⟨rfl, rfl⟩

end Steps

/-! ### Runs -/

/-- A joined tid does not come back. -/
theorem forgotten_of_join {s t : State} {i q : Slot} (hs : Sound s) (hq : s.subthread i q)
    (hz : (s.proc q).state = .zombie) (h : step s (.threadJoin i (s.proc q).tid) = some t) :
    t.ids.Forgotten (s.proc q).tid := by
  rw [step_threadJoin h, joins_step hs hq hz]
  refine ⟨fun r hr => ?_, fun hpos => hs.base.tids.lt hpos q, fun j b hb hk hn => ?_⟩
  · dsimp only [State.ids, State.setPc_proc] at hr
    by_cases hrq : r = q
    · rw [(vacate_proc (s := s) (fun p => p = q) (decide_eq_true hrq)).tid] at hr
      exact hq.2.1 hr.symm
    · rw [vacate_proc_of_not (s := s) (fun p => p = q) (decide_eq_false hrq)] at hr
      exact hrq (hs.base.tids.inj q r hq.2.1 hr.symm).symm
  · -- a number that was taken is on no slot
    have hbs : s.ids.birth j = some b := by
      dsimp only [State.ids] at hb ⊢
      rw [State.setPc_pc] at hb
      split_ifs at hb
      · cases hb
      · dsimp only [State.vacate] at hb
        split_ifs at hb
        · cases hb
        · exact hb
    exact (hs.base.taken.tid j b _ hbs hk hn).2.2.1 q rfl

theorem forgotten_of_reach {t u : State} {n : Nat} (hn : n ≠ 0) (ht : Sound t)
    (hf : t.ids.Forgotten n) (hr : Reach step JoinOk t u) : u.ids.Forgotten n := by
  have hboth : Sound u ∧ u.ids.Forgotten n := by
    refine hr.invariant (I := fun v => Sound v ∧ v.ids.Forgotten n) ⟨ht, hf⟩ ?_
    intro v a w ⟨hv, hfv⟩ hok hw
    exact ⟨hv.step hok.1 hw, Ids.forgotten_steps hn hv.base hfv
      (ids_effect hv.base hv.init hok.1 (step_effect hw))⟩
  exact hboth.2

/-- After the join no slot has the tid in the rest of the run. -/
theorem joinLaw_of_reach {s t : State} {a : Action} (hr : Reach step JoinOk userinit s)
    (hok : JoinOk s a) (h : step s a = some t) :
    JoinLaw s a t ∧
      ∀ i q, a = .threadJoin i (s.proc q).tid → s.subthread i q → (s.proc q).state = .zombie →
        ∀ u, Reach step JoinOk t u → ∀ r, (u.proc r).tid ≠ (s.proc q).tid := by
  have hs : Sound s := sound_of_reach (fun _ _ hok => hok.1) hr
  refine ⟨joinLaw_step hs hok h, ?_⟩
  intro i q ha hq hz u hu
  subst ha
  exact (forgotten_of_reach hq.2.1 (hs.step hok.1 h) (forgotten_of_join hs hq hz h) hu).tid

-- The thread in slot 2 ends with the value 42, and slot 1 runs again.
def threadEnded : State :=
  (run (guarded step JoinOk) userinit (processAndThread ++ [.yield 1, .sched 2] ++
    threadExitSteps 2 42 0 ++ [.sched 1])).getD userinit

def threadJoined : State := (step threadEnded (.threadJoin 1 1)).getD userinit

theorem joinLaw_of_reach_joined : JoinLaw threadEnded (.threadJoin 1 1) threadJoined ∧
    (threadEnded.threadJoin 1 1).1 = some (0, some 42) :=
  ⟨(joinLaw_of_reach (reach_of_guarded_run (eq_some_getD (by decide +kernel)))
    (by decide +kernel) (eq_some_getD (by decide +kernel))).1, by decide +kernel⟩

-- Then init runs instead.
def initRuns : State := (run (guarded step JoinOk) threadEnded [.yield 1, .sched 0]).getD userinit

def threadReaped : State := (step initRuns (.wait 0)).getD userinit

/-- init is the parent of the thread too, and its `wait` takes the slot. -/
theorem not_joinLaw_of_reach : ¬ ∀ s t a, Reach step (fun s a => idsOk s a = true) userinit s →
    step s a = some t → JoinLaw s a t := by
  intro hall
  have hends : Reach step JoinOk userinit threadEnded :=
    reach_of_guarded_run (eq_some_getD (by decide +kernel))
  have hinit : Reach step JoinOk threadEnded initRuns :=
    reach_of_guarded_run (eq_some_getD (by decide +kernel))
  have hlaw := hall initRuns threadReaped (.wait 0) ((hends.trans hinit).mono fun _ _ hok => hok.1)
    (eq_some_getD (by decide +kernel))
  rcases hlaw.stays 2 (by decide +kernel) (by decide +kernel) with hkept | ⟨i, -, hi⟩ | ⟨i, hi, -⟩
  · have hunused : (threadReaped.proc 2).state = .unused := by decide +kernel
    rw [hkept.state] at hunused
    cases hunused
  · rcases hi with ⟨hi, -⟩ | hi <;> cases hi
  · cases hi

end Xv6.Threads
