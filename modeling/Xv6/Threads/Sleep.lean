import Xv6.Threads.Join
import Xv6.Threads.Setup

/-!
# Sleeping in wait and thread_join (project2/proc.c:296-337, 756-790)

`exit` wakes the parent slot and `thread_exit` the tid of the thread. A parent sleeps
for the end of a process and a joiner for the end of a thread, and either can come
about in the other way.
-/

namespace Xv6.Threads

open Mlfq (NPROC Slot Procstate)
open Transition

/-- The thread sleeps on the channel. -/
def Proc.asleep (r : Proc) (chan : Chan) : Prop := r.state = .sleeping ∧ r.chan = some chan

instance (r : Proc) (chan : Chan) : Decidable (r.asleep chan) :=
  inferInstanceAs (Decidable (_ ∧ _))

/-- No thread sleeps for what has already happened. -/
structure SleepLaw (s : State) : Prop where
  -- in wait(), for a process all whose threads have ended
  wait : ∀ i q, (s.proc i).asleep (.proc i) → (s.proc q).parent = some i →
    (s.proc q).state = .zombie → s.processAlive q
  -- in thread_join(), without a thread to wake it
  join : ∀ i n, (s.proc i).asleep (.tid n) →
    ∃ q, q ≠ i ∧ (s.proc q).phase = .alive ∧ (s.proc q).tid = n

/-- Whoever joins a thread in `gone` from outside has another thread with that tid
to wait for. -/
def State.outlived (s : State) (gone : Slot → Bool) : Prop :=
  ∀ i q, gone i = false → gone q = true → (s.proc i).asleep (.tid (s.proc q).tid) →
    ∃ r, r ≠ i ∧ gone r = false ∧ (s.proc r).phase = .alive ∧ (s.proc r).tid = (s.proc q).tid

instance (s : State) (gone : Slot → Bool) : Decidable (s.outlived gone) :=
  inferInstanceAs (Decidable (∀ _, _))

/-- The threads of the process of the thread `i`. -/
def State.sameProcess (s : State) (i q : Slot) : Bool := (s.proc q).pid = (s.proc i).pid

/-- `exit` and the `exec` of a sub-thread end no thread that is joined from outside,
and no process is its own parent. `thread_exit` ends the last thread of a process
only while no parent of its slots is in `wait`. `thread_join` sleeps for another
thread that can run. -/
def wakeOk (s : State) : Action → Bool
  | .exitLast i =>
    match s.pc i with
    | .exit .last =>
      s.outlived (s.sameProcess i) ∧
        ((s.proc i).parent ≠ some i ∨ ¬ (s.proc s.initproc).asleep (.proc s.initproc))
    | .threadExit _ .last =>
      (∃ r, r ≠ i ∧ (s.proc r).phase = .alive ∧ (s.proc r).pid = (s.proc i).pid) ∨
        ∀ q p, (q = i ∨ (s.proc q).state = .zombie) → (s.proc q).pid = (s.proc i).pid →
          (s.proc q).parent = some p → ¬ (s.proc p).asleep (.proc p)
    | _ => true
  | .cleanforexec i => (s.proc i).tid = 0 ∨ s.outlived (s.siblings i)
  | .threadJoin i thread =>
    (s.joinFor thread).isSome ∨ (∀ q, (s.proc q).tid ≠ thread) ∨ (s.proc i).killed = true ∨
      ∃ q, q ≠ i ∧ (s.proc q).phase = .alive ∧ (s.proc q).tid = thread
  | _ => true

def WakeOk (s : State) (a : Action) : Prop := idsOk s a = true ∧ wakeOk s a = true

instance (s : State) (a : Action) : Decidable (WakeOk s a) :=
  inferInstanceAs (Decidable (_ ∧ _))

/-! ### Falling asleep -/

/-- Whoever sleeps slept before. -/
def Rests (r r' : Slot → Proc) : Prop := ∀ q chan, (r' q).asleep chan → (r q).asleep chan

namespace Rests

theorem refl (r : Slot → Proc) : Rests r r := fun _ _ h => h

theorem trans {r r' r'' : Slot → Proc} (h : Rests r r') (h' : Rests r' r'') : Rests r r'' :=
  fun q chan hq => h q chan (h' q chan hq)

variable (s : State)

theorem setProc {p : Slot} {f : Proc → Proc}
    (h : ∀ chan, (f (s.proc p)).asleep chan → (s.proc p).asleep chan) :
    Rests s.proc (s.setProc p f).proc := by
  intro q chan hq
  rw [State.setProc_proc] at hq
  split_ifs at hq with hqp
  · rw [hqp] at hq ⊢
    exact h chan hq
  · exact hq

theorem awake {p : Slot} {f : Proc → Proc} (h : (f (s.proc p)).state ≠ .sleeping) :
    Rests s.proc (s.setProc p f).proc := setProc s fun _ hq => absurd hq.1 h

theorem vacate (gone : Slot → Bool) : Rests s.proc (s.vacate gone).proc := by
  intro q chan hq
  dsimp only [State.vacate] at hq
  split_ifs at hq
  · exact Procstate.noConfusion hq.1
  · exact hq

theorem wakeup1 (chan : Chan) : Rests s.proc (s.wakeup1 chan).proc := by
  intro q c hq
  dsimp only [State.wakeup1] at hq
  split_ifs at hq
  · exact Procstate.noConfusion hq.1
  · exact hq

theorem wakeParent (i : Slot) : Rests s.proc (s.wakeParent i).proc := by
  unfold State.wakeParent
  split
  · exact wakeup1 s _
  · exact wakeup1 s _

theorem reparent (i : Slot) : Rests s.proc (s.reparent i).proc := by
  let u : State := { s with
    proc := fun q =>
      if (s.proc q).parent = some i then { s.proc q with parent := some s.initproc }
      else s.proc q }
  have hu : Rests s.proc u.proc := by
    intro q chan hq
    dsimp only [u] at hq
    split_ifs at hq
    · exact hq
    · exact hq
  unfold State.reparent
  dsimp only
  split_ifs
  · exact hu.trans (wakeup1 u _)
  · exact hu

theorem files {s t : State} {i : Slot} (h : OnlyFiles i s t) : Rests s.proc t.proc := by
  obtain ⟨ofile, cwd, hi⟩ := h.own
  intro q chan hq
  by_cases hqi : q = i
  · rw [hqi, hi] at hq
    rw [hqi]
    exact hq
  · rw [h.other q hqi] at hq
    exact hq

theorem copyNext (p np : Slot) (st : CopyStage) : Rests s.proc (s.copyNext p np st).1.proc :=
  files (.copyNext s p np st)

theorem kill (pid : Int) : Rests s.proc (s.kill pid).proc := by
  unfold State.kill
  split
  · exact refl _
  · refine setProc s fun chan hq => ?_
    have hstate := hq.1
    dsimp only at hstate
    split_ifs at hstate with hs
    · exact absurd hstate hs

theorem setUp {s u : State} {np i : Slot} {f : Proc → Proc} {k : Pc} (hu : u.proc = s.proc)
    (h : ∀ r chan, (f r).asleep chan → r.asleep chan) :
    Rests s.proc ((u.setProc np f).setPc i k).proc := by
  have hp := setProc u (p := np) (f := f) fun chan => h _ chan
  rw [hu] at hp
  exact hp

theorem setState (np i : Slot) (k : Pc) {st : Procstate} (hst : st ≠ .sleeping) :
    Rests s.proc ((s.setProc np fun r => { r with state := st }).setPc i k).proc :=
  setUp rfl fun _ _ hq => absurd hq.1 hst

theorem fork (i : Slot) : Rests s.proc (s.fork i).proc := by
  unfold State.fork
  split
  · exact refl _
  · exact setState s _ i _ Procstate.noConfusion

theorem threadCreate {s t : State} {i : Slot} (h : s.threadCreate i = some t) :
    Rests s.proc t.proc := by
  obtain ⟨main, -, h⟩ := Option.map_eq_some_iff.mp h
  split at h
  · cases h
    exact refl _
  · cases h
    exact setState s _ i _ Procstate.noConfusion

theorem forkNext (i np : Slot) (pd : Nat) (st : ForkStage) :
    Rests s.proc (s.forkNext i np pd st).proc := by
  cases st with
  | files st => exact copyNext s i np st
  | pid => exact refl _
  | nextpid n => exact refl _
  | runnable => exact setState s np i _ Procstate.noConfusion
  | _ => exact setUp rfl fun r _ hq => hq

theorem threadNext (i np main : Slot) (enough : Bool) (st : ThreadStage) :
    Rests s.proc (s.threadNext i np main enough st).proc := by
  cases st with
  | limit =>
    unfold State.threadNext
    dsimp only
    split_ifs
    · exact refl _
    · exact refl _
  | alloc =>
    unfold State.threadNext
    dsimp only
    generalize State.allocuvm _ _ enough = sz
    exact setUp rfl fun r _ hq => hq
  | tid => exact refl _
  | nexttid n => exact refl _
  | copyout => exact refl _
  | files st => exact copyNext s main np st
  | runnable => exact setState s np i _ Procstate.noConfusion
  | _ => exact setUp rfl fun r _ hq => hq

theorem exitLast (i : Slot) : Rests s.proc (s.exitLast i).proc := by
  let u := s.vacate (s.siblings i)
  have hu : Rests s.proc ((u.wakeParent i).reparent i).proc :=
    ((vacate s (s.siblings i)).trans (wakeParent u i)).trans (reparent _ i)
  exact hu.trans (setState _ i i _ Procstate.noConfusion)

theorem threadExitLast (i : Slot) (retval : Nat) :
    Rests s.proc (s.threadExitLast i retval).proc := by
  let u := s.setProc i fun r => { r with retval := retval }
  have hu : Rests s.proc (u.wakeup1 (.tid (u.proc i).tid)).proc :=
    (setProc s fun _ hq => hq).trans (wakeup1 u _)
  exact hu.trans (setState _ i i _ Procstate.noConfusion)

theorem cleanforexec (i : Slot) : Rests s.proc (s.cleanforexec i).proc := by
  unfold State.cleanforexec
  split_ifs
  · exact refl _
  · exact vacate s _

theorem growproc {s t : State} {i : Slot} {n : Int} {enough : Bool}
    (h : s.growproc i n enough = some t) : Rests s.proc t.proc := by
  obtain ⟨main, -, h⟩ := Option.map_eq_some_iff.mp h
  dsimp only at h
  split_ifs at h
  all_goals
    cases h
  all_goals
    first
    | exact refl _
    | exact setProc s fun _ hq => hq

theorem setmemorylimit (pid limit : Int) : Rests s.proc (s.setmemorylimit pid limit).2.proc := by
  unfold State.setmemorylimit
  split_ifs
  · exact refl _
  · split
    · exact refl _
    · split_ifs
      · exact refl _
      · exact setProc s fun _ hq => hq

end Rests

/-- The ways to fall asleep. -/
inductive Falls (s : State) (i : Slot) : Action → Chan → Prop where
  | sleep (n : Nat) : Falls s i (.sleep i n) (.other n)
  | wait (hw : s.waitFor i = none) : Falls s i (.wait i) (.proc i)
  | join (thread : Nat) (hj : s.joinFor thread = none) (hp : ∃ p, (s.proc p).tid = thread)
      (hk : (s.proc i).killed = false) : Falls s i (.threadJoin i thread) (.tid thread)

section Steps

variable {s t : State} {a : Action}

/-- Whoever sleeps after a step slept before it on the same channel or goes to sleep. -/
theorem asleep_step (h : step s a = some t) {i : Slot} {chan : Chan}
    (hi : (t.proc i).asleep chan) : (s.proc i).asleep chan ∨ Falls s i a chan := by
  have hrests : Rests s.proc t.proc → (s.proc i).asleep chan ∨ Falls s i a chan :=
    fun hr => Or.inl (hr i chan hi)
  unfold step at h
  split_ifs at h with hlock
  cases a with
  | sched p =>
    dsimp only at h
    split_ifs at h
    cases h
    exact hrests (.awake s Procstate.noConfusion)
  | yield p =>
    dsimp only at h
    split_ifs at h
    cases h
    exact hrests (.awake s Procstate.noConfusion)
  | sleep p n =>
    dsimp only at h
    split_ifs at h
    cases h
    by_cases hip : i = p
    · subst hip
      rw [State.setProc_proc_self] at hi
      obtain rfl := Option.some.inj hi.2
      exact Or.inr (.sleep n)
    · rw [State.setProc_proc_ne _ _ _ _ hip] at hi
      exact Or.inl hi
  | wakeup c =>
    cases h
    exact hrests (.wakeup1 s c)
  | kill pid =>
    cases h
    exact hrests (.kill s pid)
  | fork j =>
    dsimp only at h
    split_ifs at h
    cases h
    exact hrests (.fork s j)
  | allocFail j =>
    dsimp only at h
    split at h
    · split_ifs at h
      cases h
      exact hrests (.setState s _ j _ Procstate.noConfusion)
    · split_ifs at h
      cases h
      exact hrests (.setState s _ j _ Procstate.noConfusion)
    · cases h
  | forkFail j =>
    dsimp only at h
    split at h
    · split_ifs at h
      cases h
      exact hrests (.setUp rfl fun _ _ hq => Procstate.noConfusion hq.1)
    · cases h
  | forkNext j pd =>
    dsimp only at h
    split at h
    · split_ifs at h
      cases h
      exact hrests (.forkNext s j _ pd _)
    · cases h
  | threadCreate j =>
    dsimp only at h
    split_ifs at h
    exact hrests (.threadCreate h)
  | threadNext j enough =>
    dsimp only at h
    split at h
    · split_ifs at h
      cases h
      exact hrests (.threadNext s j _ _ enough _)
    · cases h
  | exit j =>
    dsimp only at h
    split_ifs at h
    cases h
    exact hrests (.refl _)
  | threadExit j retval =>
    dsimp only at h
    split_ifs at h
    cases h
    exact hrests (.refl _)
  | closeNext j =>
    dsimp only at h
    split at h
    · split_ifs at h
      obtain ⟨⟨u, st'⟩, hr, h⟩ := Option.map_eq_some_iff.mp h
      cases h
      have hfiles : Rests s.proc u.proc := .files (.closeNext hr)
      exact hrests hfiles
    · split_ifs at h
      obtain ⟨⟨u, st'⟩, hr, h⟩ := Option.map_eq_some_iff.mp h
      cases h
      have hfiles : Rests s.proc u.proc := .files (.closeNext hr)
      exact hrests hfiles
    · cases h
  | exitLast j =>
    dsimp only at h
    split at h
    · split_ifs at h
      cases h
      exact hrests (.exitLast s j)
    · split_ifs at h
      cases h
      exact hrests (.threadExitLast s j _)
    · cases h
  | wait j =>
    dsimp only at h
    split_ifs at h
    cases h
    cases hw : s.waitFor j with
    | some p =>
      refine hrests fun q c hq => ?_
      by_cases hqp : q = p
      · rw [hqp, wait_self hw] at hq
        exact Procstate.noConfusion hq.1
      · rw [wait_other hw hqp] at hq
        exact hq
    | none =>
      unfold State.wait at hi
      rw [hw] at hi
      dsimp only at hi
      split_ifs at hi
      · exact Or.inl hi
      · by_cases hij : i = j
        · subst hij
          rw [State.setPc_proc, State.setProc_proc_self] at hi
          obtain rfl := Option.some.inj hi.2
          exact Or.inr (.wait hw)
        · rw [State.setPc_proc, State.setProc_proc_ne _ _ _ _ hij] at hi
          exact Or.inl hi
  | threadJoin j thread =>
    dsimp only at h
    split_ifs at h
    cases h
    unfold State.threadJoin at hi
    cases hj : s.joinFor thread with
    | some p =>
      rw [hj] at hi
      exact Or.inl (Rests.vacate s (fun q => q = p) i chan hi)
    | none =>
      rw [hj] at hi
      dsimp only at hi
      split_ifs at hi with hgone
      · exact Or.inl hi
      · by_cases hij : i = j
        · subst hij
          rw [State.setPc_proc, State.setProc_proc_self] at hi
          obtain rfl := Option.some.inj hi.2
          refine Or.inr (.join thread hj ?_ ?_)
          · by_contra hno
            exact hgone (Or.inl fun p hp => hno ⟨p, hp⟩)
          · exact Bool.eq_false_iff.mpr fun hk => hgone (Or.inr hk)
        · rw [State.setPc_proc, State.setProc_proc_ne _ _ _ _ hij] at hi
          exact Or.inl hi
  | exec j pd =>
    dsimp only at h
    split at h
    · split_ifs at h
      cases h
      exact hrests (.refl _)
    · cases h
  | execPut j =>
    dsimp only at h
    split at h
    · split_ifs at h
      cases h
      exact hrests (.refl _)
    · cases h
  | execBad j =>
    dsimp only at h
    split at h
    · split_ifs at h
      cases h
      exact hrests (.refl _)
    · split_ifs at h
      cases h
      exact hrests (.refl _)
    · cases h
  | cleanforexec j =>
    dsimp only at h
    split at h
    · split_ifs at h
      cases h
      exact hrests (.cleanforexec s j)
    · cases h
  | execCommit j sz =>
    dsimp only at h
    split at h
    · split_ifs at h
      obtain ⟨oldpgdir, -, h⟩ := Option.map_eq_some_iff.mp h
      cases h
      exact hrests (.setUp rfl fun _ _ hq => hq)
    · cases h
  | execFree j =>
    dsimp only at h
    split at h
    · split_ifs at h
      cases h
      exact hrests (.refl _)
    · cases h
  | growproc j n enough =>
    dsimp only at h
    split_ifs at h
    exact hrests (.growproc h)
  | setmemorylimit j pid limit =>
    dsimp only at h
    split_ifs at h
    cases h
    exact hrests (.setmemorylimit s pid limit)
  | fsCall j =>
    dsimp only at h
    split_ifs at h
    cases h
    exact hrests (.refl _)
  | fs j op =>
    dsimp only at h
    split at h
    · split_ifs at h
      obtain ⟨⟨u, st'⟩, hr, h⟩ := Option.map_eq_some_iff.mp h
      cases h
      have hfiles : Rests s.proc u.proc := .files (.fsNext hr)
      exact hrests hfiles
    · cases h
  | fsReturn j =>
    dsimp only at h
    split at h
    · split_ifs at h
      cases h
      exact hrests (.refl _)
    · cases h
  | beginOp j =>
    dsimp only at h
    split_ifs at h
    cases h
    exact hrests (.refl _)
  | endOp j =>
    dsimp only at h
    split_ifs at h
    cases h
    exact hrests (.refl _)
  | acquiresleep j l =>
    dsimp only at h
    split_ifs at h
    cases h
    exact hrests (.refl _)
  | releasesleep j l =>
    dsimp only at h
    split_ifs at h
    cases h
    exact hrests (.refl _)

/-! ### Waking up -/

theorem not_asleep_wakeup1 (s : State) (chan : Chan) (q : Slot) :
    ¬ ((s.wakeup1 chan).proc q).asleep chan := by
  intro hq
  dsimp only [State.wakeup1] at hq
  split_ifs at hq with hsleep
  · exact Procstate.noConfusion hq.1
  · exact hsleep hq

/-- `thread_exit` wakes the joiners of its tid. -/
theorem not_asleep_threadExitLast (s : State) (i q : Slot) (retval : Nat) :
    ¬ ((s.threadExitLast i retval).proc q).asleep (.tid (s.proc i).tid) := by
  intro hq
  let u := s.setProc i fun r => { r with retval := retval }
  have htid : (u.proc i).tid = (s.proc i).tid := by rw [State.setProc_proc_self]
  have hrests : Rests (u.wakeup1 (.tid (u.proc i).tid)).proc (s.threadExitLast i retval).proc :=
    Rests.setState _ i i .user Procstate.noConfusion
  have hu := hrests q _ hq
  rw [htid] at hu
  exact not_asleep_wakeup1 u _ q hu

/-- `exit` wakes its parent. -/
theorem not_asleep_exitLast {i p : Slot} (hp : (s.proc i).parent = some p) (q : Slot) :
    ¬ ((s.exitLast i).proc q).asleep (.proc p) := by
  intro hq
  let u := s.vacate (s.siblings i)
  have hself : (u.proc i).parent = some p := by
    rw [vacate_proc_of_not _ (by simp [State.siblings])]
    exact hp
  have hrests : Rests (u.wakeParent i).proc (s.exitLast i).proc :=
    (Rests.reparent _ i).trans (Rests.setState _ i i .user Procstate.noConfusion)
  have hw := hrests q _ hq
  unfold State.wakeParent at hw
  rw [hself] at hw
  exact not_asleep_wakeup1 u _ q hw

/-- It wakes init when init inherits a ZOMBIE. -/
theorem not_asleep_init {i q : Slot} (hq : s.siblings i q = false)
    (hp : (s.proc q).parent = some i) (hz : (s.proc q).state = .zombie) (p : Slot) :
    ¬ ((s.exitLast i).proc p).asleep (.proc s.initproc) := by
  intro hi
  let u := s.vacate (s.siblings i)
  have hw := State.quiet_wakeParent u i
  have hqu : u.proc q = s.proc q := vacate_proc_of_not _ hq
  have hzombie : ((u.wakeParent i).proc q).parent = some i ∧
      ((u.wakeParent i).proc q).state = .zombie := by
    have hsame := hw.proc q
    rw [hqu] at hsame
    exact ⟨hsame.parent.trans hp,
      Proc.phase_zombie.mp (hsame.phase.trans (Proc.phase_zombie.mpr hz))⟩
  have hrests : Rests ((u.wakeParent i).reparent i).proc (s.exitLast i).proc :=
    Rests.setState _ i i .user Procstate.noConfusion
  have hr := hrests p _ hi
  unfold State.reparent at hr
  dsimp only at hr
  rw [if_pos ⟨q, hzombie⟩, hw.initproc] at hr
  exact not_asleep_wakeup1 _ _ p hr

/-! ### The end of a thread -/

/-- How a live thread comes to its end. -/
inductive Ending (s : State) (q : Slot) : Action → Prop where
  | exit (i : Slot) (hi : (s.proc i).state = .running) (hpc : s.pc i = .exit .last)
      (hq : s.sameProcess i q = true) : Ending s q (.exitLast i)
  | threadExit (retval : Nat) (hpc : s.pc q = .threadExit retval .last) : Ending s q (.exitLast q)
  | exec (i : Slot) (hi : (s.proc i).state = .running) (htid : (s.proc i).tid ≠ 0)
      (hq : s.siblings i q = true) : Ending s q (.cleanforexec i)

/-- The thread still runs, under the same numbers. -/
structure Lives (s t : State) (q : Slot) : Prop where
  alive : (t.proc q).phase = .alive
  pid : (t.proc q).pid = (s.proc q).pid
  tid : (t.proc q).tid = (s.proc q).tid

theorem Change.lives {q : Slot} (h : Change s q a t) (hq : (s.proc q).phase = .alive) :
    Ending s q a ∨ Lives s t q := by
  cases h with
  | same h => exact Or.inr ⟨h.phase.trans hq, h.pid, h.tid⟩
  | killed i hi hpc hs h hu =>
    exact Or.inl (.exit i hi hpc (decide_eq_true (of_decide_eq_true hs).1))
  | outlives i hi hpc hs hqi h => exact Or.inr ⟨h.phase.trans hq, h.pid, h.tid⟩
  | exits hi hpc h hu => exact Or.inl (.exit q hi hpc (decide_eq_true rfl))
  | threadExits retval hi hpc h hu => exact Or.inl (.threadExit retval hpc)
  | reaped i hi hw h =>
    have hz := (waitFor_some hw).2
    rw [hq] at hz
    cases hz
  | joined i thread hi hj h =>
    have hz := (joinFor_some hj).2
    rw [hq] at hz
    cases hz
  | cleaned i hi htid hs h hu => exact Or.inl (.exec i hi htid hs)
  | image pd sz hpc h hold => exact Or.inr ⟨by rw [h]; exact hq, by rw [h], by rw [h]⟩
  | mainSz i np enough hpc h => exact Or.inr ⟨by rw [h]; exact hq, by rw [h], by rw [h]⟩
  | growproc i n enough sz hlimit h => exact Or.inr ⟨by rw [h]; exact hq, by rw [h], by rw [h]⟩
  | setmemorylimit i pid limit h0 hp hsz h =>
    exact Or.inr ⟨by rw [h]; exact hq, by rw [h], by rw [h]⟩

theorem not_asleep_clean {r r' : Proc} (h : r.clean.Same r') (chan : Chan) : ¬ r'.asleep chan := by
  intro hr
  have hph : r'.phase = .unused := h.phase
  exact Procstate.noConfusion ((Proc.phase_unused.mp hph).symm.trans hr.1)

theorem exitLast_eq {i : Slot} (hpc : s.pc i = .exit .last) (h : step s (.exitLast i) = some t) :
    t = s.exitLast i := by
  unfold step at h
  dsimp only at h
  rw [hpc] at h
  dsimp only at h
  split_ifs at h
  cases h
  rfl

theorem threadExitLast_eq {i : Slot} {retval : Nat} (hpc : s.pc i = .threadExit retval .last)
    (h : step s (.exitLast i) = some t) : t = s.threadExitLast i retval := by
  unfold step at h
  dsimp only at h
  rw [hpc] at h
  dsimp only at h
  split_ifs at h
  cases h
  rfl

theorem cleanforexec_proc {i : Slot} (h : step s (.cleanforexec i) = some t)
    (htid : (s.proc i).tid ≠ 0) : t.proc = (s.vacate (s.siblings i)).proc := by
  unfold step at h
  dsimp only at h
  split at h
  · cases h
  split at h
  · split_ifs at h
    cases h
    rw [State.setPc_proc, State.cleanforexec, if_neg htid]
  · cases h

theorem WakeOk.exit {i : Slot} (hok : WakeOk s (.exitLast i)) (hpc : s.pc i = .exit .last) :
    s.outlived (s.sameProcess i) ∧
      ((s.proc i).parent ≠ some i ∨ ¬ (s.proc s.initproc).asleep (.proc s.initproc)) := by
  have h := hok.2
  unfold wakeOk at h
  dsimp only at h
  rw [hpc] at h
  exact of_decide_eq_true h

theorem WakeOk.threadExit {i : Slot} {retval : Nat} (hok : WakeOk s (.exitLast i))
    (hpc : s.pc i = .threadExit retval .last) :
    (∃ r, r ≠ i ∧ (s.proc r).phase = .alive ∧ (s.proc r).pid = (s.proc i).pid) ∨
      ∀ q p, (q = i ∨ (s.proc q).state = .zombie) → (s.proc q).pid = (s.proc i).pid →
        (s.proc q).parent = some p → ¬ (s.proc p).asleep (.proc p) := by
  have h := hok.2
  unfold wakeOk at h
  dsimp only at h
  rw [hpc] at h
  exact of_decide_eq_true h

/-! ### Steps that keep the law -/

/-- A thread of a process that exits does not sleep after that. -/
theorem not_sameProcess {i c : Slot} (hc : (s.proc c).state = .running) {chan : Chan}
    (hs : (s.proc i).asleep chan) (ht : ((s.exitLast c).proc i).asleep chan) :
    s.sameProcess c i = false := by
  refine Bool.eq_false_iff.mpr fun hpid => ?_
  by_cases hic : i = c
  · rw [hic] at hs
    exact Procstate.noConfusion (hc.symm.trans hs.1)
  · exact not_asleep_clean (exitLast_sibling (decide_eq_true ⟨of_decide_eq_true hpid, hic⟩)) _ ht

theorem join_step (hs : Sound s) (hl : SleepLaw s) (hok : WakeOk s a) (h : step s a = some t)
    {i : Slot} {n : Nat} (hi : (t.proc i).asleep (.tid n)) :
    ∃ q, q ≠ i ∧ (t.proc q).phase = .alive ∧ (t.proc q).tid = n := by
  have hlives : ∀ q, q ≠ i → (s.proc q).phase = .alive → (s.proc q).tid = n → ¬ Ending s q a →
      ∃ q, q ≠ i ∧ (t.proc q).phase = .alive ∧ (t.proc q).tid = n := by
    intro q hqi hq hqn hend
    have hlive := ((change_effect hs (Or.inl hq) (step_effect h)).lives hq).resolve_left hend
    exact ⟨q, hqi, hlive.alive, hlive.tid.trans hqn⟩
  rcases asleep_step h hi with hsi | hfalls
  · obtain ⟨q, hqi, hq, hqn⟩ := hl.join i n hsi
    by_cases hend : Ending s q a
    · cases hend with
      | exit c hc hpc hqc =>
        rw [exitLast_eq hpc h] at hi
        have hgone := not_sameProcess hc hsi hi
        obtain ⟨r, hri, hrc, hr, hrn⟩ := (hok.exit hpc).1 i q hgone hqc (by rw [hqn]; exact hsi)
        refine hlives r hri hr (hrn.trans hqn) fun hend => ?_
        cases hend with
        | exit _ _ _ hrc' => exact Bool.false_ne_true (hrc.symm.trans hrc')
        | threadExit retval hpc' =>
          rw [hpc] at hpc'
          cases hpc'
      | threadExit retval hpc =>
        rw [threadExitLast_eq hpc h, ← hqn] at hi
        exact absurd hi (not_asleep_threadExitLast s q i retval)
      | exec c hc htid hqc =>
        rw [cleanforexec_proc h htid] at hi
        have hgone : s.siblings c i = false :=
          Bool.eq_false_iff.mpr fun hic => not_asleep_clean (vacate_proc _ hic) _ hi
        have hout := (of_decide_eq_true hok.2).resolve_left htid
        obtain ⟨r, hri, hrc, hr, hrn⟩ := hout i q hgone hqc (by rw [hqn]; exact hsi)
        refine hlives r hri hr (hrn.trans hqn) fun hend => ?_
        cases hend with
        | exec _ _ _ hrc' => exact Bool.false_ne_true (hrc.symm.trans hrc')
    · exact hlives q hqi hq hqn hend
  · cases hfalls with
    | join thread hj hp hk =>
      rcases of_decide_eq_true hok.2 with hjoin | hnone | hkilled | ⟨q, hqi, hq, hqn⟩
      · rw [hj] at hjoin
        cases hjoin
      · obtain ⟨p, hp⟩ := hp
        exact absurd hp (hnone p)
      · exact absurd (hk.symm.trans hkilled) Bool.false_ne_true
      · exact hlives q hqi hq hqn fun hend => by cases hend

/-- A slot that is ZOMBIE after a step was in use before it. -/
theorem started_of_zombie (h : step s a = some t) {q : Slot} (hz : (t.proc q).state = .zombie) :
    s.started q := by
  rcases born_effect (step_effect h) (Or.inr (Proc.phase_zombie.mpr hz)) with hq | hborn
  · exact hq
  · cases hborn with
    | fork i pd hrun hpc =>
      rw [State.forkNext, State.setPc_proc, State.setProc_proc_self] at hz
      cases hz
    | thread i main enough hrun hpc =>
      rw [State.threadNext, State.setPc_proc, State.setProc_proc_self] at hz
      cases hz

theorem not_zombie_clean {r r' : Proc} (h : r.clean.Same r') : r'.state ≠ .zombie := by
  intro hz
  have hph : r'.phase = .unused := h.phase
  exact Procstate.noConfusion ((Proc.phase_unused.mp hph).symm.trans hz)

/-- A ZOMBIE keeps its parent, or init inherits it. -/
theorem Change.zombie_parent {q : Slot} (h : Change s q a t) (hz : (s.proc q).state = .zombie)
    (hzt : (t.proc q).state = .zombie) :
    (t.proc q).parent = (s.proc q).parent ∨
      ∃ i, a = .exitLast i ∧ s.pc i = .exit .last ∧ s.siblings i q = false ∧
        (s.proc q).parent = some i ∧ (t.proc q).parent = some s.initproc := by
  cases h with
  | same h => exact Or.inl h.parent
  | killed i hi hpc hs h hu => exact absurd hzt (not_zombie_clean h)
  | outlives i hi hpc hs hqi h =>
    have hp : (t.proc q).parent = s.heir i q := h.parent
    unfold State.heir at hp
    split_ifs at hp with hpi
    · exact Or.inr ⟨i, rfl, hpc, hs, hpi, hp⟩
    · exact Or.inl hp
  | exits hi hpc h hu =>
    rw [hi] at hz
    cases hz
  | threadExits retval hi hpc h hu => exact Or.inl h.parent
  | reaped i hi hw h =>
    have hph : (t.proc q).phase = .unused := h.phase
    exact Procstate.noConfusion ((Proc.phase_unused.mp hph).symm.trans hzt)
  | joined i thread hi hj h => exact absurd hzt (not_zombie_clean h)
  | cleaned i hi htid hs h hu => exact absurd hzt (not_zombie_clean h)
  | image pd sz hpc h hold => exact Or.inl (by rw [h])
  | mainSz i np enough hpc h => exact Or.inl (by rw [h])
  | growproc i n enough sz hlimit h => exact Or.inl (by rw [h])
  | setmemorylimit i pid limit h0 hp hsz h => exact Or.inl (by rw [h])

/-- The ZOMBIEs of a process go with its threads. -/
theorem Ending.not_zombie (h : step s a = some t) {q r : Slot} (hend : Ending s r a)
    (hpid : (s.proc r).pid = (s.proc q).pid) (hz : (s.proc q).state = .zombie)
    (hzt : (t.proc q).state = .zombie) :
    ∃ retval, s.pc r = .threadExit retval .last ∧ a = .exitLast r := by
  have hsib : ∀ i, (s.proc i).state = .running → (s.proc r).pid = (s.proc i).pid →
      s.siblings i q = true := by
    rintro i hi hri
    refine decide_eq_true ⟨hpid.symm.trans hri, ?_⟩
    rintro rfl
    exact Procstate.noConfusion (hi.symm.trans hz)
  cases hend with
  | exit i hi hpc hq =>
    rw [exitLast_eq hpc h] at hzt
    exact absurd hzt (not_zombie_clean (exitLast_sibling (hsib i hi (of_decide_eq_true hq))))
  | threadExit retval hpc => exact ⟨retval, hpc, rfl⟩
  | exec i hi htid hq =>
    rw [cleanforexec_proc h htid] at hzt
    exact absurd hzt (not_zombie_clean (vacate_proc _ (hsib i hi (of_decide_eq_true hq).1)))

/-- A process that has a thread beside the one that ends. -/
theorem processAlive_threadExit (hs : Sound s) {c q r : Slot} {retval : Nat}
    (hpc : s.pc c = .threadExit retval .last) (h : step s (.exitLast c) = some t) (hrc : r ≠ c)
    (hr : (s.proc r).phase = .alive) (hpid : (s.proc r).pid = (t.proc q).pid) :
    t.processAlive q := by
  have hlive := ((change_effect hs (Or.inl hr) (step_effect h)).lives hr).resolve_left ?_
  · exact ⟨r, hlive.alive, hlive.pid.trans hpid⟩
  · intro hend
    cases hend with
    | exit _ _ hpc' _ =>
      rw [hpc] at hpc'
      cases hpc'
    | threadExit _ _ => exact hrc rfl

/-- The parent of a thread that becomes a ZOMBIE. -/
theorem wait_ending (hs : Sound s) (hok : WakeOk s a) (h : step s a = some t) {i q : Slot}
    (hsi : (s.proc i).asleep (.proc i)) (hi : (t.proc i).asleep (.proc i))
    (hp : (t.proc q).parent = some i) (hz : (t.proc q).state = .zombie) (hend : Ending s q a) :
    t.processAlive q := by
  cases hend with
  | exit c hc hpc hqc =>
    rw [exitLast_eq hpc h] at hi hp hz
    by_cases hq : q = c
    · subst hq
      have hheir : s.heir q q = some i := exitLast_self.parent.symm.trans hp
      unfold State.heir at hheir
      split_ifs at hheir with hself
      · obtain rfl := Option.some.inj hheir
        rcases (hok.exit hpc).2 with hne | hinit
        · exact absurd hself hne
        · exact absurd hsi hinit
      · exact absurd hi (not_asleep_exitLast hheir i)
    · have hsib : s.siblings c q = true := decide_eq_true ⟨of_decide_eq_true hqc, hq⟩
      exact absurd hz (not_zombie_clean (exitLast_sibling hsib))
  | threadExit retval hpc =>
    have hself := threadExitLast_self s q retval
    rw [← threadExitLast_eq hpc h] at hself
    have hps : (s.proc q).parent = some i := hself.parent.symm.trans hp
    rcases hok.threadExit hpc with ⟨r, hrq, hr, hpid⟩ | hnone
    · exact processAlive_threadExit hs hpc h hrq hr (hpid.trans hself.pid.symm)
    · exact absurd hsi (hnone q i (Or.inl rfl) rfl hps)
  | exec c hc htid hqc =>
    rw [cleanforexec_proc h htid] at hz
    exact absurd hz (not_zombie_clean (vacate_proc _ hqc))

/-- The parent of a slot that was a ZOMBIE before. -/
theorem wait_zombie (hs : Sound s) (hl : SleepLaw s) (hok : WakeOk s a) (h : step s a = some t)
    {i q : Slot} (hsi : (s.proc i).asleep (.proc i)) (hi : (t.proc i).asleep (.proc i))
    (hp : (t.proc q).parent = some i) (hz : (s.proc q).state = .zombie)
    (hzt : (t.proc q).state = .zombie) : t.processAlive q := by
  have hq : s.started q := Or.inr (Proc.phase_zombie.mpr hz)
  have he := step_effect h
  have hpid : (t.proc q).pid = (s.proc q).pid :=
    (hs.stays he hq (Or.inr (Proc.phase_zombie.mpr hzt))).pid
  rcases (change_effect hs hq he).zombie_parent hz hzt with hparent | ⟨c, ha, hpc, hsib, hpc', hp'⟩
  · obtain ⟨r, hr, hrq⟩ := hl.wait i q hsi (hparent.symm.trans hp) hz
    by_cases hend : Ending s r a
    · obtain ⟨retval, hpc, ha⟩ := hend.not_zombie h hrq hz hzt
      subst ha
      rcases hok.threadExit hpc with ⟨r', hne, hr', hpid'⟩ | hnone
      · exact processAlive_threadExit hs hpc h hne hr' (hpid'.trans (hrq.trans hpid.symm))
      · exact absurd hsi (hnone q i (Or.inr hz) hrq.symm (hparent.symm.trans hp))
    · have hlive := ((change_effect hs (Or.inl hr) he).lives hr).resolve_left hend
      exact ⟨r, hlive.alive, hlive.pid.trans (hrq.trans hpid.symm)⟩
  · subst ha
    obtain rfl : i = s.initproc := Option.some.inj (hp.symm.trans hp')
    rw [exitLast_eq hpc h] at hi
    exact absurd hi (not_asleep_init hsib hpc' hz _)

theorem wait_step (hs : Sound s) (hl : SleepLaw s) (hok : WakeOk s a) (h : step s a = some t)
    {i q : Slot} (hi : (t.proc i).asleep (.proc i)) (hp : (t.proc q).parent = some i)
    (hz : (t.proc q).state = .zombie) : t.processAlive q := by
  have hq := started_of_zombie h hz
  have hc := change_effect hs hq (step_effect h)
  -- a thread that becomes a ZOMBIE in this step, or one that was a ZOMBIE
  have hcase : Ending s q a ∨ (s.proc q).state = .zombie := by
    rcases hq with hq | hq
    · rcases hc.lives hq with hend | hlive
      · exact Or.inl hend
      · have hph := hlive.alive
        rw [Proc.phase_zombie.mpr hz] at hph
        cases hph
    · exact Or.inr (Proc.phase_zombie.mp hq)
  rcases asleep_step h hi with hsi | hfalls
  · rcases hcase with hend | hzs
    · exact wait_ending hs hok h hsi hi hp hz hend
    · exact wait_zombie hs hl hok h hsi hi hp hzs hz
  · cases hfalls with
    | wait hw =>
      rcases hcase with hend | hzs
      · cases hend
      · rcases hc.zombie_parent hzs hz with hparent | ⟨c, ha, -⟩
        · have hno := List.find?_eq_none.mp hw q (List.mem_finRange q)
          exact absurd (decide_eq_true ⟨hparent.symm.trans hp, hzs⟩) hno
        · cases ha

theorem sleepLaw_step (hs : Sound s) (hl : SleepLaw s) (hok : WakeOk s a) (h : step s a = some t) :
    SleepLaw t :=
  ⟨fun _ _ hi hp hz => wait_step hs hl hok h hi hp hz, fun _ _ hi => join_step hs hl hok h hi⟩

end Steps

/-! ### Runs -/

theorem sleepLaw_userinit : SleepLaw userinit := by
  have hawake : ∀ i chan, ¬ (userinit.proc i).asleep chan := by
    intro i chan hi
    have hstate := hi.1
    dsimp only [userinit] at hstate
    rw [Function.update_apply] at hstate
    split_ifs at hstate
    cases hstate
  exact ⟨fun i _ hi => absurd hi (hawake i _), fun i _ hi => absurd hi (hawake i _)⟩

/-- And a thread that ends with `thread_exit` wakes whoever joins it. -/
theorem sleepLaw_of_reach {s : State} (hr : Reach step WakeOk userinit s) :
    SleepLaw s ∧ ∀ q retval t, s.pc q = .threadExit retval .last → step s (.exitLast q) = some t →
      ∀ i, ¬ (t.proc i).asleep (.tid (s.proc q).tid) := by
  have hinv : Sound s ∧ SleepLaw s := by
    refine hr.invariant (I := fun s => Sound s ∧ SleepLaw s)
      ⟨sound_userinit, sleepLaw_userinit⟩ ?_
    intro u a v ⟨hu, hl⟩ hok hv
    exact ⟨hu.step hok.1 hv, sleepLaw_step hu hl hok hv⟩
  refine ⟨hinv.2, fun q retval t hpc ht i => ?_⟩
  rw [threadExitLast_eq hpc ht]
  exact not_asleep_threadExitLast s q i retval

-- The process joins its thread, and init waits for the process.
def bothAsleep : State :=
  (run (guarded step WakeOk) userinit
    (processAndThread ++ [.threadJoin 1 1, .sched 0, .wait 0])).getD userinit

theorem sleepLaw_of_reach_asleep : SleepLaw bothAsleep ∧
    (bothAsleep.proc 0).asleep (.proc 0) ∧ (bothAsleep.proc 1).asleep (.tid 1) :=
  ⟨(sleepLaw_of_reach (reach_of_guarded_run (eq_some_getD (by decide +kernel)))).1,
    by decide +kernel, by decide +kernel⟩

-- init waits for a process whose only thread calls thread_exit.
def parentLeftAsleep : State :=
  (run (guarded step fun s a => idsOk s a = true) userinit
    (.sched 0 :: forkSteps 0 1 0 ++ [.wait 0, .sched 1] ++ threadExitSteps 1 0 0)).getD userinit

theorem not_sleepLaw_of_reach :
    ¬ ∀ s, Reach step (fun s a => idsOk s a = true) userinit s → SleepLaw s := by
  intro hall
  have hlaw := hall parentLeftAsleep (reach_of_guarded_run (eq_some_getD (by decide +kernel)))
  have halive : parentLeftAsleep.processAlive 1 :=
    hlaw.wait 0 1 (by decide +kernel) (by decide +kernel) (by decide +kernel)
  have hended : ¬ parentLeftAsleep.processAlive 1 := by decide +kernel
  exact hended halive

end Xv6.Threads
