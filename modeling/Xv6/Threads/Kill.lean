import Xv6.Threads.Sound

/-!
# kill and trap (project2/proc.c:503-521, trap.c:36-112)

`kill` marks the first slot of the table with the pid. The mark stays until the slot is
freed, and a marked thread calls `exit` on its way back to user space.
-/

namespace Xv6.Threads

open Mlfq (NPROC Slot Procstate)
open Transition

/-- The value that `kill` returns. -/
def State.killValue (s : State) (pid : Int) : Int :=
  match (List.finRange NPROC).find? fun p => (s.proc p).pid = pid with
  | none => -1
  | some _ => 0

-- if(myproc()->killed) exit(); in trap(), before the return to user space.
def State.trap (s : State) (i : Slot) : Option State :=
  if (s.proc i).killed then step s (.exit i) else some s

/-! ### Who changes the flag -/

/-- The flags `killed` are the same. -/
def SameKilled (s t : State) : Prop := ∀ q, (t.proc q).killed = (s.proc q).killed

section SameKilled

variable {s t u : State}

theorem SameKilled.refl (s : State) : SameKilled s s := fun _ => rfl

theorem SameKilled.trans (h : SameKilled s t) (h' : SameKilled t u) : SameKilled s u :=
  fun q => (h' q).trans (h q)

theorem SameKilled.of_proc (h : SameKilled s t) (hp : u.proc = t.proc) : SameKilled s u := by
  intro q
  rw [hp]
  exact h q

theorem sameKilled_setProc {p : Slot} {f : Proc → Proc}
    (hf : (f (s.proc p)).killed = (s.proc p).killed) : SameKilled s (s.setProc p f) := by
  intro q
  rw [State.setProc_proc]
  split_ifs with hq
  · rw [hq, hf]
  · rfl

theorem sameKilled_setUp {np i : Slot} {f : Proc → Proc} {k : Pc} (hu : u.proc = s.proc)
    (hf : (f (s.proc np)).killed = (s.proc np).killed) :
    SameKilled s ((u.setProc np f).setPc i k) := by
  have hset : SameKilled u (u.setProc np f) := sameKilled_setProc (by rw [hu, hf])
  intro q
  rw [← hu]
  exact hset q

theorem sameKilled_wakeup1 (s : State) (chan : Chan) : SameKilled s (s.wakeup1 chan) := by
  intro q
  unfold State.wakeup1
  dsimp only
  split_ifs <;> rfl

theorem sameKilled_wakeParent (s : State) (i : Slot) : SameKilled s (s.wakeParent i) := by
  unfold State.wakeParent
  split
  · apply sameKilled_wakeup1
  · apply sameKilled_wakeup1

theorem sameKilled_reparent (s : State) (i : Slot) : SameKilled s (s.reparent i) := by
  have hset : SameKilled s { s with
      proc := fun q =>
        if (s.proc q).parent = some i then { s.proc q with parent := some s.initproc }
        else s.proc q } := by
    intro q
    dsimp only
    split_ifs <;> rfl
  unfold State.reparent
  dsimp only
  split_ifs
  · exact hset.trans (sameKilled_wakeup1 _ _)
  · exact hset

theorem sameKilled_files {i : Slot} (h : OnlyFiles i s t) : SameKilled s t := by
  obtain ⟨ofile, cwd, hi⟩ := h.own
  intro q
  by_cases hq : q = i
  · rw [hq, hi]
  · rw [h.other q hq]

theorem sameKilled_copyNext (s : State) (p np : Slot) (st : CopyStage) :
    SameKilled s (s.copyNext p np st).1 := sameKilled_files (.copyNext s p np st)

theorem sameKilled_forkNext (s : State) (i np : Slot) (pd : Nat) (st : ForkStage) :
    SameKilled s (s.forkNext i np pd st) := by
  cases st with
  | files st => exact (sameKilled_copyNext s i np st).of_proc rfl
  | pid => exact .refl s
  | nextpid n => exact .refl s
  | _ => exact sameKilled_setUp rfl rfl

theorem sameKilled_threadNext (s : State) (i np main : Slot) (enough : Bool) (st : ThreadStage) :
    SameKilled s (s.threadNext i np main enough st) := by
  cases st with
  | files st => exact (sameKilled_copyNext s main np st).of_proc rfl
  | limit =>
    unfold State.threadNext
    dsimp only
    split_ifs <;> exact .refl s
  | tid => exact .refl s
  | nexttid n => exact .refl s
  | copyout => exact .refl s
  | _ => exact sameKilled_setUp rfl rfl

theorem sameKilled_zombie (s : State) (i : Slot) :
    SameKilled s (s.setProc i fun r => { r with state := .zombie }) := sameKilled_setProc rfl

theorem sameKilled_threadExitLast (s : State) (i : Slot) (retval : Nat) :
    SameKilled s (s.threadExitLast i retval) := by
  have hset : SameKilled s (s.setProc i fun r => { r with retval := retval }) :=
    sameKilled_setProc rfl
  let u := s.setProc i fun r => { r with retval := retval }
  have hwake := hset.trans (sameKilled_wakeup1 u (.tid (u.proc i).tid))
  exact hwake.trans (sameKilled_zombie _ i)

theorem sameKilled_growproc {i : Slot} {n : Int} {enough : Bool}
    (h : s.growproc i n enough = some t) : SameKilled s t := by
  obtain ⟨main, -, h⟩ := Option.map_eq_some_iff.mp h
  dsimp only at h
  split_ifs at h
  all_goals subst h
  all_goals first | exact .refl s | exact sameKilled_setProc rfl

theorem sameKilled_setmemorylimit (s : State) (pid limit : Int) :
    SameKilled s (s.setmemorylimit pid limit).2 := by
  unfold State.setmemorylimit
  split_ifs
  · exact .refl s
  · split
    · exact .refl s
    · split_ifs
      · exact .refl s
      · dsimp only
        apply sameKilled_setProc
        rfl

end SameKilled

/-- What a step does to the flag of the slot `q`. -/
inductive Marked (s t : State) (q : Slot) : Action → Prop where
  | same {a : Action} (h : (t.proc q).killed = (s.proc q).killed) : Marked s t q a
  | freed {a : Action} (hf : s.frees a q = true) (h : (t.proc q).killed = false) : Marked s t q a
  | kill (pid : Int) (hq : (List.finRange NPROC).find? (fun p => (s.proc p).pid = pid) = some q)
      (h : (t.proc q).killed = true) : Marked s t q (.kill pid)

section Marked

variable {s t : State} {a : Action} {q : Slot}

theorem SameKilled.marked (h : SameKilled s t) : Marked s t q a := .same (h q)

theorem vacate_killed (s : State) (gone : Slot → Bool) (q : Slot) :
    ((s.vacate gone).proc q).killed = if gone q then false else (s.proc q).killed := by
  unfold State.vacate
  dsimp only
  split_ifs <;> rfl

theorem marked_kill (s : State) (pid : Int) (q : Slot) : Marked s (s.kill pid) q (.kill pid) := by
  unfold State.kill
  split
  · exact .same rfl
  · next p hp =>
    by_cases hq : q = p
    · subst hq
      exact .kill pid hp (by rw [State.setProc_proc_self])
    · exact .same (by rw [State.setProc_proc_ne _ _ _ _ hq])

theorem exitLast_killed (s : State) (i q : Slot) :
    ((s.exitLast i).proc q).killed = if s.siblings i q then false else (s.proc q).killed := by
  have hleft := (sameKilled_wakeParent (s.vacate (s.siblings i)) i).trans (sameKilled_reparent _ i)
  have hq := (hleft.trans (sameKilled_zombie _ i)) q
  rw [vacate_killed] at hq
  unfold State.exitLast
  dsimp only
  rw [State.setPc_proc]
  exact hq

theorem marked_wait (s : State) (i q : Slot) : Marked s (s.wait i) q (.wait i) := by
  cases hw : s.waitFor i with
  | some p =>
    by_cases hq : q = p
    · subst hq
      refine .freed (decide_eq_true hw) ?_
      rw [wait_self hw]
      rfl
    · exact .same (by rw [wait_other hw hq])
  | none =>
    apply SameKilled.marked
    unfold State.wait
    rw [hw]
    dsimp only
    split_ifs
    · exact .refl s
    · exact sameKilled_setUp rfl rfl

theorem marked_threadJoin (s : State) (i q : Slot) (thread : Nat) :
    Marked s (s.threadJoin i thread).2 q (.threadJoin i thread) := by
  unfold State.threadJoin
  cases hj : s.joinFor thread with
  | some p =>
    have hkilled := vacate_killed s (fun r => r = p) q
    by_cases hq : q = p
    · rw [if_pos (decide_eq_true hq)] at hkilled
      exact .freed (decide_eq_true (by rw [hj, hq])) hkilled
    · rw [if_neg (by simp [hq])] at hkilled
      exact .same hkilled
  | none =>
    apply SameKilled.marked
    dsimp only
    split_ifs
    · exact .refl s
    · exact sameKilled_setUp rfl rfl

theorem marked_step (h : step s a = some t) (q : Slot) : Marked s t q a := by
  unfold step at h
  split_ifs at h with hlock
  cases a with
  | kill pid =>
    cases h
    exact marked_kill s pid q
  | wait i =>
    dsimp only at h
    split_ifs at h
    cases h
    exact marked_wait s i q
  | threadJoin i thread =>
    dsimp only at h
    split_ifs at h
    cases h
    exact marked_threadJoin s i q thread
  | exitLast i =>
    dsimp only at h
    split at h
    · next hpc =>
      split_ifs at h
      cases h
      have hkilled := exitLast_killed s i q
      cases hsib : s.siblings i q with
      | true =>
        rw [hsib, if_pos rfl] at hkilled
        exact .freed (decide_eq_true ⟨hpc, hsib⟩) hkilled
      | false =>
        rw [hsib] at hkilled
        exact .same hkilled
    · next retval hpc =>
      split_ifs at h
      cases h
      exact (sameKilled_threadExitLast s i retval).marked
    · cases h
  | cleanforexec i =>
    dsimp only at h
    split at h
    · next pd hpc =>
      split_ifs at h
      cases h
      unfold State.cleanforexec
      split_ifs with htid
      · exact .same rfl
      · have hkilled := vacate_killed s (s.siblings i) q
        cases hsib : s.siblings i q with
        | true =>
          rw [hsib, if_pos rfl] at hkilled
          exact .freed (decide_eq_true ⟨htid, hsib⟩) hkilled
        | false =>
          rw [hsib] at hkilled
          exact .same hkilled
    · cases h
  | fork i =>
    dsimp only at h
    split_ifs at h
    cases h
    apply SameKilled.marked
    unfold State.fork
    split
    · exact .refl s
    · exact sameKilled_setUp rfl rfl
  | threadCreate i =>
    dsimp only at h
    split_ifs at h
    obtain ⟨main, -, h⟩ := Option.map_eq_some_iff.mp h
    apply SameKilled.marked
    split at h
    · cases h
      exact .refl s
    · cases h
      exact sameKilled_setUp rfl rfl
  | execCommit i sz =>
    dsimp only at h
    split at h
    · split_ifs at h
      obtain ⟨oldpgdir, -, h⟩ := Option.map_eq_some_iff.mp h
      cases h
      apply SameKilled.marked
      exact sameKilled_setUp rfl rfl
    · cases h
  | growproc i n enough =>
    dsimp only at h
    split_ifs at h
    exact (sameKilled_growproc h).marked
  | allocFail i =>
    dsimp only at h
    split at h
    · split_ifs at h
      cases h
      apply SameKilled.marked
      exact sameKilled_setUp rfl rfl
    · split_ifs at h
      cases h
      apply SameKilled.marked
      exact sameKilled_setUp rfl rfl
    · cases h
  | forkFail i =>
    dsimp only at h
    split at h
    · split_ifs at h
      cases h
      apply SameKilled.marked
      exact sameKilled_setUp rfl rfl
    · cases h
  | forkNext i pd =>
    dsimp only at h
    split at h
    · split_ifs at h
      cases h
      exact (sameKilled_forkNext s i _ pd _).marked
    · cases h
  | threadNext i enough =>
    dsimp only at h
    split at h
    · split_ifs at h
      cases h
      exact (sameKilled_threadNext s i _ _ enough _).marked
    · cases h
  | closeNext i =>
    dsimp only at h
    split at h
    · split_ifs at h
      obtain ⟨⟨u, st'⟩, hr, h⟩ := Option.map_eq_some_iff.mp h
      cases h
      exact .same (sameKilled_files (.closeNext hr) q)
    · split_ifs at h
      obtain ⟨⟨u, st'⟩, hr, h⟩ := Option.map_eq_some_iff.mp h
      cases h
      exact .same (sameKilled_files (.closeNext hr) q)
    · cases h
  | fs i op =>
    dsimp only at h
    split at h
    · split_ifs at h
      obtain ⟨⟨u, st'⟩, hr, h⟩ := Option.map_eq_some_iff.mp h
      cases h
      exact .same (sameKilled_files (.fsNext hr) q)
    · cases h
  | fsReturn i | exec i pd =>
    dsimp only at h
    split at h
    · split_ifs at h
      cases h
      exact .same rfl
    · cases h
  | execPut i =>
    dsimp only at h
    split at h
    · split_ifs at h
      cases h
      exact .same rfl
    · cases h
  | execBad i =>
    dsimp only at h
    split at h
    · split_ifs at h
      cases h
      exact .same rfl
    · split_ifs at h
      cases h
      exact .same rfl
    · cases h
  | execFree i =>
    dsimp only at h
    split at h
    · split_ifs at h
      cases h
      exact .same rfl
    · cases h
  | wakeup chan =>
    cases h
    exact (sameKilled_wakeup1 s chan).marked
  | setmemorylimit i pid limit =>
    dsimp only at h
    split_ifs at h
    cases h
    exact (sameKilled_setmemorylimit s pid limit).marked
  | sched p | yield p | sleep p n =>
    dsimp only at h
    split_ifs at h
    cases h
    apply SameKilled.marked
    apply sameKilled_setProc
    rfl
  | exit i | threadExit i retval | fsCall i | beginOp i | endOp i | acquiresleep i l
  | releasesleep i l =>
    dsimp only at h
    split_ifs at h
    cases h
    exact .same rfl

end Marked

/-! ### What kill is for -/

/-- The whole process goes with the thread `p`. -/
structure State.Dies (s : State) (p : Slot) : Prop where
  traps : s.trap p = step s (.exit p)
  alone : ∀ t, s.pc p = .exit .last → step s (.exitLast p) = some t →
    (t.proc p).state = .zombie ∧
      ∀ q, q ≠ p → (t.proc q).pid = (t.proc p).pid → (t.proc q).state = .unused

/-- `t` comes from `s` by a `kill` that hits the thread `p`. From then on, as long as
the slot is not freed, the thread ends the process when it returns to user space. -/
structure Hits (s : State) (pid : Int) (t : State) (p : Slot) : Prop where
  alive : (s.proc p).phase = .alive
  pid : (s.proc p).pid = pid
  killed : (t.proc p).killed = true
  awake : (s.proc p).state = .sleeping → (t.proc p).state = .runnable
  dies : ∀ u, Reach step (fun v a => v.frees a p = false) t u → u.Dies p

/-- `kill` returns 0 only after it has hit a thread of the process. -/
def KillLaw (s : State) (pid : Int) : Prop :=
  s.killValue pid = 0 → ∃ p, Hits s pid (s.kill pid) p

/-- The first slot with the pid is a thread that can run, or such a thread is killed
already and does not sleep. -/
def State.killable (s : State) (pid : Int) : Prop :=
  ∃ p, (s.proc p).phase = .alive ∧ (s.proc p).pid = pid ∧
    ((List.finRange NPROC).find? (fun q => (s.proc q).pid = pid) = some p ∨
      (s.proc p).killed = true ∧ (s.proc p).state ≠ .sleeping)

instance (s : State) (pid : Int) : Decidable (s.killable pid) :=
  inferInstanceAs (Decidable (∃ _, _))

section Law

variable {s t : State} {p : Slot} {pid : Int}

/-- `exit` leaves no other slot of the process in use. -/
theorem exitLast_alone (hpc : s.pc p = .exit .last) (h : step s (.exitLast p) = some t) :
    (t.proc p).state = .zombie ∧
      ∀ q, q ≠ p → (t.proc q).pid = (t.proc p).pid → (t.proc q).state = .unused := by
  have ht : t = s.exitLast p := by
    unfold step at h
    dsimp only at h
    rw [hpc] at h
    dsimp only at h
    split_ifs at h
    cases h
    rfl
  subst ht
  have hself := exitLast_self (s := s) (i := p)
  refine ⟨Proc.phase_zombie.mp hself.phase, ?_⟩
  intro q hq hpid
  cases hsib : s.siblings p q with
  | true => exact Proc.phase_unused.mp (exitLast_sibling hsib).phase
  | false =>
    have hother := exitLast_other hsib hq
    rw [hother.pid, hself.pid] at hpid
    have hnot : ¬ ((s.proc q).pid = (s.proc p).pid ∧ q ≠ p) := of_decide_eq_false hsib
    exact absurd ⟨hpid, hq⟩ hnot

theorem killed_of_reach (hr : Reach step (fun v a => v.frees a p = false) s t)
    (hk : (s.proc p).killed = true) : (t.proc p).killed = true := by
  apply hr.invariant (I := fun v => (v.proc p).killed = true) hk
  intro u a v hu hok hv
  cases marked_step hv p with
  | same h => rw [h, hu]
  | freed hf h =>
    rw [hok] at hf
    cases hf
  | kill pid hq h => exact h

theorem dies_of_killed (hk : (s.proc p).killed = true) : s.Dies p := by
  refine ⟨?_, fun t hpc h => exitLast_alone hpc h⟩
  unfold State.trap
  rw [if_pos hk]

theorem kill_self (h : (List.finRange NPROC).find? (fun q => (s.proc q).pid = pid) = some p) :
    ((s.kill pid).proc p).killed = true ∧
      ((s.proc p).state = .sleeping → ((s.kill pid).proc p).state = .runnable) := by
  unfold State.kill
  rw [h]
  dsimp only
  rw [State.setProc_proc_self]
  refine ⟨rfl, ?_⟩
  intro hsleep
  exact if_pos hsleep

theorem kill_other (h : (List.finRange NPROC).find? (fun q => (s.proc q).pid = pid) ≠ some p) :
    (s.kill pid).proc p = s.proc p := by
  unfold State.kill
  split
  · rfl
  · next q hq =>
    apply State.setProc_proc_ne
    intro hp
    rw [hq, hp] at h
    exact h rfl

theorem killValue_of_pid (hp : (s.proc p).pid = pid) : s.killValue pid = 0 := by
  unfold State.killValue
  split
  · next hnone =>
    have hno := List.find?_eq_none.mp hnone p (List.mem_finRange p)
    simp [hp] at hno
  · rfl

/-- `kill` of a process with a thread that can run is effective exactly where the
process is killable. -/
theorem killLaw_iff (s : State) (pid : Int)
    (hp : ∃ p, (s.proc p).phase = .alive ∧ (s.proc p).pid = pid) :
    KillLaw s pid ↔ s.killable pid := by
  obtain ⟨r, -, hr⟩ := hp
  have hvalue : s.killValue pid = 0 := killValue_of_pid hr
  constructor
  · intro hlaw
    obtain ⟨p, hhit⟩ := hlaw hvalue
    refine ⟨p, hhit.alive, hhit.pid, ?_⟩
    by_cases hfirst : (List.finRange NPROC).find? (fun q => (s.proc q).pid = pid) = some p
    · exact Or.inl hfirst
    · right
      have hkept := kill_other hfirst
      have hkilled := hhit.killed
      rw [hkept] at hkilled
      refine ⟨hkilled, ?_⟩
      intro hsleep
      have hawake := hhit.awake hsleep
      rw [hkept, hsleep] at hawake
      cases hawake
  · intro hkillable _
    obtain ⟨p, halive, hpid, hp⟩ := hkillable
    have hmark : ((s.kill pid).proc p).killed = true ∧
        ((s.proc p).state = .sleeping → ((s.kill pid).proc p).state = .runnable) := by
      by_cases hfirst : (List.finRange NPROC).find? (fun q => (s.proc q).pid = pid) = some p
      · exact kill_self hfirst
      · obtain ⟨hkilled, hsleep⟩ := hp.resolve_left hfirst
        rw [kill_other hfirst]
        exact ⟨hkilled, fun h => absurd h hsleep⟩
    exact ⟨p, halive, hpid, hmark.1, hmark.2,
      fun u hu => dies_of_killed (killed_of_reach hu hmark.1)⟩

end Law

-- Process 1 runs in slot 1, and its thread in slot 2 has not run yet.
def twoThreads : State := (run step userinit processAndThread).getD userinit

/-- The first slot of the process 1 is the main thread's. -/
theorem killLaw_iff_twoThreads : KillLaw twoThreads 1 :=
  (killLaw_iff twoThreads 1 ⟨2, by decide +kernel⟩).mpr (by decide +kernel)

-- The main thread has ended by thread_exit.
def mainEnded : State :=
  (run step twoThreads (threadExitSteps 1 0 0)).getD userinit

/-- `kill` hits the ZOMBIE and returns 0, and the thread in slot 2 goes on. -/
theorem not_killLaw : ¬ ∀ s pid, Reachable step userinit s →
    (∃ p, (s.proc p).phase = .alive ∧ (s.proc p).pid = pid) → KillLaw s pid := by
  intro hall
  have hthreads : Reachable step userinit twoThreads :=
    reachable_of_run (eq_some_getD (by decide +kernel))
  have hended : Reachable step twoThreads mainEnded :=
    reachable_of_run (eq_some_getD (by decide +kernel))
  have hlaw := hall mainEnded 1 (hthreads.trans hended) ⟨2, by decide +kernel⟩
  obtain ⟨p, hhit⟩ := hlaw (by decide +kernel)
  have hno : ∀ p, (mainEnded.proc p).phase = .alive ∧ (mainEnded.proc p).pid = 1 →
      ((mainEnded.kill 1).proc p).killed = false := by decide +kernel
  have hkilled := hno p ⟨hhit.alive, hhit.pid⟩
  rw [hhit.killed] at hkilled
  cases hkilled

end Xv6.Threads
