import Xv6.Threads.Mainthread

/-!
# What exec leaves behind (project2/exec.c:10-117, proc.c:632-650)

`exec` and `exec2` should leave the caller as the only thread of its process. `cleanforexec`
takes the others out of use where the caller is not the main thread, and then the caller
keeps its tid and its `mainthread`.
-/

namespace Xv6.Threads

open Mlfq (NPROC Slot Procstate)
open Transition

/-- The slot stays in use. -/
def Remains (i : Slot) (s : State) (a : Action) : Prop := idsOk s a = true ∧ s.frees a i = false

instance (i : Slot) (s : State) (a : Action) : Decidable (Remains i s a) :=
  inferInstanceAs (Decidable (_ ∧ _))

/-- The thread is alone in its process, and `growproc`, `sbrk` and `thread_create` go by its own
size and limit from then on. -/
structure Reimaged (s : State) (i : Slot) : Prop where
  alone : ∀ q, q ≠ i → (s.proc q).state ≠ .unused → (s.proc q).pid ≠ (s.proc i).pid
  tid : (s.proc i).tid = 0
  mainthread : (s.proc i).mainthread = some i
  later : ∀ t, Reach step (Remains i) s t → (t.proc i).mainthread = some i

/-- The only slot of a process other than init. -/
def State.single (s : State) (i : Slot) : Prop :=
  i ≠ s.initproc ∧ (s.proc i).tid = 0 ∧
    ∀ q, q ≠ i → (s.proc q).state ≠ .unused → (s.proc q).pid ≠ (s.proc i).pid

instance (s : State) (i : Slot) : Decidable (s.single i) :=
  inferInstanceAs (Decidable (_ ∧ _ ∧ _))

/-- In a system call that may be `exec`. -/
def Pc.executing : Pc → Bool
  | .fs _ | .exec _ _ => true
  | _ => false

/-- The steps of all threads while the thread `i` is in `exec`. -/
def InExec (i : Slot) (s : State) (a : Action) : Prop :=
  idsOk s a = true ∧ (s.pc i).executing = true

instance (i : Slot) (s : State) (a : Action) : Decidable (InExec i s a) :=
  inferInstanceAs (Decidable (_ ∧ _))

/-- The steps that the thread `i` takes in `exec`. -/
def Action.ofExec (i : Slot) : Action → Bool
  | .fs j _ | .exec j _ | .execPut j | .cleanforexec j | .execCommit j _ | .beginOp j | .endOp j
  | .acquiresleep j _ | .releasesleep j _ => j = i
  | _ => false

section Steps

variable {s t : State} {a : Action} {i : Slot}

/-- Where a pid comes from. -/
theorem pid_effect (hok : idsOk s a = true) (h : Effect s a t) (q : Slot) :
    (t.proc q).pid = (s.proc q).pid ∨ (t.proc q).pid = 0 ∨
      (∃ j n, s.pc j = .fork q (.setPid n) ∧ (t.proc q).pid = n) ∨
      ∃ j main, s.pc j = .thread q main .pid ∧ (t.proc q).pid = (s.proc j).pid := by
  have hsetUp : ∀ {u : State} {np i : Slot} {f : Proc → Proc} {k : Pc}, u.proc = s.proc →
      (∀ r, (f r).pid = r.pid) → (((u.setProc np f).setPc i k).proc q).pid = (s.proc q).pid := by
    intro u np i f k hu hf
    rw [State.setPc_proc, State.setProc_proc, hu]
    split_ifs
    · rw [hf]
    · rfl
  cases h with
  | kept hf h hpc hfile hlog => exact Or.inl (h.proc q).pid
  | alloc hf i np k hrun hpc hnp hk => exact Or.inl (hsetUp rfl fun r => rfl)
  | abort hf i np pgdir hrun hpc => exact Or.inl (hsetUp rfl fun r => rfl)
  | forkNext i np pd st hrun hpc hvm hdup =>
    by_cases hq : q = np
    · subst hq
      cases st with
      | files st => exact Or.inl ((State.quiet_copyNext s i q st).proc q).pid
      | pid => exact Or.inl rfl
      | nextpid n => exact Or.inl rfl
      | setPid n =>
        refine Or.inr (Or.inr (Or.inl ⟨i, n, hpc, ?_⟩))
        rw [State.forkNext, State.setPc_proc, State.setProc_proc_self]
      | _ => exact Or.inl (hsetUp rfl fun r => rfl)
    · exact Or.inl (forkNext_other hq).pid
  | threadNext i np main enough st hrun hpc hdup =>
    cases st with
    | files st => exact Or.inl ((State.quiet_copyNext s main np st).proc q).pid
    | limit =>
      unfold State.threadNext
      dsimp only
      split_ifs <;> exact Or.inl rfl
    | tid => exact Or.inl rfl
    | nexttid n => exact Or.inl rfl
    | copyout => exact Or.inl rfl
    | pid =>
      by_cases hq : q = np
      · subst hq
        refine Or.inr (Or.inr (Or.inr ⟨i, main, hpc, ?_⟩))
        rw [State.threadNext, State.setPc_proc, State.setProc_proc_self]
        simpa [idsOk, hpc] using hok
      · exact Or.inl (congrArg Proc.pid (setUp_proc rfl hq))
    | _ => exact Or.inl (hsetUp rfl fun r => rfl)
  | exitLast i hrun hpc hfree =>
    cases hsib : s.siblings i q with
    | true => exact Or.inr (Or.inl (exitLast_sibling hsib).pid)
    | false =>
      by_cases hqi : q = i
      · subst hqi
        exact Or.inl exitLast_self.pid
      · exact Or.inl (exitLast_other hsib hqi).pid
  | threadExitLast i retval hrun hpc =>
    by_cases hqi : q = i
    · subst hqi
      exact Or.inl (threadExitLast_self s q retval).pid
    · exact Or.inl (threadExitLast_other retval hqi).pid
  | reap i p hrun hpc hw =>
    by_cases hqp : q = p
    · subst hqp
      exact Or.inr (Or.inl (by rw [wait_self hw]; rfl))
    · exact Or.inl (congrArg Proc.pid (wait_other hw hqp))
  | join i p thread hrun hpc hj =>
    by_cases hqp : q = p
    · subst hqp
      exact Or.inr (Or.inl (vacate_proc (s := s) (fun r => r = q) (decide_eq_true rfl)).pid)
    · have hv := vacate_proc_of_not (s := s) (fun r => r = p) (decide_eq_false hqp)
      exact Or.inl (congrArg Proc.pid hv)
  | cleanforexec i pd hrun hpc hidle hfree =>
    unfold State.cleanforexec
    split_ifs with htid
    · exact Or.inl rfl
    · cases hsib : s.siblings i q with
      | true => exact Or.inr (Or.inl (vacate_proc _ hsib).pid)
      | false => exact Or.inl (congrArg Proc.pid (vacate_proc_of_not _ hsib))
  | execCommit i pd sz oldpgdir hrun hpc hold => exact Or.inl (hsetUp rfl fun r => rfl)
  | growproc i main n enough sz hlimit =>
    exact Or.inl ((sameIds_setSz s main sz).pid q)
  | setmemorylimit i p pid limit h0 hp hsz =>
    exact Or.inl ((sameIds_setProc rfl rfl rfl).pid q)
  | _ => exact Or.inl rfl

/-- The thread `i` has been alone in its process since it called `exec`. -/
structure Alone (s : State) (i : Slot) : Prop where
  started : s.started i
  notInit : i ≠ s.initproc
  pid : ∀ q, q ≠ i → (s.proc q).pid ≠ (s.proc i).pid
  tid : (s.proc i).tid = 0
  mainthread : (s.proc i).mainthread = some i

theorem Alone.stays (hs : Sound s) (hi : Alone s i) (hex : (s.pc i).executing = true)
    (h : Effect s a t) : Stays s t i := by
  have halive : (s.proc i).phase = .alive := by
    refine hs.busy i fun hpc => ?_
    rw [hpc] at hex
    cases hex
  have hzombie : (s.proc i).phase = .zombie → False := by
    intro hz
    rw [halive] at hz
    cases hz
  have hsib : ∀ j, s.siblings j i = true → False := by
    intro j hj
    obtain ⟨hpid, hne⟩ := of_decide_eq_true hj
    exact hi.pid j hne.symm hpid.symm
  rcases (change_effect hs hi.started h).stays hi.started with hst | ⟨hf, -⟩
  · exact hst
  cases a with
  | exitLast j => exact (hsib j (of_decide_eq_true hf).2).elim
  | cleanforexec j => exact (hsib j (of_decide_eq_true hf).2).elim
  | wait j => exact (hzombie (waitFor_some (of_decide_eq_true hf)).2).elim
  | threadJoin j thread => exact (hzombie (joinFor_some (of_decide_eq_true hf)).2).elim
  | _ => cases hf

theorem alone_step (hs : Sound s) (hi : Alone s i) (hok : InExec i s a) (h : step s a = some t) :
    Alone t i := by
  have he := step_effect h
  have hst := hi.stays hs hok.2 he
  have hpos := hs.base.pids.pos i hi.started hi.notInit
  refine ⟨hst.started, ?_, fun q hq => ?_, hst.tid.trans hi.tid,
    (change_effect hs hi.started he).mainthread.trans hi.mainthread⟩
  · rw [initproc_of_effect he]
    exact hi.notInit
  · rw [hst.pid]
    rcases pid_effect hok.1 he q with hpid | hpid | ⟨j, n, hpc, hpid⟩ | ⟨j, main, hpc, hpid⟩
    · rw [hpid]
      exact hi.pid q hq
    · rw [hpid]
      exact hpos.ne
    · rw [hpid]
      have htaken := hs.base.taken.pid j ⟨q, .process, false, false, some n⟩ n
        (by dsimp only [State.ids]; rw [hpc]; rfl) rfl rfl
      exact (htaken.2.1 i).symm
    · rw [hpid]
      refine hi.pid j ?_
      rintro rfl
      have hex := hok.2
      rw [hpc] at hex
      cases hex

theorem Alone.reimaged (hs : Sound s) (hi : Alone s i) : Reimaged s i := by
  refine ⟨fun q hq _ => hi.pid q hq, hi.tid, hi.mainthread, fun t hr => ?_⟩
  have hinv : Sound t ∧ t.started i ∧ (t.proc i).mainthread = some i := by
    refine hr.invariant (I := fun t => Sound t ∧ t.started i ∧ (t.proc i).mainthread = some i)
      ⟨hs, hi.started, hi.mainthread⟩ ?_
    intro u a v ⟨hu, hstarted, hm⟩ ⟨hok, hf⟩ hv
    have hc := change_effect hu hstarted (step_effect hv)
    refine ⟨hu.step hok hv, ?_, hc.mainthread.trans hm⟩
    rcases hc.stays hstarted with hst | ⟨hfreed, -⟩
    · exact hst.started
    · exact absurd (hf.symm.trans hfreed) nofun
  exact hinv.2.2

theorem alone_of_single (hs : Sound s) (hi : OwnMain s) (hst : s.started i) (h : s.single i) :
    Alone s i := by
  obtain ⟨hinit, htid, halone⟩ := h
  refine ⟨hst, hinit, fun q hq hpid => ?_, htid, hi.main i hst hinit htid⟩
  by_cases hu : (s.proc q).state = .unused
  · have hzero := hs.base.pids.freePid q (Proc.phase_unused.mpr hu)
    have hpos := hs.base.pids.pos i hst hinit
    exact hpos.ne (hzero.symm.trans hpid)
  · exact halone q hq hu hpid

theorem Alone.of_proc (hi : Alone s i) (hp : t.proc = s.proc) (hinit : t.initproc = s.initproc) :
    Alone t i := by
  obtain ⟨hst, hni, hpid, htid, hmain⟩ := hi
  refine ⟨started_of_phase (by rw [hp]) hst, ?_, ?_, ?_, ?_⟩
  · rw [hinit]
    exact hni
  · rw [hp]
    exact hpid
  · rw [hp]
    exact htid
  · rw [hp]
    exact hmain

/-- What `exec` itself does to the numbers: nothing, unless it takes siblings out of use. -/
structure Executes (s t : State) (i : Slot) : Prop where
  tid : (t.proc i).tid = (s.proc i).tid
  mainthread : (t.proc i).mainthread = (s.proc i).mainthread
  initproc : t.initproc = s.initproc
  slot : (s.proc i).tid = 0 → ∀ q, (t.proc q).pid = (s.proc q).pid ∧
    ((t.proc q).state = .unused ↔ (s.proc q).state = .unused)

theorem Executes.trans {u : State} (h : Executes s t i) (h' : Executes t u i) :
    Executes s u i := by
  refine ⟨h'.tid.trans h.tid, h'.mainthread.trans h.mainthread, h'.initproc.trans h.initproc,
    fun h0 q => ?_⟩
  obtain ⟨hpid, hstate⟩ := h.slot h0 q
  obtain ⟨hpid', hstate'⟩ := h'.slot (h.tid.trans h0) q
  exact ⟨hpid'.trans hpid, hstate'.trans hstate⟩

theorem executes_of_proc (hp : t.proc = s.proc) (hinit : t.initproc = s.initproc) :
    Executes s t i :=
  ⟨by rw [hp], by rw [hp], hinit, fun _ q => ⟨by rw [hp], by rw [hp]⟩⟩

theorem executes_of_keeps (h : Keeps s t) : Executes s t i := by
  refine ⟨(h.proc i).tid, (h.proc i).mainthread, h.initproc, fun _ q => ⟨(h.proc q).pid, ?_⟩⟩
  rw [← Proc.phase_unused, ← Proc.phase_unused, (h.proc q).phase]

theorem step_fsCall (h : step s (.fsCall i) = some t) :
    t.proc = s.proc ∧ t.initproc = s.initproc ∧ s.started i := by
  unfold step at h
  dsimp only at h
  split_ifs at h with hl hi
  cases h
  exact ⟨rfl, rfl, Or.inl (Proc.phase_alive hi.1)⟩

theorem executes_cleanforexec (h : step s (.cleanforexec i) = some t) : Executes s t i := by
  unfold step at h
  dsimp only at h
  split at h
  · cases h
  split at h
  · split_ifs at h
    cases h
    have hi : s.siblings i i = false := by simp [State.siblings]
    have hself : (s.cleanforexec i).proc i = s.proc i := by
      unfold State.cleanforexec
      split_ifs
      · rfl
      · exact vacate_proc_of_not _ hi
    refine ⟨congrArg Proc.tid hself, congrArg Proc.mainthread hself, ?_, fun h0 q => ?_⟩
    · unfold State.cleanforexec
      split_ifs <;> rfl
    · rw [State.setPc_proc, State.cleanforexec, if_pos h0]
      exact ⟨rfl, Iff.rfl⟩
  · cases h

theorem executes_execCommit {sz : Nat} (h : step s (.execCommit i sz) = some t) :
    Executes s t i := by
  unfold step at h
  dsimp only at h
  split at h
  · cases h
  split at h
  · split_ifs at h
    obtain ⟨oldpgdir, -, ht⟩ := Option.map_eq_some_iff.mp h
    subst ht
    refine ⟨?_, ?_, rfl, fun _ q => ?_⟩
    · rw [State.setPc_proc, State.setProc_proc_self]
    · rw [State.setPc_proc, State.setProc_proc_self]
    · rw [State.setPc_proc, State.setProc_proc]
      split_ifs <;> exact ⟨rfl, Iff.rfl⟩
  · cases h

theorem step_execFree (h : step s (.execFree i) = some t) :
    (s.pc i).executing = true ∧ Executes s t i := by
  unfold step at h
  dsimp only at h
  split at h
  · cases h
  split at h
  · rename_i pd hpc
    split_ifs at h
    cases h
    exact ⟨by rw [hpc]; rfl, executes_of_proc rfl rfl⟩
  · cases h

theorem executes_of_step (ha : a.ofExec i = true) (h : step s a = some t) : Executes s t i := by
  cases a with
  | cleanforexec j =>
    obtain rfl : j = i := of_decide_eq_true ha
    exact executes_cleanforexec h
  | execCommit j sz =>
    obtain rfl : j = i := of_decide_eq_true ha
    exact executes_execCommit h
  | fs j op =>
    unfold step at h
    dsimp only at h
    split at h
    · cases h
    split at h
    · split_ifs at h
      obtain ⟨⟨u, st'⟩, hr, hu⟩ := Option.map_eq_some_iff.mp h
      subst hu
      have hkept := (OnlyFiles.fsNext hr).quiet.toKeeps
      exact executes_of_keeps (hkept.trans (State.keeps_setPc _ _ _))
    · cases h
  | exec j pd =>
    unfold step at h
    dsimp only at h
    split at h
    · cases h
    split at h
    · split_ifs at h
      cases h
      exact executes_of_proc rfl rfl
    · cases h
  | execPut j =>
    unfold step at h
    dsimp only at h
    split at h
    · cases h
    split at h
    · split_ifs at h
      cases h
      exact executes_of_proc rfl rfl
    · cases h
  | beginOp j | endOp j | acquiresleep j l | releasesleep j l =>
    unfold step at h
    dsimp only at h
    split_ifs at h
    cases h
    exact executes_of_proc rfl rfl
  | _ => cases ha

end Steps

/-! ### Runs -/

theorem ownMain_of_reach {s : State} (hr : Reach step (fun s a => idsOk s a = true) userinit s) :
    Sound s ∧ OwnMain s := by
  refine hr.invariant (I := fun s => Sound s ∧ OwnMain s) ⟨sound_userinit, ownMain_userinit⟩ ?_
  intro u a v ⟨hu, hi⟩ hok hv
  exact ⟨hu.step hok hv, ownMain_step hu hi hok (step_effect hv)⟩

theorem alone_of_reach {s t : State} {i : Slot} (hr : Reach step (InExec i) s t) (hs : Sound s)
    (hi : Alone s i) : Sound t ∧ Alone t i := by
  refine hr.invariant (I := fun u => Sound u ∧ Alone u i) ⟨hs, hi⟩ ?_
  intro u a v ⟨hu, ha⟩ hok hv
  exact ⟨hu.step hok.1 hv, alone_step hu ha hok hv⟩

theorem executes_of_reach {s t : State} {i : Slot}
    (hr : Reach step (fun s a => InExec i s a ∧ a.ofExec i = true) s t) : Executes s t i := by
  refine hr.invariant (I := fun u => Executes s u i) (executes_of_proc rfl rfl) ?_
  intro u a v hu hok hv
  exact hu.trans (executes_of_step hok.2 hv)

/-- A call of `exec` that the only thread of a process makes, whatever the threads of other
processes do meanwhile; and any call that nobody interrupts. -/
theorem reimaged_of_exec {s t u v : State} {i : Slot}
    (hr : Reach step (fun s a => idsOk s a = true) userinit s)
    (hcall : step s (.fsCall i) = some t) (hreturn : step u (.execFree i) = some v) :
    (s.single i → Reach step (InExec i) t u → Reimaged v i) ∧
    (Reach step (fun s a => InExec i s a ∧ a.ofExec i = true) t u →
      (Reimaged v i ↔ s.single i)) := by
  obtain ⟨hs, hown⟩ := ownMain_of_reach hr
  obtain ⟨hproc, hinit, hstarted⟩ := step_fsCall hcall
  obtain ⟨hex, hlast⟩ := step_execFree hreturn
  have ht : Sound t := hs.step rfl hcall
  have himaged : s.single i → Reach step (InExec i) t u → Reimaged v i := by
    intro hsingle hu
    have hcalled : Alone t i := (alone_of_single hs hown hstarted hsingle).of_proc hproc hinit
    obtain ⟨hsu, hiu⟩ := alone_of_reach hu ht hcalled
    exact (alone_step hsu hiu ⟨rfl, hex⟩ hreturn).reimaged (hsu.step rfl hreturn)
  refine ⟨himaged, fun hu => ⟨fun himage => ?_, fun hsingle => ?_⟩⟩
  · have hexecutes : Executes s v i :=
      ((executes_of_proc hproc hinit).trans (executes_of_reach hu)).trans hlast
    have htid : (s.proc i).tid = 0 := hexecutes.tid.symm.trans himage.tid
    refine ⟨fun hi => ?_, htid, fun q hq hused => ?_⟩
    · have hm := hexecutes.mainthread.symm.trans himage.mainthread
      rw [hi, hs.init.mainthread] at hm
      cases hm
    · obtain ⟨hpid, hstate⟩ := hexecutes.slot htid q
      have hne := himage.alone q hq fun hu => hused (hstate.mp hu)
      rw [hpid, (hexecutes.slot htid i).1] at hne
      exact hne
  · exact himaged hsingle (hu.mono fun _ _ hok => hok.1)

-- Process 1 has no thread and calls exec; init runs during the call.
def oneThread : State :=
  (run (guarded step fun s a => idsOk s a = true) userinit
    (.sched 0 :: forkSteps 0 1 0 ++ [.yield 0, .sched 1])).getD userinit

def execCalled : State := (step oneThread (.fsCall 1)).getD userinit

def imageCommitted : State :=
  (run (guarded step (InExec 1)) execCalled
    ([.fs 1 (.iget 5), .exec 1 2, .yield 1, .sched 0] ++ openSteps 0 6 ++ [.yield 0, .sched 1,
      .execPut 1, .cleanforexec 1, .execCommit 1 8192])).getD userinit

def execReturned : State := (step imageCommitted (.execFree 1)).getD userinit

theorem reimaged_of_exec_returned : Reimaged execReturned 1 := by
  have hreach : Reach step (fun s a => idsOk s a = true) userinit oneThread :=
    reach_of_guarded_run (eq_some_getD (by decide +kernel))
  have hcall : step oneThread (.fsCall 1) = some execCalled := eq_some_getD (by decide +kernel)
  have hrun : Reach step (InExec 1) execCalled imageCommitted :=
    reach_of_guarded_run (eq_some_getD (by decide +kernel))
  have hreturn : step imageCommitted (.execFree 1) = some execReturned :=
    eq_some_getD (by decide +kernel)
  exact (reimaged_of_exec hreach hcall hreturn).1 (by decide +kernel) hrun

-- The thread in slot 2 calls exec.
def threadCalls : State :=
  (run (guarded step fun s a => idsOk s a = true) userinit
    (processAndThread ++ [.yield 1, .sched 2])).getD userinit

def threadInKernel : State := (step threadCalls (.fsCall 2)).getD userinit

def threadCommitted : State :=
  (run (guarded step (InExec 2)) threadInKernel [.fs 2 (.iget 5), .exec 2 2, .execPut 2,
    .cleanforexec 2, .execCommit 2 8192]).getD userinit

def threadReturned : State := (step threadCommitted (.execFree 2)).getD userinit

/-- It keeps its tid, and its `mainthread` points to a slot that is free. -/
theorem not_reimaged_of_exec : ¬ ∀ (s t u v : State) (i : Slot),
    Reach step (fun s a => idsOk s a = true) userinit s → step s (.fsCall i) = some t →
    Reach step (InExec i) t u → step u (.execFree i) = some v → Reimaged v i := by
  intro hall
  have hreach : Reach step (fun s a => idsOk s a = true) userinit threadCalls :=
    reach_of_guarded_run (eq_some_getD (by decide +kernel))
  have hcall : step threadCalls (.fsCall 2) = some threadInKernel :=
    eq_some_getD (by decide +kernel)
  have hrun : Reach step (InExec 2) threadInKernel threadCommitted :=
    reach_of_guarded_run (eq_some_getD (by decide +kernel))
  have himage := hall threadCalls threadInKernel threadCommitted threadReturned 2 hreach hcall hrun
    (eq_some_getD (by decide +kernel))
  have htid : (threadReturned.proc 2).tid = 1 := by decide +kernel
  exact absurd (htid.symm.trans himage.tid) nofun

end Xv6.Threads
