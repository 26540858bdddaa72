import Xv6.Threads.Identity

/-!
# What a step does to a thread

`Sound` collects what holds in every run of the numbers, of init and of the places
of the threads. `Change` lists what a step can do to a slot that has been started.
-/

namespace Xv6.Threads

open Mlfq (NPROC Slot Procstate)

/-! ### Where a thread goes -/

/-- A new place of a thread: it is alive, and only a thread with a `mainthread` goes
to `thread_create`; only a thread other than init to `exit`. -/
structure Goes (s : State) (q : Slot) (k : Pc) : Prop where
  alive : (s.proc q).phase = .alive
  main : ∀ p, k.main = some p → (s.proc q).mainthread = some p ∨ (s.pc q).main = some p
  leaving : k.leaving → (s.pc q).leaving ∨ q ≠ s.initproc

theorem goes_of_other {s : State} {q : Slot} {k : Pc} (hq : (s.proc q).state = .running)
    (hm : k.main = none) (hl : k.leaving = false) : Goes s q k :=
  ⟨Proc.phase_alive hq, fun _ hp => absurd (hm.symm.trans hp) nofun,
    fun hk => absurd (hl.symm.trans hk) nofun⟩

theorem goes_user {s : State} {q : Slot} (hq : (s.proc q).state = .running) : Goes s q .user :=
  goes_of_other hq rfl rfl

theorem pc_setPc {s t : State} {i : Slot} {k : Pc} (hp : t.pc = s.pc) (hg : Goes s i k)
    (q : Slot) :
    (t.setPc i k).pc q = s.pc q ∨ (t.setPc i k).pc q = .user ∨ Goes s q ((t.setPc i k).pc q) := by
  rw [State.setPc_pc]
  split_ifs with hq
  · rw [hq]
    exact Or.inr (Or.inr hg)
  · rw [hp]
    exact Or.inl rfl

theorem pc_effect {s t : State} {a : Action} (h : Effect s a t) (q : Slot) :
    t.pc q = s.pc q ∨ t.pc q = .user ∨ Goes s q (t.pc q) := by
  cases h with
  | kept hf h hpc hfile hlog =>
    rcases hpc q with hq | hm | ⟨halive, pd, ip, -, hq⟩
    · exact Or.inl hq
    · refine Or.inr (Or.inr ⟨hm.alive, ?_, hm.leaving⟩)
      intro p hp
      exact absurd ((Pc.main_of_plain hm.after).symm.trans hp) nofun
    · rw [hq]
      exact Or.inr (Or.inr ⟨halive, nofun, nofun⟩)
  | alloc hf i np k hrun hpc hnp hk =>
    refine pc_setPc rfl ⟨Proc.phase_alive hrun, ?_, ?_⟩ q
    · intro p hp
      rcases hk with hk | ⟨main, hmain, hk⟩
      · rw [hk] at hp
        cases hp
      · rw [hk] at hp
        cases hp
        exact Or.inl hmain
    · intro hl
      rcases hk with hk | ⟨main, -, hk⟩
      · rw [hk] at hl
        cases hl
      · rw [hk] at hl
        cases hl
  | abort hf i np pgdir hrun hpc => exact pc_setPc rfl (goes_user hrun) q
  | forkNext i np pd st hrun hpc hvm hdup =>
    have hg : ∀ st', Goes s i (.fork np st') := fun st' => goes_of_other hrun rfl rfl
    cases st with
    | files st => exact pc_setPc (State.quiet_copyNext s i np st).pc (hg _) q
    | runnable => exact pc_setPc rfl (goes_user hrun) q
    | _ => exact pc_setPc rfl (hg _) q
  | threadNext i np main enough st hrun hpc hdup =>
    have hg : ∀ st', Goes s i (.thread np main st') := by
      intro st'
      refine ⟨Proc.phase_alive hrun, ?_, nofun⟩
      intro p hp
      cases hp
      exact Or.inr (by rw [hpc]; rfl)
    cases st with
    | files st => exact pc_setPc (State.quiet_copyNext s main np st).pc (hg _) q
    | runnable => exact pc_setPc rfl (goes_user hrun) q
    | limit =>
      unfold State.threadNext
      dsimp only
      split_ifs
      · exact pc_setPc rfl (goes_user hrun) q
      · exact pc_setPc rfl (hg _) q
    | alloc =>
      unfold State.threadNext
      dsimp only
      split_ifs
      · exact pc_setPc rfl (goes_user hrun) q
      · exact pc_setPc rfl (hg _) q
    | copyout =>
      unfold State.threadNext
      dsimp only
      split_ifs
      · exact pc_setPc rfl (hg _) q
      · exact pc_setPc rfl (goes_user hrun) q
    | _ => exact pc_setPc rfl (hg _) q
  | exitLast i hrun hpc hfree =>
    by_cases hqi : q = i
    · right
      left
      rw [State.exitLast, State.setPc_pc, if_pos hqi]
    · rw [State.exitLast, State.setPc_pc, if_neg hqi]
      rw [State.setProc_pc, State.pc_reparent, State.pc_wakeParent]
      dsimp only [State.vacate]
      split_ifs
      · exact Or.inr (Or.inl rfl)
      · exact Or.inl rfl
  | threadExitLast i retval hrun hpc => exact pc_setPc rfl (goes_user hrun) q
  | reap i p hrun hpc hw =>
    unfold State.wait
    rw [hw]
    dsimp only
    split
    · exact pc_setPc rfl (goes_user hrun) q
    · exact pc_setPc rfl (goes_user hrun) q
  | join i p thread hrun hpc hj =>
    rw [State.setPc_pc]
    dsimp only [State.vacate]
    split_ifs
    · exact Or.inr (Or.inl rfl)
    · exact Or.inr (Or.inl rfl)
    · exact Or.inl rfl
  | exec i pd ip hrun hpc hvm => exact pc_setPc rfl (goes_of_other hrun rfl rfl) q
  | execBad i pd st hrun hpc hst =>
    exact pc_setPc rfl (goes_of_other hrun (Pc.main_of_plain (Pc.bad_plain st))
      (by cases st <;> rfl)) q
  | cleanforexec i pd hrun hpc hidle hfree =>
    unfold State.cleanforexec
    split_ifs
    · exact pc_setPc rfl (goes_of_other hrun rfl rfl) q
    · rw [State.setPc_pc]
      dsimp only [State.vacate]
      split_ifs with hqi
      · rw [hqi]
        exact Or.inr (Or.inr (goes_of_other hrun rfl rfl))
      · exact Or.inr (Or.inl rfl)
      · exact Or.inl rfl
  | execCommit i pd sz oldpgdir hrun hpc hold =>
    exact pc_setPc rfl (goes_of_other hrun rfl rfl) q
  | execFree i oldpgdir hrun hpc => exact pc_setPc rfl (goes_user hrun) q
  | growproc i main n enough sz hlimit => exact Or.inl rfl
  | setmemorylimit i p pid limit h0 hp hsz => exact Or.inl rfl

/-- A thread that is anywhere but between system calls is alive. -/
def Busy (s : State) : Prop := ∀ q, s.pc q ≠ .user → (s.proc q).phase = .alive

/-- RUNNABLE, RUNNING, SLEEPING or ZOMBIE. -/
def State.started (s : State) (q : Slot) : Prop := s.ids.started q

instance (s : State) (q : Slot) : Decidable (s.started q) := inferInstanceAs (Decidable (_ ∨ _))

/-- What holds in every run. -/
structure Sound (s : State) : Prop where
  base : s.ids.Base
  init : InitOk s
  busy : Busy s

namespace Sound

variable {s : State}

theorem embryo_fork (hs : Sound s) {i np : Slot} {st : ForkStage} (hpc : s.pc i = .fork np st) :
    (s.proc np).phase = .embryo :=
  hs.base.births.embryo i (st.birth np) (by dsimp only [State.ids]; rw [hpc]; rfl)

theorem embryo_thread (hs : Sound s) {i np main : Slot} {st : ThreadStage}
    (hpc : s.pc i = .thread np main st) : (s.proc np).phase = .embryo :=
  hs.base.births.embryo i (st.birth np) (by dsimp only [State.ids]; rw [hpc]; rfl)

end Sound

theorem State.started_ne {s : State} {p q : Slot} (hq : s.started q)
    (hp : (s.proc p).phase = .embryo ∨ (s.proc p).phase = .unused) : q ≠ p := by
  intro heq
  rw [heq] at hq
  rcases hq with hq | hq <;> rcases hp with hp | hp <;> exact Phase.noConfusion (hq.symm.trans hp)

/-! ### The end of a process -/

section exit

variable (s : State) (i q : Slot)

/-- The parent of a slot after `exit` of the thread `i`. -/
def State.heir (s : State) (i q : Slot) : Option Slot :=
  if (s.proc q).parent = some i then some s.initproc else (s.proc q).parent

theorem same_reparent :
    ({ s.proc q with parent := s.heir i q } : Proc).Same ((s.reparent i).proc q) := by
  let u : State := { s with
    proc := fun q =>
      if (s.proc q).parent = some i then { s.proc q with parent := some s.initproc }
      else s.proc q }
  have hu : ({ s.proc q with parent := s.heir i q } : Proc).Same (u.proc q) := by
    unfold State.heir
    dsimp only [u]
    split_ifs <;> exact .refl _
  unfold State.reparent
  dsimp only
  split_ifs
  · have hw := (State.quiet_wakeup1 u (.proc s.initproc)).proc q
    exact hu.trans hw
  · exact hu

theorem same_setParent {r r' : Proc} (h : r.Same r') (p : Option Slot) :
    ({ r with parent := p } : Proc).Same { r' with parent := p } :=
  ⟨h.phase, h.pid, h.tid, rfl, h.mainthread, h.pgdir, h.sz, h.memorylimit, h.retval⟩

theorem same_zombie {r r' : Proc} (h : r.Same r') :
    ({ r with state := .zombie } : Proc).Same { r' with state := .zombie } :=
  ⟨rfl, h.pid, h.tid, h.parent, h.mainthread, h.pgdir, h.sz, h.memorylimit, h.retval⟩

theorem same_exit : ({ (s.vacate (s.siblings i)).proc q with
      parent := (s.vacate (s.siblings i)).heir i q } : Proc).Same
    ((((s.vacate (s.siblings i)).wakeParent i).reparent i).proc q) := by
  let u := s.vacate (s.siblings i)
  have hw := State.quiet_wakeParent u i
  have hheir : (u.wakeParent i).heir i q = u.heir i q := by
    unfold State.heir
    rw [(hw.proc q).parent, hw.initproc]
  have h := same_reparent (u.wakeParent i) i q
  rw [hheir] at h
  exact (same_setParent (hw.proc q) (u.heir i q)).trans h

variable {s i q}

theorem exitLast_sibling (h : s.siblings i q = true) :
    (s.proc q).clean.Same ((s.exitLast i).proc q) := by
  have hqi : q ≠ i := (of_decide_eq_true h).2
  have hp : (s.vacate (s.siblings i)).proc q = (s.proc q).clean := if_pos h
  have hs := same_exit s i q
  have hheir : (s.vacate (s.siblings i)).heir i q = none := by
    rw [State.heir, hp]
    rfl
  rw [hheir, hp] at hs
  rw [State.exitLast, State.setPc_proc, State.setProc_proc_ne _ _ _ _ hqi]
  exact hs

theorem same_exit_other (h : s.siblings i q = false) :
    ({ s.proc q with parent := s.heir i q } : Proc).Same
      ((((s.vacate (s.siblings i)).wakeParent i).reparent i).proc q) := by
  have hp : (s.vacate (s.siblings i)).proc q = s.proc q := if_neg (by simp [h])
  have hs := same_exit s i q
  have hheir : (s.vacate (s.siblings i)).heir i q = s.heir i q := by
    unfold State.heir
    rw [hp]
    rfl
  rw [hheir, hp] at hs
  exact hs

theorem exitLast_pc (h : s.siblings i q = true ∨ q = i) : (s.exitLast i).pc q = .user := by
  rw [State.exitLast, State.setPc_pc]
  split_ifs with hqi
  · rfl
  · rw [State.setProc_pc, State.pc_reparent, State.pc_wakeParent]
    exact if_pos (h.resolve_right hqi)

theorem exitLast_other (h : s.siblings i q = false) (hqi : q ≠ i) :
    ({ s.proc q with parent := s.heir i q } : Proc).Same ((s.exitLast i).proc q) := by
  rw [State.exitLast, State.setPc_proc, State.setProc_proc_ne _ _ _ _ hqi]
  exact same_exit_other h

theorem exitLast_self :
    ({ s.proc i with parent := s.heir i i, state := .zombie } : Proc).Same
      ((s.exitLast i).proc i) := by
  have hs := same_exit_other (s := s) (i := i) (q := i) (by simp [State.siblings])
  rw [State.exitLast, State.setPc_proc, State.setProc_proc_self]
  exact same_zombie hs

end exit

theorem threadExitLast_self (s : State) (i : Slot) (retval : Nat) :
    ({ s.proc i with state := .zombie, retval := retval } : Proc).Same
      ((s.threadExitLast i retval).proc i) := by
  let u := s.setProc i fun r => { r with retval := retval }
  have hw := (State.quiet_wakeup1 u (.tid (u.proc i).tid)).proc i
  have hu : ({ s.proc i with state := .zombie, retval := retval } : Proc) =
      { u.proc i with state := .zombie } := by
    rw [State.setProc_proc_self]
  rw [State.threadExitLast, State.setPc_proc, State.setProc_proc_self, hu]
  exact same_zombie hw

theorem threadExitLast_other {s : State} {i q : Slot} (retval : Nat) (hqi : q ≠ i) :
    (s.proc q).Same ((s.threadExitLast i retval).proc q) := by
  let u := s.setProc i fun r => { r with retval := retval }
  have hw := (State.quiet_wakeup1 u (.tid (u.proc i).tid)).proc q
  rw [State.setProc_proc_ne _ _ _ _ hqi] at hw
  rw [State.threadExitLast, State.setPc_proc, State.setProc_proc_ne _ _ _ _ hqi]
  exact hw

/-! ### What a step does to a slot that has been started -/

inductive Change (s : State) (q : Slot) : Action → State → Prop where
  | same {a : Action} {t : State} (h : (s.proc q).Same (t.proc q)) : Change s q a t
  | killed {t : State} (i : Slot) (hi : (s.proc i).state = .running) (hpc : s.pc i = .exit .last)
      (hq : s.siblings i q = true) (h : (s.proc q).clean.Same (t.proc q)) (hu : t.pc q = .user) :
      Change s q (.exitLast i) t
  | outlives {t : State} (i : Slot) (hi : (s.proc i).state = .running) (hpc : s.pc i = .exit .last)
      (hq : s.siblings i q = false) (hqi : q ≠ i)
      (h : ({ s.proc q with parent := s.heir i q } : Proc).Same (t.proc q)) :
      Change s q (.exitLast i) t
  | exits {t : State} (hi : (s.proc q).state = .running) (hpc : s.pc q = .exit .last)
      (h : ({ s.proc q with parent := s.heir q q, state := .zombie } : Proc).Same (t.proc q))
      (hu : t.pc q = .user) : Change s q (.exitLast q) t
  | threadExits {t : State} (retval : Nat) (hi : (s.proc q).state = .running)
      (hpc : s.pc q = .threadExit retval .last)
      (h : ({ s.proc q with state := .zombie, retval := retval } : Proc).Same (t.proc q))
      (hu : t.pc q = .user) : Change s q (.exitLast q) t
  | reaped {t : State} (i : Slot) (hi : (s.proc i).state = .running) (hw : s.waitFor i = some q)
      (h : (s.proc q).reap.Same (t.proc q)) : Change s q (.wait i) t
  | joined {t : State} (i : Slot) (thread : Nat) (hi : (s.proc i).state = .running)
      (hj : s.joinFor thread = some q) (h : (s.proc q).clean.Same (t.proc q)) :
      Change s q (.threadJoin i thread) t
  | cleaned {t : State} (i : Slot) (hi : (s.proc i).state = .running) (htid : (s.proc i).tid ≠ 0)
      (hq : s.siblings i q = true) (h : (s.proc q).clean.Same (t.proc q)) (hu : t.pc q = .user) :
      Change s q (.cleanforexec i) t
  | image {t : State} (pd sz : Nat) (hpc : s.pc q = .exec pd .stack)
      (h : t.proc q = { s.proc q with pgdir := some pd, sz := sz })
      (hold : ∃ oldpgdir, (s.proc q).pgdir = some oldpgdir ∧ t.pc q = .exec oldpgdir .free) :
      Change s q (.execCommit q sz) t
  | mainSz {t : State} (i np : Slot) (enough : Bool) (hpc : s.pc i = .thread np q .mainSz)
      (h : t.proc q = { s.proc q with sz := (s.proc np).sz }) : Change s q (.threadNext i enough) t
  | growproc {t : State} (i : Slot) (n : Int) (enough : Bool) (sz : Nat)
      (hlimit : (s.proc q).memorylimit = 0 ∨ sz ≤ (s.proc q).sz ∨
        sz ≤ uint (s.proc q).memorylimit)
      (h : t.proc q = { s.proc q with sz := sz }) : Change s q (.growproc i n enough) t
  | setmemorylimit {t : State} (i : Slot) (pid limit : Int) (h0 : 0 ≤ limit)
      (hp : (List.finRange NPROC).find? (fun p => (s.proc p).pid = pid) = some q)
      (hsz : (s.proc q).sz ≤ uint limit)
      (h : t.proc q = { s.proc q with memorylimit := limit }) :
      Change s q (.setmemorylimit i pid limit) t

theorem Change.of_eq {s t : State} {q : Slot} {a : Action} (h : t.proc q = s.proc q) :
    Change s q a t := .same (by rw [h]; exact .refl _)

theorem setUp_proc {s u : State} {np i q : Slot} {f : Proc → Proc} {k : Pc}
    (hu : u.proc = s.proc) (hne : q ≠ np) : ((u.setProc np f).setPc i k).proc q = s.proc q := by
  rw [State.setPc_proc, State.setProc_proc_ne u np q f hne, hu]

/-- `fork` writes to the new slot only. -/
theorem forkNext_other {s : State} {i np q : Slot} {pd : Nat} {st : ForkStage} (hne : q ≠ np) :
    (s.proc q).Same ((s.forkNext i np pd st).proc q) := by
  have hsame : ∀ {t : State}, t.proc q = s.proc q → (s.proc q).Same (t.proc q) := by
    intro t ht
    rw [ht]
    exact .refl _
  cases st with
  | files st => exact (State.quiet_copyNext s i np st).proc q
  | pid => exact hsame rfl
  | nextpid n => exact hsame rfl
  | _ => exact hsame (setUp_proc rfl hne)

theorem vacate_proc {s : State} {q : Slot} (gone : Slot → Bool) (h : gone q = true) :
    (s.proc q).clean.Same ((s.vacate gone).proc q) := by
  have hp : (s.vacate gone).proc q = (s.proc q).clean := if_pos h
  rw [hp]
  exact .refl _

theorem vacate_proc_of_not {s : State} {q : Slot} (gone : Slot → Bool) (h : gone q = false) :
    (s.vacate gone).proc q = s.proc q := if_neg (by simp [h])

theorem wait_self {s : State} {i p : Slot} (hw : s.waitFor i = some p) :
    (s.wait i).proc p = (s.proc p).reap := by
  unfold State.wait
  rw [hw]
  dsimp only
  split
  · rw [State.setPc_proc, State.setProc_proc_self]
    rfl
  · rw [State.setPc_proc, State.setProc_proc_self]

theorem wait_other {s : State} {i p q : Slot} (hw : s.waitFor i = some p) (hqp : q ≠ p) :
    (s.wait i).proc q = s.proc q := by
  unfold State.wait
  rw [hw]
  dsimp only
  split <;> exact setUp_proc rfl hqp

theorem change_of_not_owned {s t : State} {a : Action} {q : Slot}
    (hown : ∀ i, (s.pc i).owns ≠ some q) (hu : (s.proc q).state ≠ .unused) (h : Effect s a t) :
    Change s q a t := by
  have hne : ∀ {i np}, (s.pc i).owns = some np → q ≠ np := by
    rintro i np ho rfl
    exact hown i ho
  cases h with
  | kept hf h hpc hfile hlog => exact .same (h.proc q)
  | alloc hf i np k hrun hpc hnp hk =>
    have hqn : q ≠ np := by
      rintro rfl
      exact hu hnp
    exact .of_eq (setUp_proc rfl hqn)
  | abort hf i np pgdir hrun hpc =>
    have hqn : q ≠ np := by
      rcases hpc with hpc | ⟨main, hpc⟩
      · exact hne (i := i) (by rw [hpc]; rfl)
      · exact hne (i := i) (by rw [hpc]; rfl)
    exact .of_eq (setUp_proc rfl hqn)
  | forkNext i np pd st hrun hpc hvm hdup =>
    exact .same (forkNext_other (hne (i := i) (by rw [hpc]; rfl)))
  | threadNext i np main enough st hrun hpc hdup =>
    have hqn : q ≠ np := hne (i := i) (by rw [hpc]; rfl)
    cases st with
    | files st => exact .same ((State.quiet_copyNext s main np st).proc q)
    | tid => exact .of_eq rfl
    | nexttid n => exact .of_eq rfl
    | limit =>
      unfold State.threadNext
      dsimp only
      split_ifs <;> exact .of_eq rfl
    | copyout => exact .of_eq rfl
    | mainSz =>
      by_cases hqm : q = main
      · subst hqm
        refine .mainSz i np enough hpc ?_
        rw [State.threadNext, State.setPc_proc, State.setProc_proc_self]
      · exact .of_eq (setUp_proc rfl hqm)
    | _ => exact .of_eq (setUp_proc rfl hqn)
  | exitLast i hrun hpc hfree =>
    cases hsib : s.siblings i q with
    | true => exact .killed i hrun hpc hsib (exitLast_sibling hsib) (exitLast_pc (Or.inl hsib))
    | false =>
      by_cases hqi : q = i
      · subst hqi
        exact .exits hrun hpc exitLast_self (exitLast_pc (Or.inr rfl))
      · exact .outlives i hrun hpc hsib hqi (exitLast_other hsib hqi)
  | threadExitLast i retval hrun hpc =>
    by_cases hqi : q = i
    · subst hqi
      exact .threadExits retval hrun hpc (threadExitLast_self s q retval)
        (by rw [State.threadExitLast, State.setPc_pc, if_pos rfl])
    · exact .same (threadExitLast_other retval hqi)
  | reap i p hrun hpc hw =>
    by_cases hqp : q = p
    · subst hqp
      refine .reaped i hrun hw ?_
      rw [wait_self hw]
      exact .refl _
    · exact .of_eq (wait_other hw hqp)
  | join i p thread hrun hpc hj =>
    by_cases hqp : q = p
    · subst hqp
      have hv := vacate_proc (s := s) (fun r => r = q) (decide_eq_true rfl)
      exact .joined i thread hrun hj hv
    · have hv := vacate_proc_of_not (s := s) (fun r => r = p) (decide_eq_false hqp)
      exact .of_eq hv
  | exec i pd ip hrun hpc hvm => exact .of_eq rfl
  | execBad i pd st hrun hpc hst => exact .of_eq rfl
  | cleanforexec i pd hrun hpc hidle hfree =>
    unfold State.cleanforexec
    split_ifs with htid
    · exact .of_eq rfl
    · cases hsib : s.siblings i q with
      | true =>
        refine .cleaned i hrun htid hsib (vacate_proc _ hsib) ?_
        rw [State.setPc_pc, if_neg (of_decide_eq_true hsib).2]
        exact if_pos hsib
      | false => exact .of_eq (vacate_proc_of_not _ hsib)
  | execCommit i pd sz oldpgdir hrun hpc hold =>
    by_cases hqi : q = i
    · subst hqi
      refine .image pd sz hpc ?_ ⟨oldpgdir, hold, ?_⟩
      · rw [State.setPc_proc, State.setProc_proc_self]
      · rw [State.setPc_pc, if_pos rfl]
    · exact .of_eq (setUp_proc rfl hqi)
  | execFree i oldpgdir hrun hpc => exact .of_eq rfl
  | growproc i main n enough sz hlimit =>
    by_cases hqm : q = main
    · subst hqm
      exact .growproc i n enough sz hlimit (State.setProc_proc_self s q _)
    · exact .of_eq (State.setProc_proc_ne s main q _ hqm)
  | setmemorylimit i p pid limit h0 hp hsz =>
    by_cases hqp : q = p
    · subst hqp
      exact .setmemorylimit i pid limit h0 hp hsz (State.setProc_proc_self s q _)
    · exact .of_eq (State.setProc_proc_ne s p q _ hqp)

theorem change_effect {s t : State} {a : Action} {q : Slot} (hs : Sound s) (hq : s.started q)
    (h : Effect s a t) : Change s q a t := by
  refine change_of_not_owned (fun i ho => ?_) (fun hu => ?_) h
  · cases hpc : s.pc i with
    | fork np st =>
      rw [hpc] at ho
      cases ho
      exact State.started_ne hq (Or.inl (hs.embryo_fork hpc)) rfl
    | thread np main st =>
      rw [hpc] at ho
      cases ho
      exact State.started_ne hq (Or.inl (hs.embryo_thread hpc)) rfl
    | _ =>
      rw [hpc] at ho
      cases ho
  · exact State.started_ne hq (Or.inr (Proc.phase_unused.mpr hu)) rfl

/-- The same slot, in use. -/
structure Stays (s t : State) (q : Slot) : Prop where
  started : t.started q
  pid : (t.proc q).pid = (s.proc q).pid
  tid : (t.proc q).tid = (s.proc q).tid

theorem stays_of {s t : State} {q : Slot} (hq : s.started q)
    (hph : (t.proc q).phase = (s.proc q).phase) (hpid : (t.proc q).pid = (s.proc q).pid)
    (htid : (t.proc q).tid = (s.proc q).tid) : Stays s t q := by
  refine ⟨?_, hpid, htid⟩
  rcases hq with hq | hq
  · exact Or.inl (hph.trans hq)
  · exact Or.inr (hph.trans hq)

theorem frees_effect {s t : State} {a : Action} {q : Slot} (h : Effect s a t)
    (hq : s.frees a q = true) : (t.proc q).phase = .unused := by
  have hno : s.frees a q = false → False := fun hf => absurd (hf.symm.trans hq) nofun
  cases h with
  | kept hf h hpc hfile hlog => exact (hno (hf q)).elim
  | alloc hf i np k hrun hpc hnp hk => exact (hno (hf q)).elim
  | abort hf i np hrun hpc => exact (hno (hf q)).elim
  | exitLast i hrun hpc hfree => exact (exitLast_sibling (of_decide_eq_true hq).2).phase
  | threadExitLast i retval hrun hpc =>
    have hpc' := (of_decide_eq_true hq).1
    rw [hpc] at hpc'
    cases hpc'
  | reap i p hrun hpc hw =>
    have hp : p = q := Option.some.inj (hw.symm.trans (of_decide_eq_true hq))
    subst hp
    rw [wait_self hw]
    rfl
  | join i p thread hrun hpc hj =>
    have hp : p = q := Option.some.inj (hj.symm.trans (of_decide_eq_true hq))
    subst hp
    exact (vacate_proc (s := s) (fun r => r = p) (decide_eq_true rfl)).phase
  | cleanforexec i pd hrun hpc hidle hfree =>
    have hq' := of_decide_eq_true hq
    unfold State.cleanforexec
    rw [if_neg hq'.1]
    exact (vacate_proc _ hq'.2).phase
  | _ => exact (hno rfl).elim

theorem Change.stays {s t : State} {a : Action} {q : Slot} (h : Change s q a t)
    (hq : s.started q) :
    Stays s t q ∨ s.frees a q = true ∧ (t.proc q).phase = .unused := by
  cases h with
  | same h => exact Or.inl (stays_of hq h.phase h.pid h.tid)
  | killed i hi hpc hs h hu => exact Or.inr ⟨decide_eq_true ⟨hpc, hs⟩, h.phase⟩
  | outlives i hi hpc hs hqi h => exact Or.inl (stays_of hq h.phase h.pid h.tid)
  | exits hi hpc h hu => exact Or.inl ⟨Or.inr h.phase, h.pid, h.tid⟩
  | threadExits retval hi hpc h hu => exact Or.inl ⟨Or.inr h.phase, h.pid, h.tid⟩
  | reaped i hi hw h => exact Or.inr ⟨decide_eq_true hw, h.phase⟩
  | joined i thread hi hj h => exact Or.inr ⟨decide_eq_true hj, h.phase⟩
  | cleaned i hi htid hs h hu => exact Or.inr ⟨decide_eq_true ⟨htid, hs⟩, h.phase⟩
  | image pd sz hpc h hold => exact Or.inl (stays_of hq (by rw [h]; rfl) (by rw [h]) (by rw [h]))
  | mainSz i np enough hpc h =>
    exact Or.inl (stays_of hq (by rw [h]; rfl) (by rw [h]) (by rw [h]))
  | growproc i n enough sz hlimit h =>
    exact Or.inl (stays_of hq (by rw [h]; rfl) (by rw [h]) (by rw [h]))
  | setmemorylimit i pid limit h0 hp hsz h =>
    exact Or.inl (stays_of hq (by rw [h]; rfl) (by rw [h]) (by rw [h]))

/-! ### Sound states -/

theorem Change.mainthread {s t : State} {a : Action} {q : Slot} (h : Change s q a t) :
    (t.proc q).mainthread = (s.proc q).mainthread := by
  cases h with
  | same h => exact h.mainthread
  | killed i hi hpc hq h hu => exact h.mainthread
  | outlives i hi hpc hq hqi h => exact h.mainthread
  | exits hi hpc h hu => exact h.mainthread
  | threadExits retval hi hpc h hu => exact h.mainthread
  | reaped i hi hw h => exact h.mainthread
  | joined i thread hi hj h => exact h.mainthread
  | cleaned i hi htid hq h hu => exact h.mainthread
  | image pd sz hpc h hold => rw [h]
  | mainSz i np enough hpc h => rw [h]
  | growproc i n enough sz hlimit h => rw [h]
  | setmemorylimit i pid limit h0 hp hsz h => rw [h]

theorem waitFor_some {s : State} {i q : Slot} (h : s.waitFor i = some q) :
    (s.proc q).parent = some i ∧ (s.proc q).phase = .zombie := by
  have hz := List.find?_some h
  simp only [decide_eq_true_eq] at hz
  exact ⟨hz.1, Proc.phase_zombie.mpr hz.2⟩

theorem joinFor_some {s : State} {thread : Nat} {q : Slot} (h : s.joinFor thread = some q) :
    (s.proc q).tid = thread ∧ (s.proc q).phase = .zombie := by
  have hz := List.find?_some h
  simp only [decide_eq_true_eq] at hz
  exact ⟨hz.1, Proc.phase_zombie.mpr hz.2⟩

theorem Change.alive {s t : State} {a : Action} {q : Slot} (h : Change s q a t)
    (hq : (s.proc q).phase = .alive) : (t.proc q).phase = .alive ∨ t.pc q = .user := by
  cases h with
  | same h => exact Or.inl (h.phase.trans hq)
  | killed i hi hpc hs h hu => exact Or.inr hu
  | outlives i hi hpc hs hqi h => exact Or.inl (h.phase.trans hq)
  | exits hi hpc h hu => exact Or.inr hu
  | threadExits retval hi hpc h hu => exact Or.inr hu
  | reaped i hi hw h =>
    have hz := (waitFor_some hw).2
    rw [hq] at hz
    cases hz
  | joined i thread hi hj h =>
    have hz := (joinFor_some hj).2
    rw [hq] at hz
    cases hz
  | cleaned i hi htid hs h hu => exact Or.inr hu
  | image pd sz hpc h hold => exact Or.inl (by rw [h]; exact hq)
  | mainSz i np enough hpc h => exact Or.inl (by rw [h]; exact hq)
  | growproc i n enough sz hlimit h => exact Or.inl (by rw [h]; exact hq)
  | setmemorylimit i pid limit h0 hp hsz h => exact Or.inl (by rw [h]; exact hq)

theorem Ids.init_steps {x y : Ids} (h : Relation.ReflTransGen Ids.Step x y) : y.init = x.init := by
  induction h with
  | refl => rfl
  | tail _ hst ih =>
    rw [← ih]
    cases hst <;> rfl

theorem Sound.effect {s t : State} {a : Action} (hs : Sound s) (hok : idsOk s a)
    (h : Effect s a t) : Sound t := by
  have hids := ids_effect hs.base hs.init hok h
  have hinit : t.initproc = s.initproc := Ids.init_steps hids
  have halive : s.started s.initproc := Or.inl hs.base.births.initAlive
  refine ⟨Ids.base_steps hs.base hids, ⟨?_, ?_, ?_⟩, fun q hq => ?_⟩
  · rw [hinit, (change_effect hs halive h).mainthread]
    exact hs.init.mainthread
  · rw [hinit]
    rcases pc_effect h s.initproc with hpc | hpc | hg
    · rw [hpc]
      exact hs.init.main
    · rw [hpc]
      rfl
    · cases hm : (t.pc s.initproc).main with
      | none => rfl
      | some p =>
        rcases hg.main p hm with hm | hm
        · rw [hs.init.mainthread] at hm
          cases hm
        · rw [hs.init.main] at hm
          cases hm
  · rw [hinit]
    rcases pc_effect h s.initproc with hpc | hpc | hg
    · rw [hpc]
      exact hs.init.leaving
    · rw [hpc]
      rfl
    · cases hl : (t.pc s.initproc).leaving with
      | false => rfl
      | true =>
        rcases hg.leaving hl with hl | hl
        · rw [hs.init.leaving] at hl
          cases hl
        · exact absurd rfl hl
  · have hqa : (s.proc q).phase = .alive := by
      rcases pc_effect h q with hpc | hpc | hg
      · exact hs.busy q (by rw [← hpc]; exact hq)
      · exact absurd hpc hq
      · exact hg.alive
    exact ((change_effect hs (Or.inl hqa) h).alive hqa).resolve_right hq

theorem Sound.stays {s t : State} {a : Action} {q : Slot} (hs : Sound s) (h : Effect s a t)
    (hq : s.started q) (hqt : t.started q) : Stays s t q := by
  rcases (change_effect hs hq h).stays hq with hst | ⟨-, hunused⟩
  · exact hst
  · rcases hqt with hqt | hqt <;> exact Phase.noConfusion (hunused.symm.trans hqt)

theorem Sound.step {s t : State} {a : Action} (hs : Sound s) (hok : idsOk s a)
    (h : step s a = some t) : Sound t := hs.effect hok (step_effect h)

theorem userinit_pid (q : Slot) : (userinit.proc q).pid = 0 := by
  dsimp only [userinit]
  rw [Function.update_apply]
  split_ifs <;> rfl

theorem userinit_tid (q : Slot) : (userinit.proc q).tid = 0 := by
  dsimp only [userinit]
  rw [Function.update_apply]
  split_ifs <;> rfl

theorem userinit_started {q : Slot} (h : userinit.started q) : q = userinit.initproc := by
  by_contra hq
  have hp : userinit.proc q = Proc.zero := by
    dsimp only [userinit] at hq ⊢
    rw [Function.update_of_ne hq]
  have hph : userinit.ids.phase q = .unused := by
    dsimp only [State.ids]
    rw [hp]
    rfl
  rcases h with h | h <;> exact Phase.noConfusion (hph.symm.trans h)

theorem sound_userinit : Sound userinit := by
  have hb : ∀ i b, userinit.ids.birth i ≠ some b := fun i b h => nomatch h
  refine ⟨⟨⟨?_, ?_, ?_, ?_, rfl⟩, ⟨?_, ?_, ?_, fun q _ => userinit_pid q, fun q => ?_, fun _ q => ?_,
    by decide, ?_, rfl⟩, ⟨?_, ?_, fun _ q => ?_, by decide, ?_, rfl⟩,
    ⟨fun i b _ h => absurd h (hb i b), fun i b _ h => absurd h (hb i b),
      fun i j b c _ h => absurd h (hb i b)⟩, ?_⟩, ⟨rfl, rfl, rfl⟩, ?_⟩
  · exact fun i b h => absurd h (hb i b)
  · exact fun i b h => absurd h (hb i b)
  · exact fun i j b c h => absurd h (hb i b)
  · exact fun i b h => absurd h (hb i b)
  · exact fun i b h => absurd h (hb i b)
  · exact fun i b h => absurd h (hb i b)
  · exact fun i b h => absurd h (hb i b)
  · exact (userinit_pid q).ge
  · exact (userinit_pid q).trans_lt (by decide)
  · exact fun q hq hne => absurd (userinit_started hq) hne
  · exact fun i b h => absurd h (hb i b)
  · exact fun i b h => absurd h (hb i b)
  · rw [show userinit.ids.tid q = 0 from userinit_tid q]
    decide
  · exact fun q r hq => absurd (userinit_tid q) hq
  · intro q r hq hr _ _ _
    rw [userinit_started hq, userinit_started hr]
  · exact fun q h => absurd rfl h

open Transition (Reach)

theorem sound_of_reach {ok : State → Action → Prop} (hok : ∀ s a, ok s a → idsOk s a) {s : State}
    (h : Reach step ok userinit s) : Sound s :=
  h.invariant sound_userinit fun u a _ hu ha hv => hu.step (hok u a ha) hv

end Xv6.Threads
