import Xv6.Threads.Setup

/-!
# The parents of processes

`exit` hands over the children of its caller only. The parent of a process is in use
as long as no other slot goes that is the parent of one.
-/

namespace Xv6.Threads

open Mlfq (NPROC Slot Procstate)
open Transition

/-- The parent of every process but init is a slot in use, of the process that forked
it or of init. -/
def ParentValid (s : State) : Prop :=
  ∀ q, s.started q → (s.proc q).tid = 0 → q ≠ s.initproc →
    ∃ p, (s.proc q).parent = some p ∧ (s.proc p).state ≠ .unused ∧
      ((s.proc p).pid = s.forker q ∨ p = s.initproc)

/-- A slot that comes out of use is not init's, nor the parent of a process that
stays. -/
def parentOk (s : State) (a : Action) : Bool :=
  ∀ q, s.frees a q = true → q ≠ s.initproc ∧
    ∀ c, s.started c → (s.proc c).tid = 0 → s.frees a c = false → (s.proc c).parent ≠ some q

def ParentOk (s : State) (a : Action) : Prop := idsOk s a = true ∧ parentOk s a = true

instance (s : State) (a : Action) : Decidable (ParentOk s a) :=
  inferInstanceAs (Decidable (_ ∧ _))

def ForkStage.hasParent : ForkStage → Bool
  | .pgdir | .sz | .parent => false
  | _ => true

/-- `p` may stand as the parent of the process in slot `q`. -/
def State.parents (s : State) (p q : Slot) : Prop :=
  s.started p ∧ ((s.proc p).pid = s.forker q ∨ p = s.initproc)

structure ParentInv (s : State) : Prop where
  started : ∀ q, s.started q → (s.proc q).tid = 0 → q ≠ s.initproc →
    ∃ p, (s.proc q).parent = some p ∧ s.parents p q
  fork : ∀ i np st, s.pc i = .fork np st → st.hasParent = true →
    (s.proc np).parent = some i ∧ s.forker np = (s.proc i).pid

section Steps

variable {s t : State} {a : Action}

theorem forker_effect (h : Effect s a t) :
    t.forker = s.forker ∨ ∃ i np pd, s.pc i = .fork np .parent ∧ a = .forkNext i pd ∧
      t = s.forkNext i np pd .parent := by
  have hreparent : ∀ (u : State) (i : Slot), (u.reparent i).forker = u.forker := by
    intro u i
    unfold State.reparent
    dsimp only
    split_ifs <;> rfl
  cases h with
  | kept hf h hpc hfile hlog => exact Or.inl h.forker
  | forkNext i np pd st hrun hpc hvm hdup =>
    cases st with
    | parent => exact Or.inr ⟨i, np, pd, hpc, rfl, rfl⟩
    | files st => exact Or.inl (State.quiet_copyNext s i np st).forker
    | _ => exact Or.inl rfl
  | threadNext i np main enough st hrun hpc hdup =>
    left
    cases st with
    | files st => exact (State.quiet_copyNext s main np st).forker
    | limit =>
      unfold State.threadNext
      dsimp only
      split_ifs <;> rfl
    | _ => rfl
  | exitLast i hrun hpc hfree =>
    left
    rw [State.exitLast, State.setPc_forker, State.setProc_forker, hreparent]
    exact (State.quiet_wakeParent _ i).forker
  | reap i p hrun hpc hw =>
    left
    unfold State.wait
    rw [hw]
    dsimp only
    split <;> rfl
  | cleanforexec i pd hrun hpc hidle hfree =>
    left
    unfold State.cleanforexec
    split_ifs <;> rfl
  | _ => exact Or.inl rfl

theorem forker_started (hs : Sound s) (h : Effect s a t) {q : Slot} (hq : s.started q) :
    t.forker q = s.forker q := by
  rcases forker_effect h with hf | ⟨i, np, pd, hpc, -, ht⟩
  · rw [hf]
  · have hne : q ≠ np := State.started_ne hq (Or.inl (hs.embryo_fork hpc))
    rw [ht]
    exact Function.update_of_ne hne _ _

theorem initproc_effect (hs : Sound s) (hok : idsOk s a) (h : Effect s a t) :
    t.initproc = s.initproc := Ids.init_steps (ids_effect hs.base hs.init hok h)

/-- A parent stays one, unless its slot comes out of use. -/
theorem parents_step (hs : Sound s) (hok : ParentOk s a) (h : Effect s a t) {p q : Slot}
    (hp : s.parents p q) (hf : t.forker q = s.forker q) (hfree : s.frees a p = false) :
    t.parents p q := by
  obtain ⟨hsp, hpid⟩ := hp
  rcases (change_effect hs hsp h).stays hsp with hst | ⟨hfreed, -⟩
  · refine ⟨hst.started, ?_⟩
    rw [hst.pid, hf, initproc_effect hs hok.1 h]
    exact hpid
  · rw [hfree] at hfreed
    cases hfreed

theorem ParentOk.keeps_init (hok : ParentOk s a) : s.frees a s.initproc = false := by
  cases hf : s.frees a s.initproc with
  | false => rfl
  | true => exact absurd rfl (of_decide_eq_true hok.2 _ hf).1

theorem ParentOk.keeps_parent (hok : ParentOk s a) {p q : Slot} (hq : s.started q)
    (htid : (s.proc q).tid = 0) (hfree : s.frees a q = false)
    (hp : (s.proc q).parent = some p) : s.frees a p = false := by
  cases hf : s.frees a p with
  | false => rfl
  | true => exact absurd hp ((of_decide_eq_true hok.2 _ hf).2 q hq htid hfree)

theorem parents_init (hs : Sound s) (hok : ParentOk s a) (h : Effect s a t) (q : Slot) :
    t.parents s.initproc q := by
  have hi : s.started s.initproc := Or.inl hs.base.births.initAlive
  rcases (change_effect hs hi h).stays hi with hst | ⟨hfreed, -⟩
  · exact ⟨hst.started, Or.inr (initproc_effect hs hok.1 h).symm⟩
  · rw [hok.keeps_init] at hfreed
    cases hfreed

/-- The parent of a process after the step. -/
theorem Change.parent {q : Slot} (h : Change s q a t) (hfree : s.frees a q = false) :
    (t.proc q).parent = (s.proc q).parent ∨ (t.proc q).parent = some s.initproc := by
  have hheir : ∀ i, s.heir i q = (s.proc q).parent ∨ s.heir i q = some s.initproc := by
    intro i
    unfold State.heir
    split_ifs
    · exact Or.inr rfl
    · exact Or.inl rfl
  have hno : s.frees a q = true → False := fun h => absurd (hfree.symm.trans h) nofun
  cases h with
  | same h => exact Or.inl h.parent
  | killed i hi hpc hs h hu => exact (hno (decide_eq_true ⟨hpc, hs⟩)).elim
  | outlives i hi hpc hs hqi h =>
    rw [h.parent]
    exact hheir i
  | exits hi hpc h hu =>
    rw [h.parent]
    exact hheir q
  | threadExits retval hi hpc h hu => exact Or.inl h.parent
  | reaped i hi hw h => exact (hno (decide_eq_true hw)).elim
  | joined i thread hi hj h => exact (hno (decide_eq_true hj)).elim
  | cleaned i hi htid hs h hu => exact (hno (decide_eq_true ⟨htid, hs⟩)).elim
  | image pd sz hpc h hold => exact Or.inl (by rw [h])
  | mainSz i np enough hpc h => exact Or.inl (by rw [h])
  | growproc i n enough sz hlimit h => exact Or.inl (by rw [h])
  | setmemorylimit i pid limit h0 hp hsz h => exact Or.inl (by rw [h])

theorem started_step (hs : Sound s) (hi : ParentInv s) (hok : ParentOk s a) (h : Effect s a t)
    {q : Slot} (hq : s.started q) (hqt : t.started q) (htid : (t.proc q).tid = 0)
    (hinit : q ≠ t.initproc) : ∃ p, (t.proc q).parent = some p ∧ t.parents p q := by
  have hc := change_effect hs hq h
  rcases hc.stays hq with hst | ⟨-, hunused⟩
  · have hfree : s.frees a q = false := by
      cases hf : s.frees a q with
      | false => rfl
      | true => exact absurd hqt (not_started (frees_effect h hf) (Or.inl rfl))
    rw [hst.tid] at htid
    rw [initproc_effect hs hok.1 h] at hinit
    obtain ⟨p, hp, hpar⟩ := hi.started q hq htid hinit
    rcases hc.parent hfree with hsame | hinit'
    · refine ⟨p, hsame.trans hp, ?_⟩
      exact parents_step hs hok h hpar (forker_started hs h hq) (hok.keeps_parent hq htid hfree hp)
    · exact ⟨s.initproc, hinit', parents_init hs hok h q⟩
  · exact absurd hqt (not_started hunused (Or.inl rfl))

/-- What `fork` has written stays until the process starts. -/
theorem forker_setUp (hs : Sound s) (h : Effect s a t) {i q : Slot} {st : ForkStage}
    (hpc : s.pc i = .fork q st) (hst : st.hasParent = true) : t.forker q = s.forker q := by
  rcases forker_effect h with hf | ⟨j, np, pd, hpcj, -, ht⟩
  · rw [hf]
  · have hne : q ≠ np := by
      intro hq
      subst hq
      have hij : i = j := hs.owner (q := q) (by rw [hpc]; rfl) (by rw [hpcj]; rfl)
      rw [← hij, hpc] at hpcj
      cases hpcj
      cases hst
    rw [ht]
    exact Function.update_of_ne hne _ _

/-- The own steps of `fork`. -/
theorem fork_forkNext (hs : Sound s) (hi : ParentInv s) {i q : Slot} {pd : Nat} {st : ForkStage}
    (hrun : (s.proc i).state = .running) (hpc : s.pc i = .fork q st)
    (hst : st = .parent ∨ st.hasParent = true) :
    ((s.forkNext i q pd st).proc q).parent = some i ∧
      (s.forkNext i q pd st).forker q = ((s.forkNext i q pd st).proc i).pid := by
  have hiq : i ≠ q := State.started_ne (Or.inl (Proc.phase_alive hrun)) (Or.inl (hs.embryo_fork hpc))
  have hpar : st.hasParent = true → (s.proc q).parent = some i ∧ s.forker q = (s.proc i).pid :=
    hi.fork i q st hpc
  have hother : (s.proc i).Same ((s.forkNext i q pd st).proc i) := forkNext_other hiq
  have hpid := hother.pid
  refine ⟨?_, hpid ▸ ?_⟩
  · cases st with
    | pgdir => rcases hst with hst | hst <;> cases hst
    | sz => rcases hst with hst | hst <;> cases hst
    | parent => rw [State.forkNext, State.setPc_proc, State.setProc_proc_self]
    | pid => exact (hpar rfl).1
    | nextpid n => exact (hpar rfl).1
    | files st => exact ((State.quiet_copyNext s i q st).proc q).parent.trans (hpar rfl).1
    | _ =>
      rw [State.forkNext, State.setPc_proc, State.setProc_proc_self]
      exact (hpar rfl).1
  · cases st with
    | pgdir => rcases hst with hst | hst <;> cases hst
    | sz => rcases hst with hst | hst <;> cases hst
    | parent => exact Function.update_self _ _ _
    | files st =>
      rw [State.forkNext, State.setPc_forker, (State.quiet_copyNext s i q st).forker]
      exact (hpar rfl).2
    | _ => exact (hpar rfl).2

theorem fork_step (hs : Sound s) (hi : ParentInv s) (hok : ParentOk s a) (h : Effect s a t)
    {i np : Slot} {st : ForkStage} (hpc : t.pc i = .fork np st) (hst : st.hasParent = true) :
    (t.proc np).parent = some i ∧ t.forker np = (t.proc i).pid := by
  have ht := hs.effect hok.1 h
  have halive : (t.proc i).phase = .alive := ht.busy i (by rw [hpc]; exact nofun)
  cases shaped_effect hs h (by rw [hpc]; rfl) with
  | taken k hpcs hq hk =>
    rw [State.setPc_pc, if_pos rfl] at hpc
    rcases hk with hk | ⟨main, -, hk⟩ <;> rw [hk] at hpc <;> cases hpc
    cases hst
  | other hsame hl hparent =>
    rw [hsame] at hpc
    obtain ⟨hp, hf⟩ := hi.fork i np st hpc hst
    have halives : (s.proc i).phase = .alive := hs.busy i (by rw [hpc]; exact nofun)
    have hpid := (hs.stays h (Or.inl halives) (Or.inl halive)).pid
    refine ⟨?_, ?_⟩
    · rcases hparent with hparent | ⟨j, -, hpcj, hj⟩
      · exact hparent.trans hp
      · obtain rfl : i = j := Option.some.inj (hp.symm.trans hj)
        rw [hpc] at hpcj
        cases hpcj
    · rw [forker_setUp hs h hpc hst, hf, hpid]
  | fork pd st' hrun hpcs hvm =>
    refine fork_forkNext hs hi hrun hpcs ?_
    cases st' <;> rw [State.forkNext, State.setPc_pc, if_pos rfl] at hpc <;> cases hpc <;>
      first | exact Or.inl rfl | exact Or.inr rfl | cases hst
  | thread main enough st' hrun hpcs =>
    rcases threadNext_pc s i np main enough st' with hk | ⟨st'', hk⟩ <;> rw [hk] at hpc <;> cases hpc

theorem parentInv_step (hs : Sound s) (hi : ParentInv s) (hok : ParentOk s a)
    (h : step s a = some t) : ParentInv t := by
  have he := step_effect h
  refine ⟨fun q hq htid hinit => ?_, fun i np st hpc hst => fork_step hs hi hok he hpc hst⟩
  rcases born_effect he hq with hqs | hborn
  · exact started_step hs hi hok he hqs hq htid hinit
  cases hborn with
  | fork i pd hrun hpc =>
    obtain ⟨hp, hf⟩ : ((s.forkNext i q pd .runnable).proc q).parent = some i ∧
        (s.forkNext i q pd .runnable).forker q = ((s.forkNext i q pd .runnable).proc i).pid :=
      fork_forkNext hs hi hrun hpc (Or.inr rfl)
    have hiq : i ≠ q :=
      State.started_ne (Or.inl (Proc.phase_alive hrun)) (Or.inl (hs.embryo_fork hpc))
    refine ⟨i, hp, Or.inl ?_, Or.inl hf.symm⟩
    have hpi : (s.forkNext i q pd .runnable).proc i = s.proc i := setUp_proc rfl hiq
    exact (congrArg Proc.phase hpi).trans (Proc.phase_alive hrun)
  | thread i main enough hrun hpc =>
    have hne := hs.base.tids.threadTid i ⟨q, .thread, true, true, none⟩
      (by dsimp only [State.ids]; rw [hpc]; rfl) rfl rfl
    rw [State.threadNext, State.setPc_proc, State.setProc_proc_self] at htid
    exact absurd htid hne

end Steps

/-! ### Runs -/

theorem parentInv_userinit : ParentInv userinit := by
  refine ⟨fun q hq _ hinit => absurd (userinit_started hq) hinit, ?_⟩
  intro i np st hpc
  cases hpc

theorem parentValid_of_reach {s : State} (hr : Reach step ParentOk userinit s) : ParentValid s := by
  have hinv : Sound s ∧ ParentInv s := by
    refine hr.invariant (I := fun s => Sound s ∧ ParentInv s)
      ⟨sound_userinit, parentInv_userinit⟩ ?_
    intro u a v ⟨hu, hi⟩ hok hv
    exact ⟨hu.step hok.1 hv, parentInv_step hu hi hok hv⟩
  intro q hq htid hinit
  obtain ⟨p, hp, hstarted, hpid⟩ := hinv.2.started q hq htid hinit
  refine ⟨p, hp, fun hunused => ?_, hpid⟩
  exact not_started (Proc.phase_unused.mpr hunused) (Or.inl rfl) hstarted

-- The process of init forks a child and exits.
def leavesChild : List Action :=
  .sched 0 :: forkSteps 0 1 0 ++ [.yield 0, .sched 1] ++ forkSteps 1 2 0 ++ exitSteps 1 0

def childLeft : State := (run (guarded step ParentOk) userinit leavesChild).getD userinit

theorem parentValid_of_reach_childLeft :
    ParentValid childLeft ∧ (childLeft.proc 2).parent = some 0 ∧ (childLeft.forker 2) = 1 := by
  have hfacts : (run (guarded step ParentOk) userinit leavesChild).isSome ∧
      (childLeft.proc 2).parent = some 0 ∧ childLeft.forker 2 = 1 := by decide +kernel
  exact ⟨parentValid_of_reach (reach_of_guarded_run (eq_some_getD hfacts.1)), hfacts.2⟩

/-- A thread forks, ends with `thread_exit` and is joined: its child keeps a free slot
as parent. -/
theorem not_parentValid_of_reach :
    ¬ ∀ s, Reach step (fun s a => idsOk s a = true) userinit s → ParentValid s := by
  intro hall
  have hrun : (run (guarded step fun s a => idsOk s a = true) userinit (processAndThread ++
      [.yield 1, .sched 2] ++ forkSteps 2 2 0 ++ threadExitSteps 2 0 0 ++
      [.sched 1, .threadJoin 1 1])).any (fun s => s.started 3 && (s.proc 3).tid == 0 &&
        s.initproc == 0 && (s.proc 3).parent == some 2 && (s.proc 2).state == .unused) = true := by
    decide +kernel
  obtain ⟨s, hs, hview⟩ := (Option.any_eq_true _ _).mp hrun
  simp only [Bool.and_eq_true, beq_iff_eq, decide_eq_true_eq] at hview
  obtain ⟨⟨⟨⟨hstarted, htid⟩, hinit⟩, hparent⟩, hunused⟩ := hview
  obtain ⟨p, hp, hused, -⟩ := hall s (reach_of_guarded_run hs) 3 hstarted htid (by rw [hinit]; decide)
  obtain rfl : 2 = p := Option.some.inj (hparent.symm.trans hp)
  exact hused hunused

end Xv6.Threads
