import Xv6.Lib.Transition
import Xv6.Threads.Ids

/-!
# The numbers of the slots in the table of project2

Each step of the table is some steps of `Ids`, where no counter has overflowed or
changed since it was read, and `thread_create` finds its own process under
`mainthread`.
-/

namespace Xv6.Threads

open Mlfq (NPROC Slot Procstate)

def ForkStage.hasPid : ForkStage → Bool
  | .tid | .memorylimit | .files _ | .runnable => true
  | _ => false

def ForkStage.hasTid : ForkStage → Bool
  | .memorylimit | .files _ | .runnable => true
  | _ => false

/-- `nextpid` has been written back, and the pid has not been written yet. -/
def ForkStage.taken : ForkStage → Option Int
  | .setPid n => some n
  | _ => none

def ThreadStage.hasPid : ThreadStage → Bool
  | .pgdir | .sz | .parent | .mainthread | .pid => false
  | _ => true

def ThreadStage.hasTid : ThreadStage → Bool
  | .pgdir | .sz | .parent | .mainthread | .pid | .tid | .nexttid _ | .setTid _ => false
  | _ => true

def ThreadStage.taken : ThreadStage → Option Int
  | .setTid n => some n
  | _ => none

def ForkStage.birth (np : Slot) (st : ForkStage) : Birth :=
  ⟨np, .process, st.hasPid, st.hasTid, st.taken⟩

def ThreadStage.birth (np : Slot) (st : ThreadStage) : Birth :=
  ⟨np, .thread, st.hasPid, st.hasTid, st.taken⟩

/-- What the thread is setting up. -/
def Pc.birth : Pc → Option Birth
  | .fork np st => some (st.birth np)
  | .thread np _ st => some (st.birth np)
  | _ => none

/-- The local variable `mainthread` of `thread_create`. -/
def Pc.main : Pc → Option Slot
  | .thread _ main _ => some main
  | _ => none

theorem Pc.birth_of_plain {k : Pc} (h : k.plain) : k.birth = none := by
  cases k <;> first | rfl | cases h

theorem Pc.main_of_plain {k : Pc} (h : k.plain) : k.main = none := by
  cases k <;> first | rfl | cases h

def State.ids (s : State) : Ids where
  phase q := (s.proc q).phase
  pid q := (s.proc q).pid
  tid q := (s.proc q).tid
  birth q := (s.pc q).birth
  nextpid := s.nextpid
  nexttid := s.nexttid
  init := s.initproc

/-- When `fork` and `thread_create` write an `int` counter back, it still has the value
they read, and has not overflowed; and the pid that `thread_create` reads from the slot of
`mainthread` is its own. -/
def idsOk (s : State) : Action → Bool
  | .forkNext i _ =>
    match s.pc i with
    | .fork _ (.nextpid n) => s.nextpid = n ∧ 0 < n
    | _ => true
  | .threadNext i _ =>
    match s.pc i with
    | .thread _ main .pid => (s.proc main).pid = (s.proc i).pid
    | .thread _ _ (.nexttid n) => s.nexttid = n ∧ 0 < n
    | _ => true
  | _ => true

/-- init has no `mainthread`, so it creates no thread; and it does not exit. -/
structure InitOk (s : State) : Prop where
  mainthread : (s.proc s.initproc).mainthread = none
  main : (s.pc s.initproc).main = none
  leaving : (s.pc s.initproc).leaving = false

/-- The same numbers and phases. -/
structure SameIds (s t : State) : Prop where
  phase : ∀ q, (t.proc q).phase = (s.proc q).phase
  pid : ∀ q, (t.proc q).pid = (s.proc q).pid
  tid : ∀ q, (t.proc q).tid = (s.proc q).tid
  initproc : t.initproc = s.initproc
  nextpid : t.nextpid = s.nextpid
  nexttid : t.nexttid = s.nexttid

theorem Keeps.sameIds {s t : State} (h : Keeps s t) : SameIds s t :=
  ⟨fun q => (h.proc q).phase, fun q => (h.proc q).pid, fun q => (h.proc q).tid, h.initproc,
    h.nextpid, h.nexttid⟩

theorem SameIds.refl (s : State) : SameIds s s := (Keeps.refl s).sameIds

theorem SameIds.trans {s t u : State} (h : SameIds s t) (h' : SameIds t u) : SameIds s u :=
  ⟨fun q => (h'.phase q).trans (h.phase q), fun q => (h'.pid q).trans (h.pid q),
    fun q => (h'.tid q).trans (h.tid q), h'.initproc.trans h.initproc,
    h'.nextpid.trans h.nextpid, h'.nexttid.trans h.nexttid⟩

theorem sameIds_setProc {s : State} {p : Slot} {f : Proc → Proc}
    (hph : (f (s.proc p)).phase = (s.proc p).phase) (hpid : (f (s.proc p)).pid = (s.proc p).pid)
    (htid : (f (s.proc p)).tid = (s.proc p).tid) : SameIds s (s.setProc p f) := by
  refine ⟨fun q => ?_, fun q => ?_, fun q => ?_, rfl, rfl, rfl⟩
  · rw [State.setProc_proc]
    split_ifs with hq
    · rw [hq, hph]
    · rfl
  · rw [State.setProc_proc]
    split_ifs with hq
    · rw [hq, hpid]
    · rfl
  · rw [State.setProc_proc]
    split_ifs with hq
    · rw [hq, htid]
    · rfl

theorem sameIds_setSz (s : State) (p : Slot) (sz : Nat) :
    SameIds s (s.setProc p fun r => { r with sz := sz }) := sameIds_setProc rfl rfl rfl

theorem sameIds_setVm (s : State) (pd : Nat) (used : Bool) : SameIds s (s.setVm pd used) :=
  ⟨fun _ => rfl, fun _ => rfl, fun _ => rfl, rfl, rfl, rfl⟩

theorem sameIds_setForker (s : State) (f : Slot → Int) : SameIds s { s with forker := f } :=
  ⟨fun _ => rfl, fun _ => rfl, fun _ => rfl, rfl, rfl, rfl⟩

/-- Where the numbers stay, at most some births end. -/
theorem SameIds.step {s t : State} (h : SameIds s t)
    (hb : ∀ q, (t.pc q).birth = (s.pc q).birth ∨ (t.pc q).birth = none) :
    Ids.Step s.ids t.ids := by
  have heq : t.ids = { s.ids with birth := fun q => (t.pc q).birth } := by
    apply Ids.ext
    · exact funext h.phase
    · exact funext h.pid
    · exact funext h.tid
    · rfl
    · exact h.nextpid
    · exact h.nexttid
    · exact h.initproc
  rw [heq]
  exact .stop _ hb

theorem Ids.Step.of_eq {x y z : Ids} (h : Ids.Step x z) (he : y = z) : Ids.Step x y := he ▸ h

/-- A slot is set up further. -/
theorem ids_setUp {s : State} {i np : Slot} {f : Proc → Proc} {k : Pc} :
    ((s.setProc np f).setPc i k).ids =
      { s.ids with
        phase := Function.update s.ids.phase np (f (s.proc np)).phase
        pid := Function.update s.ids.pid np (f (s.proc np)).pid
        tid := Function.update s.ids.tid np (f (s.proc np)).tid
        birth := Function.update s.ids.birth i k.birth } := by
  apply Ids.ext
  case birth =>
    funext q
    dsimp only [State.ids]
    rw [State.setPc_pc, Function.update_apply]
    split_ifs <;> rfl
  all_goals first | rfl | skip
  all_goals
    funext q
    dsimp only [State.ids]
    rw [State.setPc_proc, State.setProc_proc, Function.update_apply]
    split_ifs with hq
    · rw [hq]
    · rfl

theorem SameIds.setPc {s t : State} {i : Slot} {k : Pc} (h : SameIds s t) (hp : t.pc = s.pc)
    (hk : k.birth = (s.pc i).birth ∨ k.birth = none) : Ids.Step s.ids (t.setPc i k).ids := by
  refine SameIds.step ⟨h.phase, h.pid, h.tid, h.initproc, h.nextpid, h.nexttid⟩ fun q => ?_
  rw [State.setPc_pc]
  split_ifs with hq
  · rw [hq]
    exact hk
  · rw [hp]
    exact Or.inl rfl

/-- A number is taken from a counter. -/
theorem ids_setPc {s t : State} {i : Slot} {k : Pc} (hproc : t.proc = s.proc) (hpc : t.pc = s.pc)
    (hinit : t.initproc = s.initproc) :
    (t.setPc i k).ids =
      { s.ids with
        birth := Function.update s.ids.birth i k.birth
        nextpid := t.nextpid
        nexttid := t.nexttid } := by
  apply Ids.ext
  case birth =>
    funext q
    dsimp only [State.ids]
    rw [State.setPc_pc, Function.update_apply, hpc]
    split_ifs <;> rfl
  case init => exact hinit
  all_goals first | rfl | skip
  all_goals
    funext q
    dsimp only [State.ids]
    rw [State.setPc_proc, hproc]

theorem ForkStage.birth_copied (np : Slot) (o : Option CopyStage) :
    (o.elim ForkStage.runnable ForkStage.files).birth np = ⟨np, .process, true, true, none⟩ := by
  cases o <;> rfl

theorem ThreadStage.birth_copied (np : Slot) (o : Option CopyStage) :
    (o.elim ThreadStage.runnable ThreadStage.files).birth np = ⟨np, .thread, true, true, none⟩ := by
  cases o <;> rfl

theorem forkNext_step {s : State} {i np : Slot} {pd : Nat} {st : ForkStage}
    (hpc : s.pc i = .fork np st) (hok : ∀ n, st = .nextpid n → s.nextpid = n ∧ 0 < n) :
    Ids.Step s.ids (s.forkNext i np pd st).ids := by
  have hb : s.ids.birth i = some (st.birth np) := by
    dsimp only [State.ids]
    rw [hpc]
    rfl
  have hsame : ∀ {t : State} {st' : ForkStage}, SameIds s t → t.pc = s.pc →
      st'.birth np = st.birth np → Ids.Step s.ids (t.setPc i (.fork np st')).ids := by
    intro t st' ht hp h
    refine ht.setPc hp (Or.inl ?_)
    rw [hpc, Pc.birth, Pc.birth, h]
  cases st with
  | pgdir =>
    exact hsame ((sameIds_setVm s pd true).trans (sameIds_setProc rfl rfl rfl)) rfl rfl
  | sz => exact hsame (sameIds_setProc rfl rfl rfl) rfl rfl
  | parent =>
    exact hsame ((sameIds_setForker s _).trans (sameIds_setProc rfl rfl rfl)) rfl rfl
  | mainthread => exact hsame (sameIds_setProc rfl rfl rfl) rfl rfl
  | pid => exact hsame (.refl s) rfl rfl
  | nextpid n =>
    obtain ⟨hn, hpos⟩ := hok n rfl
    subst hn
    exact (Ids.Step.takePid i _ hb rfl hpos).of_eq (ids_setPc rfl rfl rfl)
  | setPid n =>
    refine (Ids.Step.forkPid i _ n hb rfl rfl).of_eq ?_
    rw [State.forkNext, ids_setUp]
    simp only [State.ids, Proc.phase, Function.update_eq_self]
    rfl
  | memorylimit => exact hsame (sameIds_setProc rfl rfl rfl) rfl rfl
  | files st =>
    have hq := State.quiet_copyNext s i np st
    exact hsame hq.toKeeps.sameIds hq.pc (ForkStage.birth_copied np _)
  | tid =>
    refine (Ids.Step.forkTid i _ hb rfl).of_eq ?_
    rw [State.forkNext, ids_setUp]
    simp only [State.ids, Proc.phase, Function.update_eq_self]
    rfl
  | runnable =>
    refine (Ids.Step.live i _ hb rfl rfl).of_eq ?_
    rw [State.forkNext, ids_setUp]
    simp only [State.ids, Proc.phase, Function.update_eq_self]
    rfl

theorem threadNext_step {s : State} {i np main : Slot} {enough : Bool} {st : ThreadStage}
    (hpc : s.pc i = .thread np main st) (hpid : st = .pid → (s.proc main).pid = (s.proc i).pid)
    (htid : ∀ n, st = .nexttid n → s.nexttid = n ∧ 0 < n) :
    Ids.Step s.ids (s.threadNext i np main enough st).ids := by
  have hb : s.ids.birth i = some (st.birth np) := by
    dsimp only [State.ids]
    rw [hpc]
    rfl
  have hsame : ∀ {t : State} {st' : ThreadStage}, SameIds s t → t.pc = s.pc →
      st'.birth np = st.birth np → Ids.Step s.ids (t.setPc i (.thread np main st')).ids := by
    intro t st' ht hp h
    refine ht.setPc hp (Or.inl ?_)
    rw [hpc, Pc.birth, Pc.birth, h]
  -- the failing ways out of `thread_create`
  have hfail : ∀ {t : State}, SameIds s t → t.pc = s.pc → Ids.Step s.ids (t.setPc i .user).ids :=
    fun ht hp => ht.setPc hp (Or.inr rfl)
  cases st with
  | pgdir => exact hsame (sameIds_setProc rfl rfl rfl) rfl rfl
  | sz => exact hsame (sameIds_setProc rfl rfl rfl) rfl rfl
  | parent => exact hsame (sameIds_setProc rfl rfl rfl) rfl rfl
  | mainthread => exact hsame (sameIds_setProc rfl rfl rfl) rfl rfl
  | retval => exact hsame (sameIds_setProc rfl rfl rfl) rfl rfl
  | mainParent => exact hsame (sameIds_setProc rfl rfl rfl) rfl rfl
  | limit =>
    unfold State.threadNext
    dsimp only
    split_ifs
    · exact hfail (.refl s) rfl
    · exact hsame (.refl s) rfl rfl
  | alloc =>
    unfold State.threadNext
    dsimp only
    split_ifs
    · exact hfail (sameIds_setSz s np _) rfl
    · exact hsame (sameIds_setSz s np _) rfl rfl
  | mainSz => exact hsame (sameIds_setProc rfl rfl rfl) rfl rfl
  | copyout =>
    unfold State.threadNext
    dsimp only
    split_ifs
    · exact hsame (.refl s) rfl rfl
    · exact hfail (.refl s) rfl
  | files st =>
    have hq := State.quiet_copyNext s main np st
    exact hsame hq.toKeeps.sameIds hq.pc (ThreadStage.birth_copied np _)
  | pid =>
    refine (Ids.Step.threadPid i main _ hb rfl (hpid rfl)).of_eq ?_
    rw [State.threadNext, ids_setUp]
    simp only [State.ids, Proc.phase, Function.update_eq_self]
    rfl
  | tid => exact hsame (.refl s) rfl rfl
  | nexttid n =>
    obtain ⟨hn, hpos⟩ := htid n rfl
    subst hn
    exact (Ids.Step.takeTid i _ hb rfl hpos).of_eq (ids_setPc rfl rfl rfl)
  | setTid n =>
    refine (Ids.Step.threadTid i _ n hb rfl rfl).of_eq ?_
    rw [State.threadNext, ids_setUp]
    simp only [State.ids, Proc.phase, Function.update_eq_self]
    rfl
  | runnable =>
    refine (Ids.Step.live i _ hb rfl rfl).of_eq ?_
    rw [State.threadNext, ids_setUp]
    simp only [State.ids, Proc.phase, Function.update_eq_self]
    rfl

theorem ids_vacate_siblings (s : State) (i : Slot) :
    (s.vacate (s.siblings i)).ids =
      { s.ids with
        phase := fun q => if s.ids.mates i q then .unused else s.ids.phase q
        pid := fun q => if s.ids.mates i q then 0 else s.ids.pid q
        tid := fun q => if s.ids.mates i q then 0 else s.ids.tid q
        birth := fun q => if s.ids.mates i q then none else s.ids.birth q } := by
  have hm : ∀ q, s.ids.mates i q = s.siblings i q := fun q => rfl
  simp only [hm]
  apply Ids.ext <;> first | rfl | skip
  all_goals
    funext q
    dsimp only [State.ids, State.vacate]
    split_ifs <;> rfl

theorem sameIds_reparent (s : State) (i : Slot) : SameIds s (s.reparent i) := by
  have h : SameIds s { s with
      proc := fun q =>
        if (s.proc q).parent = some i then { s.proc q with parent := some s.initproc }
        else s.proc q } := by
    refine ⟨fun q => ?_, fun q => ?_, fun q => ?_, rfl, rfl, rfl⟩ <;> dsimp only <;> split_ifs <;> rfl
  unfold State.reparent
  dsimp only
  split_ifs
  · exact h.trans (State.quiet_wakeup1 _ _).toKeeps.sameIds
  · exact h

theorem ids_of_sameIds {s t : State} (h : SameIds s t) (hp : t.pc = s.pc) : t.ids = s.ids := by
  apply Ids.ext
  · exact funext h.phase
  · exact funext h.pid
  · exact funext h.tid
  · dsimp only [State.ids]
    rw [hp]
  · exact h.nextpid
  · exact h.nexttid
  · exact h.initproc

theorem State.pc_reparent (s : State) (i : Slot) : (s.reparent i).pc = s.pc := by
  unfold State.reparent
  dsimp only
  split_ifs <;> rfl

theorem State.pc_wakeParent (s : State) (i : Slot) : (s.wakeParent i).pc = s.pc :=
  (State.quiet_wakeParent s i).pc

theorem ids_vacate_one {s : State} {p : Slot} (hb : s.ids.birth p = none) :
    (s.vacate fun q => q = p).ids =
      { s.ids with
        phase := Function.update s.ids.phase p .unused
        pid := Function.update s.ids.pid p 0
        tid := Function.update s.ids.tid p 0 } := by
  apply Ids.ext
  case birth =>
    funext q
    dsimp only [State.ids, State.vacate] at hb ⊢
    split_ifs with hq
    · rw [of_decide_eq_true hq, hb]
      rfl
    · rfl
  all_goals first | rfl | skip
  all_goals
    funext q
    dsimp only [State.ids, State.vacate]
    rw [Function.update_apply]
    by_cases hq : q = p
    · rw [if_pos (decide_eq_true hq), if_pos hq]
      rfl
    · rw [if_neg (by simpa using hq), if_neg hq]

theorem die_step {s : State} {i : Slot} (hi : s.ids.MayLeave i) :
    Ids.Step s.ids ((s.setProc i fun r => { r with state := .zombie }).setPc i .user).ids := by
  refine (Ids.Step.die i hi).of_eq ?_
  rw [ids_setUp]
  have hb : Function.update s.ids.birth i (Pc.birth .user) = s.ids.birth := by
    rw [show Pc.birth .user = none from rfl, ← hi.birth, Function.update_eq_self]
  rw [hb]
  simp only [State.ids, Proc.phase, Function.update_eq_self]

theorem InitOk.mayLeave {s : State} (h : InitOk s) {i : Slot} (hi : (s.proc i).state = .running)
    (hpc : (s.pc i).leaving = true) : s.ids.MayLeave i := by
  refine ⟨Proc.phase_alive hi, ?_, ?_⟩
  · dsimp only [State.ids]
    cases hk : s.pc i <;> rw [hk] at hpc <;> first | rfl | cases hpc
  · intro hinit
    have hl := h.leaving
    rw [← show i = s.initproc from hinit, hpc] at hl
    cases hl

theorem ids_effect {s t : State} {a : Action} (hb : s.ids.Base) (hi : InitOk s) (hok : idsOk s a)
    (h : Effect s a t) : Relation.ReflTransGen Ids.Step s.ids t.ids := by
  cases h with
  | kept hf h hpc hfile hlog =>
    refine .single (h.sameIds.step fun q => ?_)
    rcases hpc q with hq | hq | ⟨-, pd, ip, -, hq⟩
    · rw [hq]
      exact Or.inl rfl
    · exact Or.inr (Pc.birth_of_plain hq.after)
    · rw [hq]
      exact Or.inr rfl
  | alloc hf i np k hrun hpc hnp hk =>
    have hbi : s.ids.birth i = none := by
      dsimp only [State.ids]
      rw [hpc]
      rfl
    have heq : ∀ kind, k.birth = some ⟨np, kind, false, false, none⟩ →
        ((s.setProc np fun r => { r with state := .embryo }).setPc i k).ids =
          { s.ids with
            phase := Function.update s.ids.phase np .embryo
            birth := Function.update s.ids.birth i (some ⟨np, kind, false, false, none⟩) } := by
      intro kind hkind
      rw [ids_setUp, hkind]
      simp only [State.ids, Proc.phase, Function.update_eq_self]
    rcases hk with hk | ⟨main, hmain, hk⟩
    · exact .single ((Ids.Step.take i np .process (Proc.phase_alive hrun) hbi
        (Proc.phase_unused.mpr hnp) nofun).of_eq (heq .process (by rw [hk]; rfl)))
    · refine .single ((Ids.Step.take i np .thread (Proc.phase_alive hrun) hbi
        (Proc.phase_unused.mpr hnp) ?_).of_eq (heq .thread (by rw [hk]; rfl)))
      intro _ hinit
      rw [show i = s.initproc from hinit, hi.mainthread] at hmain
      cases hmain
  | abort hf i np pgdir hrun hpc =>
    have hbi : ∃ kind, s.ids.birth i = some ⟨np, kind, false, false, none⟩ := by
      dsimp only [State.ids]
      rcases hpc with hpc | ⟨main, hpc⟩
      · exact ⟨.process, by rw [hpc]; rfl⟩
      · exact ⟨.thread, by rw [hpc]; rfl⟩
    obtain ⟨kind, hbi⟩ := hbi
    refine .single ((Ids.Step.drop i _ hbi rfl).of_eq ?_)
    rw [ids_setUp]
    simp only [State.ids, Proc.phase, Function.update_eq_self]
    rfl
  | forkNext i np pd st hrun hpc hvm hdup =>
    refine .single (forkNext_step hpc ?_)
    intro n hst
    subst hst
    simpa [idsOk, hpc] using hok
  | threadNext i np main enough st hrun hpc hdup =>
    refine .single (threadNext_step hpc ?_ ?_)
    · intro hst
      subst hst
      simpa [idsOk, hpc] using hok
    · intro n hst
      subst hst
      simpa [idsOk, hpc] using hok
  | exitLast i hrun hpc hfree =>
    have hl : s.ids.MayLeave i := hi.mayLeave hrun (by rw [hpc]; rfl)
    have hkill : Ids.Step s.ids (s.vacate (s.siblings i)).ids :=
      (Ids.Step.kill i hl).of_eq (ids_vacate_siblings s i)
    let u := ((s.vacate (s.siblings i)).wakeParent i).reparent i
    have hsame : u.ids = (s.vacate (s.siblings i)).ids :=
      ids_of_sameIds ((State.quiet_wakeParent _ i).toKeeps.sameIds.trans (sameIds_reparent _ i))
        ((State.pc_reparent _ i).trans (State.pc_wakeParent _ i))
    have hl' : u.ids.MayLeave i := by
      rw [hsame, ids_vacate_siblings]
      have hm : s.ids.mates i i = false := by simp [Ids.mates]
      exact ⟨by simp [hm, hl.alive], by simp [hm, hl.birth], hl.init⟩
    refine (Relation.ReflTransGen.single hkill).tail ?_
    rw [← hsame]
    exact die_step hl'
  | threadExitLast i retval hrun hpc =>
    have hl : s.ids.MayLeave i := hi.mayLeave hrun (by rw [hpc]; rfl)
    let v := s.setProc i fun r => { r with retval := retval }
    let u := v.wakeup1 (.tid (v.proc i).tid)
    have hsame : u.ids = s.ids :=
      ids_of_sameIds ((sameIds_setProc rfl rfl rfl).trans
        (State.quiet_wakeup1 _ _).toKeeps.sameIds) rfl
    have hstep := die_step (s := u) (i := i) (by rw [hsame]; exact hl)
    rw [hsame] at hstep
    exact .single hstep
  | reap i p hrun hpc hw =>
    have hz : (s.proc p).phase = .zombie := by
      have hz := List.find?_some hw
      simp only [decide_eq_true_eq] at hz
      exact Proc.phase_zombie.mpr hz.2
    have hbi : s.ids.birth i = none := Pc.birth_of_plain (Pc.plain_of_waits hpc)
    refine .single ((Ids.Step.bury p (s.proc p).tid hz (Or.inr rfl)).of_eq ?_)
    have hu : ∀ u : State, u.ids = s.ids → u.proc = s.proc →
        ((u.setProc p Proc.reap).setPc i .user).ids =
          { s.ids with
            phase := Function.update s.ids.phase p .unused
            pid := Function.update s.ids.pid p 0
            tid := Function.update s.ids.tid p (s.proc p).tid } := by
      intro u hu hp
      rw [ids_setUp, hu, hp, show Pc.birth .user = s.ids.birth i from hbi.symm,
        Function.update_eq_self]
      rfl
    unfold State.wait
    rw [hw]
    dsimp only
    split
    · exact hu _ rfl rfl
    · exact hu _ rfl rfl
  | join i p thread hrun hpc hj =>
    have hz : s.ids.phase p = .zombie := by
      have hz := List.find?_some hj
      simp only [decide_eq_true_eq] at hz
      exact Proc.phase_zombie.mpr hz.2
    have hbp : s.ids.birth p = none := by
      cases hbirth : s.ids.birth p with
      | none => rfl
      | some b =>
        have halive := hb.births.creator p b hbirth
        rw [hz] at halive
        cases halive
    have hbury := (Ids.Step.bury p 0 hz (Or.inl rfl)).of_eq (ids_vacate_one hbp)
    exact (Relation.ReflTransGen.single hbury).tail ((SameIds.refl _).setPc rfl (Or.inr rfl))
  | exec i pd ip hrun hpc hvm =>
    exact .single ((sameIds_setVm s pd true).setPc rfl (Or.inr rfl))
  | execBad i pd st hrun hpc hst =>
    exact .single ((sameIds_setVm s pd false).setPc rfl (Or.inr (Pc.birth_of_plain (Pc.bad_plain st))))
  | cleanforexec i pd hrun hpc hidle hfree =>
    unfold State.cleanforexec
    split_ifs with htid
    · exact .single ((SameIds.refl s).setPc rfl (Or.inr rfl))
    · have hl : s.ids.MayLeave i := by
        refine ⟨Proc.phase_alive hrun, ?_, ?_⟩
        · dsimp only [State.ids]
          rw [hpc]
          rfl
        · intro hinit
          apply htid
          rw [show i = s.initproc from hinit]
          exact hb.tids.init
      have hkill : Ids.Step s.ids (s.vacate (s.siblings i)).ids :=
        (Ids.Step.kill i hl).of_eq (ids_vacate_siblings s i)
      exact (Relation.ReflTransGen.single hkill).tail
        ((SameIds.refl _).setPc rfl (Or.inr rfl))
  | execCommit i pd sz oldpgdir hrun hpc hold =>
    exact .single ((sameIds_setProc rfl rfl rfl).setPc rfl (Or.inr rfl))
  | execFree i oldpgdir hrun hpc =>
    exact .single ((sameIds_setVm s oldpgdir false).setPc rfl (Or.inr rfl))
  | growproc i main n enough sz hlimit =>
    exact .single ((sameIds_setSz s main sz).step fun q => Or.inl rfl)
  | setmemorylimit i p pid limit h0 hp hsz =>
    exact .single ((sameIds_setProc rfl rfl rfl).step fun q => Or.inl rfl)

end Xv6.Threads
