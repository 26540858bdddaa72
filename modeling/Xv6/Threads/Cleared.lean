import Xv6.Threads.Setup

/-!
# Slots without open files

`exit` and `thread_exit` close the descriptors of a slot one after the other and then its
current directory (proc.c:254-266), and the loop of `fork` and `thread_create` sets them in
the same order. A slot that is not in use has none of them, as long as the slots that come
out of use have closed theirs.
-/

namespace Xv6.Threads

open Mlfq (NPROC Slot Procstate)

/-! ### What a step does to the open files -/

/-- The place in the loop that copies the files, or after it. `main` is a local variable of
`thread_create`. -/
def Pc.copy (main : Option Slot) (np : Slot) (st : Option CopyStage) : Pc :=
  match main with
  | none => .fork np (st.elim .runnable .files)
  | some main => .thread np main (st.elim .runnable .files)

theorem Pc.owns_copy (main : Option Slot) (np : Slot) (st : Option CopyStage) :
    (Pc.copy main np st).owns = some np := by
  cases main <;> rfl

theorem Pc.refs_copy (main : Option Slot) (np : Slot) (st : Option CopyStage) :
    (Pc.copy main np st).refs = (st.map CopyStage.refs).getD .none := by
  cases main <;> cases st <;> rfl

/-- What any step does to the open files. -/
inductive FilesEffect (s : State) (a : Action) (t : State) : Prop where
  | same (h : SameFiles s t)
      (hr : ∀ q, (t.pc q).refs = (s.pc q).refs ∨ s.frees a q = true ∧ (t.pc q).refs = .none)
      (hc : ∀ q, t.pc q = s.pc q ∨ (t.pc q).loose = true)
  | fs (i : Slot) (op : FsOp) (st st' : FsStage) (u : State) (ha : a = .fs i op)
      (hi : (s.proc i).state = .running) (hpc : s.pc i = .fs st)
      (h : s.fsNext i st op = some (u, st')) (ht : t = u.setPc i (.fs st'))
  | close (i : Slot) (retval : Option Nat) (st st' : CloseStage) (u : State)
      (ha : a = .closeNext i) (hi : (s.proc i).state = .running) (hpc : s.pc i = .close retval st)
      (h : s.closeNext i st = some (u, st')) (ht : t = u.setPc i (.close retval st'))
  | put (i : Slot) (pd ip : Nat) (hi : (s.proc i).state = .running)
      (hpc : s.pc i = .exec pd (.load ip)) (ht : t = s.execPut i pd ip)
  | copy (i np : Slot) (main : Option Slot) (st : CopyStage)
      (ha : (∃ pd, a = .forkNext i pd) ∨ ∃ enough, a = .threadNext i enough)
      (hi : (s.proc i).state = .running)
      (hpc : s.pc i = .copy main np (some st))
      (ht : t = (s.copyNext (main.getD i) np st).1.setPc i
        (.copy main np (s.copyNext (main.getD i) np st).2))

section Effect

variable {s t : State} {a : Action} {q : Slot}

theorem sameFiles_vacate (s : State) (gone : Slot → Bool) : SameFiles s (s.vacate gone) := by
  refine ⟨rfl, rfl, fun q => ?_, fun q => ?_⟩
  · dsimp only [State.vacate]
    split_ifs <;> rfl
  · dsimp only [State.vacate]
    split_ifs <;> rfl

theorem sameFiles_wakeParent (s : State) (i : Slot) : SameFiles s (s.wakeParent i) := by
  unfold State.wakeParent
  split
  · exact sameFiles_wakeup1 s _
  · exact sameFiles_wakeup1 s _

theorem sameFiles_reparent (s : State) (i : Slot) : SameFiles s (s.reparent i) := by
  let u : State := { s with
    proc := fun q =>
      if (s.proc q).parent = some i then { s.proc q with parent := some s.initproc }
      else s.proc q }
  have hu : SameFiles s u := by
    refine ⟨rfl, rfl, fun q => ?_, fun q => ?_⟩
    · dsimp only [u]
      split_ifs <;> rfl
    · dsimp only [u]
      split_ifs <;> rfl
  unfold State.reparent
  dsimp only
  split_ifs
  · exact hu.trans (sameFiles_wakeup1 u (.proc s.initproc))
  · exact hu

theorem sameFiles_exitLast (s : State) (i : Slot) : SameFiles s (s.exitLast i) := by
  let u := s.vacate (s.siblings i)
  have hu : SameFiles s u := sameFiles_vacate s (s.siblings i)
  have hr := (hu.trans (sameFiles_wakeParent u i)).trans (sameFiles_reparent (u.wakeParent i) i)
  have hz : ∀ v : State, SameFiles v (v.setProc i fun r => { r with state := .zombie }) :=
    fun v => sameFiles_setProc rfl rfl
  exact (hr.trans (hz _)).setPc i .user

theorem sameFiles_threadExitLast (s : State) (i : Slot) (retval : Nat) :
    SameFiles s (s.threadExitLast i retval) := by
  let u := s.setProc i fun r => { r with retval := retval }
  have hu : SameFiles s u := sameFiles_setProc rfl rfl
  have hw := hu.trans (sameFiles_wakeup1 u (.tid (u.proc i).tid))
  exact (hw.trans (sameFiles_setProc rfl rfl)).setPc i .user

theorem FilesEffect.of_setPc {u : State} {i : Slot} {k : Pc} (hu : SameFiles s u)
    (hpc : u.pc = s.pc) (hr : k.refs = (s.pc i).refs) (hk : k.loose = true) :
    FilesEffect s a (u.setPc i k) :=
  .same (hu.setPc i k) (fun q => Or.inl (refs_setPc hpc hr q)) (loose_setPc hpc hk)

/-- A slot is set up. -/
theorem FilesEffect.of_setProc {u : State} {np i : Slot} {f : Proc → Proc} {k : Pc}
    (hu : SameFiles s u) (hpc : u.pc = s.pc) (ho : (f (u.proc np)).ofile = (u.proc np).ofile)
    (hcw : (f (u.proc np)).cwd = (u.proc np).cwd) (hr : k.refs = (s.pc i).refs)
    (hk : k.loose = true) : FilesEffect s a ((u.setProc np f).setPc i k) :=
  .of_setPc (hu.trans (sameFiles_setProc ho hcw)) hpc hr hk

theorem files_forkNext {i np : Slot} {pd : Nat} {st : ForkStage}
    (hi : (s.proc i).state = .running) (hpc : s.pc i = .fork np st) :
    FilesEffect s (.forkNext i pd) (s.forkNext i np pd st) := by
  cases st with
  | files st => exact .copy i np none st (Or.inl ⟨pd, rfl⟩) hi hpc rfl
  | pgdir => exact .of_setProc (sameFiles_of rfl rfl rfl) rfl rfl rfl (by rw [hpc]; rfl) rfl
  | parent => exact .of_setProc (sameFiles_of rfl rfl rfl) rfl rfl rfl (by rw [hpc]; rfl) rfl
  | pid => exact .of_setPc (.refl s) rfl (by rw [hpc]; rfl) rfl
  | nextpid n => exact .of_setPc (sameFiles_of rfl rfl rfl) rfl (by rw [hpc]; rfl) rfl
  | _ => exact .of_setProc (.refl s) rfl rfl rfl (by rw [hpc]; rfl) rfl

theorem files_threadNext {i np main : Slot} {enough : Bool} {st : ThreadStage}
    (hi : (s.proc i).state = .running) (hpc : s.pc i = .thread np main st) :
    FilesEffect s (.threadNext i enough) (s.threadNext i np main enough st) := by
  cases st with
  | files st => exact .copy i np (some main) st (Or.inr ⟨enough, rfl⟩) hi hpc rfl
  | tid => exact .of_setPc (.refl s) rfl (by rw [hpc]; rfl) rfl
  | nexttid n => exact .of_setPc (sameFiles_of rfl rfl rfl) rfl (by rw [hpc]; rfl) rfl
  | limit =>
    unfold State.threadNext
    dsimp only
    split_ifs
    · exact .of_setPc (.refl s) rfl (by rw [hpc]; rfl) rfl
    · exact .of_setPc (.refl s) rfl (by rw [hpc]; rfl) rfl
  | alloc =>
    unfold State.threadNext
    dsimp only
    split_ifs
    · exact .of_setProc (.refl s) rfl rfl rfl (by rw [hpc]; rfl) rfl
    · exact .of_setProc (.refl s) rfl rfl rfl (by rw [hpc]; rfl) rfl
  | copyout =>
    cases enough with
    | true => exact .of_setPc (.refl s) rfl (by rw [hpc]; rfl) rfl
    | false => exact .of_setPc (.refl s) rfl (by rw [hpc]; rfl) rfl
  | _ => exact .of_setProc (.refl s) rfl rfl rfl (by rw [hpc]; rfl) rfl

/-- Threads are taken out of use, and `i` goes on at `k`. -/
theorem FilesEffect.of_vacate {gone : Slot → Bool} {i : Slot} {k : Pc}
    (hf : ∀ q, gone q = true → s.frees a q = true) (hr : k.refs = (s.pc i).refs)
    (hk : k.loose = true) : FilesEffect s a ((s.vacate gone).setPc i k) := by
  refine .same ((sameFiles_vacate s gone).setPc i k) (fun q => ?_) fun q => ?_
  · by_cases hqi : q = i
    · left
      rw [State.setPc_pc, if_pos hqi, hqi, hr]
    rw [State.setPc_pc, if_neg hqi]
    cases hq : gone q with
    | true =>
      right
      rw [vacate_pc hq]
      exact ⟨hf q hq, rfl⟩
    | false =>
      left
      rw [vacate_pc_of_not hq]
  · by_cases hqi : q = i
    · right
      rw [State.setPc_pc, if_pos hqi, hk]
    rw [State.setPc_pc, if_neg hqi]
    cases hq : gone q with
    | true =>
      right
      rw [vacate_pc hq]
      rfl
    | false =>
      left
      exact vacate_pc_of_not hq

theorem files_effect (h : Effect s a t) : FilesEffect s a t := by
  cases h with
  | kept hf h hpc hfile hlog =>
    cases hfile with
    | same h hr hc => exact .same h (fun q => Or.inl (hr q)) hc
    | fs i op st st' u ha hi hpc h ht => exact .fs i op st st' u ha hi hpc h ht
    | close i retval st st' u ha hi hpc h ht => exact .close i retval st st' u ha hi hpc h ht
    | put i pd ip hi hpc ht => exact .put i pd ip hi hpc ht
  | alloc hf i np k hrun hpc hnp hk =>
    refine .of_setProc (.refl s) rfl rfl rfl ?_ ?_
    · rw [hpc]
      rcases hk with hk | ⟨main, -, hk⟩ <;> rw [hk] <;> rfl
    · rcases hk with hk | ⟨main, -, hk⟩ <;> rw [hk] <;> rfl
  | abort hf i np pgdir hrun hpc =>
    refine .of_setProc (.refl s) rfl rfl rfl ?_ rfl
    rcases hpc with hpc | ⟨main, hpc⟩ <;> rw [hpc] <;> rfl
  | forkNext i np pd st hrun hpc hvm hdup => exact files_forkNext hrun hpc
  | threadNext i np main enough st hrun hpc hdup => exact files_threadNext hrun hpc
  | exitLast i hrun hpc hfree =>
    refine .same (sameFiles_exitLast s i) (fun q => ?_) fun q => ?_
    · by_cases hqi : q = i
      · left
        rw [exitLast_pc (Or.inr hqi), hqi, hpc]
        rfl
      cases hq : s.siblings i q with
      | true =>
        right
        rw [exitLast_pc (Or.inl hq)]
        exact ⟨decide_eq_true ⟨hpc, hq⟩, rfl⟩
      | false =>
        left
        rw [exitLast_pc_of_not hqi hq]
    · by_cases hqi : s.siblings i q = true ∨ q = i
      · right
        rw [exitLast_pc hqi]
        rfl
      · obtain ⟨hsib, hqi⟩ := not_or.mp hqi
        exact Or.inl (exitLast_pc_of_not hqi ((Bool.not_eq_true _).mp hsib))
  | threadExitLast i retval hrun hpc =>
    have hr : Pc.user.refs = (s.pc i).refs := by
      rw [hpc]
      rfl
    exact .same (sameFiles_threadExitLast s i retval)
      (fun q => Or.inl (refs_setPc (s := s) rfl hr q)) (loose_setPc rfl rfl)
  | reap i p hrun hpc hw =>
    have hr : Pc.user.refs = (s.pc i).refs := (Pc.refs_of_waits hpc).symm
    unfold State.wait
    rw [hw]
    dsimp only
    split
    · exact .of_setProc (sameFiles_of rfl rfl rfl) rfl rfl rfl hr rfl
    · exact .of_setProc (.refl s) rfl rfl rfl hr rfl
  | join i p thread hrun hpc hj =>
    refine .of_vacate (fun q hq => ?_) (Pc.refs_of_waits hpc).symm rfl
    rw [of_decide_eq_true hq]
    exact decide_eq_true hj
  | exec i pd ip hrun hpc hvm =>
    exact .of_setPc (sameFiles_of rfl rfl rfl) rfl (by rw [hpc]; rfl) rfl
  | execBad i pd st hrun hpc hst =>
    refine .of_setPc (sameFiles_of rfl rfl rfl) rfl ?_ (by cases st <;> rfl)
    rw [hpc]
    cases st <;> rfl
  | cleanforexec i pd hrun hpc hidle hfree =>
    unfold State.cleanforexec
    split_ifs with htid
    · exact .of_setPc (.refl s) rfl (by rw [hpc]; rfl) rfl
    · exact .of_vacate (fun q hq => decide_eq_true ⟨htid, hq⟩) (by rw [hpc]; rfl) rfl
  | execCommit i pd sz oldpgdir hrun hpc hold =>
    exact .of_setProc (.refl s) rfl rfl rfl (by rw [hpc]; rfl) rfl
  | execFree i oldpgdir hrun hpc =>
    exact .of_setPc (sameFiles_of rfl rfl rfl) rfl (by rw [hpc]; rfl) rfl
  | growproc i main n enough sz hlimit =>
    exact .same (sameFiles_setProc rfl rfl) (fun q => Or.inl rfl) fun q => Or.inl rfl
  | setmemorylimit i p pid limit h0 hp hsz =>
    exact .same (sameFiles_setProc rfl rfl) (fun q => Or.inl rfl) fun q => Or.inl rfl

/-- What a step does to the files of one slot. -/
inductive SlotFiles (s : State) (q : Slot) (t : State) : Prop where
  | same (ho : (t.proc q).ofile = (s.proc q).ofile) (hcw : (t.proc q).cwd = (s.proc q).cwd)
      (hc : t.pc q = s.pc q ∨ (t.pc q).loose = true)
  | fs (op : FsOp) (st st' : FsStage) (u : State) (hi : (s.proc q).state = .running)
      (hpc : s.pc q = .fs st) (h : s.fsNext q st op = some (u, st')) (ht : t = u.setPc q (.fs st'))
  | close (retval : Option Nat) (st st' : CloseStage) (u : State)
      (hi : (s.proc q).state = .running) (hpc : s.pc q = .close retval st)
      (h : s.closeNext q st = some (u, st')) (ht : t = u.setPc q (.close retval st'))
  | copy (i : Slot) (main : Option Slot) (st : CopyStage) (hi : (s.proc i).state = .running)
      (hpc : s.pc i = .copy main q (some st))
      (ht : t = (s.copyNext (main.getD i) q st).1.setPc i
        (.copy main q (s.copyNext (main.getD i) q st).2))

theorem SlotFiles.of_only {i j : Slot} {u : State} {k : Pc} (h : OnlyFiles i s u) (hq : q ≠ i)
    (hk : q = j → k.loose = true) : SlotFiles s q (u.setPc j k) := by
  refine .same ?_ ?_ ?_
  · rw [State.setPc_proc, h.other q hq]
  · rw [State.setPc_proc, h.other q hq]
  · rw [State.setPc_pc]
    split_ifs with hqj
    · exact Or.inr (hk hqj)
    · exact Or.inl (congrFun h.quiet.pc q)

theorem loose_copy (main : Option Slot) (np : Slot) (st : Option CopyStage) :
    (Pc.copy main np st).loose = true := by
  cases main <;> rfl

theorem FilesEffect.slot (h : FilesEffect s a t) (q : Slot) : SlotFiles s q t := by
  cases h with
  | same h hr hc => exact .same (h.ofile q) (h.cwd q) (hc q)
  | fs i op st st' u ha hi hpc h ht =>
    by_cases hqi : q = i
    · subst hqi
      exact .fs op st st' u hi hpc h ht
    · rw [ht]
      exact .of_only (.fsNext h) hqi fun hc => absurd hc hqi
  | close i retval st st' u ha hi hpc h ht =>
    by_cases hqi : q = i
    · subst hqi
      exact .close retval st st' u hi hpc h ht
    · rw [ht]
      exact .of_only (.closeNext h) hqi fun hc => absurd hc hqi
  | put i pd ip hi hpc ht =>
    have hs : SameFiles (s.iput (some ip)) t := by
      rw [ht]
      exact ⟨rfl, rfl, fun _ => rfl, fun _ => rfl⟩
    refine .same (hs.ofile q) (hs.cwd q) ?_
    rw [ht]
    exact loose_setPc rfl rfl q
  | copy i np main st ha hi hpc ht =>
    by_cases hq : q = np
    · subst hq
      exact .copy i main st hi hpc ht
    · rw [ht]
      exact .of_only (.copyNext s _ np st) hq fun _ => loose_copy main np _

/-! ### Slots that come out of use -/

/-- A slot that is set up is started, given back or freed. -/
theorem embryo_effect (h : Effect s a t) (hq : (s.proc q).phase = .embryo) :
    (t.proc q).phase = .embryo ∨ (t.proc q).phase = .alive ∨ s.frees a q = true ∨
      ∃ i, s.pc i = .fork q .pgdir ∨ ∃ main, s.pc i = .thread q main .pgdir := by
  have hsame : (t.proc q).phase = (s.proc q).phase → (t.proc q).phase = .embryo :=
    fun h => h.trans hq
  have hne : ∀ {p}, (s.proc p).phase ≠ .embryo → q ≠ p := fun hp heq => hp (heq ▸ hq)
  have halive : ∀ {p}, (s.proc p).state = .running → q ≠ p := by
    intro p hp
    refine hne ?_
    rw [Proc.phase_alive hp]
    decide
  cases h with
  | kept hf h hpc hfile hlog => exact Or.inl (hsame (h.proc q).phase)
  | alloc hf i np k hrun hpc hnp hk =>
    have hqn : q ≠ np := hne (by rw [Proc.phase_unused.mpr hnp]; decide)
    exact Or.inl (hsame (congrArg Proc.phase (setUp_proc rfl hqn)))
  | abort hf i np pgdir hrun hpc =>
    by_cases hqn : q = np
    · subst hqn
      exact Or.inr (Or.inr (Or.inr ⟨i, hpc⟩))
    · exact Or.inl (hsame (congrArg Proc.phase (setUp_proc rfl hqn)))
  | forkNext i np pd st hrun hpc hvm hdup =>
    by_cases hst : st = .runnable
    · subst hst
      by_cases hqn : q = np
      · refine Or.inr (Or.inl ?_)
        rw [hqn, State.forkNext, State.setPc_proc, State.setProc_proc_self]
        rfl
      · exact Or.inl (hsame (congrArg Proc.phase (setUp_proc rfl hqn)))
    · exact Or.inl (hsame (phase_forkNext hst))
  | threadNext i np main enough st hrun hpc hdup =>
    by_cases hst : st = .runnable
    · subst hst
      by_cases hqn : q = np
      · refine Or.inr (Or.inl ?_)
        rw [hqn, State.threadNext, State.setPc_proc, State.setProc_proc_self]
        rfl
      · exact Or.inl (hsame (congrArg Proc.phase (setUp_proc rfl hqn)))
    · exact Or.inl (hsame (phase_threadNext hst))
  | exitLast i hrun hpc hfree =>
    cases hsib : s.siblings i q with
    | true => exact Or.inr (Or.inr (Or.inl (decide_eq_true ⟨hpc, hsib⟩)))
    | false => exact Or.inl (hsame (exitLast_other hsib (halive hrun)).phase)
  | threadExitLast i retval hrun hpc =>
    exact Or.inl (hsame (threadExitLast_other retval (halive hrun)).phase)
  | reap i p hrun hpc hw =>
    have hqp : q ≠ p := hne (by rw [(waitFor_some hw).2]; decide)
    exact Or.inl (hsame (congrArg Proc.phase (wait_other hw hqp)))
  | join i p thread hrun hpc hj =>
    have hqp : q ≠ p := hne (by rw [(joinFor_some hj).2]; decide)
    have hv := vacate_proc_of_not (s := s) (fun r => r = p) (decide_eq_false hqp)
    exact Or.inl (hsame (congrArg Proc.phase hv))
  | exec i pd ip hrun hpc hvm => exact Or.inl (hsame rfl)
  | execBad i pd st hrun hpc hst => exact Or.inl (hsame rfl)
  | cleanforexec i pd hrun hpc hidle hfree =>
    unfold State.cleanforexec at hsame ⊢
    split_ifs at hsame ⊢ with htid
    · exact Or.inl (hsame rfl)
    · cases hsib : s.siblings i q with
      | true => exact Or.inr (Or.inr (Or.inl (decide_eq_true ⟨htid, hsib⟩)))
      | false => exact Or.inl (hsame (congrArg Proc.phase (vacate_proc_of_not _ hsib)))
  | execCommit i pd sz oldpgdir hrun hpc hold => exact Or.inl (hsame (phase_setUp rfl rfl))
  | execFree i oldpgdir hrun hpc => exact Or.inl (hsame rfl)
  | growproc i main n enough sz hlimit => exact Or.inl (hsame ((sameIds_setSz s main sz).phase q))
  | setmemorylimit i p pid limit h0 hp hsz =>
    exact Or.inl (hsame ((sameIds_setProc rfl rfl rfl).phase q))

theorem Change.gone (h : Change s q a t) (hq : (s.proc q).phase = .alive)
    (ht : (t.proc q).phase ≠ .alive) :
    s.frees a q = true ∨ ∃ retval, s.pc q = .close retval .last := by
  have hno : (t.proc q).phase = (s.proc q).phase → False := fun h => ht (h.trans hq)
  cases h with
  | same h => exact (hno h.phase).elim
  | killed i hi hpc hs h hu => exact Or.inl (decide_eq_true ⟨hpc, hs⟩)
  | outlives i hi hpc hs hqi h => exact (hno h.phase).elim
  | exits hi hpc h hu => exact Or.inr ⟨none, hpc⟩
  | threadExits retval hi hpc h hu => exact Or.inr ⟨some retval, hpc⟩
  | reaped i hi hw h => exact Or.inl (decide_eq_true hw)
  | joined i thread hi hj h => exact Or.inl (decide_eq_true hj)
  | cleaned i hi htid hs h hu => exact Or.inl (decide_eq_true ⟨htid, hs⟩)
  | image pd sz hpc h hold => exact (hno (by rw [h]; rfl)).elim
  | mainSz i np enough hpc h => exact (hno (by rw [h]; rfl)).elim
  | growproc i n enough sz hlimit h => exact (hno (by rw [h]; rfl)).elim
  | setmemorylimit i pid limit h0 hp hsz h => exact (hno (by rw [h]; rfl)).elim

/-- A slot that is UNUSED or ZOMBIE after the step was so before it, or the step frees it, or
its thread has closed its files, or it gets none. -/
theorem gone_before (hs : Sound s) (h : Effect s a t)
    (ht : (t.proc q).phase = .unused ∨ (t.proc q).phase = .zombie) :
    ((s.proc q).phase = .unused ∨ (s.proc q).phase = .zombie) ∨ s.frees a q = true ∨
      (∃ retval, s.pc q = .close retval .last) ∨
      ∃ i, s.pc i = .fork q .pgdir ∨ ∃ main, s.pc i = .thread q main .pgdir := by
  have hnot : ∀ p, p = .embryo ∨ p = .alive → (t.proc q).phase ≠ p := by
    intro p hcase hp
    rw [hp] at ht
    rcases hcase with hc | hc
    · simp [hc] at ht
    · simp [hc] at ht
  cases hq : (s.proc q).phase with
  | unused => exact Or.inl (Or.inl rfl)
  | zombie => exact Or.inl (Or.inr rfl)
  | alive =>
    rcases (change_effect hs (Or.inl hq) h).gone hq (hnot _ (Or.inr rfl)) with hfree | hclosed
    · exact Or.inr (Or.inl hfree)
    · exact Or.inr (Or.inr (Or.inl hclosed))
  | embryo =>
    rcases embryo_effect h hq with hp | hp | hfree | hp
    · exact absurd hp (hnot _ (Or.inl rfl))
    · exact absurd hp (hnot _ (Or.inr rfl))
    · exact Or.inr (Or.inl hfree)
    · exact Or.inr (Or.inr (Or.inr hp))

end Effect

/-! ### Empty entries -/

/-- A descriptor, or the current directory. -/
inductive Item where
  | fd (fd : Fin NOFILE)
  | cwd

def Proc.Empty (r : Proc) : Item → Prop
  | .fd fd => r.ofile fd = none
  | .cwd => r.cwd = none

/-- What `exit` and `thread_exit` have cleared. -/
def CloseStage.Closed (st : CloseStage) : Item → Prop
  | .fd fd =>
    match st with
    | .ofile fd' | .iput fd' _ _ | .clear fd' _ => fd < fd'
    | _ => True
  | .cwd => st = .last

def Pc.Closed (k : Pc) (x : Item) : Prop :=
  match k with
  | .exit st | .threadExit _ st => st.Closed x
  | _ => False

/-- What the loop of `fork` and `thread_create` has still to set. -/
def CopyStage.Ahead (st : CopyStage) : Item → Prop
  | .fd fd =>
    match st with
    | .ofile fd' | .filedup fd' _ | .setOfile fd' _ => fd' ≤ fd
    | _ => False
  | .cwd => True

def ForkStage.Ahead (st : ForkStage) (x : Item) : Prop :=
  match st with
  | .files st => st.Ahead x
  | .runnable => False
  | _ => True

def ThreadStage.Ahead (st : ThreadStage) (x : Item) : Prop :=
  match st with
  | .files st => st.Ahead x
  | .runnable => False
  | _ => True

def Pc.Ahead (k : Pc) (q : Slot) (x : Item) : Prop :=
  match k with
  | .fork np st => np = q ∧ st.Ahead x
  | .thread np _ st => np = q ∧ st.Ahead x
  | _ => False

/-- Slots that are not in use have no open file, threads that exit have none where they have
passed, and a new slot has none where the loop has not come to. -/
structure Clean (s : State) (x : Item) : Prop where
  gone : ∀ q, (s.proc q).phase = .unused ∨ (s.proc q).phase = .zombie → (s.proc q).Empty x
  closed : ∀ q, (s.pc q).Closed x → (s.proc q).Empty x
  ahead : ∀ i q, (s.pc i).Ahead q x → (s.proc q).Empty x

section Clean

variable {s t u : State} {a : Action} {x : Item} {i q : Slot}

theorem empty_of_same {r r' : Proc} (ho : r'.ofile = r.ofile) (hcw : r'.cwd = r.cwd)
    (h : r.Empty x) : r'.Empty x := by
  cases x with
  | fd fd => exact (congrFun ho fd).trans h
  | cwd => exact hcw.trans h

theorem Pc.closed_close {retval : Option Nat} {st : CloseStage} :
    (Pc.close retval st).Closed x ↔ st.Closed x := by
  cases retval <;> rfl

theorem Pc.owns_of_ahead {k : Pc} (h : k.Ahead q x) : k.owns = some q := by
  cases k with
  | fork np st => exact congrArg some h.1
  | thread np main st => exact congrArg some h.1
  | _ => exact h.elim

theorem Pc.ahead_copy {main : Option Slot} {np : Slot} {st : Option CopyStage} :
    (Pc.copy main np st).Ahead q x ↔ np = q ∧ ∃ st', st = some st' ∧ st'.Ahead x := by
  cases main with
  | none => cases st <;> simp [Pc.copy, Pc.Ahead, ForkStage.Ahead]
  | some main => cases st <;> simp [Pc.copy, Pc.Ahead, ThreadStage.Ahead]

theorem closed_nextClose {fd : Fin NOFILE} (h : (State.nextClose fd).Closed x) :
    ∃ fd', x = .fd fd' ∧ fd' ≤ fd := by
  cases x with
  | fd fd' =>
    refine ⟨fd', rfl, ?_⟩
    unfold State.nextClose at h
    have hlt := fd'.isLt
    split at h
    · exact Nat.le_of_lt_succ h
    · exact Fin.le_def.mpr (by omega)
  | cwd => exact absurd h (nextClose_ne_last fd)

theorem ahead_nextFd {fd : Fin NOFILE} (h : (State.nextFd fd).Ahead x) :
    (CopyStage.ofile fd).Ahead x ∧ x ≠ .fd fd := by
  cases x with
  | fd fd' =>
    unfold State.nextFd at h
    split at h
    · have hlt : fd.val + 1 ≤ fd'.val := h
      refine ⟨Fin.le_def.mpr (by omega), fun hc => ?_⟩
      cases hc
      omega
    · exact h.elim
  | cwd => exact ⟨trivial, nofun⟩

theorem empty_setFd_ne {f : Option (Fin NFILE)} {fd : Fin NOFILE} (hx : x ≠ .fd fd)
    (h : (s.proc i).Empty x) : ((s.setFd i fd f).proc i).Empty x := by
  unfold State.setFd
  rw [State.setProc_proc_self]
  cases x with
  | fd fd' =>
    have hne : fd' ≠ fd := fun hc => hx (by rw [hc])
    exact (Function.update_of_ne hne _ _).trans h
  | cwd => exact h

theorem proc_fileclose (s : State) (f : Fin NFILE) : (s.fileclose f).1.proc = s.proc := by
  unfold State.fileclose
  dsimp only
  split_ifs <;> rfl

theorem proc_iput (s : State) (ip : Option Nat) : (s.iput ip).proc = s.proc := by
  cases ip <;> rfl

/-- What `exit` and `thread_exit` have passed is empty. -/
theorem empty_closeNext {st st' : CloseStage} (h : s.closeNext i st = some (u, st'))
    (hx : st'.Closed x) (hs : st.Closed x → (s.proc i).Empty x) : (u.proc i).Empty x := by
  cases st with
  | ofile fd =>
    unfold State.closeNext at h
    dsimp only at h
    split at h
    · split_ifs at h
      split at h
      · cases h
        rw [proc_fileclose]
        cases x with
        | fd fd' => exact hs hx
        | cwd => cases hx
      · cases h
        rw [proc_fileclose]
        cases x with
        | fd fd' => exact hs hx
        | cwd => cases hx
    · next hnone =>
      cases h
      obtain ⟨fd', rfl, hle⟩ := closed_nextClose hx
      rcases Nat.lt_or_eq_of_le hle with hlt | heq
      · exact hs hlt
      · rw [Fin.ext heq]
        exact hnone
  | iput fd f ip =>
    cases h
    cases x with
    | fd fd' => exact hs hx
    | cwd => cases hx
  | clear fd f =>
    cases h
    obtain ⟨fd', rfl, hle⟩ := closed_nextClose hx
    rcases Nat.lt_or_eq_of_le hle with hlt | heq
    · refine empty_setFd_ne (fun hc => ?_) (hs hlt)
      cases hc
      exact Nat.lt_irrefl _ hlt
    · rw [Fin.ext heq]
      unfold State.setFd
      rw [State.setProc_proc_self]
      exact Function.update_self _ _ _
  | cwd =>
    cases h
    rw [proc_iput]
    cases x with
    | fd fd' => exact hs trivial
    | cwd => cases hx
  | clearCwd cwd =>
    unfold State.closeNext at h
    dsimp only at h
    split_ifs at h
    cases h
    rw [State.setProc_proc_self]
    cases x with
    | fd fd' => exact hs trivial
    | cwd => rfl
  | last => cases h

theorem ahead_copyNext {p np : Slot} {st st' : CopyStage} (h : (s.copyNext p np st).2 = some st')
    (hx : st'.Ahead x) : st.Ahead x := by
  cases x with
  | cwd => trivial
  | fd fd' =>
    cases st with
    | ofile fd =>
      unfold State.copyNext at h
      dsimp only at h
      split at h
      · cases h
        exact hx
      · cases h
        exact (ahead_nextFd hx).1
    | filedup fd f =>
      cases h
      exact hx
    | setOfile fd f =>
      cases h
      exact (ahead_nextFd hx).1
    | cwd =>
      unfold State.copyNext at h
      dsimp only at h
      split at h <;> cases h <;> exact hx
    | idup ip =>
      cases h
      exact hx
    | setCwd ip => cases h

/-- What the loop has not come to is empty. -/
theorem empty_copyNext {p np : Slot} {st st' : CopyStage} (h : (s.copyNext p np st).2 = some st')
    (hx : st'.Ahead x) (hs : (s.proc np).Empty x) : ((s.copyNext p np st).1.proc np).Empty x := by
  cases st with
  | ofile fd =>
    unfold State.copyNext
    dsimp only
    split <;> exact hs
  | filedup fd f => exact hs
  | setOfile fd f =>
    cases h
    exact empty_setFd_ne (ahead_nextFd hx).2 hs
  | cwd =>
    unfold State.copyNext
    dsimp only
    split <;> exact hs
  | idup ip => exact hs
  | setCwd ip => cases h

theorem ahead_before (hs : Sound s) (h : Effect s a t) (ht : (t.pc i).Ahead q x) :
    (s.proc q).phase = .unused ∨ (s.pc i).Ahead q x := by
  cases shaped_effect hs h (Pc.owns_of_ahead ht) with
  | taken k hpc hq hk => exact Or.inl (Proc.phase_unused.mpr hq)
  | other hpc hleft hparent =>
    rw [hpc] at ht
    exact Or.inr ht
  | fork pd st hrun hpc hvm =>
    right
    rw [hpc]
    cases st with
    | files st =>
      have hp : (s.forkNext i q pd (.files st)).pc i = .copy none q (s.copyNext i q st).2 := by
        rw [State.forkNext, State.setPc_pc, if_pos rfl]
        rfl
      rw [hp] at ht
      obtain ⟨-, st', hst', hx⟩ := Pc.ahead_copy.mp ht
      exact ⟨rfl, ahead_copyNext hst' hx⟩
    | runnable =>
      rw [State.forkNext, State.setPc_pc, if_pos rfl] at ht
      exact ht.elim
    | _ => exact ⟨rfl, trivial⟩
  | thread main enough st hrun hpc =>
    right
    rw [hpc]
    cases st with
    | files st =>
      have hp : (s.threadNext i q main enough (.files st)).pc i =
          .copy (some main) q (s.copyNext main q st).2 := by
        rw [State.threadNext, State.setPc_pc, if_pos rfl]
        rfl
      rw [hp] at ht
      obtain ⟨-, st', hst', hx⟩ := Pc.ahead_copy.mp ht
      exact ⟨rfl, ahead_copyNext hst' hx⟩
    | runnable =>
      rw [State.threadNext, State.setPc_pc, if_pos rfl] at ht
      exact ht.elim
    | _ => exact ⟨rfl, trivial⟩

namespace Clean

theorem of_gone (hs : Sound s) (hc : Clean s x)
    (hfree : ∀ q, s.frees a q = true → (s.proc q).Empty x) (h : Effect s a t)
    (ht : (t.proc q).phase = .unused ∨ (t.proc q).phase = .zombie) : (s.proc q).Empty x := by
  rcases gone_before hs h ht with hgone | hf | ⟨retval, hpc⟩ | ⟨i, hpc⟩
  · exact hc.gone q hgone
  · exact hfree q hf
  · apply hc.closed q
    rw [hpc, Pc.closed_close]
    cases x with
    | fd fd => trivial
    | cwd => rfl
  · apply hc.ahead i q
    rcases hpc with hpc | ⟨main, hpc⟩
    · rw [hpc]
      exact ⟨rfl, trivial⟩
    · rw [hpc]
      exact ⟨rfl, trivial⟩

theorem of_ahead (hs : Sound s) (hc : Clean s x) (h : Effect s a t)
    (ht : (t.pc i).Ahead q x) : (s.proc q).Empty x := by
  rcases ahead_before hs h ht with hunused | hp
  · exact hc.gone q (Or.inl hunused)
  · exact hc.ahead i q hp

theorem not_closed_of_loose {k : Pc} (hk : k.loose = true) : ¬ k.Closed x := by
  have hfirst : ∀ st : CloseStage, decide (st = .first) = true → ¬ st.Closed x := by
    intro st hst hx
    rw [of_decide_eq_true hst] at hx
    cases x with
    | fd fd => exact Nat.not_lt_zero _ hx
    | cwd => cases hx
  cases k with
  | exit st => exact hfirst st hk
  | threadExit retval st => exact hfirst st hk
  | _ => exact id

theorem step (hs : Sound s) (hc : Clean s x) (h : Effect s a t) (hst : Sound t)
    (hfree : ∀ q, s.frees a q = true → (s.proc q).Empty x) : Clean t x := by
  have hfiles := files_effect h
  have halive : ∀ {u : State} {q : Slot} {k : Pc}, OnlyFiles q s u → t = u.setPc q k →
      (s.proc q).state = .running → (t.proc q).phase = .alive := by
    intro u q k hu ht hq
    rw [ht]
    exact (hu.quiet.proc q).phase.trans (Proc.phase_alive hq)
  refine ⟨fun q hq => ?_, fun q hq => ?_, fun i q hq => ?_⟩
  · have hno : (t.proc q).phase ≠ .alive ∧ (t.proc q).phase ≠ .embryo := by
      rcases hq with hq | hq <;> rw [hq] <;> exact ⟨nofun, nofun⟩
    cases hfiles.slot q with
    | same ho hcw _ => exact empty_of_same ho hcw (hc.of_gone hs hfree h hq)
    | fs op st st' u hi hpc h ht => exact absurd (halive (.fsNext h) ht hi) hno.1
    | close retval st st' u hi hpc h ht => exact absurd (halive (.closeNext h) ht hi) hno.1
    | copy i main st hi hpc ht =>
      refine absurd ?_ hno.2
      apply hst.embryo (i := i)
      rw [ht, State.setPc_pc, if_pos rfl, Pc.owns_copy]
  · cases hfiles.slot q with
    | same ho hcw hpc =>
      rcases hpc with hpc | hpc
      · rw [hpc] at hq
        exact empty_of_same ho hcw (hc.closed q hq)
      · exact absurd hq (not_closed_of_loose hpc)
    | fs op st st' u hi hpc h ht =>
      rw [ht, State.setPc_pc, if_pos rfl] at hq
      exact hq.elim
    | close retval st st' u hi hpc h ht =>
      rw [ht, State.setPc_pc, if_pos rfl, Pc.closed_close] at hq
      rw [ht, State.setPc_proc]
      refine empty_closeNext h hq fun hx => hc.closed q ?_
      rw [hpc, Pc.closed_close]
      exact hx
    | copy i main st hi hpc ht =>
      -- a slot that is set up is at no other place than the first
      have hembryo : (t.proc q).phase = .embryo := by
        apply hst.embryo (i := i)
        rw [ht, State.setPc_pc, if_pos rfl, Pc.owns_copy]
      have halive : (t.proc q).phase = .alive := hst.busy q fun hu => by
        rw [hu] at hq
        exact hq.elim
      rw [halive] at hembryo
      cases hembryo
  · have hembryo := hst.embryo (Pc.owns_of_ahead hq)
    have hempty := hc.of_ahead hs h hq
    cases hfiles.slot q with
    | same ho hcw _ => exact empty_of_same ho hcw hempty
    | fs op st st' u hi hpc h ht =>
      rw [halive (.fsNext h) ht hi] at hembryo
      cases hembryo
    | close retval st st' u hi hpc h ht =>
      rw [halive (.closeNext h) ht hi] at hembryo
      cases hembryo
    | copy j main st hi hpc ht =>
      have hj : t.pc j = .copy main q (s.copyNext (main.getD j) q st).2 := by
        rw [ht, State.setPc_pc, if_pos rfl]
      have hij := hst.owner (Pc.owns_of_ahead hq) (j := j) (by rw [hj, Pc.owns_copy])
      rw [hij, hj] at hq
      obtain ⟨-, st', hst', hx⟩ := Pc.ahead_copy.mp hq
      rw [ht]
      exact empty_copyNext hst' hx hempty

end Clean

theorem userinit_ofile (q : Slot) (fd : Fin NOFILE) : (userinit.proc q).ofile fd = none := by
  dsimp only [userinit]
  rw [Function.update_apply]
  split_ifs <;> rfl

theorem userinit_cwd (q : Slot) : (userinit.proc q).cwd = if q = 0 then some ROOTINO else none := by
  dsimp only [userinit]
  rw [Function.update_apply]
  split_ifs <;> rfl

theorem clean_userinit (x : Item) : Clean userinit x := by
  refine ⟨fun q hq => ?_, fun q hq => hq.elim, fun i q hq => hq.elim⟩
  cases x with
  | fd fd => exact userinit_ofile q fd
  | cwd =>
    refine (userinit_cwd q).trans (if_neg ?_)
    rintro rfl
    rcases hq with hq | hq <;> exact absurd hq (by decide)

end Clean

end Xv6.Threads
