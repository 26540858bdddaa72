import Xv6.Threads.Sound

/-!
# Slots that are being set up

While `fork` or `thread_create` sets up a slot, nobody else touches what it has
written there, except for the size, the memory limit and a parent that exits.
-/

namespace Xv6.Threads

open Mlfq (NPROC Slot Procstate)

/-- The step that starts a slot. -/
inductive Born (s : State) (q : Slot) : Action → State → Prop where
  | fork (i : Slot) (pd : Nat) (hi : (s.proc i).state = .running)
      (hpc : s.pc i = .fork q .runnable) :
      Born s q (.forkNext i pd) (s.forkNext i q pd .runnable)
  | thread (i main : Slot) (enough : Bool) (hi : (s.proc i).state = .running)
      (hpc : s.pc i = .thread q main .runnable) :
      Born s q (.threadNext i enough) (s.threadNext i q main enough .runnable)

section Born

variable {s t : State} {a : Action} {q : Slot}

theorem started_of_phase (h : (t.proc q).phase = (s.proc q).phase) (hq : t.started q) :
    s.started q := by
  unfold State.started Ids.started State.ids at hq ⊢
  dsimp only at hq ⊢
  rw [← h]
  exact hq

theorem not_started {p : Phase} (h : (t.proc q).phase = p) (hp : p = .unused ∨ p = .embryo) :
    ¬ t.started q := by
  intro hq
  rcases hq with hq | hq <;> rcases hp with hp | hp <;>
    exact Phase.noConfusion ((hp.symm.trans h.symm).trans hq)

theorem phase_setUp {u : State} {np i : Slot} {f : Proc → Proc} {k : Pc} (hu : u.proc = s.proc)
    (hf : (f (s.proc np)).phase = (s.proc np).phase) :
    (((u.setProc np f).setPc i k).proc q).phase = (s.proc q).phase := by
  by_cases hq : q = np
  · rw [hq, State.setPc_proc, State.setProc_proc_self, hu, hf]
  · rw [setUp_proc hu hq]

theorem phase_forkNext {i np : Slot} {pd : Nat} {st : ForkStage} (hst : st ≠ .runnable) :
    ((s.forkNext i np pd st).proc q).phase = (s.proc q).phase := by
  cases st with
  | runnable => exact absurd rfl hst
  | files st => exact ((State.quiet_copyNext s i np st).proc q).phase
  | pid => rfl
  | nextpid n => rfl
  | _ => exact phase_setUp rfl rfl

theorem phase_threadNext {i np main : Slot} {enough : Bool} {st : ThreadStage}
    (hst : st ≠ .runnable) :
    ((s.threadNext i np main enough st).proc q).phase = (s.proc q).phase := by
  cases st with
  | runnable => exact absurd rfl hst
  | files st => exact ((State.quiet_copyNext s main np st).proc q).phase
  | tid => rfl
  | nexttid n => rfl
  | limit =>
    unfold State.threadNext
    dsimp only
    split_ifs <;> rfl
  | alloc => exact (sameIds_setSz s np _).phase q
  | copyout => rfl
  | _ => exact phase_setUp rfl rfl

/-- A slot is started by the last statement of `fork` or `thread_create` only. -/
theorem born_effect (h : Effect s a t) (hq : t.started q) :
    s.started q ∨ Born s q a t := by
  by_cases hsq : s.started q
  · exact Or.inl hsq
  have hsame : (t.proc q).phase ≠ (s.proc q).phase := fun h => hsq (started_of_phase h hq)
  have hgone : ∀ p, (t.proc q).phase = p → p = .unused ∨ p = .embryo → False :=
    fun p hp h => not_started hp h hq
  cases h with
  | kept hf h hpc hfile hlog => exact absurd (h.proc q).phase hsame
  | alloc hf i np k hrun hpc hnp hk =>
    by_cases hqp : q = np
    · refine (hgone .embryo ?_ (Or.inr rfl)).elim
      rw [hqp, State.setPc_proc, State.setProc_proc_self]
      rfl
    · exact absurd (by rw [setUp_proc rfl hqp]) hsame
  | abort hf i np pgdir hrun hpc =>
    by_cases hqp : q = np
    · refine (hgone .unused ?_ (Or.inl rfl)).elim
      rw [hqp, State.setPc_proc, State.setProc_proc_self]
      rfl
    · exact absurd (congrArg Proc.phase (setUp_proc rfl hqp)) hsame
  | forkNext i np pd st hrun hpc hvm hdup =>
    by_cases hst : st = .runnable
    · subst hst
      by_cases hqp : q = np
      · subst hqp
        exact Or.inr (.fork i pd hrun hpc)
      · exact absurd (congrArg Proc.phase (setUp_proc rfl hqp)) hsame
    · exact absurd (phase_forkNext hst) hsame
  | threadNext i np main enough st hrun hpc hdup =>
    by_cases hst : st = .runnable
    · subst hst
      by_cases hqp : q = np
      · subst hqp
        exact Or.inr (.thread i main enough hrun hpc)
      · exact absurd (congrArg Proc.phase (setUp_proc rfl hqp)) hsame
    · exact absurd (phase_threadNext hst) hsame
  | exitLast i hrun hpc hfree =>
    cases hsib : s.siblings i q with
    | true => exact (hgone .unused (exitLast_sibling hsib).phase (Or.inl rfl)).elim
    | false =>
      by_cases hqi : q = i
      · exact absurd (Or.inl (by rw [hqi]; exact Proc.phase_alive hrun)) hsq
      · exact absurd (exitLast_other hsib hqi).phase hsame
  | threadExitLast i retval hrun hpc =>
    by_cases hqi : q = i
    · exact absurd (Or.inl (by rw [hqi]; exact Proc.phase_alive hrun)) hsq
    · exact absurd (threadExitLast_other retval hqi).phase hsame
  | reap i p hrun hpc hw =>
    have hz := (waitFor_some hw).2
    by_cases hqp : q = p
    · exact absurd (Or.inr (by rw [hqp]; exact hz)) hsq
    · exact absurd (congrArg Proc.phase (wait_other hw hqp)) hsame
  | join i p thread hrun hpc hj =>
    by_cases hqp : q = p
    · exact absurd (Or.inr (by rw [hqp]; exact (joinFor_some hj).2)) hsq
    · have hv := vacate_proc_of_not (s := s) (fun r => r = p) (decide_eq_false hqp)
      exact absurd (congrArg Proc.phase hv) hsame
  | exec i pd ip hrun hpc hvm => exact absurd rfl hsame
  | execBad i pd st hrun hpc hst => exact absurd rfl hsame
  | cleanforexec i pd hrun hpc hidle hfree =>
    unfold State.cleanforexec at hgone hsame
    split_ifs at hgone hsame
    · exact absurd rfl hsame
    · cases hsib : s.siblings i q with
      | true => exact (hgone .unused (vacate_proc _ hsib).phase (Or.inl rfl)).elim
      | false => exact absurd (congrArg Proc.phase (vacate_proc_of_not _ hsib)) hsame
  | execCommit i pd sz oldpgdir hrun hpc hold => exact absurd (phase_setUp rfl rfl) hsame
  | execFree i oldpgdir hrun hpc => exact absurd rfl hsame
  | growproc i main n enough sz hlimit => exact absurd ((sameIds_setSz s main sz).phase q) hsame
  | setmemorylimit i p pid limit h0 hp hsz =>
    exact absurd ((sameIds_setProc rfl rfl rfl).phase q) hsame

end Born

/-- What the others leave alone in a slot that is being set up. -/
structure Proc.Left (r r' : Proc) : Prop where
  phase : r'.phase = r.phase
  pid : r'.pid = r.pid
  tid : r'.tid = r.tid
  mainthread : r'.mainthread = r.mainthread
  pgdir : r'.pgdir = r.pgdir
  retval : r'.retval = r.retval

theorem Proc.Same.left {r r' : Proc} (h : r.Same r') : r.Left r' :=
  ⟨h.phase, h.pid, h.tid, h.mainthread, h.pgdir, h.retval⟩

theorem Proc.Left.refl (r : Proc) : r.Left r := (Proc.Same.refl r).left

/-- The parent stays, unless it exits. -/
def ParentLeft (s : State) (q : Slot) (a : Action) (t : State) : Prop :=
  (t.proc q).parent = (s.proc q).parent ∨
    ∃ j, a = .exitLast j ∧ s.pc j = .exit .last ∧ (s.proc q).parent = some j

/-- The step after which the thread `i` is setting up the slot `q`. -/
inductive Shaped (s : State) (i q : Slot) : Action → State → Prop where
  | taken {a : Action} (k : Pc) (hpc : s.pc i = .user) (hq : (s.proc q).state = .unused)
      (hk : k = .fork q .pgdir ∨
        ∃ main, (s.proc i).mainthread = some main ∧ k = .thread q main .pgdir) :
      Shaped s i q a ((s.setProc q fun r => { r with state := .embryo }).setPc i k)
  | other {a : Action} {t : State} (hpc : t.pc i = s.pc i) (h : (s.proc q).Left (t.proc q))
      (hparent : ParentLeft s q a t) : Shaped s i q a t
  | fork (pd : Nat) (st : ForkStage) (hi : (s.proc i).state = .running)
      (hpc : s.pc i = .fork q st) (hvm : st = .pgdir → s.vm pd = false) :
      Shaped s i q (.forkNext i pd) (s.forkNext i q pd st)
  | thread (main : Slot) (enough : Bool) (st : ThreadStage) (hi : (s.proc i).state = .running)
      (hpc : s.pc i = .thread q main st) :
      Shaped s i q (.threadNext i enough) (s.threadNext i q main enough st)

theorem Shaped.of_eq {s t : State} {i q : Slot} {a : Action} (hpc : t.pc i = s.pc i)
    (h : t.proc q = s.proc q) : Shaped s i q a t :=
  .other hpc (by rw [h]; exact .refl _) (Or.inl (by rw [h]))

theorem Pc.birth_of_owns {k : Pc} {q : Slot} (h : k.owns = some q) :
    ∃ b, k.birth = some b ∧ b.slot = q := by
  cases k with
  | fork np st =>
    cases h
    exact ⟨_, rfl, rfl⟩
  | thread np main st =>
    cases h
    exact ⟨_, rfl, rfl⟩
  | _ => cases h

namespace Sound

variable {s : State}

theorem embryo (hs : Sound s) {i q : Slot} (h : (s.pc i).owns = some q) :
    (s.proc q).phase = .embryo := by
  obtain ⟨b, hb, rfl⟩ := Pc.birth_of_owns h
  exact hs.base.births.embryo i b hb

theorem owner (hs : Sound s) {i j q : Slot} (h : (s.pc i).owns = some q)
    (h' : (s.pc j).owns = some q) : i = j := by
  obtain ⟨b, hb, rfl⟩ := Pc.birth_of_owns h
  obtain ⟨c, hc, heq⟩ := Pc.birth_of_owns h'
  exact hs.base.births.unique i j b c hb hc heq.symm

/-- A slot that a surviving thread sets up is no sibling of one that exits. -/
theorem siblings_of_owns (hs : Sound s) {i j q : Slot} (hj : s.ids.MayLeave j)
    (h : (s.pc i).owns = some q) (hi : s.siblings j i = false) : s.siblings j q = false := by
  obtain ⟨b, hb, rfl⟩ := Pc.birth_of_owns h
  by_contra hq
  have hm := hs.base.mates_of_birth hj hb ((Bool.not_eq_false _).mp hq)
  exact absurd (hm.symm.trans hi) nofun

/-- Only a thread other than init has a tid. -/
theorem mayLeave_of_tid (hs : Sound s) {i : Slot} (hi : (s.proc i).state = .running)
    (hb : (s.pc i).birth = none) (htid : (s.proc i).tid ≠ 0) : s.ids.MayLeave i := by
  refine ⟨Proc.phase_alive hi, hb, fun hinit => htid ?_⟩
  rw [show i = s.initproc from hinit]
  exact hs.base.tids.init

end Sound

section Shaped

variable {s t : State} {a : Action} {i q : Slot}

theorem pc_of_ne {u : State} {j : Slot} {k : Pc} (hu : u.pc = s.pc) (hij : i ≠ j) :
    (u.setPc j k).pc i = s.pc i := by
  rw [State.setPc_pc, if_neg hij, hu]

theorem ne_of_owns {u : State} {j : Slot} {k : Pc} (h : ((u.setPc j k).pc i).owns = some q)
    (hk : k.owns = none) : i ≠ j := by
  intro hij
  rw [State.setPc_pc, if_pos hij, hk] at h
  cases h

theorem Shaped.of_setPc {u : State} {j : Slot} {k : Pc} (hu : u.pc = s.pc) (hij : i ≠ j)
    (h : u.proc q = s.proc q) : Shaped s i q a (u.setPc j k) :=
  .of_eq (pc_of_ne hu hij) h

/-- `thread_create` goes on with the same slot or returns. -/
theorem threadNext_pc (s : State) (i np main : Slot) (enough : Bool) (st : ThreadStage) :
    (s.threadNext i np main enough st).pc i = .user ∨
      ∃ st', (s.threadNext i np main enough st).pc i = .thread np main st' := by
  cases st with
  | limit =>
    unfold State.threadNext
    dsimp only
    split_ifs
    · exact Or.inl (by rw [State.setPc_pc, if_pos rfl])
    · exact Or.inr ⟨.alloc, by rw [State.setPc_pc, if_pos rfl]⟩
  | alloc =>
    rw [State.threadNext, State.setPc_pc, if_pos rfl]
    split_ifs
    · exact Or.inl rfl
    · exact Or.inr ⟨_, rfl⟩
  | copyout =>
    rw [State.threadNext, State.setPc_pc, if_pos rfl]
    split_ifs
    · exact Or.inr ⟨_, rfl⟩
    · exact Or.inl rfl
  | runnable => exact Or.inl (by rw [State.threadNext, State.setPc_pc, if_pos rfl])
  | _ => exact Or.inr ⟨_, by rw [State.threadNext, State.setPc_pc, if_pos rfl]⟩

theorem owns_threadNext {np main : Slot} {enough : Bool} {st : ThreadStage}
    (h : ((s.threadNext i np main enough st).pc i).owns = some q) : q = np := by
  rcases threadNext_pc s i np main enough st with hpc | ⟨st', hpc⟩
  · rw [hpc] at h
    cases h
  · rw [hpc] at h
    cases h
    rfl

theorem left_setSz (s : State) (q p : Slot) (sz : Nat) :
    (s.proc q).Left ((s.setProc p fun r => { r with sz := sz }).proc q) ∧
      ((s.setProc p fun r => { r with sz := sz }).proc q).parent = (s.proc q).parent := by
  by_cases hq : q = p
  · rw [hq, State.setProc_proc_self]
    exact ⟨⟨rfl, rfl, rfl, rfl, rfl, rfl⟩, rfl⟩
  · rw [State.setProc_proc_ne _ _ _ _ hq]
    exact ⟨.refl _, rfl⟩

theorem left_setLimit (s : State) (q p : Slot) (limit : Int) :
    (s.proc q).Left ((s.setProc p fun r => { r with memorylimit := limit }).proc q) ∧
      ((s.setProc p fun r => { r with memorylimit := limit }).proc q).parent =
        (s.proc q).parent := by
  by_cases hq : q = p
  · rw [hq, State.setProc_proc_self]
    exact ⟨⟨rfl, rfl, rfl, rfl, rfl, rfl⟩, rfl⟩
  · rw [State.setProc_proc_ne _ _ _ _ hq]
    exact ⟨.refl _, rfl⟩

theorem exitLast_pc_of_not {j : Slot} (hij : i ≠ j) (hi : s.siblings j i = false) :
    (s.exitLast j).pc i = s.pc i := by
  rw [State.exitLast, State.setPc_pc, if_neg hij, State.setProc_pc, State.pc_reparent,
    State.pc_wakeParent]
  exact if_neg (by simp [hi])

theorem vacate_pc_of_not {gone : Slot → Bool} (hi : gone i = false) :
    (s.vacate gone).pc i = s.pc i := if_neg (by simp [hi])

theorem vacate_pc {gone : Slot → Bool} (hi : gone i = true) : (s.vacate gone).pc i = .user :=
  if_pos hi

theorem shaped_effect (hs : Sound s) (h : Effect s a t) (ht : (t.pc i).owns = some q) :
    Shaped s i q a t := by
  have hembryo : t.pc i = s.pc i → (s.proc q).phase = .embryo :=
    fun hpc => hs.embryo (by rw [← hpc]; exact ht)
  -- another thread sets up another slot
  have howner : ∀ {j np}, t.pc i = s.pc i → i ≠ j → (s.pc j).owns = some np → q ≠ np := by
    intro j np hpc hij hj hq
    subst hq
    exact hij (hs.owner (by rw [← hpc]; exact ht) hj)
  cases h with
  | kept hf h hpc hfile hlog =>
    rcases hpc i with hpc | hm | ⟨-, pd, ip, -, hpc⟩
    · exact .other hpc (h.proc q).left (Or.inl (h.proc q).parent)
    · obtain ⟨b, hb, -⟩ := Pc.birth_of_owns ht
      rw [Pc.birth_of_plain hm.after] at hb
      cases hb
    · rw [hpc] at ht
      cases ht
  | alloc hf j np k hrun hpc hnp hk =>
    by_cases hij : i = j
    · subst hij
      rw [State.setPc_pc, if_pos rfl] at ht
      have hq : q = np := by
        rcases hk with hk | ⟨main, -, hk⟩ <;> rw [hk] at ht <;> cases ht <;> rfl
      subst hq
      exact .taken k hpc hnp hk
    · refine .of_setPc rfl hij (State.setProc_proc_ne s np q _ ?_)
      intro hq
      have h1 := hembryo (pc_of_ne rfl hij)
      rw [hq, Proc.phase_unused.mpr hnp] at h1
      cases h1
  | abort hf j np pgdir hrun hpc =>
    have hij := ne_of_owns ht rfl
    have hj : (s.pc j).owns = some np := by
      rcases hpc with hpc | ⟨main, hpc⟩ <;> rw [hpc] <;> rfl
    exact .of_setPc rfl hij (State.setProc_proc_ne s np q _ (howner (pc_of_ne rfl hij) hij hj))
  | forkNext j np pd st hrun hpc hvm hdup =>
    have hj : (s.pc j).owns = some np := by
      rw [hpc]
      rfl
    by_cases hij : i = j
    · subst hij
      have hq : q = np := by
        cases st <;> rw [State.forkNext, State.setPc_pc, if_pos rfl] at ht <;> cases ht <;> rfl
      subst hq
      exact .fork pd st hrun hpc hvm
    · cases st with
      | files st =>
        have hd := State.quiet_copyNext s j np st
        exact .other (pc_of_ne hd.pc hij) (hd.proc q).left (Or.inl (hd.proc q).parent)
      | pid => exact .of_setPc rfl hij rfl
      | nextpid n => exact .of_setPc rfl hij rfl
      | _ =>
        have hne := howner (pc_of_ne rfl hij) hij hj
        exact .of_setPc rfl hij (State.setProc_proc_ne _ np q _ hne)
  | threadNext j np main enough st hrun hpc hdup =>
    have hj : (s.pc j).owns = some np := by
      rw [hpc]
      rfl
    by_cases hij : i = j
    · subst hij
      have hq := owns_threadNext ht
      subst hq
      exact .thread main enough st hrun hpc
    · have hne := fun hpci => howner hpci hij hj
      cases st with
      | files st =>
        have hd := State.quiet_copyNext s main np st
        exact .other (pc_of_ne hd.pc hij) (hd.proc q).left (Or.inl (hd.proc q).parent)
      | tid => exact .of_setPc rfl hij rfl
      | nexttid n => exact .of_setPc rfl hij rfl
      | limit =>
        unfold State.threadNext
        dsimp only
        split_ifs <;> exact .of_setPc rfl hij rfl
      | alloc =>
        refine .of_setPc rfl hij (State.setProc_proc_ne s np q _ (hne (pc_of_ne rfl hij)))
      | copyout => exact .of_setPc rfl hij rfl
      | mainSz =>
        have hl := left_setSz s q main (s.proc np).sz
        exact .other (pc_of_ne rfl hij) hl.1 (Or.inl hl.2)
      | _ =>
        exact .of_setPc rfl hij (State.setProc_proc_ne _ np q _ (hne (pc_of_ne rfl hij)))
  | exitLast j hrun hpc hfree =>
    have hij : i ≠ j := by
      intro hij
      rw [exitLast_pc (Or.inr hij)] at ht
      cases ht
    cases hsib : s.siblings j i with
    | true =>
      rw [exitLast_pc (Or.inl hsib)] at ht
      cases ht
    | false =>
      have hpci := exitLast_pc_of_not hij hsib
      have hl := hs.init.mayLeave hrun (by rw [hpc]; rfl)
      have hq := hs.siblings_of_owns hl (by rw [← hpci]; exact ht) hsib
      have hqj : q ≠ j := by
        intro hq
        have h1 := hembryo hpci
        rw [hq, Proc.phase_alive hrun] at h1
        cases h1
      have hsame := exitLast_other hq hqj
      refine .other hpci ⟨hsame.phase, hsame.pid, hsame.tid, hsame.mainthread, hsame.pgdir,
        hsame.retval⟩ ?_
      by_cases hp : (s.proc q).parent = some j
      · exact Or.inr ⟨j, rfl, hpc, hp⟩
      · left
        rw [hsame.parent]
        exact if_neg hp
  | threadExitLast j retval hrun hpc =>
    have hij := ne_of_owns ht rfl
    have hpci : (s.threadExitLast j retval).pc i = s.pc i := pc_of_ne rfl hij
    have hqj : q ≠ j := by
      intro hq
      have h1 := hembryo hpci
      rw [hq, Proc.phase_alive hrun] at h1
      cases h1
    have hsame := threadExitLast_other (s := s) retval hqj
    exact .other hpci hsame.left (Or.inl hsame.parent)
  | reap j p hrun hpc hw =>
    have hpci : (s.wait j).pc i = s.pc i := by
      unfold State.wait at ht ⊢
      rw [hw] at ht ⊢
      dsimp only at ht ⊢
      split at ht
      · exact pc_of_ne rfl (ne_of_owns ht rfl)
      · exact pc_of_ne rfl (ne_of_owns ht rfl)
    refine .of_eq hpci (wait_other hw ?_)
    intro hq
    have h1 := hembryo hpci
    rw [hq, (waitFor_some hw).2] at h1
    cases h1
  | join j p thread hrun hpc hj =>
    have hij := ne_of_owns ht rfl
    rw [State.setPc_pc, if_neg hij] at ht
    by_cases hip : i = p
    · rw [vacate_pc (decide_eq_true hip)] at ht
      cases ht
    · have hpci : ((s.vacate fun r => r = p).setPc j .user).pc i = s.pc i := by
        rw [State.setPc_pc, if_neg hij, vacate_pc_of_not (decide_eq_false hip)]
      have hqp : q ≠ p := by
        intro hq
        have h1 := hembryo hpci
        rw [hq, (joinFor_some hj).2] at h1
        cases h1
      have hv := vacate_proc_of_not (s := s) (fun r => r = p) (decide_eq_false hqp)
      exact .of_eq hpci hv
  | exec j pd ip hrun hpc hvm => exact .of_setPc rfl (ne_of_owns ht rfl) rfl
  | execBad j pd st hrun hpc hst =>
    exact .of_setPc rfl (ne_of_owns ht (by cases st <;> rfl)) rfl
  | cleanforexec j pd hrun hpc hidle hfree =>
    have hij := ne_of_owns ht rfl
    unfold State.cleanforexec at ht hembryo ⊢
    split_ifs at ht hembryo ⊢ with htid
    · exact .of_setPc rfl hij rfl
    · rw [State.setPc_pc, if_neg hij] at ht
      cases hsib : s.siblings j i with
      | true =>
        rw [vacate_pc hsib] at ht
        cases ht
      | false =>
        have hl := hs.mayLeave_of_tid hrun (by rw [hpc]; rfl) htid
        rw [vacate_pc_of_not hsib] at ht
        refine .of_eq ?_ (vacate_proc_of_not _ (hs.siblings_of_owns hl ht hsib))
        rw [State.setPc_pc, if_neg hij, vacate_pc_of_not hsib]
  | execCommit j pd sz oldpgdir hrun hpc hold =>
    have hij := ne_of_owns ht rfl
    refine .of_setPc rfl hij (State.setProc_proc_ne s j q _ ?_)
    intro hq
    have h1 := hembryo (pc_of_ne rfl hij)
    rw [hq, Proc.phase_alive hrun] at h1
    cases h1
  | execFree j oldpgdir hrun hpc => exact .of_setPc rfl (ne_of_owns ht rfl) rfl
  | growproc j main n enough sz hlimit =>
    have hl := left_setSz s q main sz
    exact .other rfl hl.1 (Or.inl hl.2)
  | setmemorylimit j p pid limit h0 hp hsz =>
    have hl := left_setLimit s q p limit
    exact .other rfl hl.1 (Or.inl hl.2)

end Shaped

end Xv6.Threads
