import Xv6.Threads.Setup

/-!
# Processes and their main threads

A process is the slots with one pid, and `mainthread` is the one among them with tid 0.
`userinit` sets neither for init.
-/

namespace Xv6.Threads

open Mlfq (NPROC Slot Procstate)
open Transition

/-- The law of `pid`, `tid` and `mainthread` among the slots in `on` that can run. -/
structure Identity (s : State) (on : Slot → Prop) : Prop where
  numbered : ∀ q, on q → (s.proc q).phase = .alive →
    1 ≤ (s.proc q).pid ∧ (s.proc q).mainthread ≠ none
  main : ∀ q, on q → (s.proc q).phase = .alive →
    ((s.proc q).tid = 0 ↔ (s.proc q).mainthread = some q)
  process : ∀ q r, on q → on r → (s.proc q).phase = .alive → (s.proc r).phase = .alive →
    ((s.proc q).pid = (s.proc r).pid ↔ (s.proc q).mainthread = (s.proc r).mainthread)
  used : ∀ q m, on q → (s.proc q).phase = .alive → (s.proc q).mainthread = some m →
    (s.proc m).state ≠ .unused ∧ (s.proc m).pid = (s.proc q).pid

/-- Init's slot does not come out of use. -/
def keepsInit (s : State) (a : Action) : Prop := s.frees a s.initproc = false

instance (s : State) (a : Action) : Decidable (keepsInit s a) :=
  inferInstanceAs (Decidable (_ = _))

/-- The slot has tid 0 and no thread of its process can run. -/
def State.deserted (s : State) (p : Slot) : Prop :=
  (s.proc p).tid = 0 → ∀ q, (s.proc q).phase = .alive → (s.proc q).pid ≠ (s.proc p).pid

instance (s : State) (p : Slot) : Decidable (s.deserted p) :=
  inferInstanceAs (Decidable (_ → _))

/-- When `fork` and `thread_create` write an `int` counter back, it still has the value they
read, and has not overflowed; a main thread is reaped or joined after the other threads of
its process; and no other thread than the main one gets to `cleanforexec`. -/
def mainOk (s : State) : Action → Bool
  | .forkNext i _ =>
    match s.pc i with
    | .fork _ (.nextpid n) => s.nextpid = n ∧ 0 < n
    | _ => true
  | .threadNext i _ =>
    match s.pc i with
    | .thread _ _ (.nexttid n) => s.nexttid = n ∧ 0 < n
    | _ => true
  | .wait i => (s.waitFor i).all fun p => s.deserted p
  | .threadJoin _ thread => (s.joinFor thread).all fun p => s.deserted p
  | .cleanforexec i => (s.proc i).tid = 0
  | _ => true

def ForkStage.hasMain : ForkStage → Bool
  | .pgdir | .sz | .parent | .mainthread => false
  | _ => true

def ThreadStage.hasMain : ThreadStage → Bool
  | .pgdir | .sz | .parent | .mainthread => false
  | _ => true

/-- A slot with tid 0 is its own main thread. -/
structure OwnMain (s : State) : Prop where
  main : ∀ q, s.started q → q ≠ s.initproc → (s.proc q).tid = 0 → (s.proc q).mainthread = some q
  fork : ∀ i np st, s.pc i = .fork np st → st.hasMain = true → (s.proc np).mainthread = some np

/-- A thread has another slot as main thread, with tid 0. -/
structure MainInv (s : State) : Prop where
  own : OwnMain s
  other : ∀ q, s.started q → (s.proc q).tid ≠ 0 → ∃ m, (s.proc q).mainthread = some m ∧ m ≠ q
  used : ∀ q m, (s.proc q).phase = .alive → (s.proc q).mainthread = some m →
    s.started m ∧ (s.proc m).tid = 0 ∧ (s.proc m).pid = (s.proc q).pid
  caller : ∀ i np main st, s.pc i = .thread np main st → (s.proc i).mainthread = some main
  thread : ∀ i np main st, s.pc i = .thread np main st → st.hasMain = true →
    (s.proc np).mainthread = some main

section Steps

variable {s t : State} {a : Action}

theorem MainInv.idsOk (hs : Sound s) (hi : MainInv s) (hok : mainOk s a = true) :
    idsOk s a = true := by
  cases a with
  | forkNext i pd => exact hok
  | threadNext i enough =>
    unfold mainOk at hok
    unfold Threads.idsOk
    dsimp only at hok ⊢
    split
    · rename_i np main hpc
      have halive : (s.proc i).phase = .alive := hs.busy i (by rw [hpc]; exact nofun)
      exact decide_eq_true (hi.used i main halive (hi.caller i np main _ hpc)).2.2
    · rename_i np main n hpc
      rw [hpc] at hok
      exact hok
    · rfl
  | _ => rfl

theorem deserted_of_frees {q : Slot} (hok : mainOk s a = true) (hf : s.frees a q = true) :
    (∃ i, a = .exitLast i ∧ s.siblings i q = true) ∨ s.deserted q := by
  cases a with
  | exitLast i => exact Or.inl ⟨i, rfl, (of_decide_eq_true hf).2⟩
  | cleanforexec i => exact absurd (of_decide_eq_true hok) (of_decide_eq_true hf).1
  | wait i =>
    unfold mainOk at hok
    dsimp only at hok
    rw [of_decide_eq_true hf] at hok
    exact Or.inr (of_decide_eq_true hok)
  | threadJoin i thread =>
    unfold mainOk at hok
    dsimp only at hok
    rw [of_decide_eq_true hf] at hok
    exact Or.inr (of_decide_eq_true hok)
  | _ => cases hf

theorem zombie_of_frees {i q : Slot} (h : Effect s (.exitLast i) t)
    (hf : s.frees (.exitLast i) q = true) : (t.proc i).phase = .zombie := by
  have hno : s.frees (.exitLast i) q = false → False := fun h => absurd (h.symm.trans hf) nofun
  cases h with
  | kept hf' h hpc hfile hlog => exact (hno (hf' q)).elim
  | alloc hf' i np k hrun hpc hnp hk => exact (hno (hf' q)).elim
  | abort hf' i np hrun hpc => exact (hno (hf' q)).elim
  | exitLast i hrun hpc hfree => exact exitLast_self.phase
  | threadExitLast i retval hrun hpc => exact (threadExitLast_self s i retval).phase

theorem Change.alive_before {q : Slot} (h : Change s q a t) (hq : (t.proc q).phase = .alive) :
    (s.proc q).phase = .alive := by
  have hno : ∀ {p}, (t.proc q).phase = p → p ≠ .alive → False :=
    fun hp hne => hne (hp.symm.trans hq)
  cases h with
  | same h => exact h.phase.symm.trans hq
  | killed i hi hpc hs h hu => exact (hno h.phase nofun).elim
  | outlives i hi hpc hs hqi h => exact h.phase.symm.trans hq
  | exits hi hpc h hu => exact (hno h.phase nofun).elim
  | threadExits retval hi hpc h hu => exact (hno h.phase nofun).elim
  | reaped i hi hw h => exact (hno h.phase nofun).elim
  | joined i thread hi hj h => exact (hno h.phase nofun).elim
  | cleaned i hi htid hs h hu => exact (hno h.phase nofun).elim
  | image pd sz hpc h hold => exact (congrArg Proc.phase h).symm.trans hq
  | mainSz i np enough hpc h => exact (congrArg Proc.phase h).symm.trans hq
  | growproc i n enough sz hlimit h => exact (congrArg Proc.phase h).symm.trans hq
  | setmemorylimit i pid limit h0 hp hsz h => exact (congrArg Proc.phase h).symm.trans hq

/-- The main thread of a thread that can run after the step stays in use. -/
theorem main_stays (hs : Sound s) (hi : MainInv s) (hok : mainOk s a = true) (h : Effect s a t)
    {q m : Slot} (hq : (s.proc q).phase = .alive) (hqt : (t.proc q).phase = .alive)
    (hm : (s.proc q).mainthread = some m) : Stays s t m := by
  obtain ⟨hstarted, htid, hpid⟩ := hi.used q m hq hm
  rcases (change_effect hs hstarted h).stays hstarted with hst | ⟨hf, -⟩
  · exact hst
  rcases deserted_of_frees hok hf with ⟨i, rfl, hsib⟩ | hdes
  · have hgone : (t.proc q).phase ≠ .alive := by
      obtain ⟨hpci, -⟩ := of_decide_eq_true hf
      by_cases hqi : q = i
      · rw [hqi, zombie_of_frees h hf]
        exact nofun
      · have hfq : s.frees (.exitLast i) q = true :=
          decide_eq_true ⟨hpci, decide_eq_true ⟨hpid.symm.trans (of_decide_eq_true hsib).1, hqi⟩⟩
        rw [frees_effect h hfq]
        exact nofun
    exact absurd hqt hgone
  · exact absurd hpid.symm (hdes htid q hq)

theorem forkNext_mainthread (s : State) (i np : Slot) (pd : Nat) (st : ForkStage) :
    ((s.forkNext i np pd st).proc np).mainthread =
      if st = .mainthread then some np else (s.proc np).mainthread := by
  cases st with
  | files st => exact ((State.quiet_copyNext s i np st).proc np).mainthread
  | pid => rfl
  | nextpid n => rfl
  | _ =>
    rw [State.forkNext, State.setPc_proc, State.setProc_proc_self]
    rfl

theorem threadNext_mainthread (s : State) (i np main : Slot) (enough : Bool) (st : ThreadStage) :
    ((s.threadNext i np main enough st).proc np).mainthread =
      if st = .mainthread then some main else (s.proc np).mainthread := by
  cases st with
  | files st => exact ((State.quiet_copyNext s main np st).proc np).mainthread
  | limit =>
    rw [if_neg nofun]
    unfold State.threadNext
    dsimp only
    split_ifs <;> rfl
  | mainSz => exact (left_setSz s np main _).1.mainthread
  | tid => rfl
  | nexttid n => rfl
  | copyout => rfl
  | _ =>
    rw [State.threadNext, State.setPc_proc, State.setProc_proc_self]
    rfl

theorem fork_mainthread (hs : Sound s) (hi : OwnMain s) (h : Effect s a t) {i np : Slot}
    {st : ForkStage} (hpc : t.pc i = .fork np st) (hst : st.hasMain = true) :
    (t.proc np).mainthread = some np := by
  cases shaped_effect hs h (by rw [hpc]; rfl) with
  | taken k hpcs hq hk =>
    rw [State.setPc_pc, if_pos rfl] at hpc
    rcases hk with hk | ⟨main, -, hk⟩ <;> rw [hk] at hpc <;> cases hpc
    cases hst
  | other hsame hl hparent =>
    rw [hsame] at hpc
    exact hl.mainthread.trans (hi.fork i np st hpc hst)
  | fork pd st' hrun hpcs hvm =>
    rw [forkNext_mainthread]
    split_ifs with hmain
    · rfl
    · refine hi.fork i np st' hpcs ?_
      cases st' <;> rw [State.forkNext, State.setPc_pc, if_pos rfl] at hpc <;> cases hpc <;>
        first | cases hst; done | exact absurd rfl hmain | rfl
  | thread main enough st' hrun hpcs =>
    rcases threadNext_pc s i np main enough st' with hk | ⟨st'', hk⟩ <;> rw [hk] at hpc <;> cases hpc

theorem hasMain_of_threadNext {i np main : Slot} {enough : Bool} {st st' : ThreadStage}
    (hpc : (s.threadNext i np main enough st).pc i = .thread np main st')
    (hst : st'.hasMain = true) (hne : st ≠ .mainthread) : st.hasMain = true := by
  cases st with
  | limit =>
    unfold State.threadNext at hpc
    dsimp only at hpc
    split_ifs at hpc <;> rw [State.setPc_pc, if_pos rfl] at hpc <;> cases hpc
    rfl
  | alloc =>
    rw [State.threadNext, State.setPc_pc, if_pos rfl] at hpc
    split_ifs at hpc
    cases hpc
    rfl
  | copyout =>
    rw [State.threadNext, State.setPc_pc, if_pos rfl] at hpc
    split_ifs at hpc
    cases hpc
    rfl
  | mainthread =>
    rw [State.threadNext, State.setPc_pc, if_pos rfl] at hpc
    cases hpc
    exact absurd rfl hne
  | _ =>
    rw [State.threadNext, State.setPc_pc, if_pos rfl] at hpc
    cases hpc <;> first | rfl | cases hst

theorem thread_mainthread (hs : Sound s) (hi : MainInv s) (h : Effect s a t)
    {i np main : Slot} {st : ThreadStage} (hpc : t.pc i = .thread np main st) :
    (t.proc i).mainthread = some main ∧
      (st.hasMain = true → (t.proc np).mainthread = some main) := by
  have hkeeps : (s.proc i).phase = .alive → (t.proc i).mainthread = (s.proc i).mainthread :=
    fun hal => (change_effect hs (Or.inl hal) h).mainthread
  cases shaped_effect hs h (by rw [hpc]; rfl) with
  | taken k hpcs hq hk =>
    rw [State.setPc_pc, if_pos rfl] at hpc
    rcases hk with hk | ⟨main', hm, hk⟩ <;> rw [hk] at hpc <;> cases hpc
    refine ⟨?_, nofun⟩
    rw [← hm, State.setPc_proc, State.setProc_proc]
    split_ifs with hin
    · rw [hin]
    · rfl
  | other hsame hl hparent =>
    rw [hsame] at hpc
    have halive : (s.proc i).phase = .alive := hs.busy i (by rw [hpc]; exact nofun)
    exact ⟨(hkeeps halive).trans (hi.caller i np main st hpc),
      fun hst => hl.mainthread.trans (hi.thread i np main st hpc hst)⟩
  | fork pd st' hrun hpcs hvm =>
    cases st' <;> rw [State.forkNext, State.setPc_pc, if_pos rfl] at hpc <;> cases hpc
  | thread main' enough st' hrun hpcs =>
    have hcaller : (s.proc i).mainthread = some main' := hi.caller i np main' st' hpcs
    have hmain : main' = main := by
      rcases threadNext_pc s i np main' enough st' with hk | ⟨st'', hk⟩ <;>
        rw [hk] at hpc <;> cases hpc
      rfl
    subst hmain
    refine ⟨(hkeeps (Proc.phase_alive hrun)).trans hcaller, fun hst => ?_⟩
    rw [threadNext_mainthread]
    split_ifs with hm
    · rfl
    · exact hi.thread i np main' st' hpcs (hasMain_of_threadNext hpc hst hm)

theorem ownMain_step (hs : Sound s) (hi : OwnMain s) (hok : idsOk s a = true)
    (h : Effect s a t) : OwnMain t := by
  refine ⟨fun q hq hinit htid => ?_, fun i np st hpc hst => fork_mainthread hs hi h hpc hst⟩
  rcases born_effect h hq with hqs | hborn
  · have hinits : t.initproc = s.initproc := Ids.init_steps (ids_effect hs.base hs.init hok h)
    rw [(hs.stays h hqs hq).tid] at htid
    exact (change_effect hs hqs h).mainthread.trans
      (hi.main q hqs (by rw [← hinits]; exact hinit) htid)
  cases hborn with
  | fork i pd hrun hpc =>
    rw [forkNext_mainthread]
    exact hi.fork i q .runnable hpc rfl
  | thread i main enough hrun hpc =>
    have hne := hs.base.tids.threadTid i ⟨q, .thread, true, true, none⟩
      (by dsimp only [State.ids]; rw [hpc]; rfl) rfl rfl
    rw [State.threadNext, State.setPc_proc, State.setProc_proc_self] at htid
    exact absurd htid hne

theorem other_step (hs : Sound s) (hi : MainInv s) (h : Effect s a t) {q : Slot}
    (hq : t.started q) (htid : (t.proc q).tid ≠ 0) :
    ∃ m, (t.proc q).mainthread = some m ∧ m ≠ q := by
  rcases born_effect h hq with hqs | hborn
  · rw [(hs.stays h hqs hq).tid] at htid
    obtain ⟨m, hm, hne⟩ := hi.other q hqs htid
    exact ⟨m, (change_effect hs hqs h).mainthread.trans hm, hne⟩
  cases hborn with
  | fork i pd hrun hpc =>
    have hzero := hs.base.tids.forkTid i ⟨q, .process, true, true, none⟩
      (by dsimp only [State.ids]; rw [hpc]; rfl) rfl rfl
    rw [State.forkNext, State.setPc_proc, State.setProc_proc_self] at htid
    exact absurd hzero htid
  | thread i main enough hrun hpc =>
    have hused := (hi.used i main (Proc.phase_alive hrun) (hi.caller i q main _ hpc)).1
    refine ⟨main, ?_, State.started_ne hused (Or.inl (hs.embryo_thread hpc))⟩
    rw [threadNext_mainthread]
    exact hi.thread i q main .runnable hpc rfl

theorem used_step (hs : Sound s) (hi : MainInv s) (hok : mainOk s a = true) (h : Effect s a t)
    {q m : Slot} (hq : (t.proc q).phase = .alive) (hm : (t.proc q).mainthread = some m) :
    t.started m ∧ (t.proc m).tid = 0 ∧ (t.proc m).pid = (t.proc q).pid := by
  rcases born_effect h (Or.inl hq) with hqs | hborn
  · have hc := change_effect hs hqs h
    rw [hc.mainthread] at hm
    have hqa := hc.alive_before hq
    obtain ⟨-, htid, hpid⟩ := hi.used q m hqa hm
    have hst := main_stays hs hi hok h hqa hq hm
    refine ⟨hst.started, hst.tid.trans htid, ?_⟩
    rw [hst.pid, (hs.stays h hqs (Or.inl hq)).pid]
    exact hpid
  cases hborn with
  | fork i pd hrun hpc =>
    have hzero := hs.base.tids.forkTid i ⟨q, .process, true, true, none⟩
      (by dsimp only [State.ids]; rw [hpc]; rfl) rfl rfl
    rw [forkNext_mainthread, if_neg (by decide), hi.own.fork i q .runnable hpc rfl] at hm
    obtain rfl := Option.some.inj hm
    refine ⟨Or.inl hq, ?_, rfl⟩
    rw [State.forkNext, State.setPc_proc, State.setProc_proc_self]
    exact hzero
  | thread i main enough hrun hpc =>
    have hpid := hs.base.pids.threadPid i ⟨q, .thread, true, true, none⟩
      (by dsimp only [State.ids]; rw [hpc]; rfl) rfl rfl
    rw [threadNext_mainthread, if_neg (by decide), hi.thread i q main .runnable hpc rfl] at hm
    obtain rfl := Option.some.inj hm
    obtain ⟨hstarted, htid, hmain⟩ :=
      hi.used i main (Proc.phase_alive hrun) (hi.caller i q main _ hpc)
    have hne : main ≠ q := State.started_ne hstarted (Or.inl (hs.embryo_thread hpc))
    have hproc : (s.threadNext i q main enough .runnable).proc main = s.proc main :=
      setUp_proc rfl hne
    refine ⟨?_, by rw [hproc]; exact htid, ?_⟩
    · exact started_of_phase (congrArg Proc.phase hproc).symm hstarted
    · rw [hproc, hmain, State.threadNext, State.setPc_proc, State.setProc_proc_self]
      exact hpid.symm

theorem mainInv_step (hs : Sound s) (hi : MainInv s) (hok : mainOk s a = true)
    (h : step s a = some t) : MainInv t := by
  have he := step_effect h
  have hids := hi.idsOk hs hok
  exact ⟨ownMain_step hs hi.own hids he,
    fun q hq htid => other_step hs hi he hq htid,
    fun q m hq hm => used_step hs hi hok he hq hm,
    fun i np main st hpc => (thread_mainthread hs hi he hpc).1,
    fun i np main st hpc => (thread_mainthread hs hi he hpc).2⟩

theorem MainInv.identity (hs : Sound s) (hi : MainInv s) : Identity s fun q => q ≠ s.initproc := by
  have hmain : ∀ q, q ≠ s.initproc → (s.proc q).phase = .alive →
      ∃ m, (s.proc q).mainthread = some m ∧ ((s.proc q).tid = 0 ↔ m = q) := by
    intro q hinit hq
    by_cases htid : (s.proc q).tid = 0
    · exact ⟨q, hi.own.main q (Or.inl hq) hinit htid, iff_of_true htid rfl⟩
    · obtain ⟨m, hm, hne⟩ := hi.other q (Or.inl hq) htid
      exact ⟨m, hm, iff_of_false htid hne⟩
  refine ⟨fun q hinit hq => ?_, fun q hinit hq => ?_, fun q r hqi hri hq hr => ⟨fun hpid => ?_,
    fun hm => ?_⟩, fun q m hinit hq hm => ?_⟩
  · obtain ⟨m, hm, -⟩ := hmain q hinit hq
    exact ⟨hs.base.pids.pos q (Or.inl hq) hinit, by rw [hm]; exact nofun⟩
  · obtain ⟨m, hm, htid⟩ := hmain q hinit hq
    rw [hm, htid]
    exact ⟨congrArg some, Option.some.inj⟩
  · obtain ⟨m, hm, -⟩ := hmain q hqi hq
    obtain ⟨n, hn, -⟩ := hmain r hri hr
    obtain ⟨hms, hmt, hmp⟩ := hi.used q m hq hm
    obtain ⟨hns, hnt, hnp⟩ := hi.used r n hr hn
    have hmn : m = n :=
      hs.base.mainInj m n hms hns hmt hnt (hmp.trans (hpid.trans hnp.symm))
    rw [hm, hn, hmn]
  · obtain ⟨m, hmq, -⟩ := hmain q hqi hq
    rw [← (hi.used q m hq hmq).2.2, ← (hi.used r m hr (hm ▸ hmq)).2.2]
  · obtain ⟨hstarted, -, hpid⟩ := hi.used q m hq hm
    exact ⟨fun hu => not_started (Proc.phase_unused.mpr hu) (Or.inl rfl) hstarted, hpid⟩

/-! ### Init -/

theorem initproc_of_effect (h : Effect s a t) : t.initproc = s.initproc := by
  have hreparent : ∀ (u : State) (i : Slot), (u.reparent i).initproc = u.initproc := by
    intro u i
    unfold State.reparent
    dsimp only
    split_ifs <;> rfl
  cases h with
  | kept hf h hpc hfile hlog => exact h.initproc
  | forkNext i np pd st hrun hpc hvm hdup =>
    cases st with
    | files st => exact (State.quiet_copyNext s i np st).initproc
    | _ => rfl
  | threadNext i np main enough st hrun hpc hdup =>
    cases st with
    | files st => exact (State.quiet_copyNext s main np st).initproc
    | limit =>
      unfold State.threadNext
      dsimp only
      split_ifs <;> rfl
    | _ => rfl
  | exitLast i hrun hpc hfree =>
    rw [State.exitLast, State.setPc_initproc, State.setProc_initproc, hreparent]
    exact (State.quiet_wakeParent _ i).initproc
  | reap i p hrun hpc hw =>
    unfold State.wait
    rw [hw]
    dsimp only
    split <;> rfl
  | cleanforexec i pd hrun hpc hidle hfree =>
    unfold State.cleanforexec
    split_ifs <;> rfl
  | _ => rfl

theorem owns_setPc {u : State} {i j np : Slot} {k : Pc}
    (h : ((u.setPc i k).pc j).owns = some np) (hu : u.pc j = s.pc j ∨ u.pc j = .user)
    (hk : k.owns = some np → (s.pc i).owns = some np ∨ (s.proc np).state = .unused) :
    (s.pc j).owns = some np ∨ (s.proc np).state = .unused := by
  rw [State.setPc_pc] at h
  split_ifs at h with hji
  · rw [hji]
    exact hk h
  · rcases hu with hu | hu <;> rw [hu] at h
    · exact Or.inl h
    · cases h

theorem threadNext_pc_of_ne {i j np main : Slot} {enough : Bool} {st : ThreadStage} (h : j ≠ i) :
    (s.threadNext i np main enough st).pc j = s.pc j := by
  cases st with
  | files st =>
    rw [State.threadNext, State.setPc_pc, if_neg h]
    exact congrFun (State.quiet_copyNext s main np st).pc j
  | limit =>
    unfold State.threadNext
    dsimp only
    split_ifs
    · rw [State.setPc_pc, if_neg h]
    · rw [State.setPc_pc, if_neg h]
  | copyout => rw [State.threadNext, State.setPc_pc, if_neg h]
  | tid => rw [State.threadNext, State.setPc_pc, if_neg h]
  | nexttid n => rw [State.threadNext, State.setPc_pc, if_neg h]
  | _ =>
    rw [State.threadNext, State.setPc_pc, if_neg h]
    rfl

/-- A slot gets set up by a thread when it is free. -/
theorem owns_effect (h : Effect s a t) {j np : Slot} (ho : (t.pc j).owns = some np) :
    (s.pc j).owns = some np ∨ (s.proc np).state = .unused := by
  have hvacate : ∀ gone : Slot → Bool, (s.vacate gone).pc j = s.pc j ∨
      (s.vacate gone).pc j = .user := by
    intro gone
    dsimp only [State.vacate]
    split_ifs
    · exact Or.inr rfl
    · exact Or.inl rfl
  cases h with
  | kept hf h hpc hfile hlog =>
    rcases hpc j with hj | hm | ⟨-, pd, ip, -, hj⟩
    · exact Or.inl (hj ▸ ho)
    · obtain ⟨b, hb, -⟩ := Pc.birth_of_owns ho
      exact absurd ((Pc.birth_of_plain hm.after).symm.trans hb) nofun
    · rw [hj] at ho
      cases ho
  | alloc hf i np' k hrun hpc hnp hk =>
    refine owns_setPc ho (Or.inl rfl) fun hk' => Or.inr ?_
    rcases hk with hk | ⟨main, -, hk⟩ <;> rw [hk] at hk' <;> cases hk' <;> exact hnp
  | abort hf i np' pgdir hrun hpc => exact owns_setPc ho (Or.inl rfl) nofun
  | forkNext i np' pd st hrun hpc hvm hdup =>
    have hown : (s.pc i).owns = some np' := by
      rw [hpc]
      rfl
    cases st with
    | files st =>
      refine owns_setPc ho (Or.inl (congrFun (State.quiet_copyNext s i np' st).pc j)) fun hk => ?_
      exact Or.inl (hown.trans hk)
    | runnable => exact owns_setPc ho (Or.inl rfl) nofun
    | _ => exact owns_setPc ho (Or.inl rfl) fun hk => Or.inl (hown.trans hk)
  | threadNext i np' main enough st hrun hpc hdup =>
    have hown : (s.pc i).owns = some np' := by
      rw [hpc]
      rfl
    by_cases hji : j = i
    · subst hji
      rw [owns_threadNext ho]
      exact Or.inl hown
    · rw [threadNext_pc_of_ne hji] at ho
      exact Or.inl ho
  | exitLast i hrun hpc hfree =>
    refine owns_setPc ho ?_ nofun
    rw [State.setProc_pc, State.pc_reparent, State.pc_wakeParent]
    exact hvacate _
  | threadExitLast i retval hrun hpc => exact owns_setPc ho (Or.inl rfl) nofun
  | reap i p hrun hpc hw =>
    unfold State.wait at ho
    rw [hw] at ho
    dsimp only at ho
    split at ho <;> exact owns_setPc ho (Or.inl rfl) nofun
  | join i p thread hrun hpc hj => exact owns_setPc ho (hvacate _) nofun
  | exec i pd ip hrun hpc hvm => exact owns_setPc ho (Or.inl rfl) nofun
  | execBad i pd st hrun hpc hst =>
    exact owns_setPc ho (Or.inl rfl) (by cases st <;> exact nofun)
  | cleanforexec i pd hrun hpc hidle hfree =>
    unfold State.cleanforexec at ho
    split_ifs at ho
    · exact owns_setPc ho (Or.inl rfl) nofun
    · exact owns_setPc ho (hvacate _) nofun
  | execCommit i pd sz oldpgdir hrun hpc hold => exact owns_setPc ho (Or.inl rfl) nofun
  | execFree i oldpgdir hrun hpc => exact owns_setPc ho (Or.inl rfl) nofun
  | growproc i main n enough sz hlimit => exact Or.inl ho
  | setmemorylimit i p pid limit h0 hp hsz => exact Or.inl ho

theorem Change.alive_after {q : Slot} (h : Change s q a t) (hq : (s.proc q).phase = .alive)
    (hl : (s.pc q).leaving = false) (hf : s.frees a q = false) : (t.proc q).phase = .alive := by
  have hno : s.frees a q = true → False := fun h => absurd (hf.symm.trans h) nofun
  cases h with
  | same h => exact h.phase.trans hq
  | killed i hi hpc hs h hu => exact (hno (decide_eq_true ⟨hpc, hs⟩)).elim
  | outlives i hi hpc hs hqi h => exact h.phase.trans hq
  | exits hi hpc h hu =>
    rw [hpc] at hl
    cases hl
  | threadExits retval hi hpc h hu =>
    rw [hpc] at hl
    cases hl
  | reaped i hi hw h => exact (hno (decide_eq_true hw)).elim
  | joined i thread hi hj h => exact (hno (decide_eq_true hj)).elim
  | cleaned i hi htid hs h hu => exact (hno (decide_eq_true ⟨htid, hs⟩)).elim
  | image pd sz hpc h hold => exact (congrArg Proc.phase h).trans hq
  | mainSz i np enough hpc h => exact (congrArg Proc.phase h).trans hq
  | growproc i n enough sz hlimit h => exact (congrArg Proc.phase h).trans hq
  | setmemorylimit i pid limit h0 hp hsz h => exact (congrArg Proc.phase h).trans hq

/-- Init runs and has no main thread. -/
structure InitKept (s : State) : Prop where
  alive : (s.proc s.initproc).phase = .alive
  mainthread : (s.proc s.initproc).mainthread = none
  leaving : (s.pc s.initproc).leaving = false
  owns : ∀ i, (s.pc i).owns ≠ some s.initproc

theorem InitKept.used (hi : InitKept s) : (s.proc s.initproc).state ≠ .unused := by
  intro hu
  exact Phase.noConfusion ((Proc.phase_unused.mpr hu).symm.trans hi.alive)

theorem initKept_step (hi : InitKept s) (hok : keepsInit s a) (h : step s a = some t) :
    InitKept t := by
  have he := step_effect h
  have hc := change_of_not_owned hi.owns hi.used he
  have hinit := initproc_of_effect he
  refine ⟨?_, ?_, ?_, fun i ho => ?_⟩
  · rw [hinit]
    exact hc.alive_after hi.alive hi.leaving hok
  · rw [hinit, hc.mainthread]
    exact hi.mainthread
  · rw [hinit]
    rcases pc_effect he s.initproc with hpc | hpc | hg
    · rw [hpc]
      exact hi.leaving
    · rw [hpc]
      rfl
    · cases hl : (t.pc s.initproc).leaving with
      | false => rfl
      | true =>
        rcases hg.leaving hl with hl' | hne
        · exact absurd (hl'.symm.trans hi.leaving) nofun
        · exact absurd rfl hne
  · rw [hinit] at ho
    rcases owns_effect he ho with hs | hs
    · exact hi.owns i hs
    · exact hi.used hs

theorem InitKept.not_identity (hi : InitKept s) : ¬ Identity s fun _ => True :=
  fun h => (h.numbered s.initproc trivial hi.alive).2 hi.mainthread

end Steps

/-! ### Runs -/

theorem ownMain_userinit : OwnMain userinit := by
  refine ⟨fun q hq hinit => absurd (userinit_started hq) hinit, fun i np st hpc => ?_⟩
  cases hpc

theorem mainInv_userinit : MainInv userinit := by
  refine ⟨ownMain_userinit, fun q hq htid => absurd (userinit_tid q) htid,
    fun q m hq hm => ?_, fun i np main st hpc => ?_, fun i np main st hpc => ?_⟩
  · rw [userinit_started (Or.inl hq)] at hm
    cases hm
  · cases hpc
  · cases hpc

theorem initKept_userinit : InitKept userinit :=
  ⟨rfl, rfl, rfl, nofun⟩

theorem identity_of_reach (s : State) :
    (Reach step keepsInit userinit s → ¬ Identity s fun _ => True) ∧
      (Reach step (fun s a => mainOk s a = true) userinit s →
        Identity s fun q => q ≠ s.initproc) := by
  refine ⟨fun hr => ?_, fun hr => ?_⟩
  · have hkept : InitKept s :=
      hr.invariant initKept_userinit fun u a v hu hok hv => initKept_step hu hok hv
    exact hkept.not_identity
  · have hinv : Sound s ∧ MainInv s := by
      refine hr.invariant (I := fun s => Sound s ∧ MainInv s)
        ⟨sound_userinit, mainInv_userinit⟩ ?_
      intro u a v ⟨hu, hi⟩ hok hv
      exact ⟨hu.step (hi.idsOk hu hok) hv, mainInv_step hu hi hok hv⟩
    exact hinv.2.identity hinv.1

-- The thread of process 1 runs in slot 2.
def threadRuns : State :=
  (run (guarded step fun s a => keepsInit s a ∧ mainOk s a = true) userinit
    (processAndThread ++ [.yield 1, .sched 2])).getD userinit

theorem identity_of_reach_threadRuns : (¬ Identity threadRuns fun _ => True) ∧
    (Identity threadRuns fun q => q ≠ threadRuns.initproc) ∧
      (threadRuns.proc 1).state = .runnable ∧ (threadRuns.proc 2).state = .running := by
  have hreach : Reach step (fun s a => keepsInit s a ∧ mainOk s a = true) userinit threadRuns :=
    reach_of_guarded_run (eq_some_getD (by decide +kernel))
  exact ⟨(identity_of_reach threadRuns).1 (hreach.mono fun _ _ hok => hok.1),
    (identity_of_reach threadRuns).2 (hreach.mono fun _ _ hok => hok.2),
    by decide +kernel, by decide +kernel⟩

def threadExecutes : State :=
  (run (guarded step fun s a => idsOk s a = true) userinit
    (processAndThread ++ [.yield 1, .sched 2] ++ execSteps 2 2 2)).getD userinit

/-- The law fails of init after `userinit`, and of a thread that calls `exec`. -/
theorem not_identity_of_reach : (¬ Identity userinit fun _ => True) ∧
    ¬ ∀ s, Reach step (fun s a => idsOk s a = true) userinit s →
      Identity s fun q => q ≠ s.initproc := by
  refine ⟨fun h => (h.numbered 0 trivial rfl).2 rfl, fun hall => ?_⟩
  have hreach : Reach step (fun s a => idsOk s a = true) userinit threadExecutes :=
    reach_of_guarded_run (eq_some_getD (by decide +kernel))
  have hused := (hall threadExecutes hreach).used 2 1 (by decide +kernel) (by decide +kernel)
    (by decide +kernel)
  exact hused.1 (by decide +kernel)

end Xv6.Threads
