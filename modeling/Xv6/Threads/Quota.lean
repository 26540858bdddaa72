import Xv6.Threads.Setup

/-!
# The memory limit of a process (project2/proc.c:158-184, 577-611)

The limit is kept in one slot of the process, and so is the size. `growproc` and
`thread_create` compare the two where `mainthread` points; `setmemorylimit` writes to
the first slot with the pid, and `exec` writes the size without a look at the limit.
-/

namespace Xv6.Threads

open Mlfq (NPROC Slot Procstate)
open Transition

/-- The size of the process `pid`, that is, of its slot with the tid 0, is at most `limit`. -/
def Within (s : State) (pid limit : Int) : Prop :=
  ∀ q, s.started q → (s.proc q).tid = 0 → (s.proc q).pid = pid → ((s.proc q).sz : Int) ≤ limit

/-- The call of `setmemorylimit` succeeds. -/
def setsLimit (s : State) (pid : Int) : Action → Bool
  | .setmemorylimit _ pid' limit => pid' = pid ∧ (s.setmemorylimit pid' limit).1 = 0
  | _ => false

/-- From reading `mainthread->sz` to writing it. -/
def ThreadStage.sizing : ThreadStage → Bool
  | .parent | .mainthread | .pid | .tid | .nexttid _ | .setTid _ | .retval | .mainParent
  | .limit | .alloc | .mainSz => true
  | _ => false

/-- The slots whose sizes a `thread_create` works with: the new one and the main thread's. -/
def Pc.sizing : Pc → Option (Slot × Slot)
  | .thread np main st => if st.sizing then some (np, main) else none
  | _ => none

/-- A step, other than of the thread `j` in `thread_create`, that sets the size or the limit of
slot `q` or takes it out of use. -/
def State.resizes (s : State) (j : Slot) : Action → Slot → Bool
  | .growproc i _ _, q => (s.proc i).mainthread = some q
  | .execCommit i _, q => i = q
  | .setmemorylimit _ pid _, q => (List.finRange NPROC).find? (fun p => (s.proc p).pid = pid) = some q
  | .threadNext i _, q =>
    match s.pc i with
    | .thread _ main .mainSz => i ≠ j ∧ main = q
    | _ => false
  | a, q => s.frees a q

/-- No other thread resizes the slots that a `thread_create` works with. -/
def undisturbed (s : State) (a : Action) : Bool :=
  ∀ j, (s.pc j).sizing.all fun x => s.frees a j || !s.resizes j a x.1 && !s.resizes j a x.2

/-- The first slot with the pid is the main thread's, an image that the main thread starts
fits, and `thread_create` reads the size of a slot in use. -/
def quotaOk (s : State) : Action → Bool
  | .setmemorylimit _ pid _ =>
    ((List.finRange NPROC).find? fun p => (s.proc p).pid = pid).all fun p =>
      s.started p ∧ (s.proc p).tid = 0
  | .execCommit i sz =>
    (s.proc i).tid = 0 → (s.proc i).memorylimit = 0 ∨ sz ≤ uint (s.proc i).memorylimit
  | .threadNext i _ =>
    match s.pc i with
    | .thread _ main .sz => s.started main
    | _ => true
  | _ => true

def QuotaOk (s : State) (a : Action) : Prop :=
  idsOk s a = true ∧ undisturbed s a = true ∧ quotaOk s a = true

instance (s : State) (a : Action) : Decidable (QuotaOk s a) :=
  inferInstanceAs (Decidable (_ ∧ _ ∧ _))

def ThreadStage.copied : ThreadStage → Bool
  | .parent | .mainthread | .pid | .tid | .nexttid _ | .setTid _ | .retval | .mainParent
  | .limit | .alloc => true
  | _ => false

/-- A size that the limit of the slot allows, or that the slot has already. -/
def Proc.allows (r : Proc) (sz : Nat) : Prop :=
  sz ≤ r.sz ∨ r.memorylimit = 0 ∨ sz ≤ uint r.memorylimit

/-- What `thread_create` knows about the size of its process, at one of its statements. -/
structure Sizes (s : State) (np m : Slot) (st : ThreadStage) : Prop where
  main : st.sizing = true → s.started m
  copied : st.copied = true → (s.proc np).sz = (s.proc m).sz
  allowed : st = .alloc → (s.proc m).memorylimit = 0 ∨
    uint ((s.proc m).sz + 2 * PGSIZE) ≤ uint (s.proc m).memorylimit
  alloced : st = .mainSz → (s.proc m).allows (s.proc np).sz

def QuotaInv (s : State) : Prop := ∀ j np m st, s.pc j = .thread np m st → Sizes s np m st

section Steps

variable {s t : State} {a : Action}

/-- The size and the limit are the same. -/
structure Proc.SameQuota (r r' : Proc) : Prop where
  sz : r'.sz = r.sz
  memorylimit : r'.memorylimit = r.memorylimit

theorem Proc.SameQuota.refl (r : Proc) : r.SameQuota r := ⟨rfl, rfl⟩

theorem Proc.Same.quota {r r' : Proc} (h : r.Same r') : r.SameQuota r' := ⟨h.sz, h.memorylimit⟩

theorem sameQuota_of_eq {r r' : Proc} (h : r' = r) : r.SameQuota r' := ⟨by rw [h], by rw [h]⟩

/-- Only other fields are set. -/
theorem sameQuota_fields {u : State} {p i q : Slot} {f : Proc → Proc} {k : Pc}
    (hu : u.proc = s.proc) (hsz : (f (s.proc p)).sz = (s.proc p).sz)
    (hl : (f (s.proc p)).memorylimit = (s.proc p).memorylimit) :
    (s.proc q).SameQuota (((u.setProc p f).setPc i k).proc q) := by
  by_cases hq : q = p
  · rw [hq, State.setPc_proc, State.setProc_proc_self, hu]
    exact ⟨hsz, hl⟩
  · exact sameQuota_of_eq (setUp_proc hu hq)

theorem sameQuota_vacate (gone : Slot → Bool) (q : Slot) :
    (s.proc q).SameQuota ((s.vacate gone).proc q) := by
  cases hq : gone q with
  | true => exact ⟨(vacate_proc gone hq).sz, (vacate_proc gone hq).memorylimit⟩
  | false => exact sameQuota_of_eq (vacate_proc_of_not gone hq)

theorem sameQuota_exitLast (i q : Slot) : (s.proc q).SameQuota ((s.exitLast i).proc q) := by
  cases hsib : s.siblings i q with
  | true => exact ⟨(exitLast_sibling hsib).sz, (exitLast_sibling hsib).memorylimit⟩
  | false =>
    by_cases hqi : q = i
    · subst hqi
      exact ⟨(exitLast_self (s := s) (i := q)).sz, (exitLast_self (s := s) (i := q)).memorylimit⟩
    · exact ⟨(exitLast_other hsib hqi).sz, (exitLast_other hsib hqi).memorylimit⟩

theorem sameQuota_threadExitLast (i : Slot) (retval : Nat) (q : Slot) :
    (s.proc q).SameQuota ((s.threadExitLast i retval).proc q) := by
  by_cases hqi : q = i
  · subst hqi
    exact ⟨(threadExitLast_self s q retval).sz, (threadExitLast_self s q retval).memorylimit⟩
  · exact (threadExitLast_other retval hqi).quota

theorem sameQuota_setUp {u : State} {np i q : Slot} {f : Proc → Proc} {k : Pc}
    (hu : u.proc = s.proc) (hq : q ≠ np) :
    (s.proc q).SameQuota (((u.setProc np f).setPc i k).proc q) :=
  sameQuota_of_eq (setUp_proc hu hq)

theorem quota_own {i np q : Slot} {k : Pc} (hpc : (s.pc i).owns = some np) (hq : q = np)
    (hk : t.pc i = k) (hne : s.pc i ≠ k) : ∃ i, (s.pc i).owns = some q ∧ t.pc i ≠ s.pc i := by
  refine ⟨i, by rw [hq]; exact hpc, fun heq => hne ?_⟩
  rw [← heq, hk]

theorem quota_forkNext {i np : Slot} {pd : Nat} {st : ForkStage} (hpc : s.pc i = .fork np st)
    (q : Slot) : (s.proc q).SameQuota ((s.forkNext i np pd st).proc q) ∨
      ∃ i', (s.pc i').owns = some q ∧ (s.forkNext i np pd st).pc i' ≠ s.pc i' := by
  have hown : (s.pc i).owns = some np := by
    rw [hpc]
    rfl
  cases st with
  | sz =>
    by_cases hq : q = np
    · exact Or.inr (quota_own hown hq (State.setPc_pc _ i i _) (by rw [hpc, if_pos rfl]; exact nofun))
    · exact Or.inl (sameQuota_setUp rfl hq)
  | memorylimit =>
    by_cases hq : q = np
    · exact Or.inr (quota_own hown hq (State.setPc_pc _ i i _) (by rw [hpc, if_pos rfl]; exact nofun))
    · exact Or.inl (sameQuota_setUp rfl hq)
  | files st => exact Or.inl ((State.quiet_copyNext s i np st).proc q).quota
  | pid => exact Or.inl (.refl _)
  | nextpid n => exact Or.inl (.refl _)
  | _ => exact Or.inl (sameQuota_fields rfl rfl rfl)

theorem quota_threadNext {i np main : Slot} (enough : Bool) {st : ThreadStage}
    (hpc : s.pc i = .thread np main st) (q : Slot) :
    (s.proc q).SameQuota ((s.threadNext i np main enough st).proc q) ∨
      (∃ i', (s.pc i').owns = some q ∧ (s.threadNext i np main enough st).pc i' ≠ s.pc i') ∨
      st = .mainSz ∧ q = main := by
  have hown : (s.pc i).owns = some np := by
    rw [hpc]
    rfl
  cases st with
  | sz =>
    by_cases hq : q = np
    · exact Or.inr (Or.inl (quota_own hown hq (State.setPc_pc _ i i _)
        (by rw [hpc, if_pos rfl]; exact nofun)))
    · exact Or.inl (sameQuota_setUp rfl hq)
  | alloc =>
    by_cases hq : q = np
    · refine Or.inr (Or.inl (quota_own hown hq (State.setPc_pc _ i i _) ?_))
      rw [hpc, if_pos rfl]
      split_ifs <;> exact nofun
    · exact Or.inl (sameQuota_setUp rfl hq)
  | mainSz =>
    by_cases hq : q = main
    · exact Or.inr (Or.inr ⟨rfl, hq⟩)
    · exact Or.inl (sameQuota_setUp rfl hq)
  | files st => exact Or.inl ((State.quiet_copyNext s main np st).proc q).quota
  | limit =>
    left
    unfold State.threadNext
    dsimp only
    split_ifs <;> exact .refl _
  | tid => exact Or.inl (.refl _)
  | nexttid n => exact Or.inl (.refl _)
  | copyout => exact Or.inl (.refl _)
  | _ => exact Or.inl (sameQuota_fields rfl rfl rfl)

/-- Who changes the size or the limit of a slot. -/
theorem quota_effect (h : Effect s a t) (q : Slot) : (s.proc q).SameQuota (t.proc q) ∨
    (∃ i, (s.pc i).owns = some q ∧ t.pc i ≠ s.pc i) ∨
      ∀ j, t.pc j = s.pc j → s.resizes j a q = true := by
  cases h with
  | kept hf h hpc hfile hlog => exact Or.inl (h.proc q).quota
  | alloc hf i np k hrun hpc hnp hk => exact Or.inl (sameQuota_fields rfl rfl rfl)
  | abort hf i np pgdir hrun hpc => exact Or.inl (sameQuota_fields rfl rfl rfl)
  | forkNext i np pd st hrun hpc hvm hdup => exact (quota_forkNext hpc q).imp_right Or.inl
  | threadNext i np main enough st hrun hpc hdup =>
    rcases quota_threadNext enough hpc q with h | h | ⟨hst, hq⟩
    · exact Or.inl h
    · exact Or.inr (Or.inl h)
    · subst hst hq
      refine Or.inr (Or.inr fun j hj => ?_)
      have hij : i ≠ j := by
        intro hij
        rw [← hij, hpc, State.threadNext, State.setPc_pc, if_pos rfl] at hj
        cases hj
      unfold State.resizes
      dsimp only
      rw [hpc]
      exact decide_eq_true ⟨hij, rfl⟩
  | exitLast i hrun hpc hfree => exact Or.inl (sameQuota_exitLast i q)
  | threadExitLast i retval hrun hpc => exact Or.inl (sameQuota_threadExitLast i retval q)
  | reap i p hrun hpc hw =>
    left
    by_cases hq : q = p
    · subst hq
      exact ⟨by rw [wait_self hw]; rfl, by rw [wait_self hw]; rfl⟩
    · exact sameQuota_of_eq (wait_other hw hq)
  | join i p thread hrun hpc hj => exact Or.inl (sameQuota_vacate (s := s) (fun r => r = p) q)
  | exec i pd ip hrun hpc hvm => exact Or.inl (.refl _)
  | execBad i pd st hrun hpc hst => exact Or.inl (.refl _)
  | cleanforexec i pd hrun hpc hidle hfree =>
    left
    unfold State.cleanforexec
    split_ifs
    · exact .refl _
    · exact sameQuota_vacate (s.siblings i) q
  | execCommit i pd sz oldpgdir hrun hpc hold =>
    by_cases hq : q = i
    · exact Or.inr (Or.inr fun j _ => decide_eq_true hq.symm)
    · exact Or.inl (sameQuota_setUp rfl hq)
  | execFree i oldpgdir hrun hpc => exact Or.inl (.refl _)
  | growproc i main n enough sz hlimit hmain =>
    by_cases hq : q = main
    · exact Or.inr (Or.inr fun j _ => decide_eq_true (by rw [hq]; exact hmain))
    · exact Or.inl (sameQuota_of_eq (State.setProc_proc_ne _ _ _ _ hq))
  | setmemorylimit i p pid limit h0 hp hsz =>
    by_cases hq : q = p
    · exact Or.inr (Or.inr fun j _ => decide_eq_true (by rw [hq]; exact hp))
    · exact Or.inl (sameQuota_of_eq (State.setProc_proc_ne _ _ _ _ hq))

/-! ### One step of a `thread_create` -/

theorem ThreadStage.sizing_of_copied {st : ThreadStage} (h : st.copied = true) :
    st.sizing = true := by
  cases st <;> first | rfl | cases h

theorem ThreadStage.sizing_copied (o : Option CopyStage) :
    (o.elim ThreadStage.runnable ThreadStage.files).sizing = false := by
  cases o <;> rfl

theorem sizes_of_not {np m : Slot} {st : ThreadStage} (h : st.sizing = false) :
    Sizes s np m st := by
  refine ⟨fun hst => ?_, fun hst => ?_, fun hst => ?_, fun hst => ?_⟩
  · exact absurd (h.symm.trans hst) nofun
  · exact absurd (h.symm.trans (ThreadStage.sizing_of_copied hst)) nofun
  · rw [hst] at h
    cases h
  · rw [hst] at h
    cases h

/-- The other threads leave it alone. -/
theorem Sizes.same {np m : Slot} {st : ThreadStage} (h : Sizes s np m st)
    (hnp : (s.proc np).SameQuota (t.proc np)) (hm : (s.proc m).SameQuota (t.proc m))
    (hstart : s.started m → t.started m) : Sizes t np m st := by
  refine ⟨fun hst => hstart (h.main hst), fun hst => ?_, fun hst => ?_, fun hst => ?_⟩
  · rw [hnp.sz, hm.sz]
    exact h.copied hst
  · rw [hm.sz, hm.memorylimit]
    exact h.allowed hst
  · unfold Proc.allows
    rw [hnp.sz, hm.sz, hm.memorylimit]
    exact h.alloced hst

/-- Between two statements before the limit is read. -/
theorem Sizes.next {np m : Slot} {st st' : ThreadStage} (h : Sizes s np m st)
    (hnp : (s.proc np).SameQuota (t.proc np)) (hm : (s.proc m).SameQuota (t.proc m))
    (hstart : s.started m → t.started m) (hst : st.copied = true) (hsizing : st.sizing = true)
    (ha : st' ≠ .alloc) (hz : st' ≠ .mainSz) : Sizes t np m st' := by
  refine ⟨fun _ => hstart (h.main hsizing), fun _ => ?_, fun he => absurd he ha,
    fun he => absurd he hz⟩
  rw [hnp.sz, hm.sz]
  exact h.copied hst

theorem sizes_threadNext (hs : Sound s) {i np m : Slot} {enough : Bool} {st st' : ThreadStage}
    (hpc : s.pc i = .thread np m st) (hok : quotaOk s (.threadNext i enough) = true)
    (h : Sizes s np m st) (ht : (s.threadNext i np m enough st).pc i = .thread np m st') :
    Sizes (s.threadNext i np m enough st) np m st' := by
  have hembryo := hs.embryo_thread hpc
  have hstart : ∀ {u : State}, (u.proc m).phase = (s.proc m).phase → s.started m → u.started m :=
    fun hph hm => hm.imp hph.trans hph.trans
  have hnext : ∀ {u : State} {k : Pc} {f : Proc → Proc} {st'' : ThreadStage}, u.proc = s.proc →
      (f (s.proc np)).sz = (s.proc np).sz →
      (f (s.proc np)).memorylimit = (s.proc np).memorylimit →
      (f (s.proc np)).phase = (s.proc np).phase → st.copied = true → st.sizing = true →
      st'' ≠ .alloc → st'' ≠ .mainSz → Sizes ((u.setProc np f).setPc i k) np m st'' :=
    fun hu hsz hl hph hst hsizing ha hz =>
      h.next (sameQuota_fields hu hsz hl) (sameQuota_fields hu hsz hl)
        (hstart (phase_setUp hu hph)) hst hsizing ha hz
  cases st with
  | pgdir =>
    rw [State.threadNext, State.setPc_pc, if_pos rfl] at ht
    cases ht
    exact sizes_of_not rfl
  | sz =>
    rw [State.threadNext, State.setPc_pc, if_pos rfl] at ht
    cases ht
    unfold quotaOk at hok
    dsimp only at hok
    rw [hpc] at hok
    have hm : s.started m := of_decide_eq_true hok
    have hne : m ≠ np := State.started_ne hm (Or.inl hembryo)
    refine ⟨fun _ => hstart (phase_setUp rfl rfl) hm, fun _ => ?_,
      fun h => ThreadStage.noConfusion h, fun h => ThreadStage.noConfusion h⟩
    rw [State.threadNext, State.setPc_proc, State.setProc_proc_self,
      State.setProc_proc_ne _ _ _ _ hne]
  | limit =>
    unfold State.threadNext at ht ⊢
    dsimp only at ht ⊢
    by_cases hl : (s.proc m).memorylimit ≠ 0 ∧
        uint (s.proc m).memorylimit < uint ((s.proc m).sz + 2 * PGSIZE)
    · rw [if_pos hl, State.setPc_pc, if_pos rfl] at ht
      cases ht
    · rw [if_neg hl, State.setPc_pc, if_pos rfl] at ht
      cases ht
      rw [if_neg hl]
      refine ⟨fun _ => h.main rfl, fun _ => h.copied rfl, fun _ => ?_,
        fun h => ThreadStage.noConfusion h⟩
      by_cases h0 : (s.proc m).memorylimit = 0
      · exact Or.inl h0
      · exact Or.inr (Nat.le_of_not_lt fun hlt => hl ⟨h0, hlt⟩)
  | alloc =>
    have hne : m ≠ np := State.started_ne (h.main rfl) (Or.inl hembryo)
    rw [State.threadNext, State.setPc_pc, if_pos rfl] at ht
    split_ifs at ht
    cases ht
    let sz := State.allocuvm (s.proc np).sz (uint ((s.proc np).sz + 2 * PGSIZE)) enough
    have hph := (sameIds_setSz s np sz).phase m
    refine ⟨fun _ => hstart hph (h.main rfl), fun h => Bool.noConfusion h,
      fun h => ThreadStage.noConfusion h, fun _ => ?_⟩
    have hsz := allocuvm_le (s.proc np).sz (uint ((s.proc np).sz + 2 * PGSIZE)) enough
    have hallowed := h.allowed rfl
    rw [State.threadNext, State.setPc_proc, State.setProc_proc_self,
      State.setProc_proc_ne _ _ _ _ hne]
    unfold Proc.allows
    dsimp only
    rw [← h.copied rfl] at hallowed ⊢
    omega
  | mainSz =>
    rw [State.threadNext, State.setPc_pc, if_pos rfl] at ht
    cases ht
    exact sizes_of_not rfl
  | copyout =>
    rw [State.threadNext, State.setPc_pc, if_pos rfl] at ht
    split_ifs at ht
    cases ht
    exact sizes_of_not rfl
  | files st =>
    rw [State.threadNext, State.setPc_pc, if_pos rfl] at ht
    cases ht
    exact sizes_of_not (ThreadStage.sizing_copied _)
  | runnable =>
    rw [State.threadNext, State.setPc_pc, if_pos rfl] at ht
    cases ht
  | tid =>
    rw [State.threadNext, State.setPc_pc, if_pos rfl] at ht
    cases ht
    exact h.next (.refl _) (.refl _) id rfl rfl ThreadStage.noConfusion ThreadStage.noConfusion
  | nexttid n =>
    rw [State.threadNext, State.setPc_pc, if_pos rfl] at ht
    cases ht
    exact h.next (.refl _) (.refl _) id rfl rfl ThreadStage.noConfusion ThreadStage.noConfusion
  | _ =>
    rw [State.threadNext, State.setPc_pc, if_pos rfl] at ht
    cases ht
    exact hnext rfl rfl rfl rfl rfl rfl ThreadStage.noConfusion ThreadStage.noConfusion

theorem frees_of_resizes {j q : Slot} (h : s.resizes j a q = false) : s.frees a q = false := by
  cases a <;> first | rfl | exact h

theorem Sound.stays_started (hs : Sound s) (h : Effect s a t) {q : Slot} (hq : s.started q)
    (hf : s.frees a q = false) : t.started q := by
  rcases (change_effect hs hq h).stays hq with hst | ⟨hfree, -⟩
  · exact hst.started
  · exact absurd (hf.symm.trans hfree) nofun

/-- Nobody resizes the slots of a `thread_create` that goes on later. -/
theorem undisturbed_slots (hst : Sound t) (h : Effect s a t) (hok : undisturbed s a = true)
    {j np m : Slot} {st : ThreadStage} (hpc : s.pc j = .thread np m st)
    (hpct : t.pc j = s.pc j) (hsz : st.sizing = true) :
    s.resizes j a np = false ∧ s.resizes j a m = false := by
  have hj : (s.pc j).sizing.all fun x => s.frees a j || !s.resizes j a x.1 && !s.resizes j a x.2 :=
    of_decide_eq_true hok j
  have hfree : s.frees a j = false := by
    cases hf : s.frees a j with
    | false => rfl
    | true =>
      have halive := hst.busy j (by rw [hpct, hpc]; exact nofun)
      exact Phase.noConfusion ((frees_effect h hf).symm.trans halive)
  have hpair : (s.pc j).sizing = some (np, m) := by
    rw [hpc]
    exact if_pos hsz
  rw [hpair, hfree] at hj
  simpa using hj

theorem sizes_other (hs : Sound s) (hst : Sound t) (h : Effect s a t) (hok : undisturbed s a = true)
    {j np m : Slot} {st : ThreadStage} (hpc : s.pc j = .thread np m st) (hpct : t.pc j = s.pc j)
    (hi : Sizes s np m st) : Sizes t np m st := by
  cases hsz : st.sizing with
  | false => exact sizes_of_not hsz
  | true =>
    obtain ⟨hnp, hm⟩ := undisturbed_slots hst h hok hpc hpct hsz
    have hown : (s.pc j).owns = some np := by
      rw [hpc]
      rfl
    refine hi.same ?_ ?_ fun hstart => hs.stays_started h hstart (frees_of_resizes hm)
    · rcases quota_effect h np with hsame | ⟨i, hown', hne⟩ | hres
      · exact hsame
      · rw [hs.owner hown' hown] at hne
        exact absurd hpct hne
      · exact absurd (hnp.symm.trans (hres j hpct)) nofun
    · rcases quota_effect h m with hsame | ⟨i, hown', -⟩ | hres
      · exact hsame
      · exact absurd rfl (State.started_ne (hi.main hsz) (Or.inl (hs.embryo hown')))
      · exact absurd (hm.symm.trans (hres j hpct)) nofun

theorem quotaInv_step (hs : Sound s) (hi : QuotaInv s) (hok : QuotaOk s a)
    (h : step s a = some t) : QuotaInv t := by
  have heff := step_effect h
  have hst := hs.step hok.1 h
  intro j np m st hpc
  cases shaped_effect hs heff (by rw [hpc]; rfl) with
  | taken k hpcs hq hk =>
    rw [State.setPc_pc, if_pos rfl] at hpc
    rcases hk with hk | ⟨main, -, hk⟩
    · rw [hk] at hpc
      cases hpc
    · rw [hk] at hpc
      cases hpc
      exact sizes_of_not rfl
  | other hsame hl hparent =>
    have hpcs : s.pc j = .thread np m st := hsame.symm.trans hpc
    exact sizes_other hs hst heff hok.2.1 hpcs hsame (hi j np m st hpcs)
  | fork pd st' hrun hpcs hvm =>
    cases st' <;> rw [State.forkNext, State.setPc_pc, if_pos rfl] at hpc <;> cases hpc
  | thread main enough st' hrun hpcs =>
    have hm : main = m := by
      rcases threadNext_pc s j np main enough st' with hk | ⟨st'', hk⟩
      · rw [hk] at hpc
        cases hpc
      · rw [hk] at hpc
        cases hpc
        rfl
    subst hm
    exact sizes_threadNext hs hpcs hok.2.2 (hi j np main st' hpcs) hpc

/-- The limit of the process is set, and its size is within. -/
structure Limited (s : State) (pid limit : Int) : Prop where
  given : s.ids.Given pid
  main : ∀ q, s.started q → (s.proc q).tid = 0 → (s.proc q).pid = pid →
    (s.proc q).memorylimit = limit ∧ (s.proc q).sz ≤ uint limit

/-- A slot that starts has another pid, or a tid. -/
theorem Born.not_main (hs : Sound s) {q : Slot} (h : Born s q a t) {pid : Int}
    (hg : s.ids.Given pid) : ¬ ((t.proc q).tid = 0 ∧ (t.proc q).pid = pid) := by
  rintro ⟨htid, hpid⟩
  cases h with
  | fork i pd hrun hpc =>
    rw [State.forkNext, State.setPc_proc, State.setProc_proc_self] at hpid
    exact hg.pid i ⟨q, .process, true, true, none⟩ (by dsimp only [State.ids]; rw [hpc]; rfl) rfl rfl hpid
  | thread i main enough hrun hpc =>
    have hne := hs.base.tids.threadTid i ⟨q, .thread, true, true, none⟩
      (by dsimp only [State.ids]; rw [hpc]; rfl) rfl rfl
    rw [State.threadNext, State.setPc_proc, State.setProc_proc_self] at htid
    exact absurd htid hne

/-- The slot of a main thread with a limit. -/
theorem limited_change (hq : QuotaInv s) (hok : quotaOk s a = true) {q : Slot} {pid limit : Int}
    (hset : setsLimit s pid a = false) (hpos : 0 < limit) (h : Change s q a t)
    (hstart : t.started q) (htid : (s.proc q).tid = 0) (hpid : (s.proc q).pid = pid)
    (hl : (s.proc q).memorylimit = limit ∧ (s.proc q).sz ≤ uint limit) :
    (t.proc q).memorylimit = limit ∧ (t.proc q).sz ≤ uint limit := by
  have hne : (s.proc q).memorylimit ≠ 0 := by
    rw [hl.1]
    exact hpos.ne'
  have hgone : (t.proc q).phase = .unused → False := fun h => not_started h (Or.inl rfl) hstart
  have hsame : ∀ {r : Proc}, (s.proc q).SameQuota r → r.memorylimit = limit ∧ r.sz ≤ uint limit := by
    intro r hr
    rw [hr.sz, hr.memorylimit]
    exact hl
  have hfit : ∀ {sz}, (s.proc q).allows sz → sz ≤ uint limit := by
    intro sz hsz
    rcases hsz with hsz | hsz | hsz
    · exact hsz.trans hl.2
    · exact absurd hsz hne
    · rw [hl.1] at hsz
      exact hsz
  cases h with
  | same h => exact hsame h.quota
  | killed i hi hpc hs h hu => exact (hgone h.phase).elim
  | outlives i hi hpc hs hqi h => exact hsame ⟨h.sz, h.memorylimit⟩
  | exits hi hpc h hu => exact hsame ⟨h.sz, h.memorylimit⟩
  | threadExits retval hi hpc h hu => exact hsame ⟨h.sz, h.memorylimit⟩
  | reaped i hi hw h => exact (hgone h.phase).elim
  | joined i thread hi hj h => exact (hgone h.phase).elim
  | cleaned i hi htid hs h hu => exact (hgone h.phase).elim
  | image pd sz hpc h hold =>
    have hsz := of_decide_eq_true hok htid
    rw [h]
    exact ⟨hl.1, hfit (Or.inr hsz)⟩
  | mainSz i np enough hpc h =>
    rw [h]
    exact ⟨hl.1, hfit ((hq i np q .mainSz hpc).alloced rfl)⟩
  | growproc i n enough sz hlimit h =>
    rw [h]
    refine ⟨hl.1, hfit ?_⟩
    rcases hlimit with h0 | hsz | hsz
    · exact Or.inr (Or.inl h0)
    · exact Or.inl hsz
    · exact Or.inr (Or.inr hsz)
  | setmemorylimit i pid' limit' h0 hp hsz h =>
    exfalso
    have hpid' : (s.proc q).pid = pid' := by simpa using List.find?_some hp
    have hres : (s.setmemorylimit pid' limit').1 = 0 := by
      unfold State.setmemorylimit
      rw [if_neg (by omega), hp]
      dsimp only
      rw [if_neg (by omega)]
    exact absurd (hset.symm.trans (decide_eq_true ⟨hpid'.symm.trans hpid, hres⟩)) nofun

theorem limited_step (hs : Sound s) (hq : QuotaInv s) (hok : QuotaOk s a) {pid limit : Int}
    (hset : setsLimit s pid a = false) (hpos : 0 < limit) (hl : Limited s pid limit)
    (h : step s a = some t) : Limited t pid limit := by
  have heff := step_effect h
  refine ⟨Ids.given_steps hs.base hl.given (ids_effect hs.base hs.init hok.1 heff), ?_⟩
  intro q hstart htid hpid
  rcases born_effect heff hstart with hqs | hborn
  · have hst := hs.stays heff hqs hstart
    rw [hst.tid] at htid
    rw [hst.pid] at hpid
    exact limited_change hq hok.2.2 hset hpos (change_effect hs hqs heff) hstart htid hpid
      (hl.main q hqs htid hpid)
  · exact absurd ⟨htid, hpid⟩ (hborn.not_main hs hl.given)

/-- What a `setmemorylimit` that succeeds does. -/
theorem setmemorylimit_spec {pid limit : Int} (h0 : (s.setmemorylimit pid limit).1 = 0) :
    ∃ p, (List.finRange NPROC).find? (fun p => (s.proc p).pid = pid) = some p ∧
      (s.proc p).sz ≤ uint limit ∧
      (s.setmemorylimit pid limit).2 = s.setProc p fun r => { r with memorylimit := limit } := by
  unfold State.setmemorylimit at h0 ⊢
  split_ifs at h0 ⊢ with hneg
  · cases h0
  · cases hp : (List.finRange NPROC).find? fun p => (s.proc p).pid = pid with
    | none =>
      rw [hp] at h0
      cases h0
    | some p =>
      rw [hp] at h0
      dsimp only at h0 ⊢
      split_ifs at h0 ⊢ with hsz
      · cases h0
      · exact ⟨p, rfl, Nat.le_of_not_lt hsz, rfl⟩

theorem limited_setmemorylimit (hs : Sound s) {i : Slot} {pid limit : Int}
    (hok : QuotaOk s (.setmemorylimit i pid limit))
    (h : step s (.setmemorylimit i pid limit) = some t) (h0 : (s.setmemorylimit pid limit).1 = 0) :
    Limited t pid limit := by
  obtain ⟨p, hp, hsz, ht⟩ := setmemorylimit_spec h0
  have hpid : (s.proc p).pid = pid := by simpa using List.find?_some hp
  have hmain : s.started p ∧ (s.proc p).tid = 0 := by
    have hall := hok.2.2
    unfold quotaOk at hall
    dsimp only at hall
    rw [hp] at hall
    exact of_decide_eq_true hall
  have hstep : t = s.setProc p fun r => { r with memorylimit := limit } := by
    unfold step at h
    split_ifs at h with hlock
    dsimp only at h
    split_ifs at h
    rw [← ht]
    exact (Option.some.inj h).symm
  have heff := step_effect h
  have hst := hs.step hok.1 h
  have hgiven : s.ids.Given pid := hpid ▸ hs.base.given hmain.1
  refine ⟨Ids.given_steps hs.base hgiven (ids_effect hs.base hs.init hok.1 heff), ?_⟩
  intro q hstart htid hpidq
  have hph := (sameIds_setProc (s := s) (p := p)
    (f := fun r => { r with memorylimit := limit }) rfl rfl rfl)
  rw [← hstep] at hph
  have hpt : t.started p := hmain.1.imp (hph.phase p).trans (hph.phase p).trans
  have heq : q = p := hst.base.mainInj q p hstart hpt htid ((hph.tid p).trans hmain.2)
    (hpidq.trans ((hph.pid p).trans hpid).symm)
  rw [heq, hstep, State.setProc_proc_self]
  exact ⟨rfl, hsz⟩

end Steps

/-! ### Runs -/

theorem quotaInv_userinit : QuotaInv userinit := fun _ _ _ _ hpc => nomatch hpc

/-- A run in which the limit of the process is not set again. -/
def KeepsLimit (pid : Int) (s : State) (a : Action) : Prop := QuotaOk s a ∧ setsLimit s pid a = false

instance (pid : Int) (s : State) (a : Action) : Decidable (KeepsLimit pid s a) :=
  inferInstanceAs (Decidable (_ ∧ _))

theorem within_of_reach {s t u : State} {i : Slot} {pid limit : Int}
    (hr : Reach step QuotaOk userinit s) (hok : QuotaOk s (.setmemorylimit i pid limit))
    (h : step s (.setmemorylimit i pid limit) = some t) (h0 : (s.setmemorylimit pid limit).1 = 0)
    (hpos : 0 < limit) (hmax : limit < 2147483648) (hu : Reach step (KeepsLimit pid) t u) :
    Within u pid limit := by
  have hinv : Sound s ∧ QuotaInv s := by
    refine hr.invariant (I := fun s => Sound s ∧ QuotaInv s) ⟨sound_userinit, quotaInv_userinit⟩ ?_
    intro v a w ⟨hv, hi⟩ hok hw
    exact ⟨hv.step hok.1 hw, quotaInv_step hv hi hok hw⟩
  have hlim : Sound u ∧ QuotaInv u ∧ Limited u pid limit := by
    refine hu.invariant (I := fun v => Sound v ∧ QuotaInv v ∧ Limited v pid limit) ?_ ?_
    · exact ⟨hinv.1.step hok.1 h, quotaInv_step hinv.1 hinv.2 hok h,
        limited_setmemorylimit hinv.1 hok h h0⟩
    · intro v a w ⟨hv, hi, hl⟩ hok hw
      exact ⟨hv.step hok.1.1 hw, quotaInv_step hv hi hok.1 hw,
        limited_step hv hi hok.1 hok.2 hpos hl hw⟩
  intro q hstart htid hpid
  have hsz := (hlim.2.2.main q hstart htid hpid).2
  unfold uint at hsz
  omega

-- Process 1 runs, gets a limit of four pages, creates a thread and grows up to the limit.
def processRuns : List Action := .sched 0 :: forkSteps 0 1 0 ++ [.yield 0, .sched 1]

def unlimited : State := (run (guarded step QuotaOk) userinit processRuns).getD userinit

def limitSet : State := (step unlimited (.setmemorylimit 1 1 16384)).getD userinit

def reachesLimit : List Action := threadSteps 1 0 ++ [.growproc 1 4096 true]

def limitReached : State := (run (guarded step (KeepsLimit 1)) limitSet reachesLimit).getD userinit

theorem within_of_reach_limitReached :
    Within limitReached 1 16384 ∧ (limitReached.proc 1).sz = 16384 := by
  have hfacts : (run (guarded step QuotaOk) userinit processRuns).isSome ∧
      QuotaOk unlimited (.setmemorylimit 1 1 16384) ∧
      (step unlimited (.setmemorylimit 1 1 16384)).isSome ∧
      (unlimited.setmemorylimit 1 16384).1 = 0 ∧
      (run (guarded step (KeepsLimit 1)) limitSet reachesLimit).isSome ∧
      (limitReached.proc 1).sz = 16384 := by decide +kernel
  obtain ⟨hrun, hok, hset, hzero, hgrow, hsz⟩ := hfacts
  have hreach : Reach step QuotaOk userinit unlimited := reach_of_guarded_run (eq_some_getD hrun)
  have hreached : Reach step (KeepsLimit 1) limitSet limitReached :=
    reach_of_guarded_run (eq_some_getD hgrow)
  exact ⟨within_of_reach hreach hok (eq_some_getD hset) hzero (by decide) (by decide) hreached, hsz⟩

-- Process 2 in slot 2 creates a thread when slot 1 has come out of use.
def slotFreed : List Action :=
  processRuns ++ forkSteps 1 2 0 ++ exitSteps 1 0 ++ [.sched 0, .wait 0, .yield 0, .sched 2] ++
    threadSteps 2 0

def threadFirst : State :=
  (run (guarded step fun s a => idsOk s a = true) userinit slotFreed).getD userinit

def threadLimited : State := (step threadFirst (.setmemorylimit 2 2 16384)).getD userinit

def limitPassed : State := (step threadLimited (.growproc 2 8192 true)).getD userinit

/-- `setmemorylimit` finds the thread's slot first, and the process grows without a limit. -/
theorem not_within_of_reach : ¬ ∀ (s t u : State) (i : Slot) (pid limit : Int),
    Reach step (fun s a => idsOk s a = true) userinit s →
    step s (.setmemorylimit i pid limit) = some t → (s.setmemorylimit pid limit).1 = 0 →
    0 < limit → limit < 2147483648 →
    Reach step (fun s a => idsOk s a = true ∧ setsLimit s pid a = false) t u →
    Within u pid limit := by
  intro hall
  have hfacts : (run (guarded step fun s a => idsOk s a = true) userinit slotFreed).isSome ∧
      (step threadFirst (.setmemorylimit 2 2 16384)).isSome ∧
      (threadFirst.setmemorylimit 2 16384).1 = 0 ∧
      (idsOk threadLimited (.growproc 2 8192 true) = true ∧
        setsLimit threadLimited 2 (.growproc 2 8192 true) = false) ∧
      (step threadLimited (.growproc 2 8192 true)).isSome ∧
      limitPassed.started 2 ∧ (limitPassed.proc 2).tid = 0 ∧ (limitPassed.proc 2).pid = 2 ∧
      ¬ ((limitPassed.proc 2).sz : Int) ≤ 16384 := by decide +kernel
  obtain ⟨hrun, hset, hzero, hok, hgrow, hstarted, htid, hpid, hsz⟩ := hfacts
  have hreach : Reach step (fun s a => idsOk s a = true) userinit threadFirst :=
    reach_of_guarded_run (eq_some_getD hrun)
  have hpassed : Reach step (fun s a => idsOk s a = true ∧ setsLimit s 2 a = false) threadLimited
      limitPassed := .head hok (eq_some_getD hgrow) (.refl _)
  exact hsz (hall threadFirst threadLimited limitPassed 2 2 16384 hreach (eq_some_getD hset) hzero
    (by decide) (by decide) hpassed 2 hstarted htid hpid)

end Xv6.Threads
