import Xv6.Lib.Tally
import Xv6.Threads.Setup

/-!
# What a thread holds in the file system

`exit` and `cleanforexec` take the slots of the other threads of the process wherever
these are (proc.c:303-312, 641-649). As long as none of those threads is at a place in the
file system, nothing is left behind.
-/

namespace Xv6.Threads

open Mlfq (NPROC Slot Procstate)
open Transition

/-- The threads between `begin_op` and `end_op`. -/
def State.operations (s : State) : Finset Slot :=
  Finset.univ.filter fun q => (s.proc q).state ≠ .unused ∧ s.inOp q = true

/-- `log.outstanding` counts the threads in use that are in an operation, and every
locked sleeplock is held by a thread in use. -/
structure NothingLeft (s : State) : Prop where
  outstanding : s.outstanding = s.operations.card
  lock : ∀ l, s.lock l ≠ .unlocked → ∃ q, s.lock l = .held q ∧ (s.proc q).state ≠ .unused

/-- The slots that come out of use belong to threads that are not in a file system call, not
loading a program in `exec` and not closing their files in `exit` or `thread_exit`. -/
def heldOk (s : State) (a : Action) : Bool := ∀ q, s.frees a q = true → (s.pc q).inFs = false

def HeldOk (s : State) (a : Action) : Prop := idsOk s a = true ∧ heldOk s a = true

instance (s : State) (a : Action) : Decidable (HeldOk s a) :=
  inferInstanceAs (Decidable (_ ∧ _))

/-- A thread outside the file system holds nothing. -/
def Clear (s : State) : Prop := ∀ q, (s.pc q).inFs = false → s.idle q

structure HeldInv (s : State) : Prop where
  clear : Clear s
  outstanding : s.outstanding = tally s.inOp true
  inOp : ∀ q, s.inOp q = true → (s.proc q).phase = .alive
  lock : ∀ l, s.lock l ≠ .orphaned
  holder : ∀ l q, s.lock l = .held q → (s.proc q).phase = .alive

section Steps

variable {s t : State} {a : Action}

/-- What the threads hold is the same. -/
structure SameHeld (s t : State) : Prop where
  inOp : t.inOp = s.inOp
  lock : t.lock = s.lock
  outstanding : t.outstanding = s.outstanding

theorem sameHeld_vacate {gone : Slot → Bool} (h : ∀ q, gone q = true → s.idle q) :
    SameHeld s (s.vacate gone) := by
  refine ⟨funext fun q => ?_, funext fun l => ?_, rfl⟩
  · dsimp only [State.vacate]
    split_ifs with hq
    · exact (h q hq).1.symm
    · rfl
  · dsimp only [State.vacate]
    cases hl : s.lock l with
    | held p =>
      dsimp only
      split_ifs with hp
      · exact absurd hl ((h p hp).2 l)
      · rfl
    | unlocked => rfl
    | orphaned => rfl

theorem sameHeld_of_quiet (h : Quiet s t) : SameHeld s t := ⟨h.inOp, h.lock, h.outstanding⟩

theorem SameHeld.trans {u : State} (h : SameHeld s t) (h' : SameHeld t u) : SameHeld s u :=
  ⟨h'.inOp.trans h.inOp, h'.lock.trans h.lock, h'.outstanding.trans h.outstanding⟩

theorem SameHeld.idle (h : SameHeld s t) {q : Slot} (hq : s.idle q) : t.idle q := by
  refine ⟨?_, fun l => ?_⟩
  · rw [h.inOp]
    exact hq.1
  · rw [h.lock]
    exact hq.2 l

theorem idle_of_frees (hc : Clear s) (hok : heldOk s a = true) {q : Slot}
    (hq : s.frees a q = true) : s.idle q := by
  have hout : ∀ q, s.frees a q = true → (s.pc q).inFs = false := of_decide_eq_true hok
  exact hc q (hout q hq)

/-- Only the steps that keep the table change what is held. -/
theorem held_effect (hc : Clear s) (h : Effect s a t) (hok : heldOk s a = true) :
    (∀ q, (t.proc q).phase = (s.proc q).phase) ∧ Moves s t ∧ LogStep s t ∨ SameHeld s t := by
  have hidle : ∀ q, s.frees a q = true → s.idle q := fun q => idle_of_frees hc hok
  have hreparent : ∀ (u : State) (i : Slot), SameHeld u (u.reparent i) := by
    intro u i
    unfold State.reparent
    dsimp only
    split_ifs <;> exact ⟨rfl, rfl, rfl⟩
  cases h with
  | kept hf h hpc hfile hlog => exact Or.inl ⟨fun q => (h.proc q).phase, hpc, hlog⟩
  | forkNext i np pd st hrun hpc hvm hdup =>
    right
    cases st with
    | files st =>
      have hd := State.quiet_copyNext s i np st
      exact ⟨hd.inOp, hd.lock, hd.outstanding⟩
    | _ => exact ⟨rfl, rfl, rfl⟩
  | threadNext i np main enough st hrun hpc hdup =>
    right
    cases st with
    | files st =>
      have hd := State.quiet_copyNext s main np st
      exact ⟨hd.inOp, hd.lock, hd.outstanding⟩
    | limit =>
      unfold State.threadNext
      dsimp only
      split_ifs <;> exact ⟨rfl, rfl, rfl⟩
    | _ => exact ⟨rfl, rfl, rfl⟩
  | exitLast i hrun hpc hfree =>
    right
    have hv : SameHeld s (s.vacate (s.siblings i)) :=
      sameHeld_vacate fun q hq => hidle q (decide_eq_true ⟨hpc, hq⟩)
    have hp := sameHeld_of_quiet (State.quiet_wakeParent (s.vacate (s.siblings i)) i)
    have hall := (hv.trans hp).trans (hreparent ((s.vacate (s.siblings i)).wakeParent i) i)
    refine ⟨?_, ?_, ?_⟩
    · rw [State.exitLast, State.setPc_inOp, State.setProc_inOp]
      exact hall.inOp
    · rw [State.exitLast, State.setPc_lock, State.setProc_lock]
      exact hall.lock
    · rw [State.exitLast, State.setPc_outstanding, State.setProc_outstanding]
      exact hall.outstanding
  | reap i p hrun hpc hw =>
    right
    unfold State.wait
    rw [hw]
    dsimp only
    split <;> exact ⟨rfl, rfl, rfl⟩
  | join i p thread hrun hpc hj =>
    right
    have hv : SameHeld s (s.vacate fun q => q = p) := by
      refine sameHeld_vacate fun q hq => hidle q ?_
      rw [of_decide_eq_true hq]
      exact decide_eq_true hj
    exact ⟨hv.inOp, hv.lock, hv.outstanding⟩
  | cleanforexec i pd hrun hpc hidle' hfree =>
    right
    unfold State.cleanforexec
    split_ifs with htid
    · exact ⟨rfl, rfl, rfl⟩
    · have hv : SameHeld s (s.vacate (s.siblings i)) :=
        sameHeld_vacate fun q hq => hidle q (decide_eq_true ⟨htid, hq⟩)
      exact ⟨hv.inOp, hv.lock, hv.outstanding⟩
  | _ => exact Or.inr ⟨rfl, rfl, rfl⟩

theorem inFs_setPc {u : State} {i q : Slot} {k : Pc} (hq : ((u.setPc i k).pc q).inFs = false)
    (hu : u.pc q = s.pc q ∨ s.idle q) (hi : k.inFs = false → (s.pc i).inFs = false ∨ s.idle i) :
    (s.pc q).inFs = false ∨ s.idle q := by
  rw [State.setPc_pc] at hq
  split_ifs at hq with hqi
  · rw [hqi]
    exact hi hq
  · rcases hu with hu | hu
    · rw [hu] at hq
      exact Or.inl hq
    · exact Or.inr hu

/-- A thread comes out of the file system only without an operation and without a sleeplock. -/
theorem inFs_effect (hc : Clear s) (h : Effect s a t) (hok : heldOk s a = true) {q : Slot}
    (hq : (t.pc q).inFs = false) : (s.pc q).inFs = false ∨ s.idle q := by
  have hgone : ∀ {gone : Slot → Bool}, (∀ q, gone q = true → s.frees a q = true) →
      (s.vacate gone).pc q = s.pc q ∨ s.idle q := by
    intro gone hg
    dsimp only [State.vacate]
    split_ifs with hq
    · exact Or.inr (idle_of_frees hc hok (hg q hq))
    · exact Or.inl rfl
  cases h with
  | kept hf h hpc hfile hlog =>
    rcases hpc q with hpc | hm | ⟨-, pd, ip, -, hpc⟩
    · rw [hpc] at hq
      exact Or.inl hq
    · exact hm.idle hq
    · rw [hpc] at hq
      cases hq
  | alloc hf i np k hrun hpc hnp hk =>
    exact inFs_setPc hq (Or.inl rfl) fun _ => Or.inl (by rw [hpc]; rfl)
  | abort hf i np pgdir hrun hpc =>
    refine inFs_setPc hq (Or.inl rfl) fun _ => Or.inl ?_
    rcases hpc with hpc | ⟨main, hpc⟩ <;> rw [hpc] <;> rfl
  | forkNext i np pd st hrun hpc hvm hdup =>
    have hi : (s.pc i).inFs = false := by
      rw [hpc]
      rfl
    cases st with
    | files st =>
      have hd := State.quiet_copyNext s i np st
      exact inFs_setPc hq (Or.inl (congrFun hd.pc q)) fun _ => Or.inl hi
    | _ => exact inFs_setPc hq (Or.inl rfl) fun _ => Or.inl hi
  | threadNext i np main enough st hrun hpc hdup =>
    have hi : (s.pc i).inFs = false := by
      rw [hpc]
      rfl
    cases st with
    | files st =>
      have hd := State.quiet_copyNext s main np st
      exact inFs_setPc hq (Or.inl (congrFun hd.pc q)) fun _ => Or.inl hi
    | limit =>
      unfold State.threadNext at hq
      dsimp only at hq
      split_ifs at hq
      · exact inFs_setPc hq (Or.inl rfl) fun _ => Or.inl hi
      · exact inFs_setPc hq (Or.inl rfl) fun _ => Or.inl hi
    | _ => exact inFs_setPc hq (Or.inl rfl) fun _ => Or.inl hi
  | exitLast i hrun hpc hfree =>
    refine inFs_setPc hq ?_ fun _ => Or.inl (by rw [hpc]; rfl)
    rw [State.setProc_pc, State.pc_reparent, State.pc_wakeParent]
    exact hgone fun q hq => decide_eq_true ⟨hpc, hq⟩
  | threadExitLast i retval hrun hpc =>
    exact inFs_setPc hq (Or.inl rfl) fun _ => Or.inl (by rw [hpc]; rfl)
  | reap i p hrun hpc hw =>
    have hi := Pc.inFs_of_waits hpc
    unfold State.wait at hq
    rw [hw] at hq
    dsimp only at hq
    split at hq
    · exact inFs_setPc hq (Or.inl rfl) fun _ => Or.inl hi
    · exact inFs_setPc hq (Or.inl rfl) fun _ => Or.inl hi
  | join i p thread hrun hpc hj =>
    refine inFs_setPc hq (hgone fun r hr => ?_) fun _ => Or.inl (Pc.inFs_of_waits hpc)
    rw [of_decide_eq_true hr]
    exact decide_eq_true hj
  | exec i pd ip hrun hpc hvm => exact inFs_setPc hq (Or.inl rfl) nofun
  | execBad i pd st hrun hpc hst =>
    refine inFs_setPc hq (Or.inl rfl) fun hbad => Or.inl ?_
    rcases hst with ⟨ip, rfl⟩ | rfl
    · cases hbad
    · rw [hpc]
      rfl
  | cleanforexec i pd hrun hpc hidle hfree =>
    refine inFs_setPc hq ?_ fun _ => Or.inr hidle
    unfold State.cleanforexec
    split_ifs with htid
    · exact Or.inl rfl
    · exact hgone fun q hq => decide_eq_true ⟨htid, hq⟩
  | execCommit i pd sz oldpgdir hrun hpc hold =>
    exact inFs_setPc hq (Or.inl rfl) fun _ => Or.inl (by rw [hpc]; rfl)
  | execFree i oldpgdir hrun hpc =>
    exact inFs_setPc hq (Or.inl rfl) fun _ => Or.inl (by rw [hpc]; rfl)
  | growproc i main n enough sz hlimit => exact Or.inl hq
  | setmemorylimit i p pid limit h0 hp hsz => exact Or.inl hq

theorem clear_effect (hc : Clear s) (h : Effect s a t) (hok : heldOk s a = true) : Clear t := by
  intro q hq
  have hidle : s.idle q := (inFs_effect hc h hok hq).elim (hc q) id
  rcases held_effect hc h hok with ⟨-, hpc, hlog⟩ | hh
  · cases hlog with
    | same hop hl ho => exact SameHeld.idle ⟨hop, hl, ho⟩ hidle
    | beginOp i hrun hfs hpc' h0 hop hl ho =>
      have hqi : q ≠ i := by
        rintro rfl
        rw [hpc', hfs] at hq
        cases hq
      refine ⟨?_, fun l => ?_⟩
      · rw [hop, Function.update_of_ne hqi]
        exact hidle.1
      · rw [hl]
        exact hidle.2 l
    | endOp i hrun h0 hop hl ho =>
      refine ⟨?_, fun l => ?_⟩
      · rw [hop, Function.update_apply]
        split_ifs
        · rfl
        · exact hidle.1
      · rw [hl]
        exact hidle.2 l
    | acquire i l' hrun hfs hpc' hop hl ho =>
      have hqi : q ≠ i := by
        rintro rfl
        rw [hpc', hfs] at hq
        cases hq
      refine ⟨by rw [hop]; exact hidle.1, fun l => ?_⟩
      rw [hl, Function.update_apply]
      split_ifs
      · intro hheld
        cases hheld
        exact hqi rfl
      · exact hidle.2 l
    | release i l' hop hl ho =>
      refine ⟨by rw [hop]; exact hidle.1, fun l => ?_⟩
      rw [hl, Function.update_apply]
      split_ifs
      · exact nofun
      · exact hidle.2 l
  · exact hh.idle hidle

/-- A thread that holds something stays alive. -/
theorem alive_of_not_idle (hs : Sound s) (hcl : Clear s) (h : Effect s a t)
    (hok : heldOk s a = true) {q : Slot} (hq : (s.proc q).phase = .alive) (hbusy : ¬ s.idle q) :
    (t.proc q).phase = .alive := by
  have hidle : ∀ q, s.frees a q = true → s.idle q := fun q => idle_of_frees hcl hok
  have hc := change_effect hs (Or.inl hq) h
  rcases hc.stays (Or.inl hq) with hst | ⟨hf, -⟩
  · cases hc with
    | same h => exact h.phase.trans hq
    | killed i hi hpc hs' h hu => exact absurd (hidle q (decide_eq_true ⟨hpc, hs'⟩)) hbusy
    | outlives i hi hpc hs' hqi h => exact h.phase.trans hq
    | exits hi hpc h hu => exact absurd (hcl q (by rw [hpc]; rfl)) hbusy
    | threadExits retval hi hpc h hu => exact absurd (hcl q (by rw [hpc]; rfl)) hbusy
    | reaped i hi hw h => exact absurd (hidle q (decide_eq_true hw)) hbusy
    | joined i thread hi hj h => exact absurd (hidle q (decide_eq_true hj)) hbusy
    | cleaned i hi htid hs' h hu => exact absurd (hidle q (decide_eq_true ⟨htid, hs'⟩)) hbusy
    | image pd sz hpc h hold =>
      rw [h]
      exact hq
    | mainSz i np enough hpc h =>
      rw [h]
      exact hq
    | growproc i n enough sz hlimit h =>
      rw [h]
      exact hq
    | setmemorylimit i pid limit h0 hp hsz h =>
      rw [h]
      exact hq
  · exact absurd (hidle q hf) hbusy

theorem heldInv_of_same (hs : Sound s) (hi : HeldInv s) (h : Effect s a t)
    (hok : heldOk s a = true) (hh : SameHeld s t) : HeldInv t := by
  have hcl := clear_effect hi.clear h hok
  obtain ⟨hop, hl, ho⟩ := hh
  refine ⟨hcl, by rw [ho, hop]; exact hi.outstanding, fun q hq => ?_, fun l => ?_, fun l q hq => ?_⟩
  · rw [hop] at hq
    refine alive_of_not_idle hs hi.clear h hok (hi.inOp q hq) fun hidle => ?_
    rw [hidle.1] at hq
    cases hq
  · rw [hl]
    exact hi.lock l
  · rw [hl] at hq
    exact alive_of_not_idle hs hi.clear h hok (hi.holder l q hq) fun hidle => hidle.2 l hq

theorem heldInv_of_log (hi : HeldInv s) (hcl : Clear t)
    (hph : ∀ q, (t.proc q).phase = (s.proc q).phase) (hlog : LogStep s t) : HeldInv t := by
  cases hlog with
  | same hop hl ho =>
    refine ⟨hcl, by rw [ho, hop]; exact hi.outstanding, fun q hq => ?_, fun l => ?_,
      fun l q hq => ?_⟩
    · rw [hph]
      exact hi.inOp q (hop ▸ hq)
    · rw [hl]
      exact hi.lock l
    · rw [hph]
      exact hi.holder l q (hl ▸ hq)
  | beginOp i hrun hfs hpc h0 hop hl ho =>
    refine ⟨hcl, ?_, fun q hq => ?_, fun l => ?_, fun l q hq => ?_⟩
    · have hu := tally_update s.inOp i true true
      rw [h0, if_neg Bool.false_ne_true, if_pos rfl] at hu
      rw [ho, hop, hi.outstanding]
      omega
    · rw [hph]
      rw [hop, Function.update_apply] at hq
      split_ifs at hq with hqi
      · rw [hqi]
        exact Proc.phase_alive hrun
      · exact hi.inOp q hq
    · rw [hl]
      exact hi.lock l
    · rw [hph]
      exact hi.holder l q (hl ▸ hq)
  | endOp i hrun h0 hop hl ho =>
    refine ⟨hcl, ?_, fun q hq => ?_, fun l => ?_, fun l q hq => ?_⟩
    · have hu := tally_update s.inOp i false true
      rw [h0, if_pos rfl, if_neg Bool.false_ne_true] at hu
      rw [ho, hop, hi.outstanding]
      omega
    · rw [hph]
      rw [hop, Function.update_apply] at hq
      split_ifs at hq
      exact hi.inOp q hq
    · rw [hl]
      exact hi.lock l
    · rw [hph]
      exact hi.holder l q (hl ▸ hq)
  | acquire i l' hrun hfs hpc hop hl ho =>
    refine ⟨hcl, by rw [ho, hop]; exact hi.outstanding, fun q hq => ?_, fun l => ?_,
      fun l q hq => ?_⟩
    · rw [hph]
      exact hi.inOp q (hop ▸ hq)
    · rw [hl, Function.update_apply]
      split_ifs
      · exact nofun
      · exact hi.lock l
    · rw [hph]
      rw [hl, Function.update_apply] at hq
      split_ifs at hq
      · cases hq
        exact Proc.phase_alive hrun
      · exact hi.holder l q hq
  | release i l' hop hl ho =>
    refine ⟨hcl, by rw [ho, hop]; exact hi.outstanding, fun q hq => ?_, fun l => ?_,
      fun l q hq => ?_⟩
    · rw [hph]
      exact hi.inOp q (hop ▸ hq)
    · rw [hl, Function.update_apply]
      split_ifs
      · exact nofun
      · exact hi.lock l
    · rw [hph]
      rw [hl, Function.update_apply] at hq
      split_ifs at hq
      exact hi.holder l q hq

theorem heldInv_step (hs : Sound s) (hi : HeldInv s) (hok : HeldOk s a) (h : step s a = some t) :
    HeldInv t := by
  have he := step_effect h
  rcases held_effect hi.clear he hok.2 with ⟨hph, -, hlog⟩ | hh
  · exact heldInv_of_log hi (clear_effect hi.clear he hok.2) hph hlog
  · exact heldInv_of_same hs hi he hok.2 hh

end Steps

/-! ### Runs -/

theorem heldInv_userinit : HeldInv userinit := by
  refine ⟨fun q _ => ⟨rfl, nofun⟩, by decide, fun q hq => ?_, fun l => ?_, fun l q hq => ?_⟩
  · cases hq
  · exact nofun
  · cases hq

theorem HeldInv.nothingLeft {s : State} (h : HeldInv s) : NothingLeft s := by
  have hused : ∀ {q}, (s.proc q).phase = .alive → (s.proc q).state ≠ .unused := by
    intro q hq hu
    rw [Proc.phase_unused.mpr hu] at hq
    cases hq
  refine ⟨?_, fun l hl => ?_⟩
  · have hset : s.operations = Finset.univ.filter fun q => s.inOp q = true := by
      unfold State.operations
      refine Finset.filter_congr fun q _ => ⟨fun hq => hq.2, fun hq => ⟨hused (h.inOp q hq), hq⟩⟩
    rw [hset]
    exact h.outstanding
  · cases hk : s.lock l with
    | unlocked => exact absurd hk hl
    | orphaned => exact absurd hk (h.lock l)
    | held q => exact ⟨q, rfl, hused (h.holder l q hk)⟩

theorem nothingLeft_of_reach {s : State} (hr : Reach step HeldOk userinit s) : NothingLeft s := by
  have hinv : Sound s ∧ HeldInv s := by
    refine hr.invariant (I := fun s => Sound s ∧ HeldInv s) ⟨sound_userinit, heldInv_userinit⟩ ?_
    intro u a v ⟨hu, hi⟩ hok hv
    exact ⟨hu.step hok.1 hv, heldInv_step hu hi hok hv⟩
  exact hinv.2.nothingLeft

/-- The lock of the first inode in the cache. -/
def inodeLock : Fin (NINODE + NBUF) := ⟨0, by decide⟩

-- The thread in slot 2 has finished a file system call when slot 1 exits.
def finishesCall : List Action :=
  processAndThread ++ [.yield 1, .sched 2, .fsCall 2, .beginOp 2, .fs 2 (.iget 5),
    .acquiresleep 2 inodeLock, .yield 2, .sched 1, .yield 1, .sched 2, .releasesleep 2 inodeLock,
    .fs 2 (.iput 5), .endOp 2, .fsReturn 2, .yield 2, .sched 1] ++ exitSteps 1 0

def exitsAlone : State := (run (guarded step HeldOk) userinit finishesCall).getD userinit

theorem nothingLeft_of_reach_exitsAlone :
    NothingLeft exitsAlone ∧ (exitsAlone.proc 2).state = .unused := by
  have hfacts : (run (guarded step HeldOk) userinit finishesCall).isSome ∧
      (exitsAlone.proc 2).state = .unused := by decide +kernel
  exact ⟨nothingLeft_of_reach (reach_of_guarded_run (eq_some_getD hfacts.1)), hfacts.2⟩

/-- Slot 1 exits while the thread is inside an operation and holds an inode lock. -/
theorem not_nothingLeft_of_reach :
    ¬ ∀ s, Reach step (fun s a => idsOk s a = true) userinit s → NothingLeft s := by
  intro hall
  have hrun : (run (guarded step fun s a => idsOk s a = true) userinit (processAndThread ++
      [.yield 1, .sched 2, .fsCall 2, .beginOp 2, .fs 2 (.iget 5), .acquiresleep 2 inodeLock,
        .sleep 2 0, .sched 1] ++ exitSteps 1 0)).any (fun s => s.outstanding == 1 &&
        s.operations.card == 0 && s.lock inodeLock == .orphaned) = true := by decide +kernel
  obtain ⟨s, hs, hview⟩ := (Option.any_eq_true _ _).mp hrun
  simp only [Bool.and_eq_true, beq_iff_eq] at hview
  obtain ⟨⟨hout, hcard⟩, -⟩ := hview
  have hcount := (hall s (reach_of_guarded_run hs)).outstanding
  rw [hout, hcard] at hcount
  cases hcount

end Xv6.Threads
