import Mathlib.Data.List.Count
import Mathlib.Data.Fintype.Card
import Mathlib.Tactic.SplitIfs
import Xv6.Mlfq.Table

/-!
# The queue invariant of the MLFQ scheduler

`Inv` ties the three parts of the state together: a slot is queued exactly when
it is RUNNABLE, once, in the queue of its level. Every critical section is built
from `setProc`, `ready`, `insertqueue` and the removals of `take` and
`boostLoop`; each of these gets one lemma.
-/

namespace Xv6.Mlfq

namespace State

variable (s : State) (p q : Slot) (l m : Int) (f : Proc → Proc)

@[simp] theorem setProc_proc_self : (s.setProc p f).proc p = f (s.proc p) := by
  simp [setProc]

@[simp] theorem setProc_proc_ne (h : q ≠ p) : (s.setProc p f).proc q = s.proc q := by
  simp [setProc, h]

@[simp] theorem setProc_L : (s.setProc p f).L = s.L := rfl
@[simp] theorem setProc_queued : (s.setProc p f).queued l = s.queued l := rfl
@[simp] theorem setProc_dropped : (s.setProc p f).dropped = s.dropped := rfl
@[simp] theorem setProc_lockproc : (s.setProc p f).lockproc = s.lockproc := rfl
@[simp] theorem setPc_proc (k : Pc) : (s.setPc p k).proc = s.proc := rfl
@[simp] theorem setPc_queued (k : Pc) : (s.setPc p k).queued l = s.queued l := rfl
@[simp] theorem setPc_dropped (k : Pc) : (s.setPc p k).dropped = s.dropped := rfl
@[simp] theorem setL_proc (k : Queue) : (s.setL l k).proc = s.proc := rfl
@[simp] theorem setL_lockproc (k : Queue) : (s.setL l k).lockproc = s.lockproc := rfl
@[simp] theorem setL_dropped (k : Queue) : (s.setL l k).dropped = s.dropped := rfl

theorem setL_queued (k : Queue) :
    (s.setL l k).queued m = if m = l then k.toList else s.queued m := by
  by_cases h : m = l
  · subst h
    simp [queued, setL]
  · simp [queued, setL, h]

@[simp] theorem enqueue_proc : (s.enqueue l p).proc = s.proc := rfl
@[simp] theorem enqueue_lockproc : (s.enqueue l p).lockproc = s.lockproc := rfl
@[simp] theorem insertqueue_proc : (s.insertqueue l p).proc = s.proc := rfl

theorem enqueue_queued (h : (s.L l).size < NPROC) :
    (s.enqueue l p).queued m = if m = l then s.queued l ++ [p] else s.queued m := by
  show (s.setL l ((s.L l).enqueue p)).queued m = _
  rw [setL_queued, Queue.toList_enqueue _ _ h]
  rfl

theorem enqueue_dropped (h : (s.L l).size < NPROC) : (s.enqueue l p).dropped = s.dropped := by
  simp [enqueue, h]

theorem insertqueue_queued (h : (s.L l).size < NPROC) :
    (s.insertqueue l p).queued m = if m = l then p :: s.queued l else s.queued m := by
  show (s.setL l ((s.L l).insertqueue p)).queued m = _
  rw [setL_queued, Queue.toList_insertqueue _ _ h]
  rfl

theorem insertqueue_dropped (h : (s.L l).size < NPROC) :
    (s.insertqueue l p).dropped = s.dropped := by
  simp [insertqueue, h]

/-- A property that each round keeps holds after a loop over the table. -/
theorem foldl_keeps {P : State → Prop} {g : State → Slot → State}
    (hg : ∀ t p, P t → P (g t p)) (ps : List Slot) (s : State) (h : P s) :
    P (ps.foldl g s) := by
  induction ps generalizing s with
  | nil => exact h
  | cons p ps ih => exact ih _ (hg s p h)

theorem size_eq : (s.L l).size = (s.queued l).length := (Queue.length_toList _).symm

end State

/-- The queue invariant, with what its proof needs besides: levels in range,
distinct pids, and no process lost. -/
structure Inv (s : State) : Prop where
  count : ∀ p l, 0 ≤ l → l ≤ 2 → (s.queued l).count p =
    if (s.proc p).state = .runnable ∧ (s.proc p).level = l then 1 else 0
  level : ∀ p, 0 ≤ (s.proc p).level ∧ (s.proc p).level ≤ 2
  pids : ∀ p q, (s.proc p).state ≠ .unused → (s.proc q).state ≠ .unused →
    (s.proc p).pid = (s.proc q).pid → p = q
  dropped : s.dropped = false

namespace Inv

variable {s : State}

theorem mem_queued (h : Inv s) {p : Slot} {l : Int} (h0 : 0 ≤ l) (h2 : l ≤ 2) :
    p ∈ s.queued l ↔ (s.proc p).state = .runnable ∧ (s.proc p).level = l := by
  rw [← List.count_pos_iff, h.count p l h0 h2]
  split_ifs with hc <;> simp [hc]

theorem nodup (h : Inv s) {l : Int} (h0 : 0 ≤ l) (h2 : l ≤ 2) : (s.queued l).Nodup := by
  rw [List.nodup_iff_count_le_one]
  intro p
  rw [h.count p l h0 h2]
  split_ifs <;> omega

theorem room (h : Inv s) {p : Slot} {l : Int} (h0 : 0 ≤ l) (h2 : l ≤ 2)
    (hp : p ∉ s.queued l) : (s.L l).size < NPROC := by
  have hn : (p :: s.queued l).Nodup := List.nodup_cons.mpr ⟨hp, h.nodup h0 h2⟩
  have hle := hn.length_le_card
  simp only [List.length_cons, Fintype.card_fin] at hle
  rw [State.size_eq]
  omega

theorem not_mem_of_state (h : Inv s) {p : Slot} {l : Int} (h0 : 0 ≤ l) (h2 : l ≤ 2)
    (hp : (s.proc p).state ≠ .runnable) : p ∉ s.queued l := by
  rw [h.mem_queued h0 h2]
  exact fun hc => hp hc.1

/-- Fields of `p` may change freely while `p` keeps its place in the queues and
its pid stays unique. -/
theorem setProc (h : Inv s) {p : Slot} {f : Proc → Proc}
    (hs : (f (s.proc p)).state = .runnable ↔ (s.proc p).state = .runnable)
    (hl : (s.proc p).state = .runnable → (f (s.proc p)).level = (s.proc p).level)
    (hr : 0 ≤ (f (s.proc p)).level ∧ (f (s.proc p)).level ≤ 2)
    (hpid : (f (s.proc p)).state ≠ .unused →
      ∀ q, q ≠ p → (s.proc q).state ≠ .unused → (s.proc q).pid ≠ (f (s.proc p)).pid) :
    Inv (s.setProc p f) := by
  constructor
  · intro q l h0 h2
    rw [State.setProc_queued, h.count q l h0 h2]
    by_cases hq : q = p
    · subst hq
      rw [State.setProc_proc_self]
      by_cases hc : (s.proc q).state = .runnable
      · simp only [hc, hs.mpr hc, hl hc]
      · simp only [hc, mt hs.mp hc, false_and]
    · rw [State.setProc_proc_ne _ _ _ _ hq]
  · intro q
    by_cases hq : q = p
    · subst hq
      rw [State.setProc_proc_self]
      exact hr
    · rw [State.setProc_proc_ne _ _ _ _ hq]
      exact h.level q
  · intro a b ha hb hab
    by_cases hap : a = p
    · by_cases hbp : b = p
      · rw [hap, hbp]
      · subst hap
        rw [State.setProc_proc_self] at ha hab
        rw [State.setProc_proc_ne _ _ _ _ hbp] at hb hab
        exact absurd hab.symm (hpid ha b hbp hb)
    · rw [State.setProc_proc_ne _ _ _ _ hap] at ha hab
      by_cases hbp : b = p
      · subst hbp
        rw [State.setProc_proc_self] at hb hab
        exact absurd hab (hpid hb a hap ha)
      · rw [State.setProc_proc_ne _ _ _ _ hbp] at hb hab
        exact h.pids a b ha hb hab
  · exact h.dropped

/-- `setProc` where the pid stays and an UNUSED entry stays UNUSED. -/
theorem setProc_keep (h : Inv s) {p : Slot} {f : Proc → Proc}
    (hs : (f (s.proc p)).state = .runnable ↔ (s.proc p).state = .runnable)
    (hl : (f (s.proc p)).level = (s.proc p).level)
    (hu : (f (s.proc p)).state ≠ .unused → (s.proc p).state ≠ .unused)
    (hpid : (f (s.proc p)).state ≠ .unused → (f (s.proc p)).pid = (s.proc p).pid) :
    Inv (s.setProc p f) := by
  refine h.setProc hs (fun _ => hl) ?_ ?_
  · rw [hl]
    exact h.level p
  · intro hne q hq hqu hqp
    rw [hpid hne] at hqp
    exact hq (h.pids q p hqu (hu hne) hqp)

theorem setPc (h : Inv s) (p : Slot) (k : Pc) : Inv (s.setPc p k) :=
  ⟨h.count, h.level, h.pids, h.dropped⟩

theorem setLockproc (h : Inv s) (k : Option Slot) : Inv { s with lockproc := k } :=
  ⟨h.count, h.level, h.pids, h.dropped⟩

theorem setTicks (h : Inv s) (n : Nat) : Inv { s with mlfqticks := n } :=
  ⟨h.count, h.level, h.pids, h.dropped⟩

/-- A process becomes RUNNABLE and gains one entry, in the queue of its level. -/
theorem enter (h : Inv s) {p : Slot} {f : Proc → Proc} {t : State}
    (hs : (s.proc p).state ≠ .runnable) (hu : (s.proc p).state ≠ .unused)
    (hf : (f (s.proc p)).state = .runnable) (hpid : (f (s.proc p)).pid = (s.proc p).pid)
    (hr : 0 ≤ (f (s.proc p)).level ∧ (f (s.proc p)).level ≤ 2)
    (ht : t.proc = (s.setProc p f).proc) (hd : t.dropped = s.dropped)
    (hq : ∀ q l, (t.queued l).count q =
      (s.queued l).count q + if q = p ∧ (f (s.proc p)).level = l then 1 else 0) : Inv t := by
  have key : ∀ c, c ≠ p → t.proc c = s.proc c := by
    intro c hc
    rw [ht, State.setProc_proc_ne _ _ _ _ hc]
  have hp : t.proc p = f (s.proc p) := by rw [ht, State.setProc_proc_self]
  constructor
  · intro q l h0 h2
    rw [hq, h.count q l h0 h2]
    by_cases hqp : q = p
    · subst hqp
      simp only [hp, hf, hs, true_and, false_and, if_false, Nat.zero_add]
    · simp only [key q hqp, hqp, false_and, if_false, Nat.add_zero]
  · intro q
    by_cases hqp : q = p
    · rw [hqp, hp]
      exact hr
    · rw [key q hqp]
      exact h.level q
  · have hold : ∀ c, (t.proc c).state ≠ .unused →
        (s.proc c).state ≠ .unused ∧ (t.proc c).pid = (s.proc c).pid := by
      intro c hc
      by_cases hcp : c = p
      · rw [hcp, hp]
        exact ⟨hu, hpid⟩
      · rw [key c hcp] at hc ⊢
        exact ⟨hc, rfl⟩
    intro a b ha hb hab
    rw [(hold a ha).2, (hold b hb).2] at hab
    exact h.pids a b (hold a ha).1 (hold b hb).1 hab
  · rw [hd]
    exact h.dropped

/-- A process that leaves RUNNING, SLEEPING or EMBRYO for RUNNABLE is put into
the queue of its level, and there is room for it. -/
theorem ready (h : Inv s) {p : Slot} (hs : (s.proc p).state ≠ .runnable)
    (hu : (s.proc p).state ≠ .unused) : Inv (s.ready p) := by
  have hr := h.level p
  have hroom : ((s.setProc p fun r => { r with state := .runnable }).L (s.proc p).level).size
      < NPROC := h.room hr.1 hr.2 (h.not_mem_of_state hr.1 hr.2 hs)
  refine h.enter (f := fun r => { r with state := .runnable }) hs hu rfl rfl hr rfl ?_ ?_
  · exact State.enqueue_dropped _ _ _ hroom
  · intro q l
    rw [State.ready, State.enqueue_queued _ _ _ _ hroom, State.setProc_queued,
      State.setProc_queued]
    by_cases hl : l = (s.proc p).level
    · rw [if_pos hl, List.count_append, List.count_singleton, ← hl]
      by_cases hqp : q = p
      · simp only [hqp, beq_self_eq_true, true_and]
      · simp only [beq_iff_eq, Ne.symm hqp, hqp, false_and]
    · rw [if_neg hl, if_neg fun hc => hl hc.2.symm, Nat.add_zero]

/-! ### The loops over the table -/

theorem wakeup1 (h : Inv s) (chan : Option Chan) : Inv (s.wakeup1 chan) := by
  refine State.foldl_keeps ?_ _ s h
  intro t p ht
  split_ifs with hc
  · exact ht.ready (by simp [hc.1]) (by simp [hc.1])
  · exact ht

theorem reparent (h : Inv s) (i : Slot) : Inv (s.reparent i) := by
  refine State.foldl_keeps ?_ _ s h
  intro t p ht
  split_ifs with hc
  · have hp : Inv (t.setProc p fun r => { r with parent := some t.initproc }) :=
      ht.setProc_keep Iff.rfl rfl id fun _ => rfl
    dsimp only
    split_ifs
    · exact hp.wakeup1 _
    · exact hp
  · exact ht

end Inv

namespace State

/-- Only a sleeping process is touched by `wakeup1`. -/
theorem wakeup1_state (s : State) (chan : Option Chan) (i : Slot)
    (hi : (s.proc i).state ≠ .sleeping) :
    ((s.wakeup1 chan).proc i).state = (s.proc i).state := by
  unfold wakeup1
  generalize List.finRange NPROC = ps
  refine foldl_keeps (P := fun t => (t.proc i).state = (s.proc i).state) ?_ ps s rfl
  intro t p ht
  split_ifs with hc
  · have hne : i ≠ p := by
      rintro rfl
      rw [ht] at hc
      exact hi hc.1
    rw [ready, enqueue_proc, setProc_proc_ne _ _ _ _ hne]
    exact ht
  · exact ht

theorem reparent_state (s : State) (j i : Slot) (hi : (s.proc i).state ≠ .sleeping) :
    ((s.reparent j).proc i).state = (s.proc i).state := by
  unfold reparent
  generalize List.finRange NPROC = ps
  refine foldl_keeps (P := fun t => (t.proc i).state = (s.proc i).state) ?_ ps s rfl
  intro t p ht
  have hp : ((t.setProc p fun r => { r with parent := some t.initproc }).proc i).state
      = (s.proc i).state := by
    by_cases hne : i = p
    · subst hne
      rw [setProc_proc_self]
      exact ht
    · rw [setProc_proc_ne _ _ _ _ hne]
      exact ht
  split_ifs with hc
  · dsimp only
    split_ifs
    · rw [wakeup1_state _ _ _ (by rw [hp]; exact hi)]
      exact hp
    · exact hp
  · exact ht

@[simp] theorem ready_pc (s : State) (p : Slot) : (s.ready p).pc = s.pc := rfl

theorem wakeup1_pc (s : State) (chan : Option Chan) : (s.wakeup1 chan).pc = s.pc := by
  unfold wakeup1
  generalize List.finRange NPROC = ps
  refine foldl_keeps (P := fun t => t.pc = s.pc) ?_ ps s rfl
  intro t p ht
  split_ifs
  · exact ht
  · exact ht

theorem reparent_pc (s : State) (i : Slot) : (s.reparent i).pc = s.pc := by
  unfold reparent
  generalize List.finRange NPROC = ps
  refine foldl_keeps (P := fun t => t.pc = s.pc) ?_ ps s rfl
  intro t p ht
  split_ifs
  · dsimp only
    split_ifs
    · rw [wakeup1_pc]
      exact ht
    · exact ht
  · exact ht

end State

/-! ### Slots under construction -/

/-- A slot that `fork` has taken stays EMBRYO until its one caller goes on. -/
structure PcInv (s : State) : Prop where
  embryo : ∀ i np, s.pc i = .fork np → (s.proc np).state = .embryo
  one : ∀ i j np, s.pc i = .fork np → s.pc j = .fork np → i = j

theorem PcInv.of_embryo {s t : State} (h : PcInv s) (hpc : t.pc = s.pc)
    (he : ∀ p, (s.proc p).state = .embryo → (t.proc p).state = .embryo) : PcInv t := by
  constructor
  · intro i np hi
    rw [hpc] at hi
    exact he np (h.embryo i np hi)
  · intro i j np hi hj
    rw [hpc] at hi hj
    exact h.one i j np hi hj

theorem PcInv.setPc {s : State} (h : PcInv s) (i : Slot) {k : Pc} (hk : ∀ np, k ≠ .fork np) :
    PcInv (s.setPc i k) := by
  have key : ∀ j np, (s.setPc i k).pc j = .fork np → s.pc j = .fork np := by
    intro j np hj
    by_cases hji : j = i
    · subst hji
      simp only [State.setPc, Function.update_self] at hj
      exact absurd hj (hk np)
    · simpa [State.setPc, hji] using hj
  exact ⟨fun j np hj => h.embryo j np (key j np hj),
    fun a b np ha hb => h.one a b np (key a np ha) (key b np hb)⟩

/-- An UNUSED slot that `allocproc` finds is in nobody's hands. -/
theorem PcInv.take {s : State} (h : PcInv s) (i : Slot) {np : Slot} {f : Proc → Proc}
    (hu : (s.proc np).state = .unused) (hf : (f (s.proc np)).state = .embryo) :
    PcInv ((s.setProc np f).setPc i (.fork np)) := by
  have hfree : ∀ j m, s.pc j = .fork m → m ≠ np := by
    rintro j m hj rfl
    have := h.embryo j m hj
    rw [hu] at this
    exact Procstate.noConfusion this
  have key : ∀ j m, ((s.setProc np f).setPc i (.fork np)).pc j = .fork m →
      (j = i ∧ m = np) ∨ (j ≠ i ∧ s.pc j = .fork m) := by
    intro j m hj
    by_cases hji : j = i
    · subst hji
      simp only [State.setPc, Function.update_self, Pc.fork.injEq] at hj
      exact Or.inl ⟨rfl, hj.symm⟩
    · right
      simpa [State.setPc, State.setProc, hji] using hj
  constructor
  · intro j m hj
    rw [State.setPc_proc]
    rcases key j m hj with ⟨-, rfl⟩ | ⟨-, hm⟩
    · rw [State.setProc_proc_self]
      exact hf
    · rw [State.setProc_proc_ne _ _ _ _ (hfree j m hm)]
      exact h.embryo j m hm
  · intro a b m ha hb
    rcases key a m ha with ⟨rfl, rfl⟩ | ⟨hai, ham⟩
    · rcases key b m hb with ⟨rfl, -⟩ | ⟨-, hbm⟩
      · rfl
      · exact absurd rfl (hfree b m hbm)
    · rcases key b m hb with ⟨rfl, rfl⟩ | ⟨-, hbm⟩
      · exact absurd rfl (hfree a m ham)
      · exact h.one a b m ham hbm

/-- The caller of `fork` gives its slot away, whatever becomes of the slot. -/
theorem PcInv.give {s t : State} (h : PcInv s) {i np : Slot} (hi : s.pc i = .fork np)
    (hpc : t.pc = s.pc) (ht : ∀ p, p ≠ np → (t.proc p).state = (s.proc p).state) :
    PcInv (t.setPc i .user) := by
  have key : ∀ j m, (t.setPc i .user).pc j = .fork m → j ≠ i ∧ s.pc j = .fork m := by
    intro j m hj
    by_cases hji : j = i
    · subst hji
      simp [State.setPc] at hj
    · refine ⟨hji, ?_⟩
      simpa [State.setPc, hji, hpc] using hj
  constructor
  · intro j m hj
    obtain ⟨hji, hm⟩ := key j m hj
    have hne : m ≠ np := by
      rintro rfl
      exact hji (h.one j i m hm hi)
    rw [State.setPc_proc, ht m hne]
    exact h.embryo j m hm
  · intro a b m ha hb
    exact h.one a b m (key a m ha).2 (key b m hb).2

end Xv6.Mlfq
