import Mathlib.Data.List.Perm.Basic
import Xv6.Mlfq.Invariant

/-!
# Dispatching (project1/proc.c:724-789)

`choose` always finds a queued process, hence a RUNNABLE one, and `take` removes
exactly that process from its queue.
-/

namespace Xv6.Mlfq

namespace State

variable {s : State}

theorem head_queued {l : Int} (h : 0 < (s.L l).size) :
    (s.queued l).head? = some (s.L l).front := by
  have hlen : 0 < (s.queued l).length := by
    rw [← size_eq]
    exact h
  rw [List.head?_eq_getElem?, List.getElem?_eq_getElem hlen]
  exact congrArg some (Queue.getElem_toList (s.L l) 0 hlen (Nat.succ_pos _))

theorem firstReady_eq (s : State) : s.firstReady =
    if 0 < (s.L 0).size then some (s.L 0).front
    else if 0 < (s.L 1).size then some (s.L 1).front
    else if 0 < (s.L 2).size then some (s.L 2).front else none := by
  unfold firstReady
  simp only [List.findSome?_cons, List.findSome?_nil]
  split_ifs <;> rfl

theorem firstReady_spec {p : Slot} (h : s.firstReady = some p) :
    ∃ l, 0 ≤ l ∧ l ≤ 2 ∧ (s.queued l).head? = some p := by
  obtain ⟨l, hl, hp⟩ := List.exists_of_findSome?_eq_some h
  have h0 : 0 ≤ l ∧ l ≤ 2 := by
    simp only [List.mem_cons, List.not_mem_nil, or_false] at hl
    omega
  split_ifs at hp with hsize
  refine ⟨l, h0.1, h0.2, ?_⟩
  rw [head_queued hsize]
  exact hp

/-- The scan of `L[2]` ends at its first entry or at another entry of it. -/
theorem foldl_least_mem (ps : List Slot) (p : Slot) :
    ps.foldl (fun p q => if (s.proc q).priority < (s.proc p).priority then q else p) p
      ∈ p :: ps := by
  induction ps generalizing p with
  | nil => simp
  | cons q ps ih =>
    simp only [List.foldl_cons]
    split_ifs
    · exact List.mem_cons_of_mem _ (ih q)
    · rcases List.mem_cons.mp (ih p) with hp | hp
      · rw [hp]
        exact List.mem_cons_self
      · exact List.mem_cons_of_mem _ (List.mem_cons_of_mem _ hp)

end State

namespace Inv

variable {s : State} {p : Slot}

/-- What `choose` returns: a RUNNABLE process, at the head of its queue unless
that is `L[2]`. -/
theorem choose_spec (h : Inv s) (hp : s.choose = some p) :
    (s.proc p).state = .runnable ∧
      ((s.proc p).level ≠ 2 → (s.queued (s.proc p).level).head? = some p) := by
  obtain ⟨q, hq, hqp⟩ := Option.map_eq_some_iff.mp hp
  obtain ⟨l, h0, h2, hhead⟩ := State.firstReady_spec hq
  have hmem := (h.mem_queued h0 h2).mp (List.mem_of_head? hhead)
  by_cases hl : (s.proc q).level = 2
  · rw [if_pos hl] at hqp
    have hl2 : l = 2 := by
      rw [← hmem.2]
      exact hl
    subst hl2
    have hin : p ∈ s.queued 2 := by
      have hc := State.foldl_least_mem (s.queued 2).tail q (s := s)
      rw [hqp] at hc
      rcases List.mem_cons.mp hc with rfl | ht
      · exact List.mem_of_head? hhead
      · exact List.mem_of_mem_tail ht
    have hpm := (h.mem_queued h0 h2).mp hin
    exact ⟨hpm.1, fun hne => absurd hpm.2 hne⟩
  · rw [if_neg hl] at hqp
    subst hqp
    refine ⟨hmem.1, fun _ => ?_⟩
    rw [hmem.2]
    exact hhead

theorem take_proc_ne (s : State) {p q : Slot} (hq : q ≠ p) : (s.take p).proc q = s.proc q := by
  simp only [State.take]
  split_ifs <;> simp [hq]

theorem take_proc_self (s : State) (p : Slot) :
    (s.take p).proc p = { s.proc p with state := .running } := by
  simp only [State.take]
  split_ifs <;> simp

/-- The removal drops one entry of `p` and nothing else. -/
theorem take_queued (h : Inv s) (hs : (s.proc p).state = .runnable)
    (hhead : (s.proc p).level ≠ 2 → (s.queued (s.proc p).level).head? = some p) (l : Int) :
    (s.take p).queued l =
      if l = (s.proc p).level then (s.queued l).erase p else s.queued l := by
  simp only [State.take, State.setProc_proc_self]
  by_cases hl : (s.proc p).level = 2
  · rw [if_pos hl, State.setL_queued, hl, Queue.toList_remove]
    split_ifs with h2
    · subst h2
      have hpids : ∀ q ∈ s.queued 2,
          decide ((((s.setProc p fun r => { r with state := .running }).proc q).pid)
            = (s.proc p).pid) = (q == p) := by
        intro q hq
        have hqm := (h.mem_queued (by omega) (by omega)).mp hq
        by_cases hqp : q = p
        · subst hqp
          simp
        · rw [State.setProc_proc_ne _ _ _ _ hqp]
          have hne : (s.proc q).pid ≠ (s.proc p).pid := fun he =>
            hqp (h.pids q p (by simp [hqm.1]) (by simp [hs]) he)
          simp [hqp, hne]
      rw [List.erase_eq_eraseP']
      show (s.queued 2).eraseP _ = _
      clear hhead
      generalize s.queued 2 = qs at hpids
      induction qs with
      | nil => rfl
      | cons q qs ih =>
        have hq := hpids q List.mem_cons_self
        simp only [List.eraseP_cons]
        rw [hq, ih fun x hx => hpids x (List.mem_cons_of_mem _ hx)]
    · rfl
  · rw [if_neg hl, State.setL_queued, Queue.toList_dequeue]
    split_ifs with h2
    · subst h2
      have hhd := hhead hl
      show (s.queued _).tail = _
      cases hqs : s.queued (s.proc p).level with
      | nil =>
        rw [hqs] at hhd
        cases hhd
      | cons q qs =>
        rw [hqs] at hhd
        cases hhd
        simp
    · rfl

theorem take (h : Inv s) (hp : s.choose = some p) : Inv (s.take p) := by
  obtain ⟨hs, hhead⟩ := h.choose_spec hp
  have hq := h.take_queued hs hhead
  constructor
  · intro q l h0 h2
    rw [hq l]
    have hc := h.count q l h0 h2
    by_cases hqp : q = p
    · subst hqp
      rw [take_proc_self]
      simp only [reduceCtorEq, false_and, if_false]
      split_ifs with hl
      · rw [List.count_erase_self, hc, if_pos ⟨hs, hl.symm⟩]
      · rw [hc, if_neg]
        exact fun hcc => hl hcc.2.symm
    · rw [take_proc_ne s hqp]
      split_ifs with hl
      · rw [List.count_erase_of_ne hqp, hc]
        simp_all
      · rw [List.count_erase_of_ne hqp, hc]
        simp_all
      all_goals simp_all
  · intro q
    by_cases hqp : q = p
    · subst hqp
      rw [take_proc_self]
      exact h.level q
    · rw [take_proc_ne s hqp]
      exact h.level q
  · have key : ∀ a, ((s.take p).proc a).state ≠ .unused →
        (s.proc a).state ≠ .unused ∧ ((s.take p).proc a).pid = (s.proc a).pid := by
      intro a ha
      by_cases hap : a = p
      · subst hap
        rw [take_proc_self]
        exact ⟨by simp [hs], rfl⟩
      · rw [take_proc_ne s hap] at ha ⊢
        exact ⟨ha, rfl⟩
    intro a b ha hb hab
    rw [(key a ha).2, (key b hb).2] at hab
    exact h.pids a b (key a ha).1 (key b hb).1 hab
  · have hd : (s.take p).dropped = s.dropped := by
      simp only [State.take]
      split_ifs <;> rfl
    rw [hd]
    exact h.dropped

/-- The accounting only concerns the running process. -/
theorem account (h : Inv s) (hs : (s.proc p).state = .running) : Inv (s.account p) := by
  have hr := h.level p
  have h1 : Inv (s.setProc p fun r => { r with usedtime := r.usedtime + 1 }) :=
    h.setProc_keep Iff.rfl rfl id fun _ => rfl
  simp only [State.account]
  split_ifs with ht hl
  · refine h1.setProc (by simp [hs]) (by simp [hs]) ?_ ?_
    · simp only [State.setProc_proc_self] at hl ⊢
      omega
    · intro _ q hq hqu hpid
      refine hq (h1.pids q p hqu (by simp [hs]) hpid)
  · exact h1.setProc_keep (by simp [hs]) rfl (by simp [hs]) fun _ => rfl
  · exact h1

theorem mlfqscheduler (h : Inv s) {t : State} (ht : s.mlfqscheduler = some t) : Inv t := by
  obtain ⟨p, hp, rfl⟩ := Option.map_eq_some_iff.mp ht
  exact (h.take hp).account (by rw [take_proc_self])

end Inv

theorem account_state (s : State) (p q : Slot) :
    ((s.account p).proc q).state = (s.proc q).state := by
  simp only [State.account]
  by_cases hq : q = p
  · subst hq
    split_ifs <;> simp
  · split_ifs <;> simp [hq]

theorem account_proc_ne (s : State) {p q : Slot} (hq : q ≠ p) :
    (s.account p).proc q = s.proc q := by
  simp only [State.account]
  split_ifs <;> simp [hq]

end Xv6.Mlfq
