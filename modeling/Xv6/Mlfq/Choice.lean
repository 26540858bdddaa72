import Xv6.Mlfq.BoostLaw

/-!
# The choice of the scheduler

`mlfqscheduler` finds the process by the index of its queue, and removes it by its level and its
pid. Where each queued process is in the queue of its level and no two have one pid, this is the
same entry.
-/

namespace Xv6.Mlfq
open Xv6.Transition

/-- The scan for the least value stops at the first entry that has it. -/
theorem foldl_least_split (prio : Slot → Int) (ps : List Slot) (p : Slot) :
    ∃ xs ys, p :: ps = xs ++ (ps.foldl (fun p q => if prio q < prio p then q else p) p) :: ys ∧
      (∀ q ∈ xs, prio (ps.foldl (fun p q => if prio q < prio p then q else p) p) < prio q) ∧
      ∀ q ∈ ys, prio (ps.foldl (fun p q => if prio q < prio p then q else p) p) ≤ prio q := by
  induction ps generalizing p with
  | nil => exact ⟨[], [], rfl, by simp, by simp⟩
  | cons q ps ih =>
    rw [List.foldl_cons]
    by_cases hlt : prio q < prio p
    · rw [if_pos hlt]
      obtain ⟨xs, ys, hsplit, hxs, hys⟩ := ih q
      generalize ps.foldl (fun p q => if prio q < prio p then q else p) q = r at *
      have hle : prio r ≤ prio q := by
        have hmem : q ∈ xs ++ r :: ys := by
          rw [← hsplit]
          exact List.mem_cons_self
        rcases List.mem_append.mp hmem with hx | hy
        · exact (hxs q hx).le
        · rcases List.mem_cons.mp hy with heq | hy
          · rw [heq]
          · exact hys q hy
      refine ⟨p :: xs, ys, ?_, ?_, hys⟩
      · rw [hsplit, List.cons_append]
      · intro x hx
        rcases List.mem_cons.mp hx with heq | hx
        · rw [heq]
          omega
        · exact hxs x hx
    · rw [if_neg hlt]
      obtain ⟨xs, ys, hsplit, hxs, hys⟩ := ih p
      generalize ps.foldl (fun p q => if prio q < prio p then q else p) p = r at *
      cases xs with
      | nil =>
        rw [List.nil_append] at hsplit
        obtain ⟨rfl, rfl⟩ := List.cons.inj hsplit
        refine ⟨[], q :: ps, rfl, by simp, ?_⟩
        intro x hx
        rcases List.mem_cons.mp hx with heq | hx
        · rw [heq]
          omega
        · exact hys x hx
      | cons y xs =>
        rw [List.cons_append] at hsplit
        obtain ⟨rfl, rfl⟩ := List.cons.inj hsplit
        have hp := hxs p List.mem_cons_self
        refine ⟨p :: q :: xs, ys, rfl, ?_, hys⟩
        intro x hx
        rcases List.mem_cons.mp hx with heq | hx
        · rw [heq]
          exact hp
        · rcases List.mem_cons.mp hx with heq | hx
          · rw [heq]
            omega
          · exact hxs x (List.mem_cons_of_mem _ hx)

/-- `mlfqscheduler` took `p` from `L[l]`. -/
structure Dispatched (s t : State) (l : Int) (p : Slot) : Prop where
  range : 0 ≤ l ∧ l ≤ 2
  above : ∀ m, 0 ≤ m → m < l → s.queued m = []
  head : l < 2 → (s.queued l).head? = some p
  least : l = 2 → ∃ xs ys, s.queued 2 = xs ++ p :: ys ∧
    (∀ q ∈ xs, (s.proc p).priority < (s.proc q).priority) ∧
    ∀ q ∈ ys, (s.proc p).priority ≤ (s.proc q).priority
  removed : ∃ xs ys, s.queued l = xs ++ p :: ys ∧ t.queued l = xs ++ ys
  others : ∀ m, m ≠ l → t.queued m = s.queued m
  running : (t.proc p).state = .running

/-- No two queued processes have one pid. -/
def DistinctPids (s : State) : Prop :=
  ∀ l m, 0 ≤ l → l ≤ 2 → 0 ≤ m → m ≤ 2 → ∀ p ∈ s.queued l, ∀ q ∈ s.queued m,
    (s.proc p).pid = (s.proc q).pid → p = q

namespace State

variable {s : State} {p : Slot} {l : Int}

theorem account_queued (s : State) (p : Slot) (l : Int) : (s.account p).queued l = s.queued l := by
  unfold account
  dsimp only
  split_ifs <;> rfl

/-- What `choose` finds, by the queue of its level. -/
theorem choose_found (h : Placed s) (hp : s.choose = some p) :
    ∃ l, 0 ≤ l ∧ l ≤ 2 ∧ (∀ m, 0 ≤ m → m < l → s.queued m = []) ∧ (s.proc p).level = l ∧
      (l < 2 → (s.queued l).head? = some p) ∧
      (l = 2 → ∃ xs ys, s.queued 2 = xs ++ p :: ys ∧
        (∀ q ∈ xs, (s.proc p).priority < (s.proc q).priority) ∧
        ∀ q ∈ ys, (s.proc p).priority ≤ (s.proc q).priority) := by
  obtain ⟨q, hq, hqp⟩ := Option.map_eq_some_iff.mp hp
  have hempty : ∀ {m : Int}, ¬ 0 < (s.L m).size → s.queued m = [] := by
    intro m hm
    have hsize := s.size_eq m
    exact List.eq_nil_of_length_eq_zero (by omega)
  have hlow : ∀ {m : Int}, m < 2 → 0 ≤ m → 0 < (s.L m).size → (s.L m).front = q →
      (s.proc p).level = m ∧ (s.queued m).head? = some p := by
    intro m hm2 hm0 hsize hfront
    have hhead := head_queued hsize
    rw [hfront] at hhead
    have hlevel := h.level m hm0 (by omega) q (List.mem_of_head? hhead)
    rw [if_neg (by omega)] at hqp
    rw [← hqp]
    exact ⟨hlevel, hhead⟩
  rw [firstReady_eq] at hq
  split_ifs at hq with h0 h1 h2
  · obtain ⟨hlevel, hhead⟩ := hlow (by decide) le_rfl h0 (Option.some.inj hq)
    refine ⟨0, le_rfl, by decide, ?_, hlevel, fun _ => hhead, fun hc => absurd hc (by decide)⟩
    intro m hm0 hm
    omega
  · obtain ⟨hlevel, hhead⟩ := hlow (by decide) (by decide) h1 (Option.some.inj hq)
    refine ⟨1, by decide, by decide, ?_, hlevel, fun _ => hhead, fun hc => absurd hc (by decide)⟩
    intro m hm0 hm
    rw [show m = 0 by omega]
    exact hempty h0
  · have hhead := head_queued h2
    rw [Option.some.inj hq] at hhead
    obtain ⟨qs, hqs⟩ := List.head?_eq_some_iff.mp hhead
    have hlevel := h.level 2 (by decide) le_rfl
    rw [if_pos (hlevel q (List.mem_of_head? hhead)), hqs, List.tail_cons] at hqp
    obtain ⟨xs, ys, hsplit, hxs, hys⟩ := foldl_least_split (fun q => (s.proc q).priority) qs q
    rw [← hqs, hqp] at hsplit
    rw [hqp] at hxs hys
    have hmem : p ∈ s.queued 2 := by
      rw [hsplit]
      simp
    refine ⟨2, by decide, le_rfl, ?_, hlevel p hmem, fun hc => absurd hc (by decide),
      fun _ => ⟨xs, ys, hsplit, hxs, hys⟩⟩
    intro m hm0 hm
    rcases (show m = 0 ∨ m = 1 by omega) with rfl | rfl
    · exact hempty h0
    · exact hempty h1

/-- The entry that was found is the one that is removed. -/
theorem take_removed (hpids : DistinctPids s) (h0 : 0 ≤ l) (h2 : l ≤ 2)
    (hlevel : (s.proc p).level = l) {xs ys : List Slot} (hsplit : s.queued l = xs ++ p :: ys)
    (hnot : p ∉ xs) (hhead : l ≠ 2 → xs = []) :
    (s.take p).queued l = xs ++ ys ∧ ∀ m, m ≠ l → (s.take p).queued m = s.queued m := by
  have hlevel' : ((s.setProc p fun r => { r with state := .running }).proc p).level = l := by
    rw [setProc_proc_self]
    exact hlevel
  unfold take
  dsimp only
  rw [hlevel']
  by_cases hl : l = 2
  · rw [if_pos hl]
    subst hl
    refine ⟨?_, ?_⟩
    · rw [setL_queued, if_pos rfl, Queue.toList_remove]
      show (s.queued 2).eraseP _ = _
      rw [hsplit, List.eraseP_append_right, List.eraseP_cons_of_pos]
      · simp
      · intro x hx
        have hxp : x ≠ p := by
          rintro rfl
          exact hnot hx
        have hxmem : x ∈ s.queued 2 := by
          rw [hsplit]
          exact List.mem_append_left _ hx
        have hpmem : p ∈ s.queued 2 := by
          rw [hsplit]
          simp
        rw [setProc_proc_ne _ _ _ _ hxp, setProc_proc_self, decide_eq_true_eq]
        intro heq
        exact hxp (hpids 2 2 h0 h2 h0 h2 x hxmem p hpmem heq)
    · intro m hm
      rw [setL_queued, if_neg hm]
      rfl
  · rw [if_neg hl]
    refine ⟨?_, ?_⟩
    · rw [setL_queued, if_pos rfl, Queue.toList_dequeue]
      show (s.queued l).tail = _
      rw [hsplit, hhead hl]
      rfl
    · intro m hm
      rw [setL_queued, if_neg hm]
      rfl

end State

open State

/-- What was found in the queue of its level is taken out of it. -/
theorem dispatched_of_choose {s : State} (h : Placed s) (hpids : DistinctPids s) {p : Slot}
    (hp : s.choose = some p) : Dispatched s ((s.take p).account p) (s.proc p).level p := by
  obtain ⟨l, h0, h2, habove, hlevel, hhead, hleast⟩ := choose_found h hp
  rw [hlevel]
  have hsplit : ∃ xs ys, s.queued l = xs ++ p :: ys ∧ (l ≠ 2 → xs = []) := by
    by_cases hl : l = 2
    · obtain ⟨xs, ys, hq, -, -⟩ := hleast hl
      rw [hl]
      exact ⟨xs, ys, hq, fun hne => absurd rfl hne⟩
    · obtain ⟨qs, hqs⟩ := List.head?_eq_some_iff.mp (hhead (by omega))
      exact ⟨[], qs, hqs, fun _ => rfl⟩
  obtain ⟨xs, ys, hq, hxs⟩ := hsplit
  have hnodup := h.nodup l h0 h2
  rw [hq, List.nodup_append] at hnodup
  have hnot : p ∉ xs := fun hmem => hnodup.2.2 p hmem p List.mem_cons_self rfl
  obtain ⟨htaken, hothers⟩ := take_removed hpids h0 h2 hlevel hq hnot hxs
  refine ⟨⟨h0, h2⟩, habove, hhead, hleast, ⟨xs, ys, hq, ?_⟩, ?_, ?_⟩
  · rw [account_queued]
    exact htaken
  · intro m hm
    rw [account_queued]
    exact hothers m hm
  · rw [account_state, Inv.take_proc_self]

/-- With queues, pids and levels in order, the scheduler dispatches the first process of the first
queue, or the best one of `L[2]`, and takes exactly it out of its queue. -/
theorem mlfqscheduler_dispatched {s : State} (h : Placed s) (hpids : DistinctPids s) :
    (s.mlfqscheduler = none ↔ ∀ l, 0 ≤ l → l ≤ 2 → s.queued l = []) ∧
      ∀ t, s.mlfqscheduler = some t → ∃ l p, Dispatched s t l p := by
  constructor
  · unfold State.mlfqscheduler choose
    rw [Option.map_eq_none_iff, Option.map_eq_none_iff, firstReady_eq]
    have hnil : ∀ m, ¬ 0 < (s.L m).size ↔ s.queued m = [] := by
      intro m
      rw [size_eq, List.length_pos_iff, not_not]
    constructor
    · intro hnone
      split_ifs at hnone with h0 h1 h2
      intro l hl0 hl2
      rcases (show l = 0 ∨ l = 1 ∨ l = 2 by omega) with rfl | rfl | rfl
      · exact (hnil 0).mp h0
      · exact (hnil 1).mp h1
      · exact (hnil 2).mp h2
    · intro hempty
      rw [if_neg ((hnil 0).mpr (hempty 0 le_rfl (by decide))),
        if_neg ((hnil 1).mpr (hempty 1 (by decide) (by decide))),
        if_neg ((hnil 2).mpr (hempty 2 (by decide) le_rfl))]
  · intro t ht
    obtain ⟨p, hp, rfl⟩ := Option.map_eq_some_iff.mp ht
    exact ⟨(s.proc p).level, p, dispatched_of_choose h hpids hp⟩

/-- Two processes wait in `L[0]`. -/
def twoWaiting : State :=
  (run step userinit [.mlfqscheduler, .allocproc 0, .fork 0, .allocproc 0, .fork 0]).getD userinit

theorem mlfqscheduler_dispatched_twoWaiting :
    (twoWaiting.mlfqscheduler = none ↔ ∀ l, 0 ≤ l → l ≤ 2 → twoWaiting.queued l = []) ∧
      ∀ t, twoWaiting.mlfqscheduler = some t → ∃ l p, Dispatched twoWaiting t l p := by
  have hqueues : twoWaiting.queued 0 = [1, 2] ∧ twoWaiting.queued 1 = [] ∧
      twoWaiting.queued 2 = [] ∧ (twoWaiting.proc 1).level = 0 ∧ (twoWaiting.proc 2).level = 0 ∧
      (twoWaiting.proc 1).pid ≠ (twoWaiting.proc 2).pid := by decide +kernel
  obtain ⟨h0, h1, h2, hl1, hl2, hne⟩ := hqueues
  have hmem : ∀ l, 0 ≤ l → l ≤ 2 → ∀ p ∈ twoWaiting.queued l, l = 0 ∧ (p = 1 ∨ p = 2) := by
    intro l hl0 hl2 p hp
    rcases (show l = 0 ∨ l = 1 ∨ l = 2 by omega) with rfl | rfl | rfl
    · rw [h0] at hp
      simp only [List.mem_cons, List.not_mem_nil, or_false] at hp
      exact ⟨rfl, hp⟩
    · rw [h1] at hp
      cases hp
    · rw [h2] at hp
      cases hp
  apply mlfqscheduler_dispatched
  · decide +kernel
  · intro l m hl0 hl2 hm0 hm2 p hp q hq hpid
    rcases (hmem l hl0 hl2 p hp).2 with rfl | rfl
    · rcases (hmem m hm0 hm2 q hq).2 with rfl | rfl
      · rfl
      · exact absurd hpid hne
    · rcases (hmem m hm0 hm2 q hq).2 with rfl | rfl
      · exact absurd hpid.symm hne
      · rfl

end Xv6.Mlfq
