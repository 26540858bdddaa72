import Xv6.Mlfq.Dispatch

/-!
# Priority boosting (project1/proc.c:792-821)

The inner loop of `priorityboosting` compares a growing counter with the size of
the queue that it empties, so it stops half way: `boostQueue_queued` says which
half of `L[1]` and `L[2]` reaches `L[0]`. The lock holder loses its level
wherever it is; `LeftBehind` is the case in which that separates the level from
the queue.
-/

namespace Xv6.Mlfq

/-- The values that boosting gives to a process. -/
def Proc.boosted (r : Proc) : Proc := { r with priority := 3, usedtime := 0, level := 0 }

namespace State

variable (s : State) (i : Int)

theorem boostOne_proc (q : Slot) :
    (s.boostOne i).proc q =
      if q = (s.L i).front then (s.proc q).boosted else s.proc q := by
  simp only [boostOne]
  by_cases hq : q = (s.L i).front
  · subst hq
    rw [if_pos rfl]
    split_ifs <;> simp [Proc.boosted]
  · rw [if_neg hq]
    split_ifs <;> simp [hq]

theorem boostOne_lockproc : (s.boostOne i).lockproc = s.lockproc := by
  simp only [boostOne]
  split_ifs <;> rfl

theorem boostOne_pc : (s.boostOne i).pc = s.pc := by
  simp only [boostOne]
  split_ifs <;> rfl

theorem boostOne_zero_queued (l : Int) : (s.boostOne 0).queued l = s.queued l := rfl

theorem boostOne_queued {i : Int} (hi : 0 < i) (hroom : (s.L 0).size < NPROC) (l : Int) :
    (s.boostOne i).queued l =
      if l = 0 then s.queued 0 ++ [(s.L i).front]
      else if l = i then (s.queued i).tail else s.queued l := by
  have hL0 : (s.setL i (s.L i).dequeue).L 0 = s.L 0 := by
    simp [setL, (show (0 : Int) ≠ i by omega)]
  simp only [boostOne, if_pos hi]
  rw [enqueue_queued _ _ _ _ (by
    show ((s.setL i (s.L i).dequeue).L 0).size < NPROC
    rw [hL0]
    exact hroom)]
  split_ifs with h0 h1
  · rw [setL_queued, if_neg (by omega)]
    rfl
  · rw [setL_queued, if_pos h1, setProc_L, Queue.toList_dequeue]
    rfl
  · rw [setL_queued, if_neg h1]
    rfl

end State

/-- Every queued process is queued once, in the queue of its level. -/
structure Placed (s : State) : Prop where
  nodup : ∀ l, 0 ≤ l → l ≤ 2 → (s.queued l).Nodup
  level : ∀ l, 0 ≤ l → l ≤ 2 → ∀ p ∈ s.queued l, (s.proc p).level = l

namespace Placed

variable {s : State} {i : Int}

theorem level_front (h : Placed s) (h0 : 0 ≤ i) (h2 : i ≤ 2) (hn : 0 < (s.L i).size) :
    (s.proc (s.L i).front).level = i :=
  h.level i h0 h2 _ (List.mem_of_head? (State.head_queued hn))

theorem room_zero (h : Placed s) (hi : 0 < i) (h2 : i ≤ 2) (hn : 0 < (s.L i).size) :
    (s.L 0).size < NPROC := by
  have hnot : (s.L i).front ∉ s.queued 0 := by
    intro hc
    have hz := h.level 0 le_rfl (by omega) _ hc
    have hf := h.level_front hi.le h2 hn
    omega
  have hnd : ((s.L i).front :: s.queued 0).Nodup :=
    List.nodup_cons.mpr ⟨hnot, h.nodup 0 le_rfl (by omega)⟩
  have hle := hnd.length_le_card
  simp only [List.length_cons, Fintype.card_fin] at hle
  rw [State.size_eq]
  omega

theorem boostOne (h : Placed s) (h0 : 0 ≤ i) (h2 : i ≤ 2) (hn : 0 < (s.L i).size) :
    Placed (s.boostOne i) := by
  have hfront := h.level_front h0 h2 hn
  by_cases hi : 0 < i
  · have hq := State.boostOne_queued s hi (h.room_zero hi h2 hn)
    obtain ⟨qs, hqs⟩ := List.head?_eq_some_iff.mp (State.head_queued hn)
    have hnd := h.nodup i h0 h2
    rw [hqs, List.nodup_cons] at hnd
    constructor
    · intro l hl0 hl2
      rw [hq]
      split_ifs with hl hli
      · have hnot : (s.L i).front ∉ s.queued 0 := by
          intro hc
          have hz := h.level 0 le_rfl (by omega) _ hc
          omega
        exact List.Nodup.append (h.nodup 0 le_rfl (by omega)) (List.nodup_singleton _)
          (List.disjoint_singleton.mpr hnot)
      · rw [hqs, List.tail_cons]
        exact hnd.2
      · exact h.nodup l hl0 hl2
    · intro l hl0 hl2 q hmem
      rw [hq] at hmem
      rw [State.boostOne_proc]
      split_ifs at hmem with hl hli
      · rcases List.mem_append.mp hmem with hm | hm
        · have hz := h.level 0 le_rfl (by omega) q hm
          split_ifs
          · exact hl.symm
          · rw [hz, hl]
        · rw [if_pos (List.mem_singleton.mp hm)]
          exact hl.symm
      · rw [hqs, List.tail_cons] at hmem
        have hne : q ≠ (s.L i).front := by
          intro hc
          rw [hc] at hmem
          exact hnd.1 hmem
        have hin : q ∈ s.queued i := by
          rw [hqs]
          exact List.mem_cons_of_mem _ hmem
        rw [if_neg hne, hli]
        exact h.level i h0 h2 q hin
      · have hlev := h.level l hl0 hl2 q hmem
        rw [if_neg, hlev]
        intro hc
        rw [hc] at hlev
        omega
  · have hi0 : i = 0 := by omega
    subst hi0
    constructor
    · intro l hl0 hl2
      rw [State.boostOne_zero_queued]
      exact h.nodup l hl0 hl2
    · intro l hl0 hl2 q hmem
      rw [State.boostOne_zero_queued] at hmem
      have hlev := h.level l hl0 hl2 q hmem
      rw [State.boostOne_proc]
      split_ifs with hc
      · rw [hc, hfront] at hlev
        exact hlev
      · exact hlev

theorem boostLoop (h0 : 0 ≤ i) (h2 : i ≤ 2) (rounds n : Nat) {s : State} (h : Placed s) :
    Placed (State.boostLoop i rounds n s) := by
  induction rounds generalizing n s with
  | zero => exact h
  | succ rounds ih =>
    rw [State.boostLoop]
    split_ifs with hn
    · exact ih (n + 1) (h.boostOne h0 h2 (by omega))
    · exact h

theorem boostQueue (h : Placed s) (h0 : 0 ≤ i) (h2 : i ≤ 2) : Placed (s.boostQueue i) :=
  boostLoop h0 h2 _ _ h

end Placed

namespace Inv

variable {s : State} {i : Int}

theorem placed (h : Inv s) : Placed s :=
  ⟨fun _ h0 h2 => h.nodup h0 h2, fun _ h0 h2 _ hp => ((h.mem_queued h0 h2).mp hp).2⟩

theorem head_spec (h : Inv s) (h0 : 0 ≤ i) (h2 : i ≤ 2) (hn : 0 < (s.L i).size) :
    (s.proc (s.L i).front).state = .runnable ∧ (s.proc (s.L i).front).level = i :=
  (h.mem_queued h0 h2).mp (List.mem_of_head? (State.head_queued hn))

theorem boostOne (h : Inv s) (h0 : 0 ≤ i) (h2 : i ≤ 2) (hn : 0 < (s.L i).size) :
    Inv (s.boostOne i) := by
  have hhead := h.head_spec h0 h2 hn
  by_cases hi : 0 < i
  · have hroom := h.placed.room_zero hi h2 hn
    have hhd := State.head_queued hn
    constructor
    · intro q l hl0 hl2
      rw [State.boostOne_queued s hi hroom, State.boostOne_proc]
      have hc := h.count q l hl0 hl2
      generalize (s.L i).front = p at hhead hhd
      by_cases hq : q = p
      · subst hq
        have hci := h.count q i h0 h2
        have hc0 := h.count q 0 le_rfl (by omega)
        rw [if_pos hhead] at hci
        rw [if_neg (by rw [hhead.2]; omega)] at hc0
        simp only [if_true, Proc.boosted, hhead.1, true_and, @eq_comm _ 0 l]
        split_ifs with hl hli
        · rw [List.count_append, hc0]
          simp
        · obtain ⟨qs, hqs⟩ := List.head?_eq_some_iff.mp hhd
          rw [hqs, List.count_cons_self] at hci
          rw [hqs, List.tail_cons]
          omega
        · rw [hc, if_neg]
          rw [hhead.2]
          omega
      · rw [if_neg hq, ← hc]
        split_ifs with hl hli
        · subst hl
          rw [List.count_append]
          simp [Ne.symm hq]
        · obtain ⟨qs, hqs⟩ := List.head?_eq_some_iff.mp hhd
          rw [hli, hqs, List.tail_cons, List.count_cons_of_ne (Ne.symm hq)]
        · rfl
    · intro q
      rw [State.boostOne_proc]
      split_ifs
      · exact ⟨le_rfl, by simp [Proc.boosted]⟩
      · exact h.level q
    · intro a b ha hb hab
      have key : ∀ c, ((s.boostOne i).proc c).state = (s.proc c).state ∧
          ((s.boostOne i).proc c).pid = (s.proc c).pid := by
        intro c
        rw [State.boostOne_proc]
        split_ifs <;> exact ⟨rfl, rfl⟩
      rw [(key a).1] at ha
      rw [(key b).1] at hb
      rw [(key a).2, (key b).2] at hab
      exact h.pids a b ha hb hab
    · have hL0 : (s.setL i (s.L i).dequeue).L 0 = s.L 0 := by
        simp [State.setL, (show (0 : Int) ≠ i by omega)]
      simp only [State.boostOne, if_pos hi]
      rw [State.enqueue_dropped]
      · exact h.dropped
      · show ((s.setL i (s.L i).dequeue).L 0).size < NPROC
        rw [hL0]
        exact hroom
  · have hi0 : i = 0 := by omega
    subst hi0
    exact h.setProc_keep (f := fun r => { r with priority := 3, usedtime := 0, level := 0 })
      Iff.rfl hhead.2.symm id fun _ => rfl

/-- The loop keeps the invariant; a growing counter never meets an empty queue. -/
theorem boostLoop (h0 : 0 ≤ i) (h2 : i ≤ 2) (rounds n : Nat) {s : State} (h : Inv s) :
    Inv (State.boostLoop i rounds n s) := by
  induction rounds generalizing n s with
  | zero => exact h
  | succ rounds ih =>
    rw [State.boostLoop]
    split_ifs with hn
    · exact ih (n + 1) (h.boostOne h0 h2 (by omega))
    · exact h

theorem boostQueue (h : Inv s) (h0 : 0 ≤ i) (h2 : i ≤ 2) : Inv (s.boostQueue i) :=
  boostLoop h0 h2 _ _ h

end Inv

/-- How many entries of a queue with `n` entries the loop moves. -/
def moved (n : Nat) : Nat := (n + 1) / 2

namespace State

/-- What the inner loop does, from counter value `n` on. -/
theorem boostLoop_spec {i : Int} (hi : 0 < i) (h2 : i ≤ 2) (rounds n : Nat) {s : State}
    (h : Placed s) (hr : moved ((s.L i).size - n) ≤ rounds) :
    (boostLoop i rounds n s).queued i = (s.queued i).drop (moved ((s.L i).size - n)) ∧
    (boostLoop i rounds n s).queued 0 =
      s.queued 0 ++ (s.queued i).take (moved ((s.L i).size - n)) ∧
    (∀ l, l ≠ 0 → l ≠ i → (boostLoop i rounds n s).queued l = s.queued l) ∧
    (∀ q, (boostLoop i rounds n s).proc q =
      if q ∈ (s.queued i).take (moved ((s.L i).size - n)) then (s.proc q).boosted
      else s.proc q) := by
  induction rounds generalizing n s with
  | zero =>
    have hm : moved ((s.L i).size - n) = 0 := by omega
    simp [boostLoop, hm]
  | succ rounds ih =>
    rw [boostLoop]
    by_cases hn : n < (s.L i).size
    · rw [if_pos hn]
      have hpos : 0 < (s.L i).size := by omega
      have hq := boostOne_queued s hi (h.room_zero hi h2 hpos)
      have hqi : (s.boostOne i).queued i = (s.queued i).tail := by
        rw [hq i, if_neg (by omega), if_pos rfl]
      have hsize : ((s.boostOne i).L i).size = (s.L i).size - 1 := by
        rw [size_eq, hqi, List.length_tail, size_eq]
      have hm : moved ((s.L i).size - n)
          = moved (((s.boostOne i).L i).size - (n + 1)) + 1 := by
        rw [hsize]
        unfold moved
        omega
      obtain ⟨qs, hqs⟩ := List.head?_eq_some_iff.mp (head_queued hpos)
      obtain ⟨hi1, hz1, hl1, hp1⟩ := ih (n + 1) (h.boostOne hi.le h2 hpos) (by omega)
      refine ⟨?_, ?_, ?_, ?_⟩
      · rw [hi1, hqi, hm, hqs]
        rfl
      · rw [hz1, hqi, hm, hqs, hq 0, if_pos rfl, List.tail_cons, List.take_succ_cons,
          List.append_assoc]
        rfl
      · intro l hl0 hli
        rw [hl1 l hl0 hli, hq l, if_neg hl0, if_neg hli]
      · intro q
        rw [hp1 q, hqi, hm, hqs, List.tail_cons, List.take_succ_cons, boostOne_proc]
        have hnd := h.nodup i hi.le h2
        rw [hqs] at hnd
        by_cases hqh : q = (s.L i).front
        · have hnot : (s.L i).front ∉ qs := (List.nodup_cons.mp hnd).1
          rw [hqh, if_neg fun hmem => hnot (List.mem_of_mem_take hmem), if_pos rfl,
            if_pos List.mem_cons_self]
        · simp only [List.mem_cons, hqh, false_or, if_false]
    · rw [if_neg hn]
      have hm : moved ((s.L i).size - n) = 0 := by
        unfold moved
        omega
      simp [hm]

theorem boostQueue_spec {i : Int} (hi : 0 < i) (h2 : i ≤ 2) {s : State} (h : Placed s) :
    (s.boostQueue i).queued i = (s.queued i).drop (moved (s.L i).size) ∧
    (s.boostQueue i).queued 0 = s.queued 0 ++ (s.queued i).take (moved (s.L i).size) ∧
    (∀ l, l ≠ 0 → l ≠ i → (s.boostQueue i).queued l = s.queued l) ∧
    (∀ q, (s.boostQueue i).proc q =
      if q ∈ (s.queued i).take (moved (s.L i).size) then (s.proc q).boosted else s.proc q) := by
  have hs := boostLoop_spec hi h2 (s.L i).size 0 h (by
    unfold moved
    omega)
  rw [Nat.sub_zero] at hs
  exact hs

/-- On `L[0]` every round meets the same front entry. -/
theorem boostLoop_zero_proc (rounds n : Nat) (s : State) (q : Slot) :
    (boostLoop 0 rounds n s).proc q =
      if 0 < rounds ∧ n < (s.L 0).size ∧ q = (s.L 0).front then (s.proc q).boosted
      else s.proc q := by
  induction rounds generalizing n s with
  | zero => simp [boostLoop]
  | succ rounds ih =>
    rw [boostLoop]
    by_cases hn : n < (s.L 0).size
    · rw [if_pos hn, ih, boostOne_proc]
      have hL : (s.boostOne 0).L 0 = s.L 0 := rfl
      rw [hL]
      by_cases hq : q = (s.L 0).front
      · simp only [hq, if_true, and_true, hn, Nat.succ_pos]
        split_ifs <;> rfl
      · simp only [hq, if_false, and_false]
    · simp only [hn, if_false, false_and, and_false]

theorem boostQueue_zero_proc (s : State) (q : Slot) :
    (s.boostQueue 0).proc q =
      if q ∈ (s.queued 0).take 1 then (s.proc q).boosted else s.proc q := by
  rw [boostQueue, boostLoop_zero_proc]
  by_cases hn : 0 < (s.L 0).size
  · obtain ⟨qs, hqs⟩ := List.head?_eq_some_iff.mp (head_queued hn)
    simp [hn, hqs]
  · have hnil : s.queued 0 = [] := by
      apply List.eq_nil_of_length_eq_zero
      rw [← size_eq]
      omega
    simp [hn, hnil]

theorem boostLoop_keeps {P : State → Prop} {i : Int} (hP : ∀ t, P t → P (t.boostOne i))
    (rounds n : Nat) {s : State} (h : P s) : P (boostLoop i rounds n s) := by
  induction rounds generalizing n s with
  | zero => exact h
  | succ rounds ih =>
    rw [boostLoop]
    split_ifs
    · exact ih (n + 1) (hP s h)
    · exact h

theorem boostQueue_lockproc (s : State) (i : Int) : (s.boostQueue i).lockproc = s.lockproc :=
  boostLoop_keeps (P := fun t => t.lockproc = s.lockproc)
    (fun t ht => (boostOne_lockproc t i).trans ht) _ _ rfl

theorem boostQueue_pc (s : State) (i : Int) : (s.boostQueue i).pc = s.pc :=
  boostLoop_keeps (P := fun t => t.pc = s.pc) (fun t ht => (boostOne_pc t i).trans ht) _ _ rfl

theorem boostQueue_state (s : State) (i : Int) (p : Slot) :
    ((s.boostQueue i).proc p).state = (s.proc p).state := by
  refine boostLoop_keeps (P := fun t => (t.proc p).state = (s.proc p).state) ?_ _ _ rfl
  intro t ht
  rw [boostOne_proc]
  split_ifs
  · exact ht
  · exact ht

theorem boostQueue_level_zero (s : State) (i : Int) (p : Slot) (h : (s.proc p).level = 0) :
    ((s.boostQueue i).proc p).level = 0 := by
  refine boostLoop_keeps (P := fun t => (t.proc p).level = 0) ?_ _ _ h
  intro t ht
  rw [boostOne_proc]
  split_ifs
  · rfl
  · exact ht

theorem boostQueue_zero_queued (s : State) (l : Int) :
    (s.boostQueue 0).queued l = s.queued l :=
  boostLoop_keeps (P := fun t => t.queued l = s.queued l)
    (fun t ht => (boostOne_zero_queued t l).trans ht) _ _ rfl

/-- Boosting the three queues, before the lock is looked at. -/
def boostQueues (s : State) : State := ((s.boostQueue 0).boostQueue 1).boostQueue 2

theorem boostQueues_lockproc (s : State) : s.boostQueues.lockproc = s.lockproc := by
  simp only [boostQueues, boostQueue_lockproc]

theorem boostQueues_state (s : State) (p : Slot) : (s.boostQueues.proc p).state = (s.proc p).state := by
  simp only [boostQueues, boostQueue_state]

/-- The second half of `L[1]` and of `L[2]` stays where it is. -/
theorem boostQueues_queued (h : Placed s) {l : Int} (h0 : 0 < l) (h2 : l ≤ 2) :
    s.boostQueues.queued l = (s.queued l).drop (moved (s.L l).size) := by
  have hi0 := h.boostQueue (i := 0) le_rfl (by omega)
  have hi1 := hi0.boostQueue (i := 1) (by omega) (by omega)
  have hs1 := boostQueue_spec (i := 1) (by omega) (by omega) hi0
  have hs2 := boostQueue_spec (i := 2) (by omega) le_rfl hi1
  rcases (show l = 1 ∨ l = 2 by omega) with rfl | rfl
  · rw [boostQueues, hs2.2.2.1 1 (by omega) (by omega), hs1.1, size_eq, boostQueue_zero_queued,
      size_eq]
  · rw [boostQueues, hs2.1, size_eq, hs1.2.2.1 2 (by omega) (by omega), boostQueue_zero_queued,
      size_eq]

/-- A process in the first half of its queue comes out at level 0. -/
theorem boostQueues_level (h : Placed s) (hr : 0 ≤ (s.proc p).level ∧ (s.proc p).level ≤ 2)
    (hp : p ∈ (s.queued (s.proc p).level).take (moved (s.L (s.proc p).level).size)) :
    (s.boostQueues.proc p).level = 0 := by
  have hi0 := h.boostQueue (i := 0) le_rfl (by omega)
  have hi1 := hi0.boostQueue (i := 1) (by omega) (by omega)
  rcases (show (s.proc p).level = 0 ∨ (s.proc p).level = 1 ∨ (s.proc p).level = 2 by omega)
    with hl | hl | hl
  · refine boostQueue_level_zero _ _ _ (boostQueue_level_zero _ _ _ ?_)
    exact boostQueue_level_zero _ _ _ hl
  · refine boostQueue_level_zero _ _ _ ?_
    rw [(boostQueue_spec (i := 1) (by omega) (by omega) hi0).2.2.2, if_pos]
    · rfl
    · rw [boostQueue_zero_queued, size_eq, boostQueue_zero_queued, ← size_eq, ← hl]
      exact hp
  · have hs1 := boostQueue_spec (i := 1) (by omega) (by omega) hi0
    have hq2 : ((s.boostQueue 0).boostQueue 1).queued 2 = s.queued 2 := by
      rw [hs1.2.2.1 2 (by omega) (by omega), boostQueue_zero_queued]
    rw [boostQueues, (boostQueue_spec (i := 2) (by omega) le_rfl hi1).2.2.2, if_pos]
    · rfl
    · rw [size_eq, hq2, ← size_eq, ← hl]
      exact hp

/-! ### The lock holder -/

/-- The holder of the scheduler lock waits in the half of `L[1]` or `L[2]` that
boosting does not reach. -/
def LeftBehind (s : State) : Prop :=
  ∃ p, s.lockproc = some p ∧ 0 < (s.proc p).level ∧
    p ∈ (s.queued (s.proc p).level).drop (moved (s.L (s.proc p).level).size)

end State

theorem Inv.priorityboosting {s : State} (h : Inv s) (hb : ¬ s.LeftBehind) :
    Inv s.priorityboosting := by
  have hq : Inv s.boostQueues :=
    ((h.boostQueue le_rfl (by omega)).boostQueue (by omega) (by omega)).boostQueue
      (by omega) le_rfl
  have hk := State.boostQueues_lockproc s
  show Inv s.boostQueues.boostLockproc
  unfold State.boostLockproc
  cases hlock : s.boostQueues.lockproc with
  | none => exact hq
  | some p =>
    rw [hlock] at hk
    refine (hq.setLockproc none).setProc Iff.rfl ?_ ⟨le_rfl, (by decide : (0 : Int) ≤ 2)⟩ ?_
    · intro hrun
      have hrun' : (s.boostQueues.proc p).state = .runnable := hrun
      rw [State.boostQueues_state] at hrun'
      have hr := h.level p
      have hmem := (h.mem_queued hr.1 hr.2).mpr ⟨hrun', rfl⟩
      rw [← List.take_append_drop (moved (s.L (s.proc p).level).size) (s.queued _),
        List.mem_append] at hmem
      rcases hmem with ht | hd
      · exact (State.boostQueues_level h.placed (h.level p) ht).symm
      · by_cases hpos : 0 < (s.proc p).level
        · exact absurd ⟨p, hk.symm, hpos, hd⟩ hb
        · have hz : (s.proc p).level = 0 := by omega
          show (0 : Int) = (s.boostQueues.proc p).level
          refine (State.boostQueue_level_zero _ _ _ (State.boostQueue_level_zero _ _ _ ?_)).symm
          exact State.boostQueue_level_zero _ _ _ hz
    · intro hu q hqp hqu hpid
      exact hqp (hq.pids q p hqu hu hpid)

/-- In the other case the holder stays in a queue that is not that of its level. -/
theorem State.LeftBehind.misplaced {s : State} (h : Inv s) (hb : s.LeftBehind) :
    ∃ p l, 0 < l ∧ l ≤ 2 ∧ p ∈ s.priorityboosting.queued l ∧
      (s.priorityboosting.proc p).level = 0 := by
  obtain ⟨p, hlock, hpos, hmem⟩ := hb
  have hr := h.level p
  have hk : s.boostQueues.lockproc = some p := by
    rw [State.boostQueues_lockproc]
    exact hlock
  have hpb : s.priorityboosting = { s.boostQueues with lockproc := none }.setProc p
      fun r => { r with level := 0, usedtime := 0, priority := 3 } := by
    show s.boostQueues.boostLockproc = _
    simp only [State.boostLockproc, hk]
  refine ⟨p, (s.proc p).level, hpos, hr.2, ?_, ?_⟩
  · rw [hpb]
    show p ∈ s.boostQueues.queued _
    rw [State.boostQueues_queued h.placed hpos hr.2]
    exact hmem
  · rw [hpb, State.setProc_proc_self]

end Xv6.Mlfq
