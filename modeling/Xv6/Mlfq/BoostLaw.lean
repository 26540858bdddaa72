import Xv6.Lib.Transition
import Xv6.Mlfq.Boost

/-!
# What boosting does to the three queues

`boostQueues_zero` and `priorityboosting_proc` say where the entries go and whose
fields are reset. `BoostLaw` is what boosting is for; `boostLaw_iff` gives the
states in which `priorityboosting` keeps it: its loops reach half of `L[1]` and of
`L[2]`, and only the front of `L[0]`.
-/

namespace Xv6.Mlfq
open Xv6.Transition

namespace State

variable {s : State}

/-- The processes whose fields the loops over the queues reset. -/
def reached (s : State) : List Slot :=
  (s.queued 0).take 1 ++ (s.queued 1).take (moved (s.L 1).size)
    ++ (s.queued 2).take (moved (s.L 2).size)

theorem boostQueues_zero (h : Placed s) :
    s.boostQueues.queued 0 = s.queued 0 ++ (s.queued 1).take (moved (s.L 1).size)
      ++ (s.queued 2).take (moved (s.L 2).size) := by
  have hi0 := h.boostQueue (i := 0) le_rfl (by omega)
  have hi1 := hi0.boostQueue (i := 1) (by omega) (by omega)
  have hs1 := boostQueue_spec (i := 1) (by omega) (by omega) hi0
  have hs2 := boostQueue_spec (i := 2) (by omega) le_rfl hi1
  have hq2 : ((s.boostQueue 0).boostQueue 1).queued 2 = s.queued 2 := by
    rw [hs1.2.2.1 2 (by omega) (by omega), boostQueue_zero_queued]
  rw [boostQueues, hs2.2.1, hs1.2.1, size_eq _ 2, hq2, size_eq _ 1, boostQueue_zero_queued,
    boostQueue_zero_queued, ← size_eq, ← size_eq]

theorem boostQueues_proc (h : Placed s) (q : Slot) :
    s.boostQueues.proc q = if q ∈ s.reached then (s.proc q).boosted else s.proc q := by
  have hi0 := h.boostQueue (i := 0) le_rfl (by omega)
  have hi1 := hi0.boostQueue (i := 1) (by omega) (by omega)
  have hs1 := boostQueue_spec (i := 1) (by omega) (by omega) hi0
  have hs2 := boostQueue_spec (i := 2) (by omega) le_rfl hi1
  have hq2 : ((s.boostQueue 0).boostQueue 1).queued 2 = s.queued 2 := by
    rw [hs1.2.2.1 2 (by omega) (by omega), boostQueue_zero_queued]
  rw [boostQueues, hs2.2.2.2, hs1.2.2.2, boostQueue_zero_proc, size_eq _ 2, hq2, size_eq _ 1,
    boostQueue_zero_queued, ← size_eq, ← size_eq]
  simp only [reached, List.mem_append]
  by_cases h0 : q ∈ (s.queued 0).take 1
  · simp only [h0, true_or, if_true]
    split_ifs <;> rfl
  · by_cases h1 : q ∈ (s.queued 1).take (moved (s.L 1).size)
    · simp only [h0, h1, or_true, true_or, if_true, if_false]
      split_ifs <;> rfl
    · simp only [h0, h1, false_or, if_false]

theorem priorityboosting_queued (l : Int) :
    s.priorityboosting.queued l = s.boostQueues.queued l := by
  show s.boostQueues.boostLockproc.queued l = _
  unfold boostLockproc
  split <;> rfl

theorem priorityboosting_proc (h : Placed s) (q : Slot) :
    s.priorityboosting.proc q =
      if s.lockproc = some q ∨ q ∈ s.reached then (s.proc q).boosted else s.proc q := by
  show s.boostQueues.boostLockproc.proc q = _
  unfold boostLockproc
  rw [boostQueues_lockproc]
  cases hlock : s.lockproc with
  | none => simp only [boostQueues_proc h, reduceCtorEq, false_or]
  | some p =>
    by_cases hq : q = p
    · subst hq
      simp only [true_or, if_true]
      rw [setProc_proc_self]
      show (s.boostQueues.proc q).boosted = _
      rw [boostQueues_proc h]
      split_ifs <;> rfl
    · have hne : ¬ some p = some q := fun hc => hq (Option.some.inj hc).symm
      simp only [hne, false_or]
      rw [setProc_proc_ne _ _ _ _ hq]
      exact boostQueues_proc h q

end State

/-- What boosting is for: every queued process is back in `L[0]`, once and in the
old order, with its fields reset. -/
structure BoostLaw (s t : State) : Prop where
  low : ∀ l, 0 < l → l ≤ 2 → t.queued l = []
  top : t.queued 0 = s.queued 0 ++ s.queued 1 ++ s.queued 2
  once : (t.queued 0).Nodup
  reset : ∀ l, 0 ≤ l → l ≤ 2 → ∀ p ∈ s.queued l,
    (t.proc p).level = 0 ∧ (t.proc p).usedtime = 0 ∧ (t.proc p).priority = 3

/-- The lower queues are at most one entry long, and `L[0]` has nothing to reset
behind its front. -/
structure Boostable (s : State) : Prop where
  short : ∀ l, 0 < l → l ≤ 2 → (s.L l).size ≤ 1
  fresh : ∀ p ∈ (s.queued 0).tail,
    s.lockproc = some p ∨ (s.proc p).usedtime = 0 ∧ (s.proc p).priority = 3

theorem placed_iff_levels {s : State} :
    Placed s ↔ ∀ l ∈ ([0, 1, 2] : List Int),
      (s.queued l).Nodup ∧ ((s.queued l).all fun p => decide ((s.proc p).level = l)) = true := by
  simp only [List.all_eq_true, decide_eq_true_eq]
  constructor
  · intro h l hl
    have hr : 0 ≤ l ∧ l ≤ 2 := by
      simp only [List.mem_cons, List.not_mem_nil, or_false] at hl
      omega
    exact ⟨h.nodup l hr.1 hr.2, h.level l hr.1 hr.2⟩
  · intro h
    have hmem : ∀ l : Int, 0 ≤ l → l ≤ 2 → l ∈ ([0, 1, 2] : List Int) := by
      intro l h0 h2
      simp only [List.mem_cons, List.not_mem_nil, or_false]
      omega
    exact ⟨fun l h0 h2 => (h l (hmem l h0 h2)).1, fun l h0 h2 => (h l (hmem l h0 h2)).2⟩

instance (s : State) : Decidable (Placed s) := decidable_of_iff _ placed_iff_levels.symm

theorem boostable_iff {s : State} :
    Boostable s ↔ ((s.L 1).size ≤ 1 ∧ (s.L 2).size ≤ 1) ∧ ((s.queued 0).tail.all fun p =>
      decide (s.lockproc = some p ∨ (s.proc p).usedtime = 0 ∧ (s.proc p).priority = 3)) = true := by
  simp only [List.all_eq_true, decide_eq_true_eq]
  constructor
  · intro h
    exact ⟨⟨h.short 1 (by omega) (by omega), h.short 2 (by omega) le_rfl⟩, h.fresh⟩
  · rintro ⟨⟨h1, h2⟩, hf⟩
    refine ⟨?_, hf⟩
    intro l h0 hl2
    rcases (show l = 1 ∨ l = 2 by omega) with rfl | rfl
    · exact h1
    · exact h2

instance (s : State) : Decidable (Boostable s) := decidable_of_iff _ boostable_iff.symm

theorem le_moved {n : Nat} : n ≤ moved n ↔ n ≤ 1 := by
  unfold moved
  omega

namespace Placed

variable {s : State}

theorem not_mem (h : Placed s) {l m : Int} (hl0 : 0 ≤ l) (hl2 : l ≤ 2) (hm0 : 0 ≤ m) (hm2 : m ≤ 2)
    (hne : l ≠ m) {p : Slot} (hp : p ∈ s.queued l) : p ∉ s.queued m := by
  intro hc
  have hpl := h.level l hl0 hl2 p hp
  have hpm := h.level m hm0 hm2 p hc
  omega

theorem nodup_all (h : Placed s) : (s.queued 0 ++ s.queued 1 ++ s.queued 2).Nodup := by
  refine List.Nodup.append (List.Nodup.append ?_ ?_ ?_) ?_ ?_
  · exact h.nodup 0 le_rfl (by omega)
  · exact h.nodup 1 (by omega) (by omega)
  · intro p hp
    exact h.not_mem le_rfl (by omega) (by omega) (by omega) (by omega) hp
  · exact h.nodup 2 (by omega) le_rfl
  · intro p hp
    rcases List.mem_append.mp hp with hp | hp
    · exact h.not_mem le_rfl (by omega) (by omega) le_rfl (by omega) hp
    · exact h.not_mem (by omega) (by omega) (by omega) le_rfl (by omega) hp

/-- Behind the front of `L[0]` the loops reach nobody. -/
theorem not_reached (h : Placed s) {p : Slot} (hp : p ∈ (s.queued 0).tail) : p ∉ s.reached := by
  have hp0 : p ∈ s.queued 0 := List.mem_of_mem_tail hp
  have h1 : p ∉ s.queued 1 := h.not_mem le_rfl (by omega) (by omega) (by omega) (by omega) hp0
  have h2 : p ∉ s.queued 2 := h.not_mem le_rfl (by omega) (by omega) le_rfl (by omega) hp0
  have hfront : p ∉ (s.queued 0).take 1 := by
    have hnd := h.nodup 0 le_rfl (by omega)
    cases hq : s.queued 0 with
    | nil => simp
    | cons q qs =>
      rw [hq, List.nodup_cons] at hnd
      rw [hq, List.tail_cons] at hp
      rw [List.take_succ_cons, List.take_zero, List.mem_singleton]
      rintro rfl
      exact hnd.1 hp
  simp only [State.reached, List.mem_append, not_or]
  exact ⟨⟨hfront, fun hc => h1 (List.mem_of_mem_take hc)⟩, fun hc => h2 (List.mem_of_mem_take hc)⟩

theorem take_moved {l : Int} (hl : (s.L l).size ≤ 1) :
    (s.queued l).take (moved (s.L l).size) = s.queued l := by
  apply List.take_of_length_le
  rw [← State.size_eq]
  exact le_moved.mpr hl

theorem boostLaw (h : Placed s) (hb : Boostable s) : BoostLaw s s.priorityboosting := by
  have h1 := take_moved (hb.short 1 (by omega) (by omega))
  have h2 := take_moved (hb.short 2 (by omega) le_rfl)
  have htop : s.priorityboosting.queued 0 = s.queued 0 ++ s.queued 1 ++ s.queued 2 := by
    rw [State.priorityboosting_queued, State.boostQueues_zero h, h1, h2]
  have hreset : ∀ p, s.lockproc = some p ∨ p ∈ s.reached →
      (s.priorityboosting.proc p).level = 0 ∧ (s.priorityboosting.proc p).usedtime = 0 ∧
        (s.priorityboosting.proc p).priority = 3 := by
    intro p hp
    rw [State.priorityboosting_proc h, if_pos hp]
    exact ⟨rfl, rfl, rfl⟩
  constructor
  · intro l h0 hl2
    rw [State.priorityboosting_queued, State.boostQueues_queued h h0 hl2]
    apply List.drop_eq_nil_of_le
    rw [← State.size_eq]
    exact le_moved.mpr (hb.short l h0 hl2)
  · exact htop
  · rw [htop]
    exact h.nodup_all
  · intro l h0 hl2 p hp
    rcases (show l = 0 ∨ l = 1 ∨ l = 2 by omega) with rfl | rfl | rfl
    · cases hq : s.queued 0 with
      | nil => simp [hq] at hp
      | cons q qs =>
        rw [hq, List.mem_cons] at hp
        rcases hp with rfl | hp
        · refine hreset p (Or.inr ?_)
          simp [State.reached, hq]
        · have htail : p ∈ (s.queued 0).tail := by rwa [hq, List.tail_cons]
          rcases hb.fresh p htail with hlock | hfresh
          · exact hreset p (Or.inl hlock)
          · by_cases hlock : s.lockproc = some p
            · exact hreset p (Or.inl hlock)
            · rw [State.priorityboosting_proc h, if_neg (not_or.mpr ⟨hlock, h.not_reached htail⟩)]
              have hlev := h.level 0 le_rfl hl2 p (List.mem_of_mem_tail htail)
              exact ⟨hlev, hfresh⟩
    · refine hreset p (Or.inr ?_)
      simp [State.reached, h1, hp]
    · refine hreset p (Or.inr ?_)
      simp [State.reached, h2, hp]

end Placed

/-- `priorityboosting` does what it is for exactly in the boostable states. -/
theorem boostLaw_iff {s : State} (h : Placed s) :
    BoostLaw s s.priorityboosting ↔ Boostable s := by
  refine ⟨fun hl => ⟨?_, ?_⟩, h.boostLaw⟩
  · intro l h0 h2
    have hempty := hl.low l h0 h2
    rw [State.priorityboosting_queued, State.boostQueues_queued h h0 h2,
      List.drop_eq_nil_iff, ← State.size_eq] at hempty
    exact le_moved.mp hempty
  · intro p hp
    by_cases hlock : s.lockproc = some p
    · exact Or.inl hlock
    · right
      have hreset := hl.reset 0 le_rfl (by omega) p (List.mem_of_mem_tail hp)
      rw [State.priorityboosting_proc h, if_neg (not_or.mpr ⟨hlock, h.not_reached hp⟩)] at hreset
      exact hreset.2

/-- Processes 1 and 2 use up their time in `L[0]`. -/
def bothDemoted : List Action :=
  [.mlfqscheduler, .allocproc 0, .fork 0, .allocproc 0, .fork 0, .sleep 0 (.other 0)] ++
  (List.replicate 4 [.mlfqscheduler, .yield 1, .mlfqscheduler, .yield 2]).flatten

theorem boostLaw_iff_demoted :
    let s := (run step userinit (bothDemoted ++ [.mlfqscheduler])).getD userinit
    s.queued 1 = [2] ∧ BoostLaw s s.priorityboosting := by
  intro s
  have hp : Placed s := by decide +kernel
  have hb : Boostable s := by decide +kernel
  exact ⟨by decide +kernel, (boostLaw_iff hp).mpr hb⟩

theorem not_boostLaw_of_reachable :
    ¬ ∀ s, Reachable step userinit s → Placed s → BoostLaw s s.priorityboosting := by
  intro hall
  have hrun : (run step userinit bothDemoted).any
      (fun s => decide (Placed s) && s.queued 1 == [1, 2] && s.priorityboosting.queued 1 == [2])
        = true := by decide +kernel
  obtain ⟨s, hs, hview⟩ := (Option.any_eq_true _ _).mp hrun
  simp only [Bool.and_eq_true, beq_iff_eq, decide_eq_true_eq] at hview
  have hlow := (hall s (reachable_of_run hs) hview.1.1).low 1 (by omega) (by omega)
  rw [hview.2] at hlow
  exact absurd hlow (List.cons_ne_nil _ _)

/-! ### Processes outside the queues -/

theorem State.mem_enqueue {s : State} {p q : Slot} {l m : Int}
    (h : q ∈ (s.enqueue l p).queued m) : q = p ∨ q ∈ s.queued m := by
  by_cases hroom : (s.L l).size < NPROC
  · rw [State.enqueue_queued _ _ _ _ hroom] at h
    split_ifs at h with hm
    · subst hm
      rw [List.mem_append, List.mem_singleton] at h
      exact h.symm
    · exact Or.inr h
  · have hfull : (s.enqueue l p).queued m = s.queued m := by
      show (s.setL l ((s.L l).enqueue p)).queued m = _
      rw [State.setL_queued, Queue.enqueue_full _ _ hroom]
      split_ifs with hm
      · rw [hm]
        rfl
      · rfl
    rw [hfull] at h
    exact Or.inr h

/-- The process waits in no queue. -/
def Aside (s : State) (p : Slot) : Prop := ∀ l, 0 ≤ l → l ≤ 2 → p ∉ s.queued l

namespace Aside

variable {s : State} {p : Slot} {i : Int}

/-- A round moves the front entry of one queue to another, and writes to it only. -/
theorem boostOne (h : Aside s p) (h0 : 0 ≤ i) (h2 : i ≤ 2) (hn : 0 < (s.L i).size) :
    Aside (s.boostOne i) p ∧ (s.boostOne i).proc p = s.proc p := by
  have hfront : p ≠ (s.L i).front := by
    rintro rfl
    exact h i h0 h2 (List.mem_of_head? (State.head_queued hn))
  constructor
  · intro l hl0 hl2 hmem
    unfold State.boostOne at hmem
    dsimp only at hmem
    split_ifs at hmem
    · rcases State.mem_enqueue hmem with heq | hmem
      · exact hfront heq
      · rw [State.setL_queued] at hmem
        split_ifs at hmem
        · rw [Queue.toList_dequeue] at hmem
          exact h i h0 h2 (List.mem_of_mem_tail hmem)
        · exact h l hl0 hl2 hmem
    · exact h l hl0 hl2 hmem
  · rw [State.boostOne_proc, if_neg hfront]

theorem boostLoop (h0 : 0 ≤ i) (h2 : i ≤ 2) (rounds n : Nat) {s : State} (h : Aside s p) :
    Aside (State.boostLoop i rounds n s) p ∧ (State.boostLoop i rounds n s).proc p = s.proc p := by
  induction rounds generalizing n s with
  | zero => exact ⟨h, rfl⟩
  | succ rounds ih =>
    rw [State.boostLoop]
    split_ifs with hn
    · obtain ⟨hone, hproc⟩ := h.boostOne h0 h2 (by omega)
      obtain ⟨hrest, hproc'⟩ := ih (n + 1) hone
      exact ⟨hrest, hproc'.trans hproc⟩
    · exact ⟨h, rfl⟩

/-- Of the processes outside the queues boosting reaches the lock holder only. -/
theorem priorityboosting (h : Aside s p) :
    s.priorityboosting.proc p = if s.lockproc = some p then (s.proc p).boosted else s.proc p := by
  obtain ⟨h0, hp0⟩ := h.boostLoop (i := 0) le_rfl (by omega) (s.L 0).size 0
  obtain ⟨h1, hp1⟩ := h0.boostLoop (i := 1) (by omega) (by omega) ((s.boostQueue 0).L 1).size 0
  obtain ⟨-, hp2⟩ := h1.boostLoop (i := 2) (by omega) le_rfl
    (((s.boostQueue 0).boostQueue 1).L 2).size 0
  have hproc : s.boostQueues.proc p = s.proc p := hp2.trans (hp1.trans hp0)
  show s.boostQueues.boostLockproc.proc p = _
  unfold State.boostLockproc
  rw [State.boostQueues_lockproc]
  cases hlock : s.lockproc with
  | none => exact hproc
  | some q =>
    by_cases hq : p = q
    · subst hq
      rw [if_pos rfl, State.setProc_proc_self]
      show (s.boostQueues.proc p).boosted = _
      rw [hproc]
    · have hne : ¬ some q = some p := fun hc => hq (Option.some.inj hc).symm
      rw [if_neg hne, State.setProc_proc_ne _ _ _ _ hq]
      exact hproc

end Aside

/-- The process is as boosting should leave it, and the next `ready` of it, in `yield`,
`wakeup1` or `kill`, is to `L[0]`. -/
structure Fresh (s : State) (p : Slot) : Prop where
  level : (s.proc p).level = 0
  usedtime : (s.proc p).usedtime = 0
  priority : (s.proc p).priority = 3
  ready : s.ready p = (s.setProc p fun r => { r with state := .runnable }).enqueue 0 p

theorem fresh_iff {s : State} {p : Slot} :
    Fresh s p ↔ (s.proc p).level = 0 ∧ (s.proc p).usedtime = 0 ∧ (s.proc p).priority = 3 := by
  constructor
  · intro h
    exact ⟨h.level, h.usedtime, h.priority⟩
  · rintro ⟨h1, h2, h3⟩
    refine ⟨h1, h2, h3, ?_⟩
    unfold State.ready
    rw [h1]

/-- A live process that waits in no queue. -/
def LiveAside (s : State) (p : Slot) : Prop :=
  ((s.proc p).state = .running ∨ (s.proc p).state = .sleeping) ∧ Aside s p

/-- When the ticks wrap, the live processes outside the queues are boosted exactly if each
of them holds the scheduler lock or has nothing to reset. -/
theorem tick_fresh_iff {s : State} (hwrap : (s.mlfqticks + 1) % 100 = 0) :
    (∀ p, LiveAside s p → Fresh s.tick p) ↔
      ∀ p, LiveAside s p → s.lockproc = some p ∨
        (s.proc p).level = 0 ∧ (s.proc p).usedtime = 0 ∧ (s.proc p).priority = 3 := by
  have htick : s.tick = { s with mlfqticks := 0 }.priorityboosting := by
    unfold State.tick
    rw [hwrap]
    rfl
  have hproc : ∀ p, LiveAside s p →
      s.tick.proc p = if s.lockproc = some p then (s.proc p).boosted else s.proc p := by
    intro p hp
    rw [htick]
    exact Aside.priorityboosting (s := { s with mlfqticks := 0 }) hp.2
  refine forall_congr' fun p => imp_congr_right fun hp => ?_
  rw [fresh_iff, hproc p hp]
  by_cases hlock : s.lockproc = some p
  · rw [if_pos hlock]
    simp [hlock, Proc.boosted]
  · rw [if_neg hlock]
    simp [hlock]

/-- The first process runs alone until the ticks wrap. -/
def aloneAtTick : State :=
  (run step userinit (.mlfqscheduler :: List.replicate 99 .tick)).getD userinit

theorem tick_fresh_iff_alone :
    (∀ p, LiveAside aloneAtTick p → Fresh aloneAtTick.tick p) ↔
      ∀ p, LiveAside aloneAtTick p → aloneAtTick.lockproc = some p ∨
        (aloneAtTick.proc p).level = 0 ∧ (aloneAtTick.proc p).usedtime = 0 ∧
          (aloneAtTick.proc p).priority = 3 :=
  tick_fresh_iff (by decide +kernel)

/-- Process 1 has used up its time in `L[0]` and runs again when the ticks wrap. -/
def demotedRunning : List Action :=
  bothDemoted ++ .mlfqscheduler :: List.replicate 99 .tick

theorem not_tick_fresh :
    ¬ ∀ s, Reachable step userinit s → (s.mlfqticks + 1) % 100 = 0 →
      ∀ p, LiveAside s p → Fresh s.tick p := by
  intro hall
  have hrun : (run step userinit demotedRunning).any (fun s =>
      decide ((s.mlfqticks + 1) % 100 = 0 ∧ (s.proc 1).state = .running) &&
        (s.queued 0 ++ s.queued 1 ++ s.queued 2).all (fun q => decide (q ≠ 1)) &&
        decide ((s.tick.proc 1).level = 1)) = true := by decide +kernel
  obtain ⟨s, hs, hview⟩ := (Option.any_eq_true _ _).mp hrun
  simp only [Bool.and_eq_true, decide_eq_true_eq, List.all_eq_true, List.mem_append] at hview
  obtain ⟨⟨⟨hwrap, hrunning⟩, hnot⟩, hlevel⟩ := hview
  have haside : Aside s 1 := by
    intro l hl0 hl2 hmem
    rcases (show l = 0 ∨ l = 1 ∨ l = 2 by omega) with rfl | rfl | rfl
    · exact hnot 1 (Or.inl (Or.inl hmem)) rfl
    · exact hnot 1 (Or.inl (Or.inr hmem)) rfl
    · exact hnot 1 (Or.inr hmem) rfl
  have hfresh := hall s (reachable_of_run hs) hwrap 1 ⟨Or.inl hrunning, haside⟩
  rw [hfresh.level] at hlevel
  exact absurd hlevel (by decide)

end Xv6.Mlfq
