import Mathlib.Data.List.Find
import Xv6.Mlfq.BoostLaw

/-!
# The lock holder at the boosting tick (project1/trap.c, project1/proc.c)

`boostQueues_head` is the head of `L[0]` after the loops of `priorityboosting`, in any state. The
code behind the loops (proc.c:812-818) frees the lock and resets the fields of the holder, but does
not move it. The trap goes on with `wakeup(&ticks)` and the `yield` of the process that runs.
-/

namespace Xv6.Mlfq
open Xv6.Transition

namespace State

variable {s : State} {i : Int} {p q : Slot}

theorem head_enqueue (s : State) (l : Int) (p : Slot) :
    ((s.enqueue l p).queued l).head? = if s.queued l = [] then some p else (s.queued l).head? := by
  have hsize := s.size_eq l
  by_cases hroom : (s.L l).size < NPROC
  · rw [enqueue_queued _ _ _ _ hroom, if_pos rfl]
    cases s.queued l with
    | nil => simp
    | cons q qs => simp
  · have hsame : (s.enqueue l p).queued l = s.queued l := by
      unfold enqueue setL queued
      dsimp only
      rw [Function.update_self, Queue.enqueue_full _ _ hroom]
    have hne : s.queued l ≠ [] := by
      intro hnil
      rw [hnil] at hsize
      rw [hsize] at hroom
      exact hroom (Nat.succ_pos _)
    rw [hsame, if_neg hne]

theorem boostOne_head (hi : 0 < i) :
    ((s.boostOne i).queued 0).head? =
      if s.queued 0 = [] then some (s.L i).front else (s.queued 0).head? := by
  have hL0 : ∀ t : State, (t.setL i (t.L i).dequeue).queued 0 = t.queued 0 := by
    intro t
    rw [setL_queued, if_neg (by omega)]
  unfold boostOne
  dsimp only
  rw [if_pos hi, head_enqueue, hL0]
  rfl

/-- A queue that is not empty keeps its head. -/
theorem boostLoop_head (hi : 0 < i) (rounds n : Nat) {s : State} (hne : s.queued 0 ≠ []) :
    ((boostLoop i rounds n s).queued 0).head? = (s.queued 0).head? := by
  induction rounds generalizing n s with
  | zero => rfl
  | succ rounds ih =>
    rw [boostLoop]
    split_ifs with hn
    · have hone := s.boostOne_head hi
      rw [if_neg hne] at hone
      have hne' : (s.boostOne i).queued 0 ≠ [] := by
        intro hnil
        rw [hnil] at hone
        exact hne (List.head?_eq_none_iff.mp hone.symm)
      rw [ih (n + 1) hne', hone]
    · rfl

theorem boostQueue_head (hi : 0 < i) (s : State) :
    ((s.boostQueue i).queued 0).head? =
      if s.queued 0 = [] ∧ 0 < (s.L i).size then some (s.L i).front else (s.queued 0).head? := by
  unfold boostQueue
  by_cases hnil : s.queued 0 = []
  · cases hsize : (s.L i).size with
    | zero => simp [boostLoop]
    | succ n =>
      have hone := s.boostOne_head hi
      rw [if_pos hnil] at hone
      have hne : (s.boostOne i).queued 0 ≠ [] := by
        intro hc
        rw [hc] at hone
        cases hone
      rw [boostLoop, if_pos (by omega), boostLoop_head hi _ _ hne, hone, if_pos ⟨hnil, Nat.succ_pos n⟩]
  · rw [boostLoop_head hi _ _ hnil, if_neg fun h => hnil h.1]

/-- The loop for one queue leaves the others but `L[0]` alone. -/
theorem boostQueue_L {l : Int} (hl : l ≠ i) (hl0 : l ≠ 0) (s : State) :
    (s.boostQueue i).L l = s.L l := by
  apply boostLoop_keeps (P := fun t => t.L l = s.L l) _ _ _ rfl
  intro t ht
  unfold boostOne
  dsimp only
  split_ifs
  · show Function.update (Function.update _ i _) 0 _ l = _
    rw [Function.update_of_ne hl0, Function.update_of_ne hl]
    exact ht
  · exact ht

/-- Boosting puts the first queued process at the head of `L[0]`. -/
theorem boostQueues_head (s : State) : (s.boostQueues.queued 0).head? = s.firstReady := by
  have hq0 : (s.boostQueue 0).queued 0 = s.queued 0 := boostQueue_zero_queued s 0
  have hL1 : (s.boostQueue 0).L 1 = s.L 1 := boostQueue_L (by decide) (by decide) s
  have hL2 : ((s.boostQueue 0).boostQueue 1).L 2 = s.L 2 := by
    rw [boostQueue_L (by decide) (by decide), boostQueue_L (by decide) (by decide)]
  have h1 := boostQueue_head (i := 1) (by decide) (s.boostQueue 0)
  have h2 := boostQueue_head (i := 2) (by decide) ((s.boostQueue 0).boostQueue 1)
  rw [hq0, hL1] at h1
  rw [hL2] at h2
  rw [boostQueues, firstReady_eq, h2]
  have hsize := s.size_eq 0
  by_cases hz0 : 0 < (s.L 0).size
  · have hhead := head_queued hz0
    have hne : s.queued 0 ≠ [] := by
      intro hnil
      rw [hnil] at hhead
      cases hhead
    rw [if_neg fun h => hne h.1, hhead] at h1
    have hne' : ((s.boostQueue 0).boostQueue 1).queued 0 ≠ [] := by
      intro hnil
      rw [hnil] at h1
      cases h1
    rw [if_neg fun h => hne' h.1, h1, if_pos hz0]
  have hnil : s.queued 0 = [] := List.eq_nil_of_length_eq_zero (by omega)
  rw [if_neg hz0]
  by_cases hz1 : 0 < (s.L 1).size
  · rw [if_pos ⟨hnil, hz1⟩] at h1
    have hne : ((s.boostQueue 0).boostQueue 1).queued 0 ≠ [] := by
      intro hc
      rw [hc] at h1
      cases h1
    rw [if_neg fun h => hne h.1, h1, if_pos hz1]
  · rw [if_neg fun h => hz1 h.2, hnil] at h1
    have hnil1 := List.head?_eq_none_iff.mp h1
    rw [if_neg hz1, hnil1]
    by_cases hz2 : 0 < (s.L 2).size
    · rw [if_pos ⟨rfl, hz2⟩, if_pos hz2]
    · rw [if_neg fun h => hz2 h.2, if_neg hz2]
      rfl

/-! ### The interrupt -/

/-- `&ticks`, on which `sys_sleep` waits. -/
def TICKS : Chan := .other 0

/-- The timer interrupt on CPU 0 (trap.c:61-78, 123-125): the tick, `wakeup(&ticks)` and, where a
process `r` runs there, its `yield`. A process that has been killed in user space goes into `exit`
instead, which is `none` here. -/
def timerTrap (s : State) (r : Option Slot) : State :=
  let s := s.tick.wakeup1 (some TICKS)
  match r with
  | none => s
  | some p => s.yield p

/-- The first process that `wakeup(&ticks)` puts into `L[0]` when the lock has been taken from
`q`. -/
def firstSleeper (s : State) (q : Slot) : Option Slot :=
  (List.finRange NPROC).find? fun p =>
    (s.proc p).state = .sleeping ∧ (s.proc p).chan = some TICKS ∧ ((s.proc p).level = 0 ∨ p = q)

/-- The lock is free, the fields of `q` are reset, and it is dispatched next, from the head of
`L[0]`. -/
structure ReleasedFirst (u : State) (q : Slot) : Prop where
  free : u.lockproc = none
  level : (u.proc q).level = 0
  usedtime : (u.proc q).usedtime = 0
  priority : (u.proc q).priority = 3
  first : (u.queued 0).head? = some q
  next : u.choose = some q

theorem priorityboosting_holder (h : s.lockproc = some q) :
    s.priorityboosting.lockproc = none ∧
      s.priorityboosting.proc q = (s.boostQueues.proc q).boosted ∧
      (s.priorityboosting.queued 0).head? = s.firstReady := by
  have hlock : s.boostQueues.lockproc = some q := by
    rw [boostQueues_lockproc]
    exact h
  have hend : s.priorityboosting = { s.boostQueues with lockproc := none }.setProc q
      fun r => { r with level := 0, usedtime := 0, priority := 3 } := by
    show s.boostQueues.boostLockproc = _
    unfold boostLockproc
    rw [hlock]
  refine ⟨?_, ?_, ?_⟩
  · rw [hend]
    rfl
  · rw [hend, setProc_proc_self]
    rfl
  · rw [priorityboosting_queued]
    exact boostQueues_head s

theorem choose_of_head (hhead : (s.queued 0).head? = some q) (hlevel : (s.proc q).level ≠ 2) :
    s.choose = some q := by
  have hsize : 0 < (s.L 0).size := by
    rw [size_eq]
    apply List.length_pos_iff.mpr
    intro hnil
    rw [hnil] at hhead
    cases hhead
  have hfront : some (s.L 0).front = some q := by
    rw [← head_queued hsize, hhead]
  unfold choose
  rw [firstReady_eq, if_pos hsize, hfront, Option.map_some, if_neg hlevel]

end State

namespace State

theorem ready_fields (t : State) (p q : Slot) : ((t.ready p).proc q).level = (t.proc q).level ∧
    ((t.ready p).proc q).usedtime = (t.proc q).usedtime ∧
    ((t.ready p).proc q).priority = (t.proc q).priority := by
  have hset : (t.ready p).proc q = (t.setProc p fun r => { r with state := .runnable }).proc q := rfl
  rw [hset]
  by_cases hq : q = p
  · rw [hq, setProc_proc_self]
    exact ⟨rfl, rfl, rfl⟩
  · rw [setProc_proc_ne _ _ _ _ hq]
    exact ⟨rfl, rfl, rfl⟩

theorem ready_head (t : State) (p : Slot) : ((t.ready p).queued 0).head? =
    if t.queued 0 = [] ∧ (t.proc p).level = 0 then some p else (t.queued 0).head? := by
  have hsame : (t.setProc p fun r => { r with state := .runnable }).queued 0 = t.queued 0 := rfl
  unfold ready
  by_cases hl : (t.proc p).level = 0
  · rw [hl, head_enqueue, hsame]
    simp
  · rw [if_neg fun h => hl h.2]
    show (((t.setProc p _).setL _ _).queued 0).head? = _
    rw [setL_queued, if_neg (Ne.symm hl)]
    rfl

theorem wakeup1_fields (t : State) (chan : Option Chan) (q : Slot) :
    ((t.wakeup1 chan).proc q).level = (t.proc q).level ∧
      ((t.wakeup1 chan).proc q).usedtime = (t.proc q).usedtime ∧
      ((t.wakeup1 chan).proc q).priority = (t.proc q).priority := by
  unfold wakeup1
  generalize List.finRange NPROC = ps
  refine foldl_keeps (P := fun u => (u.proc q).level = (t.proc q).level ∧
    (u.proc q).usedtime = (t.proc q).usedtime ∧ (u.proc q).priority = (t.proc q).priority) ?_ ps t
    ⟨rfl, rfl, rfl⟩
  intro u p hu
  split_ifs
  · obtain ⟨hl, ht, hp⟩ := ready_fields u p q
    rw [hl, ht, hp]
    exact hu
  · exact hu

theorem wakeup1_free (t : State) (chan : Option Chan) (h : t.lockproc = none) :
    (t.wakeup1 chan).lockproc = none := by
  unfold wakeup1
  generalize List.finRange NPROC = ps
  refine foldl_keeps (P := fun u => u.lockproc = none) ?_ ps t h
  intro u p hu
  split_ifs <;> exact hu

/-- `wakeup1` goes through the table in order, so the first sleeper of level 0 comes first. -/
theorem foldl_wakeup_head (chan : Option Chan) (ps : List Slot) (hps : ps.Nodup) (t : State) :
    ((ps.foldl (fun s p =>
      if (s.proc p).state = .sleeping ∧ (s.proc p).chan = chan then s.ready p else s) t).queued
        0).head? =
    if t.queued 0 = [] then
      ps.find? fun p =>
        (t.proc p).state = .sleeping ∧ (t.proc p).chan = chan ∧ (t.proc p).level = 0
    else (t.queued 0).head? := by
  induction ps generalizing t with
  | nil =>
    split_ifs with hnil
    · rw [List.foldl_nil, hnil]
      rfl
    · rfl
  | cons p ps ih =>
    obtain ⟨hp, hps⟩ := List.nodup_cons.mp hps
    rw [List.foldl_cons, List.find?_cons]
    by_cases hc : (t.proc p).state = .sleeping ∧ (t.proc p).chan = chan
    · rw [if_pos hc, ih hps]
      have hhead := t.ready_head p
      by_cases hl : t.queued 0 = [] ∧ (t.proc p).level = 0
      · rw [if_pos hl] at hhead
        have hne : (t.ready p).queued 0 ≠ [] := by
          intro hnil
          rw [hnil] at hhead
          cases hhead
        rw [if_neg hne, hhead, if_pos hl.1]
        simp [hc, hl.2]
      · rw [if_neg hl] at hhead
        have hiff : (t.ready p).queued 0 = [] ↔ t.queued 0 = [] := by
          rw [← List.head?_eq_none_iff, hhead, List.head?_eq_none_iff]
        rw [hhead, if_congr hiff rfl rfl]
        split_ifs with hnil
        · have hlevel : (t.proc p).level ≠ 0 := fun h => hl ⟨hnil, h⟩
          simp only [hc.1, hc.2, hlevel, and_false, decide_false]
          apply List.find?_congr
          intro q hq
          have hqp : q ≠ p := fun h => hp (h ▸ hq)
          rw [ready, enqueue_proc, setProc_proc_ne _ _ _ _ hqp]
        · rfl
    · have hnot : ¬ ((t.proc p).state = .sleeping ∧ (t.proc p).chan = chan ∧
          (t.proc p).level = 0) := fun h => hc ⟨h.1, h.2.1⟩
      rw [if_neg hc, ih hps, decide_eq_false hnot]

variable {s : State} {q : Slot}

/-- With no process queued the tick resets the lock holder and nobody else. -/
theorem tick_idle (hwrap : (s.mlfqticks + 1) % 100 = 0) (hlock : s.lockproc = some q)
    (hidle : s.firstReady = none) (p : Slot) :
    s.tick.proc p = if p = q then (s.proc q).boosted else s.proc p := by
  have hzero : (s.L 0).size = 0 ∧ (s.L 1).size = 0 ∧ (s.L 2).size = 0 := by
    rw [firstReady_eq] at hidle
    split_ifs at hidle
    omega
  have hqueue : ∀ i, (s.L i).size = 0 → boostQueue { s with mlfqticks := 0 } i =
      { s with mlfqticks := 0 } := by
    intro i hi
    show boostLoop i (s.L i).size 0 _ = _
    rw [hi]
    rfl
  have hnone : { s with mlfqticks := 0 }.boostQueues = { s with mlfqticks := 0 } := by
    rw [boostQueues, hqueue 0 hzero.1, hqueue 1 hzero.2.1, hqueue 2 hzero.2.2]
  have hend : s.tick = { s with mlfqticks := 0, lockproc := none }.setProc q
      fun r => { r with level := 0, usedtime := 0, priority := 3 } := by
    unfold tick
    rw [hwrap]
    show { s with mlfqticks := 0 }.boostQueues.boostLockproc = _
    rw [hnone]
    unfold boostLockproc
    rw [hlock]
  rw [hend]
  split_ifs with hp
  · rw [hp, setProc_proc_self]
    rfl
  · rw [setProc_proc_ne _ _ _ _ hp]

/-- The head of `L[0]` after the tick and `wakeup(&ticks)`. -/
theorem wakeup_head (hwrap : (s.mlfqticks + 1) % 100 = 0) (hlock : s.lockproc = some q)
    (hhead : (s.tick.queued 0).head? = s.firstReady) :
    ((s.tick.wakeup1 (some TICKS)).queued 0).head? =
      if s.firstReady = none then s.firstSleeper q else s.firstReady := by
  have hwoken := foldl_wakeup_head (some TICKS) _ (List.nodup_finRange NPROC) s.tick
  have hiff : s.tick.queued 0 = [] ↔ s.firstReady = none := by
    rw [← List.head?_eq_none_iff, hhead]
  rw [if_congr hiff rfl rfl, hhead] at hwoken
  rw [wakeup1, hwoken]
  split_ifs with hidle
  · unfold firstSleeper
    apply List.find?_congr
    intro p _
    rw [tick_idle hwrap hlock hidle]
    split_ifs with hp
    · simp [hp, Proc.boosted]
    · simp [hp]
  · rfl

end State

open State

theorem releasedFirst_iff_head {u : State} {q : Slot} (hfree : u.lockproc = none)
    (hlevel : (u.proc q).level = 0) (husedtime : (u.proc q).usedtime = 0)
    (hpriority : (u.proc q).priority = 3) :
    ReleasedFirst u q ↔ (u.queued 0).head? = some q := by
  constructor
  · intro h
    exact h.first
  · intro hhead
    refine ⟨hfree, hlevel, husedtime, hpriority, hhead, ?_⟩
    apply choose_of_head hhead
    rw [hlevel]
    decide

/-- Boosting frees the lock and resets its holder, but the holder goes first only where it was
the first queued process, or nothing is queued and it is the first to come: the first sleeper that
the tick wakes, or the process that runs where it wakes none. -/
theorem releasedFirst_iff {s : State} {q : Slot} (r : Option Slot)
    (hwrap : (s.mlfqticks + 1) % 100 = 0) (hlock : s.lockproc = some q) :
    ReleasedFirst (s.timerTrap r) q ↔
      s.firstReady = some q ∨ (s.firstReady = none ∧
        (s.firstSleeper q = some q ∨ (s.firstSleeper q = none ∧ r = some q))) := by
  have htick : s.tick = { s with mlfqticks := 0 }.priorityboosting := by
    unfold tick
    rw [hwrap]
    rfl
  obtain ⟨hfree, hproc, hhead⟩ := priorityboosting_holder (s := { s with mlfqticks := 0 }) hlock
  rw [← htick] at hfree hproc hhead
  have hready : ({ s with mlfqticks := 0 } : State).firstReady = s.firstReady := rfl
  rw [hready] at hhead
  obtain ⟨hl, hu, hp⟩ := wakeup1_fields s.tick (some TICKS) q
  rw [hproc, Proc.boosted] at hl hu hp
  have hunlocked := wakeup1_free s.tick (some TICKS) hfree
  have hfront := wakeup_head hwrap hlock hhead
  have htrap : s.timerTrap r = match r with
      | none => s.tick.wakeup1 (some TICKS)
      | some p => (s.tick.wakeup1 (some TICKS)).yield p := rfl
  -- the state between the wakeup and the yield
  generalize s.tick.wakeup1 (some TICKS) = u at hl hu hp hunlocked hfront htrap
  cases r with
  | none =>
    rw [htrap]
    dsimp only
    rw [releasedFirst_iff_head hunlocked hl hu hp, hfront]
    split_ifs with hidle
    · simp [hidle]
    · simp [hidle]
  | some p =>
    have hready : u.yield p = u.ready p := by rw [yield, hunlocked]
    have hfields := ready_fields u p q
    rw [hl, hu, hp] at hfields
    have hfree' : (u.ready p).lockproc = none := hunlocked
    have hempty : u.queued 0 = [] ↔ s.firstReady = none ∧ s.firstSleeper q = none := by
      rw [← List.head?_eq_none_iff, hfront]
      split_ifs with hidle
      · simp [hidle]
      · simp [hidle]
    rw [htrap]
    dsimp only
    rw [hready, releasedFirst_iff_head hfree' hfields.1 hfields.2.1 hfields.2.2, ready_head, hfront]
    by_cases hidle : s.firstReady = none
    · by_cases hnone : s.firstSleeper q = none
      · have hnil := hempty.mpr ⟨hidle, hnone⟩
        by_cases hpq : p = q
        · rw [hpq, if_pos ⟨hnil, hl⟩]
          simp [hidle, hnone]
        · split_ifs
          · simp [hidle, hnone, hpq]
          · simp [hidle, hnone, hpq]
      · rw [if_neg fun h => hnone (hempty.mp h.1).2, if_pos hidle]
        simp [hidle, hnone]
    · rw [if_neg fun h => hidle (hempty.mp h.1).1, if_neg hidle]
      simp [hidle]

/-- Process 1 holds the lock and waits alone when the ticks wrap. -/
def holderAlone : List Action :=
  [.mlfqscheduler, .allocproc 0, .fork 0, .sleep 0 (.other 1), .mlfqscheduler,
    .schedulerLock 1 PASSWORD, .resetTicks 1] ++ List.replicate 99 .tick

theorem releasedFirst_iff_alone :
    ∃ s, run step userinit holderAlone = some s ∧
      (ReleasedFirst (s.timerTrap (some 1)) 1 ↔
        s.firstReady = some 1 ∨ (s.firstReady = none ∧ (s.firstSleeper 1 = some 1 ∨
          (s.firstSleeper 1 = none ∧ some 1 = some (1 : Slot))))) := by
  have hrun : (run step userinit holderAlone).any (fun s =>
      decide ((s.mlfqticks + 1) % 100 = 0 ∧ s.lockproc = some 1)) = true := by decide +kernel
  obtain ⟨s, hs, hview⟩ := (Option.any_eq_true _ _).mp hrun
  rw [decide_eq_true_eq] at hview
  exact ⟨s, hs, releasedFirst_iff (some 1) hview.1 hview.2⟩

/-- Process 1 takes the lock while process 2 waits in `L[0]`. -/
def holderWaits : List Action :=
  [.mlfqscheduler, .allocproc 0, .fork 0, .allocproc 0, .fork 0, .sleep 0 (.other 1),
    .mlfqscheduler, .schedulerLock 1 PASSWORD, .resetTicks 1] ++ List.replicate 99 .tick

/-- The holder that runs at the boosting tick is queued behind the process that waits. -/
theorem not_releasedFirst :
    ¬ ∀ s, Reachable step userinit s → ∀ q, s.lockproc = some q → (s.mlfqticks + 1) % 100 = 0 →
      (s.proc q).state = .running → ReleasedFirst (s.timerTrap (some q)) q := by
  intro hall
  have hrun : (run step userinit holderWaits).any (fun s =>
      decide (s.lockproc = some 1 ∧ (s.mlfqticks + 1) % 100 = 0 ∧ (s.proc 1).state = .running ∧
        (s.timerTrap (some 1)).choose = some 2)) = true := by decide +kernel
  obtain ⟨s, hs, hview⟩ := (Option.any_eq_true _ _).mp hrun
  rw [decide_eq_true_eq] at hview
  obtain ⟨hlock, hwrap, hrunning, hnext⟩ := hview
  have hfirst := hall s (reachable_of_run hs) 1 hlock hwrap hrunning
  have hchoose := hfirst.next
  rw [hnext] at hchoose
  exact absurd hchoose (by decide)

end Xv6.Mlfq
