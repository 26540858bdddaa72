import Xv6.Mlfq.Choice
import Xv6.Mlfq.Ticks

/-!
# The time quanta (project1/proc.c:766-778)

`mlfqscheduler` charges a process when it dispatches it, and the process is enqueued later, at the
level that it has then. `Metered` ties the level and the used time to the number of dispatches
since they were last reset.
-/

namespace Xv6.Mlfq
open Transition

/-- What `mlfqscheduler` makes of the accounting of a process whose queue has quantum `q`. -/
def Proc.spend (r : Proc) (q : Int) : Int × Int × Int :=
  if q ≤ r.usedtime + 1 then
    if r.level < 2 then (r.level + 1, 0, r.priority)
    else (r.level, 0, if 0 < r.priority then r.priority - 1 else r.priority)
  else (r.level, r.usedtime + 1, r.priority)

/-- The runs that the claims about quanta are about: nobody takes the scheduler lock. -/
def Unlocked (a : Action) : Prop := ∀ i, a ≠ .schedulerLock i PASSWORD

/-- How a step may change the accounting of a process. -/
inductive Recharged (s t : State) (a : Action) (p : Slot) : Prop where
  | same (ha : a = .mlfqscheduler → s.choose ≠ some p)
      (h : (t.proc p).charge = (s.proc p).charge)
  | reset (ha : (∃ i, a = .allocproc i) ∨ (a = .tick ∧ t.mlfqticks = 0) ∨ s.lockproc ≠ none)
      (h : (t.proc p).charge = (0, 0, 3))
  | set (pid x : Int) (ha : a = .setPriority pid x) (hx : 0 ≤ x ∧ x ≤ 3)
      (h : (t.proc p).charge = ((s.proc p).level, (s.proc p).usedtime, x))
  | spent (ha : a = .mlfqscheduler) (hp : s.choose = some p)
      (h : (t.proc p).charge = (s.proc p).spend (s.L (s.proc p).level).timequantum)

/-- What a step does to the accounting. -/
structure Accounts (s t : State) (a : Action) : Prop where
  charge : ∀ p, Recharged s t a p
  quantum : ∀ l, (t.L l).timequantum = (s.L l).timequantum
  lock : Unlocked a → s.lockproc = none → t.lockproc = none

namespace State

variable (s : State)

theorem boostQueue_charge (i : Int) (p : Slot) :
    ((s.boostQueue i).proc p).charge = (s.proc p).charge ∨
      ((s.boostQueue i).proc p).charge = (0, 0, 3) := by
  apply boostLoop_keeps (P := fun t =>
    (t.proc p).charge = (s.proc p).charge ∨ (t.proc p).charge = (0, 0, 3)) _ _ _ (Or.inl rfl)
  intro t ht
  rw [boostOne_proc]
  split_ifs
  · exact Or.inr rfl
  · exact ht

theorem boostQueues_charge (p : Slot) :
    (s.boostQueues.proc p).charge = (s.proc p).charge ∨
      (s.boostQueues.proc p).charge = (0, 0, 3) := by
  have h0 := s.boostQueue_charge 0 p
  have h1 := (s.boostQueue 0).boostQueue_charge 1 p
  have h2 := ((s.boostQueue 0).boostQueue 1).boostQueue_charge 2 p
  unfold boostQueues
  rcases h2 with h2 | h2
  · rw [h2]
    rcases h1 with h1 | h1
    · rw [h1]
      exact h0
    · exact Or.inr h1
  · exact Or.inr h2

theorem priorityboosting_charge (p : Slot) :
    (s.priorityboosting.proc p).charge = (s.proc p).charge ∨
      (s.priorityboosting.proc p).charge = (0, 0, 3) := by
  have hqueues := s.boostQueues_charge p
  show (s.boostQueues.boostLockproc.proc p).charge = _ ∨
    (s.boostQueues.boostLockproc.proc p).charge = _
  unfold boostLockproc
  split
  · exact hqueues
  · next q _ =>
    rw [setProc_charge]
    split_ifs
    · exact Or.inr rfl
    · exact hqueues

theorem tick_charge (p : Slot) :
    (s.tick.proc p).charge = (s.proc p).charge ∨
      s.tick.mlfqticks = 0 ∧ (s.tick.proc p).charge = (0, 0, 3) := by
  rw [s.tick_ticks]
  unfold tick
  dsimp only
  split_ifs with hwrap
  · rcases priorityboosting_charge { s with mlfqticks := (s.mlfqticks + 1) % 100 } p with h | h
    · exact Or.inl h
    · exact Or.inr ⟨hwrap, h⟩
  · exact Or.inl rfl

theorem boostQueue_quantum (i l : Int) :
    ((s.boostQueue i).L l).timequantum = (s.L l).timequantum := by
  apply boostLoop_keeps (P := fun t => (t.L l).timequantum = (s.L l).timequantum) _ _ _ rfl
  intro t ht
  unfold boostOne
  dsimp only
  split_ifs
  · refine Eq.trans ?_ ht
    refine (setL_timequantum _ (Queue.enqueue_timequantum _ _) l).trans ?_
    exact setL_timequantum _ (Queue.dequeue_timequantum _) l
  · exact ht

theorem tick_quantum (l : Int) : (s.tick.L l).timequantum = (s.L l).timequantum := by
  have hqueues : ∀ t : State, (t.boostQueues.L l).timequantum = (t.L l).timequantum := by
    intro t
    unfold boostQueues
    rw [boostQueue_quantum, boostQueue_quantum, boostQueue_quantum]
  unfold tick
  dsimp only
  split_ifs
  · show ((boostLockproc (boostQueues _)).L l).timequantum = _
    unfold boostLockproc
    split
    · exact hqueues _
    · exact hqueues _
  · rfl

theorem take_quantum (p : Slot) (l : Int) :
    ((s.take p).L l).timequantum = (s.L l).timequantum := by
  unfold take
  dsimp only
  split_ifs
  · exact setL_timequantum _ (Queue.remove_timequantum _ _ _) l
  · exact setL_timequantum _ (Queue.dequeue_timequantum _) l

theorem account_charge (p : Slot) : ((s.account p).proc p).charge =
    (s.proc p).spend (s.L (s.proc p).level).timequantum := by
  simp only [account, Proc.spend, setProc_proc_self, setProc_L]
  split_ifs
  · rw [setProc_proc_self, setProc_proc_self]
    rfl
  · rw [setProc_proc_self, setProc_proc_self]
    simp only [Proc.charge]
    rw [if_pos (by assumption)]
  · rw [setProc_proc_self, setProc_proc_self]
    simp only [Proc.charge]
    rw [if_neg (by assumption)]
  · rw [setProc_proc_self]
    rfl

theorem account_L (p : Slot) : (s.account p).L = s.L := by
  unfold account
  dsimp only
  split_ifs <;> rfl

theorem mlfqscheduler_charge {p : Slot} : (((s.take p).account p).proc p).charge =
    (s.proc p).spend (s.L (s.proc p).level).timequantum := by
  rw [account_charge, Inv.take_proc_self, take_quantum]
  rfl

end State

theorem Accounts.of_calm {s t : State} {a : Action} (ha : a ≠ .mlfqscheduler) (h : Calm s t) :
    Accounts s t a :=
  ⟨fun p => .same (fun heq => absurd heq ha) (h.charge p), h.quantum, fun _ => h.lock⟩

theorem allocproc_accounts (s : State) (i : Slot) : Accounts s (s.allocproc i) (.allocproc i) := by
  unfold State.allocproc
  split
  · exact Accounts.of_calm (fun h => by cases h) (Calm.refl s)
  · next np _ =>
    refine ⟨?_, fun _ => rfl, fun _ => id⟩
    intro p
    by_cases hp : p = np
    · apply Recharged.reset (Or.inl ⟨i, rfl⟩)
      dsimp only
      rw [State.setPc_proc, hp, State.setProc_proc_self]
      rfl
    · apply Recharged.same (fun h => by cases h)
      dsimp only
      rw [State.setPc_proc, State.setProc_proc_ne _ _ _ _ hp]

theorem setPriority_accounts (s : State) (pid priority : Int) :
    Accounts s (s.setPriority pid priority) (.setPriority pid priority) := by
  have hsame : Accounts s s (.setPriority pid priority) :=
    Accounts.of_calm (fun h => by cases h) (Calm.refl s)
  unfold State.setPriority
  split_ifs with hrange
  · exact hsame
  · split
    · exact hsame
    · next np _ =>
      refine ⟨?_, fun _ => rfl, fun _ => id⟩
      intro p
      by_cases hp : p = np
      · apply Recharged.set pid priority rfl (by omega)
        rw [hp, State.setProc_proc_self]
        rfl
      · apply Recharged.same (fun h => by cases h)
        rw [State.setProc_proc_ne _ _ _ _ hp]

theorem schedulerUnlock_accounts {s t : State} {i : Slot} {password : Int}
    (h : s.schedulerUnlock i password = some t) : Accounts s t (.schedulerUnlock i password) := by
  cases hlock : s.lockproc with
  | none => exact Accounts.of_calm (fun h => by cases h) (Calm.schedulerUnlock hlock h)
  | some q =>
    unfold State.schedulerUnlock at h
    rw [hlock] at h
    dsimp only at h
    split_ifs at h
    · exact Accounts.of_calm (fun h => by cases h) (Calm.exit h)
    · cases h
      exact Accounts.of_calm (fun h => by cases h) (Calm.refl _)
    · have heq := Option.some.inj h
      subst heq
      refine ⟨?_, ?_, fun _ hnone => ?_⟩
      · intro p
        by_cases hp : p = i
        · apply Recharged.reset (Or.inr (Or.inr (by simp [hlock])))
          rw [State.insertqueue_proc, hp, State.setProc_proc_self]
          rfl
        · apply Recharged.same (fun h => by cases h)
          rw [State.insertqueue_proc, State.setProc_proc_ne _ _ _ _ hp]
      · intro l
        exact State.setL_timequantum _ (Queue.insertqueue_timequantum _ _) l
      · rw [hlock] at hnone
        cases hnone

theorem step_accounts {s t : State} {a : Action} (hs : step s a = some t) : Accounts s t a := by
  by_cases ha : Charges a
  · cases a with
    | allocproc i =>
      simp only [step] at hs
      split_ifs at hs
      cases hs
      exact allocproc_accounts s i
    | setPriority pid priority =>
      cases hs
      exact setPriority_accounts s pid priority
    | schedulerLock i password =>
      have hpw : password = PASSWORD := ha
      simp only [step] at hs
      split_ifs at hs
      unfold State.schedulerLock at hs
      rw [if_neg (not_not.mpr hpw)] at hs
      have hkeep : t.proc = s.proc ∧ t.L = s.L := by
        split at hs
        · cases hs
          exact ⟨rfl, rfl⟩
        · cases hs
          exact ⟨rfl, rfl⟩
      refine ⟨?_, ?_, ?_⟩
      · intro p
        apply Recharged.same (fun h => by cases h)
        rw [hkeep.1]
      · intro l
        rw [hkeep.2]
      · intro hun
        exact absurd (by rw [hpw]) (hun i)
    | resetTicks i =>
      simp only [step] at hs
      split_ifs at hs
      cases hs
      exact ⟨fun p => .same (fun h => by cases h) rfl, fun _ => rfl, fun _ => id⟩
    | schedulerUnlock i password =>
      simp only [step] at hs
      split_ifs at hs
      exact schedulerUnlock_accounts hs
    | tick =>
      have heq : t = s.tick := (Option.some.inj hs).symm
      rw [heq]
      refine ⟨?_, s.tick_quantum, ?_⟩
      · intro p
        rcases s.tick_charge p with h | ⟨hwrap, h⟩
        · exact Recharged.same (fun h => by cases h) h
        · exact Recharged.reset (Or.inr (Or.inl ⟨rfl, hwrap⟩)) h
      · intro _ hnone
        rw [s.tick_lockproc]
        split_ifs
        · rfl
        · exact hnone
    | mlfqscheduler =>
      obtain ⟨p, hp, rfl⟩ := Option.map_eq_some_iff.mp hs
      refine ⟨?_, ?_, ?_⟩
      · intro q
        by_cases hq : q = p
        · rw [hq]
          exact Recharged.spent rfl hp s.mlfqscheduler_charge
        · apply Recharged.same
          · intro _ hc
            rw [hp] at hc
            exact hq (Option.some.inj hc).symm
          · rw [account_proc_ne _ hq, Inv.take_proc_ne _ hq]
      · intro l
        rw [State.account_L]
        exact s.take_quantum p l
      · intro _ hnone
        have hkeep : ((s.take p).account p).lockproc = s.lockproc := by
          simp only [State.account, State.take]
          split_ifs <;> rfl
        rw [hkeep]
        exact hnone
    | _ => exact absurd ha id
  · have hne : a ≠ .mlfqscheduler := by
      rintro rfl
      exact ha trivial
    exact Accounts.of_calm hne (step_calm ha hs)

/-! ### The bounds -/

/-- The accounting fields are in range. -/
structure Bounded (s : State) : Prop where
  usedtime : ∀ p, 0 ≤ (s.proc p).usedtime ∧ (s.proc p).usedtime < 2 * (s.proc p).level + 4
  level : ∀ p, 0 ≤ (s.proc p).level ∧ (s.proc p).level ≤ 2
  priority : ∀ p, 0 ≤ (s.proc p).priority ∧ (s.proc p).priority ≤ 3

/-- `ptable.L[l].timequantum` as `pinit` sets it. -/
def Quanta (s : State) : Prop := ∀ l, (s.L l).timequantum = 2 * l + 4

theorem Bounded.step {s t : State} {a : Action} (h : Bounded s) (hq : Quanta s)
    (hs : step s a = some t) : Bounded t := by
  have hall : ∀ p, (0 ≤ (t.proc p).usedtime ∧ (t.proc p).usedtime < 2 * (t.proc p).level + 4) ∧
      (0 ≤ (t.proc p).level ∧ (t.proc p).level ≤ 2) ∧
      (0 ≤ (t.proc p).priority ∧ (t.proc p).priority ≤ 3) := by
    intro p
    have hu := h.usedtime p
    have hl := h.level p
    have hp := h.priority p
    have hfields : ∀ l u x, (t.proc p).charge = (l, u, x) →
        (t.proc p).level = l ∧ (t.proc p).usedtime = u ∧ (t.proc p).priority = x := by
      intro l u x heq
      simp only [Proc.charge, Prod.mk.injEq] at heq
      exact heq
    cases (step_accounts hs).charge p with
    | same _ hc =>
      obtain ⟨h1, h2, h3⟩ := hfields _ _ _ hc
      rw [h1, h2, h3]
      exact ⟨hu, hl, hp⟩
    | reset _ hc =>
      obtain ⟨h1, h2, h3⟩ := hfields _ _ _ hc
      rw [h1, h2, h3]
      decide
    | set pid x _ hx hc =>
      obtain ⟨h1, h2, h3⟩ := hfields _ _ _ hc
      rw [h1, h2, h3]
      exact ⟨hu, hl, hx⟩
    | spent _ _ hc =>
      rw [hq] at hc
      unfold Proc.spend at hc
      split_ifs at hc with hfull hlow hpos
      · obtain ⟨h1, h2, h3⟩ := hfields _ _ _ hc
        rw [h1, h2, h3]
        omega
      · obtain ⟨h1, h2, h3⟩ := hfields _ _ _ hc
        rw [h1, h2, h3]
        omega
      · obtain ⟨h1, h2, h3⟩ := hfields _ _ _ hc
        rw [h1, h2, h3]
        omega
      · obtain ⟨h1, h2, h3⟩ := hfields _ _ _ hc
        rw [h1, h2, h3]
        omega
  exact ⟨fun p => (hall p).1, fun p => (hall p).2.1, fun p => (hall p).2.2⟩

theorem Quanta.step {s t : State} {a : Action} (h : Quanta s) (hs : step s a = some t) :
    Quanta t := by
  intro l
  rw [(step_accounts hs).quantum]
  exact h l

theorem quanta_userinit : Quanta userinit := by
  intro l
  have hcalm := (Calm.ready (pinit.allocproc 0) 0).trans (Calm.setPc (Calm.refl _) 0 .user)
  rw [userinit, hcalm.quantum]
  exact (allocproc_accounts pinit 0).quantum l

theorem bounded_userinit : Bounded userinit := by
  have hzero : ∀ p, (userinit.proc p).charge = (0, 0, 3) ∨
      (userinit.proc p).charge = (0, 0, 0) := by decide +kernel
  have hall : ∀ p, (userinit.proc p).level = 0 ∧ (userinit.proc p).usedtime = 0 ∧
      (0 ≤ (userinit.proc p).priority ∧ (userinit.proc p).priority ≤ 3) := by
    intro p
    rcases hzero p with h | h
    · simp only [Proc.charge, Prod.mk.injEq] at h
      rw [h.1, h.2.1, h.2.2]
      decide
    · simp only [Proc.charge, Prod.mk.injEq] at h
      rw [h.1, h.2.1, h.2.2]
      decide
  refine ⟨?_, ?_, ?_⟩
  · intro p
    rw [(hall p).1, (hall p).2.1]
    decide
  · intro p
    rw [(hall p).1]
    decide
  · intro p
    exact (hall p).2.2

theorem bounded_of_reach {s : State} (hr : Reachable step userinit s) : Bounded s := by
  have hboth : Bounded s ∧ Quanta s := by
    apply hr.invariant ⟨bounded_userinit, quanta_userinit⟩
    intro u a v hu _ hs
    exact ⟨hu.1.step hu.2 hs, hu.2.step hs⟩
  exact hboth.1

/-! ### The dispatches since the last reset -/

/-- The kernel, with the dispatches of each process since its time and level were last reset. -/
structure Ledger where
  sys : State
  count : Slot → Nat

namespace Ledger

/-- Whoever `allocproc` or `priorityboosting` left at level 0 with no time used counts from 0. -/
def restart (t : State) (count : Slot → Nat) : Slot → Nat := fun p =>
  if (t.proc p).level = 0 ∧ (t.proc p).usedtime = 0 then 0 else count p

def step (c : Ledger) (a : Action) : Option Ledger :=
  (Mlfq.step c.sys a).map fun t => match a with
    | .allocproc _ => ⟨t, restart t c.count⟩
    | .tick => if t.mlfqticks = 0 then ⟨t, restart t c.count⟩ else ⟨t, c.count⟩
    | .mlfqscheduler => ⟨t, fun p => if c.sys.choose = some p then c.count p + 1 else c.count p⟩
    | _ => ⟨t, c.count⟩

def init : Ledger := ⟨userinit, fun _ => 0⟩

theorem step_sys {c d : Ledger} {a : Action} (h : c.step a = some d) :
    Mlfq.step c.sys a = some d.sys := by
  obtain ⟨t, ht, rfl⟩ := Option.map_eq_some_iff.mp h
  rw [ht]
  cases a with
  | tick =>
    dsimp only
    split_ifs <;> rfl
  | _ => rfl

end Ledger

/-- The queue of the next dispatch, after `n` dispatches. -/
def levelAt (n : Nat) : Int := if n < 4 then 0 else if n < 10 then 1 else 2

/-- The time used at its level, after `n` dispatches. -/
def usedAt (n : Nat) : Int :=
  if n < 4 then n else if n < 10 then (n - 4 : Nat) else ((n - 10) % 8 : Nat)

/-- What a step means for the quanta: which queue a dispatch is taken from, and that only every
eighth dispatch from `L[2]` lowers a priority. -/
structure QuantumLaw (c d : Ledger) (a : Action) : Prop where
  taken : ∀ p, a = .mlfqscheduler → c.sys.choose = some p →
    Dispatched c.sys d.sys (levelAt (c.count p)) p
  lowered : ∀ p, a = .mlfqscheduler → c.sys.choose = some p → (d.sys.proc p).priority =
    if 10 ≤ c.count p ∧ (c.count p - 10) % 8 = 7 then max ((c.sys.proc p).priority - 1) 0
    else (c.sys.proc p).priority
  kept : ∀ p, (a = .mlfqscheduler → c.sys.choose ≠ some p) → (∀ pid x, a ≠ .setPriority pid x) →
    (d.sys.proc p).priority = (c.sys.proc p).priority ∨
      d.count p = 0 ∧ (d.sys.proc p).priority = 3

/-- `allocproc` hands out a pid that nobody has. -/
def FreshPid (s : State) : Action → Prop
  | .allocproc _ => ∀ q, (s.proc q).state ≠ .unused → (s.proc q).pid ≠ s.nextpid
  | _ => True

def QuantumOk (c : Ledger) (a : Action) : Prop := Unlocked a ∧ FreshPid c.sys a

/-- In runs that nobody locks, the level and the used time count the dispatches. -/
structure Metered (c : Ledger) : Prop where
  good : Good c.sys
  free : c.sys.lockproc = none
  quantum : Quanta c.sys
  bounds : Bounded c.sys
  level : ∀ p, (c.sys.proc p).level = levelAt (c.count p)
  usedtime : ∀ p, (c.sys.proc p).usedtime = usedAt (c.count p)

theorem spend_at {r : Proc} {n : Nat} (hl : r.level = levelAt n) (hu : r.usedtime = usedAt n)
    (hp : 0 ≤ r.priority) : r.spend (2 * r.level + 4) = (levelAt (n + 1), usedAt (n + 1),
      if 10 ≤ n ∧ (n - 10) % 8 = 7 then max (r.priority - 1) 0 else r.priority) := by
  unfold Proc.spend
  rw [hl, hu]
  by_cases h4 : n < 4
  · simp only [levelAt, usedAt, if_pos h4, if_neg (show ¬ (10 ≤ n ∧ (n - 10) % 8 = 7) by omega)]
    split_ifs <;> simp only [Prod.mk.injEq, true_and, and_true] <;> omega
  · by_cases h10 : n < 10
    · simp only [levelAt, usedAt, if_neg h4, if_pos h10,
        if_neg (show ¬ (10 ≤ n ∧ (n - 10) % 8 = 7) by omega)]
      split_ifs <;> simp only [Prod.mk.injEq, true_and, and_true] <;> omega
    · simp only [levelAt, usedAt, if_neg h4, if_neg h10]
      split_ifs <;> simp only [Prod.mk.injEq, true_and, and_true] <;> omega

namespace Metered

variable {c d : Ledger} {a : Action}

theorem stepOk (h : Metered c) (hok : FreshPid c.sys a) : StepOk c.sys a := by
  cases a with
  | allocproc i => exact hok
  | tick =>
    intro _ hleft
    obtain ⟨p, hp, -⟩ := hleft
    rw [h.free] at hp
    cases hp
  | _ => trivial

theorem spent (h : Metered c) {t : State} (hs : Mlfq.step c.sys .mlfqscheduler = some t) {p : Slot}
    (hp : c.sys.choose = some p) : (t.proc p).charge =
      (levelAt (c.count p + 1), usedAt (c.count p + 1),
        if 10 ≤ c.count p ∧ (c.count p - 10) % 8 = 7 then max ((c.sys.proc p).priority - 1) 0
        else (c.sys.proc p).priority) := by
  rw [← spend_at (h.level p) (h.usedtime p) (h.bounds.priority p).1, ← h.quantum]
  obtain ⟨q, hq, rfl⟩ := Option.map_eq_some_iff.mp hs
  rw [hp] at hq
  rw [← Option.some.inj hq]
  exact c.sys.mlfqscheduler_charge

theorem place (h : Metered c) (hs : c.step a = some d) (p : Slot) :
    (d.sys.proc p).level = levelAt (d.count p) ∧
      (d.sys.proc p).usedtime = usedAt (d.count p) := by
  obtain ⟨t, ht, rfl⟩ := Option.map_eq_some_iff.mp hs
  have hlevel := h.level p
  have hused := h.usedtime p
  have hfields : ∀ l u x, (t.proc p).charge = (l, u, x) →
      (t.proc p).level = l ∧ (t.proc p).usedtime = u := by
    intro l u x heq
    simp only [Proc.charge, Prod.mk.injEq] at heq
    exact ⟨heq.1, heq.2.1⟩
  -- counting again from 0 is right wherever the fields are those of 0 dispatches
  have hrestart : ((t.proc p).level = levelAt (c.count p) ∧ (t.proc p).usedtime = usedAt (c.count p)
      ∨ (t.proc p).level = 0 ∧ (t.proc p).usedtime = 0) →
      (t.proc p).level = levelAt (Ledger.restart t c.count p) ∧
        (t.proc p).usedtime = usedAt (Ledger.restart t c.count p) := by
    intro hor
    unfold Ledger.restart
    split_ifs with hz
    · exact hz
    · rcases hor with hkeep | h0
      · exact hkeep
      · exact absurd h0 hz
  have hsame : (t.proc p).charge = (c.sys.proc p).charge →
      (t.proc p).level = levelAt (c.count p) ∧ (t.proc p).usedtime = usedAt (c.count p) := by
    intro hc
    obtain ⟨h1, h2⟩ := hfields _ _ _ hc
    rw [h1, h2]
    exact ⟨hlevel, hused⟩
  have hcharge := (step_accounts ht).charge p
  cases a with
  | allocproc i =>
    apply hrestart
    cases hcharge with
    | same _ hc => exact Or.inl (hsame hc)
    | reset _ hc => exact Or.inr (hfields _ _ _ hc)
    | set _ _ ha => cases ha
    | spent ha => cases ha
  | tick =>
    dsimp only
    split_ifs with hwrap
    · apply hrestart
      cases hcharge with
      | same _ hc => exact Or.inl (hsame hc)
      | reset _ hc => exact Or.inr (hfields _ _ _ hc)
      | set _ _ ha => cases ha
      | spent ha => cases ha
    · cases hcharge with
      | same _ hc => exact hsame hc
      | reset ha _ =>
        rcases ha with ⟨i, ha⟩ | ⟨-, hz⟩ | hlock
        · cases ha
        · exact absurd hz hwrap
        · exact absurd h.free hlock
      | set _ _ ha => cases ha
      | spent ha => cases ha
  | mlfqscheduler =>
    dsimp only
    split_ifs with hp
    · exact hfields _ _ _ (h.spent ht hp)
    · cases hcharge with
      | same _ hc => exact hsame hc
      | reset ha _ =>
        rcases ha with ⟨i, ha⟩ | ⟨ha, -⟩ | hlock
        · cases ha
        · cases ha
        · exact absurd h.free hlock
      | set _ _ ha => cases ha
      | spent _ hc => exact absurd hc hp
  | _ =>
    cases hcharge with
    | same _ hc => exact hsame hc
    | reset ha _ =>
      rcases ha with ⟨i, ha⟩ | ⟨ha, -⟩ | hlock
      · cases ha
      · cases ha
      · exact absurd h.free hlock
    | set _ _ ha _ hc =>
      obtain ⟨h1, h2⟩ := hfields _ _ _ hc
      dsimp only
      rw [h1, h2]
      exact ⟨hlevel, hused⟩
    | spent ha => cases ha

theorem step (h : Metered c) (hok : QuantumOk c a) (hs : c.step a = some d) : Metered d := by
  have hplace := h.place hs
  have ht := Ledger.step_sys hs
  refine ⟨?_, ?_, ?_, ?_, fun p => (hplace p).1, fun p => (hplace p).2⟩
  · exact good_step h.good (h.stepOk hok.2) ht
  · exact (step_accounts ht).lock hok.1 h.free
  · exact h.quantum.step ht
  · exact h.bounds.step h.quantum ht

theorem law (h : Metered c) (hs : c.step a = some d) : QuantumLaw c d a := by
  have hplace := h.place hs
  constructor
  · rintro p rfl hp
    obtain ⟨t, ht, hd⟩ := Option.map_eq_some_iff.mp hs
    obtain ⟨q, hq, rfl⟩ := Option.map_eq_some_iff.mp ht
    rw [hp] at hq
    rw [← Option.some.inj hq] at hd
    rw [← hd, ← h.level p]
    apply dispatched_of_choose h.good.inv.placed _ hp
    intro l m hl0 hl2 hm0 hm2 x hx y hy heq
    have hxs := ((h.good.inv.mem_queued hl0 hl2).mp hx).1
    have hys := ((h.good.inv.mem_queued hm0 hm2).mp hy).1
    exact h.good.inv.pids x y (by rw [hxs]; exact Procstate.noConfusion)
      (by rw [hys]; exact Procstate.noConfusion) heq
  · rintro p rfl hp
    have hcharge := h.spent (Ledger.step_sys hs) hp
    simp only [Proc.charge, Prod.mk.injEq] at hcharge
    exact hcharge.2.2
  · intro p hnot hset
    cases (step_accounts (Ledger.step_sys hs)).charge p with
    | same _ hc =>
      simp only [Proc.charge, Prod.mk.injEq] at hc
      exact Or.inl hc.2.2
    | reset ha hc =>
      simp only [Proc.charge, Prod.mk.injEq] at hc
      refine Or.inr ⟨?_, hc.2.2⟩
      have h1 := (hplace p).1
      have h2 := (hplace p).2
      rw [hc.1] at h1
      rw [hc.2.1] at h2
      unfold levelAt at h1
      unfold usedAt at h2
      split_ifs at h1 h2 <;> omega
    | set pid x ha => exact absurd ha (hset pid x)
    | spent ha hp => exact absurd hp (hnot ha)

end Metered

theorem metered_init : Metered Ledger.init := by
  have hzero : ∀ p, (userinit.proc p).level = 0 ∧ (userinit.proc p).usedtime = 0 := by
    decide +kernel
  refine ⟨good_userinit, by decide, quanta_userinit, bounded_userinit, ?_, ?_⟩
  · exact fun p => (hzero p).1
  · exact fun p => (hzero p).2

/-- In runs that nobody locks and where no pid is handed out twice, every dispatch is taken from
the queue of its number and only every eighth from `L[2]` lowers the priority; in all runs the
fields are in range. -/
theorem quantumLaw_of_reach {c d : Ledger} {a : Action}
    (hr : Reach Ledger.step QuantumOk Ledger.init c) (hs : c.step a = some d) :
    QuantumLaw c d a ∧ ∀ s, Reachable step userinit s → Bounded s := by
  constructor
  · have hm : Metered c := hr.invariant metered_init fun _ _ _ hu hok hs => hu.step hok hs
    exact hm.law hs
  · intro s hr
    exact bounded_of_reach hr

instance (a : Action) : Decidable (Unlocked a) :=
  inferInstanceAs (Decidable (∀ i, a ≠ .schedulerLock i PASSWORD))

instance (s : State) (a : Action) : Decidable (FreshPid s a) :=
  match a with
  | .allocproc _ => inferInstanceAs (Decidable (∀ _, _ → _))
  | .forkFail _ | .fork _ | .exit _ | .wait _ | .yield _ | .sleep _ _ | .wakeup _ | .kill _
  | .setPriority _ _ | .schedulerLock _ _ | .resetTicks _ | .schedulerUnlock _ _ | .tick
  | .mlfqscheduler => .isTrue trivial

instance (c : Ledger) (a : Action) : Decidable (QuantumOk c a) :=
  inferInstanceAs (Decidable (_ ∧ _))

/-- Init and the process that it has forked take turns until both are in `L[2]`. -/
def bothInL2 : Ledger :=
  (run (guarded Ledger.step QuantumOk) Ledger.init
    ([.mlfqscheduler, .allocproc 0, .fork 0, .setPriority 2 2] ++
      (List.replicate 9 [.yield 0, .mlfqscheduler, .yield 1, .mlfqscheduler]).flatten ++
      [.yield 0] ++ (List.replicate 8 [.mlfqscheduler, .yield 1]).flatten)).getD Ledger.init

/-- The eighth dispatch from `L[2]`. -/
theorem quantumLaw_of_reach_lowered : ∃ d, bothInL2.step .mlfqscheduler = some d ∧
    bothInL2.count 1 = 17 ∧ bothInL2.sys.choose = some 1 ∧
    (bothInL2.sys.proc 1).priority = 2 ∧ (d.sys.proc 1).priority = 1 ∧
    QuantumLaw bothInL2 d .mlfqscheduler ∧ ∀ s, Reachable step userinit s → Bounded s := by
  have hr : Reach Ledger.step QuantumOk Ledger.init bothInL2 :=
    reach_of_guarded_run (eq_some_getD (by decide +kernel))
  have hsome : (bothInL2.step .mlfqscheduler).isSome = true := by decide +kernel
  have hcount : bothInL2.count 1 = 17 := by decide +kernel
  have hchoose : bothInL2.sys.choose = some 1 := by decide +kernel
  have hpriority : (bothInL2.sys.proc 1).priority = 2 := by decide +kernel
  obtain ⟨d, hd⟩ := Option.isSome_iff_exists.mp hsome
  obtain ⟨hlaw, hbounded⟩ := quantumLaw_of_reach hr hd
  have hlowered := hlaw.lowered 1 rfl hchoose
  rw [hcount, hpriority] at hlowered
  exact ⟨d, hd, hcount, hchoose, hpriority, hlowered, hlaw, hbounded⟩

/-! ### Every pid handed out -/

/-- Slot `np` is free again after a `fork` that failed, which has used up pid `n`. -/
def State.burnt (s : State) (np : Slot) (n : Int) : State :=
  { s.setProc np fun r =>
      { r with state := .unused, pid := n, priority := 3, usedtime := 0, level := 0 }
    with nextpid := nextPid n }

theorem State.burnt_burnt (s : State) (np : Slot) (m n : Int) :
    (s.burnt np m).burnt np n = s.burnt np n := by
  simp only [burnt, setProc, Function.update_idem, Function.update_self]

theorem State.burnt_proc_ne (s : State) {p np : Slot} (n : Int) (hp : p ≠ np) :
    (s.burnt np n).proc p = s.proc p := by
  simp only [burnt]
  rw [setProc_proc_ne _ _ _ _ hp]

theorem State.burnt_state (s : State) {np : Slot} (n : Int) (hu : (s.proc np).state = .unused)
    (p : Slot) : ((s.burnt np n).proc p).state = (s.proc p).state := by
  by_cases hp : p = np
  · simp only [burnt]
    rw [hp, setProc_proc_self, hu]
  · rw [burnt_proc_ne s n hp]

/-- `i` can try to fork, and the slot that it would get counts from 0. -/
structure CanFork (c : Ledger) (i np : Slot) : Prop where
  found : (List.finRange NPROC).find? (fun p => (c.sys.proc p).state = .unused) = some np
  running : (c.sys.proc i).state = .running
  user : c.sys.pc i = .user
  fresh : ∀ p, (c.sys.proc p).level = 0 ∧ (c.sys.proc p).usedtime = 0 → c.count p = 0
  zero : c.count np = 0

namespace CanFork

variable {c : Ledger} {i np : Slot}

theorem unused (h : CanFork c i np) : (c.sys.proc np).state = .unused := by
  have hfound := List.find?_some h.found
  simpa using hfound

theorem burnt (h : CanFork c i np) (n : Int) : CanFork ⟨c.sys.burnt np n, c.count⟩ i np := by
  have hstate := c.sys.burnt_state n h.unused
  refine ⟨?_, ?_, h.user, ?_, h.zero⟩
  · simp only [hstate]
    exact h.found
  · rw [hstate]
    exact h.running
  · intro p hp
    by_cases hnp : p = np
    · rw [hnp]
      exact h.zero
    · apply h.fresh
      rw [State.burnt_proc_ne c.sys n hnp] at hp
      exact hp

theorem fails (h : CanFork c i np) : Reach Ledger.step (fun _ a => Unlocked a) c
    ⟨c.sys.burnt np c.sys.nextpid, c.count⟩ := by
  have hne : i ≠ np := by
    rintro rfl
    have hrun := h.running
    rw [h.unused] at hrun
    cases hrun
  -- the slot is EMBRYO in between
  have halloc : Mlfq.step c.sys (.allocproc i) = some (c.sys.allocproc i) := by
    simp only [Mlfq.step]
    rw [if_pos ⟨h.running, h.user⟩]
  have htaken : c.sys.allocproc i = { (c.sys.setProc np fun r =>
      { r with state := .embryo, pid := c.sys.nextpid, priority := 3, usedtime := 0, level := 0 })
        with nextpid := nextPid c.sys.nextpid }.setPc i (.fork np) := by
    simp only [State.allocproc]
    rw [h.found]
  have hrestart : Ledger.restart (c.sys.allocproc i) c.count = c.count := by
    funext p
    unfold Ledger.restart
    split_ifs with hz
    · by_cases hp : p = np
      · rw [hp, h.zero]
      · rw [htaken, State.setPc_proc] at hz
        dsimp only at hz
        rw [State.setProc_proc_ne _ _ _ _ hp] at hz
        exact (h.fresh p hz).symm
    · rfl
  have hfail : Mlfq.step (c.sys.allocproc i) (.forkFail i) =
      some (c.sys.burnt np c.sys.nextpid) := by
    have hpc : (c.sys.allocproc i).pc i = .fork np := by
      rw [htaken]
      exact Function.update_self _ _ _
    have hrun : ((c.sys.allocproc i).proc i).state = .running := by
      rw [htaken, State.setPc_proc]
      dsimp only
      rw [State.setProc_proc_ne _ _ _ _ hne, h.running]
    have hback : Function.update c.sys.pc i .user = c.sys.pc := by
      rw [← h.user, Function.update_eq_self]
    simp only [Mlfq.step]
    rw [hpc]
    dsimp only
    rw [if_pos hrun, htaken]
    simp only [State.forkFail, State.burnt, State.setProc, State.setPc, Function.update_idem,
      Function.update_self, hback]
  have hfirst : c.step (.allocproc i) = some ⟨c.sys.allocproc i, c.count⟩ := by
    unfold Ledger.step
    rw [halloc, Option.map_some]
    dsimp only
    rw [hrestart]
  have hsecond : Ledger.step ⟨c.sys.allocproc i, c.count⟩ (.forkFail i) =
      some ⟨c.sys.burnt np c.sys.nextpid, c.count⟩ := by
    unfold Ledger.step
    dsimp only
    rw [hfail, Option.map_some]
  exact ((Reach.refl c).tail (fun _ h => by cases h) hfirst).tail (fun _ h => by cases h) hsecond

/-- So the pids go round. -/
theorem reach (h : CanFork c i np) (hn : Int.bmod c.sys.nextpid 4294967296 = c.sys.nextpid)
    (k : Nat) : Reach Ledger.step (fun _ a => Unlocked a) c
    ⟨c.sys.burnt np (Int.bmod (c.sys.nextpid + k) 4294967296), c.count⟩ := by
  induction k with
  | zero =>
    rw [Int.natCast_zero, Int.add_zero, hn]
    exact h.fails
  | succ k ih =>
    have hnext := (h.burnt (Int.bmod (c.sys.nextpid + k) 4294967296)).fails
    rw [State.burnt_burnt] at hnext
    have hpid : nextPid (Int.bmod (c.sys.nextpid + k) 4294967296) =
        Int.bmod (c.sys.nextpid + (k + 1 : Nat)) 4294967296 := by
      unfold nextPid
      rw [Int.bmod_add_bmod, Int.natCast_add, Int.natCast_one, Int.add_assoc]
    have hcycle : (c.sys.burnt np (Int.bmod (c.sys.nextpid + k) 4294967296)).nextpid =
        Int.bmod (c.sys.nextpid + (k + 1 : Nat)) 4294967296 := hpid
    rw [hcycle] at hnext
    exact ih.trans hnext

end CanFork

/-- 99 ticks pass while init sleeps, and then it forks a process. -/
def firstForked : Ledger :=
  (run (guarded Ledger.step fun _ a => Unlocked a) Ledger.init
    ([.mlfqscheduler, .sleep 0 (.other 0)] ++ List.replicate 99 .tick ++
      [.wakeup (.other 0), .mlfqscheduler, .allocproc 0, .fork 0])).getD Ledger.init

/-- A second process gets the pid of the first. In `L[2]` the second is before the first, which
has the better priority, so the first is dispatched and the second is removed. Then the entry that
is left over is boosted. -/
def samePid : List Action :=
  [.allocproc 0, .fork 0, .setPriority 2 0, .sleep 0 (.other 0), .mlfqscheduler,
    .sleep 1 (.other 1), .mlfqscheduler, .yield 2, .wakeup (.other 1)] ++
  (List.replicate 9 [.mlfqscheduler, .yield 2, .mlfqscheduler, .yield 1]).flatten ++
  [.mlfqscheduler, .tick, .yield 1] ++ (List.replicate 4 [.mlfqscheduler, .yield 1]).flatten

/-- Its fifth dispatch after the boosting is from `L[0]`. -/
theorem not_quantumLaw :
    ¬ ∀ c d a, Reach Ledger.step (fun _ a => Unlocked a) Ledger.init c → c.step a = some d →
      QuantumLaw c d a := by
  intro hall
  have hfirst : Reach Ledger.step (fun _ a => Unlocked a) Ledger.init firstForked :=
    reach_of_guarded_run (eq_some_getD (by decide +kernel))
  have hcan : CanFork firstForked 0 2 := by
    refine ⟨?_, ?_, ?_, ?_, ?_⟩ <;> decide +kernel
  have hnext : firstForked.sys.nextpid = 3 := by decide +kernel
  have hround := hcan.reach (by rw [hnext]; decide) 4294967294
  rw [hnext, show Int.bmod (3 + (4294967294 : Nat)) 4294967296 = 1 by decide] at hround
  have hrun : (run (guarded Ledger.step fun _ a => Unlocked a)
      ⟨firstForked.sys.burnt 2 1, firstForked.count⟩ samePid).any (fun c =>
        decide (c.sys.choose = some 1 ∧ c.count 1 = 4 ∧ c.sys.queued 0 ≠ []) &&
          (c.step .mlfqscheduler).isSome) = true := by decide +kernel
  obtain ⟨c, hc, hview⟩ := (Option.any_eq_true _ _).mp hrun
  rw [Bool.and_eq_true, decide_eq_true_eq] at hview
  obtain ⟨⟨hchoose, hcount, hqueued⟩, hsome⟩ := hview
  obtain ⟨d, hd⟩ := Option.isSome_iff_exists.mp hsome
  have hlaw := hall c d _ ((hfirst.trans hround).trans (reach_of_guarded_run hc)) hd
  have htaken := hlaw.taken 1 rfl hchoose
  rw [hcount] at htaken
  exact hqueued (htaken.above 0 le_rfl (by decide))

end Xv6.Mlfq
