import Mathlib.Logic.Function.Basic

/-!
# Sleeping and waking up

A process sleeps on a channel, and a wakeup makes everybody on the channel runnable. `Waits`
says that nobody sleeps on a channel for which there is nothing to wait for.
-/

namespace Xv6.Wait

variable {P C : Type*}

/-- Everybody on channel `c` is made runnable. -/
def wakeup [DecidableEq C] (w : P → Option C) (c : C) : P → Option C :=
  fun p => if w p = some c then none else w p

/-- The process sleeps on channel `c`. -/
def sleep [DecidableEq P] (w : P → Option C) (p : P) (c : C) : P → Option C :=
  Function.update w p (some c)

/-- The process is made runnable, wherever it sleeps. -/
def rouse [DecidableEq P] (w : P → Option C) (p : P) : P → Option C := Function.update w p none

/-- Whoever sleeps on a channel has something to wait for. -/
def Waits (blocked : C → Prop) (w : P → Option C) : Prop := ∀ p c, w p = some c → blocked c

variable {blocked blocked' : C → Prop} {w : P → Option C} {p : P} {c : C}

theorem wakeup_eq_some [DecidableEq C] {d : C} :
    wakeup w c p = some d ↔ w p = some d ∧ d ≠ c := by
  unfold wakeup
  by_cases h : w p = some c
  · rw [if_pos h, h]
    constructor
    · intro hno
      cases hno
    · intro hd
      exact absurd (Option.some.inj hd.1).symm hd.2
  · rw [if_neg h]
    constructor
    · intro hd
      refine ⟨hd, ?_⟩
      intro heq
      rw [heq] at hd
      exact h hd
    · intro hd
      exact hd.1

theorem wakeup_none [DecidableEq C] (h : w p = none) : wakeup w c p = none := by
  unfold wakeup
  rw [h, if_neg (Option.some_ne_none c).symm]

theorem not_wakeup_self [DecidableEq C] : wakeup w c p ≠ some c := by
  intro h
  exact (wakeup_eq_some.mp h).2 rfl

@[simp] theorem sleep_self [DecidableEq P] : sleep w p c p = some c := Function.update_self ..

theorem sleep_ne [DecidableEq P] {q : P} (h : q ≠ p) : sleep w p c q = w q :=
  Function.update_of_ne h ..

namespace Waits

theorem nobody : Waits blocked (fun _ : P => none) := by
  intro p c h
  cases h

theorem mono (h : Waits blocked w) (himp : ∀ d, blocked d → blocked' d) : Waits blocked' w :=
  fun q d hd => himp d (h q d hd)

/-- Those on channel `c` have nothing to wait for any more, and are woken. -/
theorem wakeup [DecidableEq C] (h : Waits blocked w) (himp : ∀ d, d ≠ c → blocked d → blocked' d) :
    Waits blocked' (Wait.wakeup w c) := by
  intro q d hd
  obtain ⟨hold, hne⟩ := wakeup_eq_some.mp hd
  exact himp d hne (h q d hold)

theorem sleep [DecidableEq P] (h : Waits blocked w) (hc : blocked c) :
    Waits blocked (Wait.sleep w p c) := by
  intro q d hd
  by_cases hq : q = p
  · rw [hq, sleep_self] at hd
    rw [← Option.some.inj hd]
    exact hc
  · rw [sleep_ne hq] at hd
    exact h q d hd

theorem rouse [DecidableEq P] (h : Waits blocked w) : Waits blocked (Wait.rouse w p) := by
  intro q d hd
  unfold Wait.rouse at hd
  by_cases hq : q = p
  · rw [hq, Function.update_self] at hd
    cases hd
  · rw [Function.update_of_ne hq] at hd
    exact h q d hd

end Waits

end Xv6.Wait
