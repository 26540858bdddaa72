import Mathlib.Logic.Relation

/-!
# Runs of an executable transition system

A system is a step function `step : σ → α → Option σ`: `none` says that the
action is not enabled in the state. `run` executes a list of actions, `Reach`
is its reachability relation with a condition on every step taken, and
`Reach.invariant` is the induction over runs.
-/

namespace Xv6.Transition

variable {σ α : Type*} {step : σ → α → Option σ} {ok : σ → α → Prop}

/-- Executes the actions in order, as far as each one is enabled. -/
def run (step : σ → α → Option σ) : σ → List α → Option σ
  | s, [] => some s
  | s, a :: as => (step s a).bind fun t => run step t as

/-- `Reach step ok s t`: a run leads from `s` to `t`, and every action of it
meets `ok` in the state it is taken in. -/
def Reach (step : σ → α → Option σ) (ok : σ → α → Prop) : σ → σ → Prop :=
  Relation.ReflTransGen fun s t => ∃ a, ok s a ∧ step s a = some t

/-- Reachability by any run. -/
abbrev Reachable (step : σ → α → Option σ) : σ → σ → Prop := Reach step fun _ _ => True

theorem Reach.refl (s : σ) : Reach step ok s s := Relation.ReflTransGen.refl

theorem Reach.trans {s t u : σ} (h : Reach step ok s t) (h' : Reach step ok t u) :
    Reach step ok s u := Relation.ReflTransGen.trans h h'

theorem Reach.tail {s t u : σ} {a : α} (h : Reach step ok s t) (hok : ok t a)
    (hs : step t a = some u) : Reach step ok s u :=
  Relation.ReflTransGen.tail h ⟨a, hok, hs⟩

theorem Reach.head {s t u : σ} {a : α} (hok : ok s a) (hs : step s a = some t)
    (h : Reach step ok t u) : Reach step ok s u :=
  Relation.ReflTransGen.head ⟨a, hok, hs⟩ h

theorem Reach.mono {ok' : σ → α → Prop} (himp : ∀ s a, ok s a → ok' s a) {s t : σ}
    (h : Reach step ok s t) : Reach step ok' s t :=
  Relation.ReflTransGen.mono (fun _ _ ⟨a, hok, hs⟩ => ⟨a, himp _ _ hok, hs⟩) _ _ h

/-- A property of the first state that every permitted step keeps holds in
every state of a run. -/
theorem Reach.invariant {I : σ → Prop} {s t : σ} (hr : Reach step ok s t) (h0 : I s)
    (hstep : ∀ u a v, I u → ok u a → step u a = some v → I v) : I t := by
  induction hr with
  | refl => exact h0
  | tail _ hst ih =>
    obtain ⟨a, hok, hs⟩ := hst
    exact hstep _ a _ ih hok hs

theorem reachable_of_run {s t : σ} {as : List α} (h : run step s as = some t) :
    Reachable step s t := by
  induction as generalizing s with
  | nil =>
    cases h
    exact Reach.refl _
  | cons a as ih =>
    obtain ⟨u, hu, ht⟩ := Option.bind_eq_some_iff.mp h
    exact Reach.head trivial hu (ih ht)

/-- The actions of the run meet `ok` in whatever state they are taken. -/
theorem reach_of_run {s t : σ} {as : List α} (hok : ∀ a ∈ as, ∀ s, ok s a)
    (h : run step s as = some t) : Reach step ok s t := by
  induction as generalizing s with
  | nil =>
    cases h
    exact Reach.refl _
  | cons a as ih =>
    obtain ⟨u, hu, ht⟩ := Option.bind_eq_some_iff.mp h
    have hrest := ih (fun b hb => hok b (List.mem_cons_of_mem a hb)) ht
    exact Reach.head (hok a List.mem_cons_self s) hu hrest

theorem eq_some_getD {o : Option α} {d : α} (h : o.isSome = true) : o = some (o.getD d) := by
  cases o with
  | none => cases h
  | some a => rfl

/-- The system that takes a step only where `ok` allows it. -/
def guarded (step : σ → α → Option σ) (ok : σ → α → Prop) [∀ s a, Decidable (ok s a)] :
    σ → α → Option σ :=
  fun s a => if ok s a then step s a else none

theorem reach_of_guarded_run [∀ s a, Decidable (ok s a)] {s t : σ} {as : List α}
    (h : run (guarded step ok) s as = some t) : Reach step ok s t := by
  induction as generalizing s with
  | nil =>
    cases h
    exact Reach.refl _
  | cons a as ih =>
    obtain ⟨u, hu, ht⟩ := Option.bind_eq_some_iff.mp h
    unfold guarded at hu
    split at hu
    · next hok => exact Reach.head hok hu (ih ht)
    · cases hu

theorem run_of_guarded_run [∀ s a, Decidable (ok s a)] {s t : σ} {as : List α}
    (h : run (guarded step ok) s as = some t) : run step s as = some t := by
  induction as generalizing s with
  | nil => exact h
  | cons a as ih =>
    obtain ⟨u, hu, ht⟩ := Option.bind_eq_some_iff.mp h
    obtain ⟨-, hu⟩ := Option.ite_none_right_eq_some.mp hu
    exact Option.bind_eq_some_iff.mpr ⟨u, hu, ih ht⟩

end Xv6.Transition
