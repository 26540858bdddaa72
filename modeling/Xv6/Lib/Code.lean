import Mathlib.Logic.Function.Basic

/-!
# Programs with a state and failures

A program takes a state to a result and a next state, or fails with an error. `Trades`
is book-keeping: every state has balances `bal s i`, and a program that returns has
given up some amounts and taken others.
-/

namespace Xv6

def Code (ε σ α : Type) : Type := σ → Except ε (α × σ)

namespace Code

variable {ε σ τ α β ι : Type}

protected def pure (a : α) : Code ε σ α := fun s => .ok (a, s)

protected def bind (p : Code ε σ α) (k : α → Code ε σ β) : Code ε σ β := fun s =>
  match p s with
  | .ok (a, t) => k a t
  | .error e => .error e

instance : Monad (Code ε σ) where
  pure := Code.pure
  bind := Code.bind

def get : Code ε σ σ := fun s => .ok (s, s)

def modify (f : σ → σ) : Code ε σ Unit := fun s => .ok ((), f s)

def fail (e : ε) : Code ε σ α := fun _ => .error e

theorem pure_eq_ok {a b : α} {s t : σ} :
    (pure a : Code ε σ α) s = .ok (b, t) ↔ b = a ∧ t = s := by
  constructor
  · intro h
    cases h
    exact ⟨rfl, rfl⟩
  · intro h
    obtain ⟨rfl, rfl⟩ := h
    rfl

theorem bind_eq_ok {p : Code ε σ α} {k : α → Code ε σ β} {b : β} {s u : σ} :
    (p >>= k) s = .ok (b, u) ↔ ∃ a t, p s = .ok (a, t) ∧ k a t = .ok (b, u) := by
  have hdef : (p >>= k) s = Code.bind p k s := rfl
  rw [hdef]
  unfold Code.bind
  cases hp : p s with
  | error e =>
    simp
  | ok r =>
    obtain ⟨a, t⟩ := r
    constructor
    · intro h
      exact ⟨a, t, rfl, h⟩
    · intro h
      obtain ⟨a', t', hr, hk⟩ := h
      cases hr
      exact hk

theorem bind_of_ok {p : Code ε σ α} {k : α → Code ε σ β} {a : α} {s t : σ}
    (h : p s = .ok (a, t)) : (p >>= k) s = k a t := by
  show Code.bind p k s = k a t
  unfold Code.bind
  rw [h]

theorem bind_eq_error {p : Code ε σ α} {k : α → Code ε σ β} {e : ε} {s : σ} :
    (p >>= k) s = .error e ↔ p s = .error e ∨ ∃ a t, p s = .ok (a, t) ∧ k a t = .error e := by
  have hdef : (p >>= k) s = Code.bind p k s := rfl
  rw [hdef]
  unfold Code.bind
  cases hp : p s with
  | error e' => simp
  | ok r =>
    obtain ⟨a, t⟩ := r
    constructor
    · intro h
      exact Or.inr ⟨a, t, rfl, h⟩
    · intro h
      cases h with
      | inl h => cases h
      | inr h =>
        obtain ⟨a', t', hr, hk⟩ := h
        cases hr
        exact hk

/-- The program works on a part of the state. -/
def lift (get : τ → σ) (set : τ → σ → τ) (p : Code ε σ α) : Code ε τ α := fun t =>
  match p (get t) with
  | .ok (a, s) => .ok (a, set t s)
  | .error e => .error e

theorem lift_eq_ok {get : τ → σ} {set : τ → σ → τ} {p : Code ε σ α} {a : α} {t t' : τ} :
    lift get set p t = .ok (a, t') ↔ ∃ s, p (get t) = .ok (a, s) ∧ t' = set t s := by
  unfold lift
  cases hp : p (get t) with
  | error e => simp
  | ok r =>
    obtain ⟨b, s⟩ := r
    constructor
    · intro h
      cases h
      exact ⟨s, rfl, rfl⟩
    · intro h
      obtain ⟨s', hr, rfl⟩ := h
      cases hr
      rfl

theorem lift_eq_error {get : τ → σ} {set : τ → σ → τ} {p : Code ε σ α} {e : ε} {t : τ} :
    lift get set p t = (.error e : Except ε (α × τ)) ↔ p (get t) = .error e := by
  unfold lift
  cases hp : p (get t) with
  | error e' => simp
  | ok r => simp

/-! ### Triples -/

/-- From a state with `P` a run that returns leads to one with `Q`. -/
def Spec (P : σ → Prop) (p : Code ε σ α) (Q : α → σ → Prop) : Prop :=
  ∀ s a t, P s → p s = .ok (a, t) → Q a t

section Spec

variable {P : σ → Prop} {p : Code ε σ α} {k : α → Code ε σ β} {Q Q' : α → σ → Prop}
  {R : β → σ → Prop}

theorem Spec.pure {a : α} (h : ∀ s, P s → Q a s) : Spec P (pure a : Code ε σ α) Q := by
  intro s b t hP hp
  obtain ⟨rfl, rfl⟩ := pure_eq_ok.mp hp
  exact h t hP

theorem Spec.bind (hp : Spec P p Q) (hk : ∀ a, Spec (Q a) (k a) R) : Spec P (p >>= k) R := by
  intro s b u hP h
  obtain ⟨a, t, hpa, hka⟩ := bind_eq_ok.mp h
  exact hk a t b u (hp s a t hP hpa) hka

theorem Spec.pre {P' : σ → Prop} (hp : Spec P p Q) (h : ∀ s, P' s → P s) : Spec P' p Q := by
  intro s a t hP hpa
  exact hp s a t (h s hP) hpa

end Spec

/-! ### What every run keeps -/

/-- The states before and after a run that returns are related. -/
def Steps (R : σ → σ → Prop) (p : Code ε σ α) : Prop := ∀ s a t, p s = .ok (a, t) → R s t

section Steps

variable {R : σ → σ → Prop} {p : Code ε σ α} {k : α → Code ε σ β}

theorem Steps.pure (hrefl : ∀ s, R s s) (a : α) : Steps R (pure a : Code ε σ α) := by
  intro s b t h
  obtain ⟨-, rfl⟩ := pure_eq_ok.mp h
  exact hrefl t

theorem Steps.fail (e : ε) : Steps R (Code.fail e : Code ε σ α) := by
  intro s a t h
  cases h

theorem Steps.bind (htrans : ∀ s t u, R s t → R t u → R s u) (hp : Steps R p)
    (hk : ∀ a, Steps R (k a)) : Steps R (p >>= k) := by
  intro s b u h
  obtain ⟨a, t, hpa, hka⟩ := bind_eq_ok.mp h
  exact htrans s t u (hp s a t hpa) (hk a t b u hka)

end Steps

/-! ### Balances -/

/-- Where the balances cover `give`, a run that returns has given it up and taken `take`. -/
def Trades (bal : σ → ι → Nat) (p : Code ε σ α) (give : ι → Nat) (take : α → ι → Nat) : Prop :=
  ∀ s a t, (∀ i, give i ≤ bal s i) → p s = .ok (a, t) → ∀ i, bal t i + give i = bal s i + take a i

/-- Nothing. -/
def nil : ι → Nat := fun _ => 0

variable {bal : σ → ι → Nat} {p : Code ε σ α} {k : α → Code ε σ β} {give give' : ι → Nat}
  {take take' : α → ι → Nat} {last : β → ι → Nat}

theorem Trades.pure {a : α} (h : ∀ i, give i = take a i) :
    Trades bal (pure a : Code ε σ α) give take := by
  intro s b t _ hp i
  obtain ⟨rfl, rfl⟩ := pure_eq_ok.mp hp
  rw [h]

theorem Trades.fail (e : ε) : Trades bal (Code.fail e : Code ε σ α) give take := by
  intro s a t _ h
  cases h

theorem Trades.bind (hp : Trades bal p give take) (hk : ∀ a, Trades bal (k a) (take a) last) :
    Trades bal (p >>= k) give last := by
  intro s b u hgive h i
  obtain ⟨a, t, hpa, hka⟩ := bind_eq_ok.mp h
  have hfirst := hp s a t hgive hpa
  have hcover : ∀ j, take a j ≤ bal t j := by
    intro j
    have hj := hfirst j
    have hle := hgive j
    omega
  have hsecond := hk a t b u hcover hka i
  have hi := hfirst i
  omega

/-- `f` is owned beside what the program needs. -/
theorem Trades.frame (hp : Trades bal p give take) (f : ι → Nat)
    (hg : ∀ i, give' i = give i + f i) : Trades bal p give' fun a i => take a i + f i := by
  intro s a t hgive h i
  have hcover : ∀ j, give j ≤ bal s j := by
    intro j
    have hj := hgive j
    rw [hg] at hj
    exact Nat.le_trans (Nat.le_add_right _ _) hj
  have hi := hp s a t hcover h i
  show bal t i + give' i = bal s i + (take a i + f i)
  rw [hg]
  omega

theorem Trades.congr (hp : Trades bal p give take) (hg : ∀ i, give' i = give i)
    (ht : ∀ a i, take' a i = take a i) : Trades bal p give' take' := by
  intro s a t hgive h i
  rw [hg, ht]
  apply hp s a t _ h
  intro j
  rw [← hg]
  exact hgive j

theorem Trades.keeps (hp : Trades bal p nil fun _ => nil) (f : ι → Nat) :
    Trades bal p f fun _ => f := by
  have hzero : ∀ i, f i = nil i + f i := by
    intro i
    exact (Nat.zero_add (f i)).symm
  exact (hp.frame f hzero).congr (fun _ => rfl) fun _ i => hzero i

end Code

end Xv6
