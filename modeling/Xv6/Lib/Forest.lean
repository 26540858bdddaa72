import Mathlib.Logic.Basic
import Mathlib.Tactic.SplitIfs

/-!
# Trees of pointers in a store

A root holds the address of a node, and a node holds an address for each index;
`0` is the null pointer. A place is a root with a path of indices, innermost
first. `Owns` says that the addresses in use are the ones found at the places of
the forest, each at one place: the law an allocator and its clients keep together.
-/

namespace Xv6

structure Forest (ι κ α : Type*) where
  root : ι → α
  child : α → κ → α

namespace Forest

variable {ι κ α : Type*} [Zero α] [DecidableEq α]

/-- The address at a place; null behind a null pointer. -/
def ref (F : Forest ι κ α) (i : ι) : List κ → α
  | [] => F.root i
  | j :: js => if F.ref i js = 0 then 0 else F.child (F.ref i js) j

/-- Which roots there are and how high their trees are. -/
structure Shape (ι : Type*) where
  dom : ι → Prop
  height : ι → Nat

/-- The places of a shape. -/
def Shape.Valid (S : Shape ι) (p : ι × List κ) : Prop :=
  S.dom p.1 ∧ p.2.length ≤ S.height p.1

/-- The places whose nodes have children. -/
def Shape.Inner (S : Shape ι) (p : ι × List κ) : Prop :=
  S.dom p.1 ∧ p.2.length < S.height p.1

variable {S : Shape ι} {F F' : Forest ι κ α} {i : ι} {j : κ} {js : List κ} {x : α}

theorem Shape.Inner.valid {p : ι × List κ} (h : S.Inner p) : S.Valid p := ⟨h.1, Nat.le_of_lt h.2⟩

theorem Shape.inner_of_cons (h : S.Valid (i, j :: js)) : S.Inner (i, js) := ⟨h.1, h.2⟩

theorem Shape.Inner.cons (h : S.Inner (i, js)) (j : κ) : S.Valid (i, j :: js) := ⟨h.1, h.2⟩

theorem ref_cons_zero (h : F.ref i js = 0) : F.ref i (j :: js) = 0 := if_pos h

theorem ref_cons (h : F.ref i js ≠ 0) : F.ref i (j :: js) = F.child (F.ref i js) j := if_neg h

theorem ref_tail_ne_zero (h : F.ref i (j :: js) ≠ 0) : F.ref i js ≠ 0 :=
  fun h0 => h (ref_cons_zero h0)

theorem ref_suffix_ne_zero {p : List κ} (h : F.ref i p ≠ 0) (hs : js <:+ p) : F.ref i js ≠ 0 := by
  induction p with
  | nil =>
    rw [List.suffix_nil.mp hs]
    exact h
  | cons k ks ih =>
    rcases List.suffix_cons_iff.mp hs with heq | hks
    · rw [heq]
      exact h
    · exact ih (ref_tail_ne_zero h) hks

theorem ref_of_root_zero (h : F.root i = 0) (p : List κ) : F.ref i p = 0 := by
  induction p with
  | nil => exact h
  | cons j js ih => exact ref_cons_zero ih

/-- A change of the store that the nodes of a tree do not see leaves its places alone. -/
theorem ref_congr (hroot : F'.root i = F.root i)
    (hchild : ∀ js : List κ, S.Inner (i, js) → F.ref i js ≠ 0 →
      ∀ j, F'.child (F.ref i js) j = F.child (F.ref i js) j)
    {p : List κ} (hp : S.Valid (i, p)) : F'.ref i p = F.ref i p := by
  induction p with
  | nil => exact hroot
  | cons j js ih =>
    have hin := Shape.inner_of_cons hp
    have hjs := ih hin.valid
    unfold ref
    rw [hjs]
    split_ifs with h0
    · rfl
    · exact hchild js hin h0 j

/-- `F'` is `F` with a childless node `x` hung at the empty place `q`. -/
structure Grafted (S : Shape ι) (F F' : Forest ι κ α) (q : ι × List κ) (x : α) : Prop where
  ne_zero : x ≠ 0
  empty : F.ref q.1 q.2 = 0
  root : ∀ i, (q = (i, []) → F'.root i = x) ∧ (q ≠ (i, []) → F'.root i = F.root i)
  child : ∀ i js, S.Inner (i, js) → F.ref i js ≠ 0 → ∀ j,
    (q = (i, j :: js) → F'.child (F.ref i js) j = x) ∧
    (q ≠ (i, j :: js) → F'.child (F.ref i js) j = F.child (F.ref i js) j)
  parent : ∀ i j js, q = (i, j :: js) → F.ref i js ≠ 0
  leaf : ∀ j, F'.child x j = 0

/-- After a graft `x` is at its place and every other place is as before. -/
theorem Grafted.ref {q : ι × List κ} (g : Grafted S F F' q x) {p : List κ}
    (hp : S.Valid (i, p)) :
    (q = (i, p) → F'.ref i p = x) ∧ (q ≠ (i, p) → F'.ref i p = F.ref i p) := by
  induction p with
  | nil => exact g.root i
  | cons j js ih =>
    have hin := Shape.inner_of_cons hp
    obtain ⟨hself, hother⟩ := ih hin.valid
    by_cases hq : q = (i, js)
    · -- below the new node there is nothing, as there was nothing at its place before
      have hx := hself hq
      have hne : q ≠ (i, j :: js) := by
        intro hq'
        have heq : js = j :: js := congrArg Prod.snd (hq.symm.trans hq')
        exact absurd (congrArg List.length heq) (Nat.ne_of_lt (Nat.lt_succ_self _))
      have hbefore : F.ref i js = 0 := by
        have := g.empty
        rw [hq] at this
        exact this
      refine ⟨fun h => absurd h hne, fun _ => ?_⟩
      rw [ref_cons (by rw [hx]; exact g.ne_zero), hx, g.leaf, ref_cons_zero hbefore]
    · have hsame := hother hq
      by_cases h0 : F.ref i js = 0
      · refine ⟨fun h => absurd h0 (g.parent i j js h), fun _ => ?_⟩
        rw [ref_cons_zero h0, ref_cons_zero (by rw [hsame]; exact h0)]
      · rw [ref_cons h0, ref_cons (by rw [hsame]; exact h0), hsame]
        exact g.child i js hin h0 j

/-- The addresses in use are those at the places of the forest, each at one place. -/
structure Owns (S : Shape ι) (F : Forest ι κ α) (live : α → Prop) : Prop where
  zero : ¬ live 0
  used : ∀ p, S.Valid p → F.ref p.1 p.2 ≠ 0 → live (F.ref p.1 p.2)
  uniq : ∀ p q, S.Valid p → S.Valid q → F.ref p.1 p.2 ≠ 0 → F.ref p.1 p.2 = F.ref q.1 q.2 → p = q
  reached : ∀ a, live a → ∃ p, S.Valid p ∧ F.ref p.1 p.2 = a

namespace Owns

variable {live live' : α → Prop}

/-- `owner` tells the place of each address in use. -/
theorem of_owner (owner : α → ι × List κ) (h0 : ¬ live 0)
    (hused : ∀ p, S.Valid p → F.ref p.1 p.2 ≠ 0 →
      live (F.ref p.1 p.2) ∧ owner (F.ref p.1 p.2) = p)
    (hreached : ∀ a, live a → S.Valid (owner a) ∧ F.ref (owner a).1 (owner a).2 = a) :
    Owns S F live where
  zero := h0
  used p hp hne := (hused p hp hne).1
  uniq p q hp hq hne heq := by
    have hp' := (hused p hp hne).2
    have hq' := (hused q hq (by rw [← heq]; exact hne)).2
    rw [← hp', heq, hq']
  reached a ha := ⟨owner a, hreached a ha⟩

theorem congr_live (h : Owns S F live) (hl : ∀ a, live' a ↔ live a) : Owns S F live' := by
  refine ⟨?_, ?_, h.uniq, ?_⟩
  · rw [hl]
    exact h.zero
  · intro p hp h0
    rw [hl]
    exact h.used p hp h0
  · intro a ha
    exact h.reached a ((hl a).mp ha)

/-- Two places hold the same address only if both are empty or they are one place. -/
theorem ref_ne (h : Owns S F live) {p q : ι × List κ} (hp : S.Valid p) (hq : S.Valid q)
    (h0 : F.ref p.1 p.2 ≠ 0) (hpq : p ≠ q) : F.ref p.1 p.2 ≠ F.ref q.1 q.2 :=
  fun heq => hpq (h.uniq p q hp hq h0 heq)

/-- The forest is unchanged where `live` is. -/
theorem congr (h : Owns S F live) (hroot : ∀ i, S.dom i → F'.root i = F.root i)
    (hchild : ∀ i js, S.Inner (i, js) → F.ref i js ≠ 0 →
      ∀ j, F'.child (F.ref i js) j = F.child (F.ref i js) j) : Owns S F' live := by
  have href : ∀ p : ι × List κ, S.Valid p → F'.ref p.1 p.2 = F.ref p.1 p.2 :=
    fun p hp => ref_congr (hroot p.1 hp.1) (hchild p.1) hp
  refine ⟨h.zero, ?_, ?_, ?_⟩
  · intro p hp
    rw [href p hp]
    exact h.used p hp
  · intro p q hp hq
    rw [href p hp, href q hq]
    exact h.uniq p q hp hq
  · intro a ha
    obtain ⟨p, hp, hpa⟩ := h.reached a ha
    exact ⟨p, hp, (href p hp).trans hpa⟩

theorem graft (h : Owns S F live) {q : ι × List κ} (hq : S.Valid q) (g : Grafted S F F' q x)
    (hx : ¬ live x) (hl : ∀ a, live' a ↔ live a ∨ a = x) : Owns S F' live' := by
  have hself : F'.ref q.1 q.2 = x := (g.ref hq).1 rfl
  have hother : ∀ p : ι × List κ, S.Valid p → q ≠ p → F'.ref p.1 p.2 = F.ref p.1 p.2 :=
    fun p hp hne => (g.ref hp).2 hne
  have hold : ∀ p : ι × List κ, S.Valid p → F.ref p.1 p.2 ≠ x := by
    intro p hp heq
    have hlive := h.used p hp (by rw [heq]; exact g.ne_zero)
    rw [heq] at hlive
    exact hx hlive
  refine ⟨?_, ?_, ?_, ?_⟩
  · rw [hl]
    rintro (h0 | h0)
    · exact h.zero h0
    · exact g.ne_zero h0.symm
  · intro p hp h0
    rw [hl]
    by_cases hpq : q = p
    · subst hpq
      exact Or.inr hself
    · rw [hother p hp hpq] at h0 ⊢
      exact Or.inl (h.used p hp h0)
  · intro p r hp hr h0 heq
    by_cases hpq : q = p
    · by_cases hrq : q = r
      · exact hpq.symm.trans hrq
      · subst hpq
        rw [hself, hother r hr hrq] at heq
        exact absurd heq.symm (hold r hr)
    · rw [hother p hp hpq] at h0 heq
      by_cases hrq : q = r
      · subst hrq
        rw [hself] at heq
        exact absurd heq (hold p hp)
      · rw [hother r hr hrq] at heq
        exact h.uniq p r hp hr h0 heq
  · intro a ha
    rcases (hl a).mp ha with ha | rfl
    · obtain ⟨p, hp, hpa⟩ := h.reached a ha
      have hne : q ≠ p := by
        rintro rfl
        rw [g.empty] at hpa
        subst hpa
        exact h.zero ha
      exact ⟨p, hp, (hother p hp hne).trans hpa⟩
    · exact ⟨q, hq, hself⟩

/-- Some roots are cleared, and exactly the addresses in their trees go out of use. -/
theorem prune (h : Owns S F live) (gone : ι → Prop) [DecidablePred gone]
    (hgone : ∀ i, S.dom i → gone i → F'.root i = 0)
    (hroot : ∀ i, S.dom i → ¬ gone i → F'.root i = F.root i)
    (hchild : ∀ i js, S.Inner (i, js) → ¬ gone i → F.ref i js ≠ 0 →
      ∀ j, F'.child (F.ref i js) j = F.child (F.ref i js) j)
    (hl : ∀ a, live' a ↔ live a ∧ ∀ p, S.Valid p → gone p.1 → F.ref p.1 p.2 ≠ a) :
    Owns S F' live' := by
  have href : ∀ p : ι × List κ, S.Valid p → ¬ gone p.1 → F'.ref p.1 p.2 = F.ref p.1 p.2 :=
    fun p hp hg => ref_congr (hroot p.1 hp.1 hg) (fun js hin => hchild p.1 js hin hg) hp
  have hzero : ∀ p : ι × List κ, S.Valid p → gone p.1 → F'.ref p.1 p.2 = 0 :=
    fun p hp hg => ref_of_root_zero (hgone p.1 hp.1 hg) _
  have hkept : ∀ p : ι × List κ, S.Valid p → F'.ref p.1 p.2 ≠ 0 → ¬ gone p.1 :=
    fun p hp h0 hg => h0 (hzero p hp hg)
  refine ⟨fun h0 => h.zero ((hl 0).mp h0).1, ?_, ?_, ?_⟩
  · intro p hp h0
    have hg := hkept p hp h0
    rw [href p hp hg] at h0 ⊢
    rw [hl]
    refine ⟨h.used p hp h0, fun q hq hgq heq => hg ?_⟩
    rw [h.uniq p q hp hq h0 heq.symm]
    exact hgq
  · intro p q hp hq h0 heq
    have hgp := hkept p hp h0
    have hgq := hkept q hq (by rw [← heq]; exact h0)
    rw [href p hp hgp] at h0 heq
    rw [href q hq hgq] at heq
    exact h.uniq p q hp hq h0 heq
  · intro a ha
    obtain ⟨hla, hna⟩ := (hl a).mp ha
    obtain ⟨p, hp, hpa⟩ := h.reached a hla
    have hg : ¬ gone p.1 := fun hg => hna p hp hg hpa
    exact ⟨p, hp, (href p hp hg).trans hpa⟩

end Owns
end Forest
end Xv6
