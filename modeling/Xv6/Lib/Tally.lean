import Mathlib.Algebra.BigOperators.Group.Finset.Piecewise
import Mathlib.Algebra.Order.BigOperators.Group.Finset
import Mathlib.Data.Fintype.BigOperators
import Mathlib.Data.Fintype.Prod
import Mathlib.Tactic.Abel

/-!
# How often a function takes a value

`tally f b` counts the arguments that `f` sends to `b`. A table that is changed in one
place changes the tally of the old value and of the new one by one each.
-/

namespace Xv6

variable {α β : Type*} [Fintype α] [DecidableEq β]

def tally (f : α → β) (b : β) : Nat := (Finset.univ.filter fun a => f a = b).card

theorem tally_eq_zero {f : α → β} {b : β} : tally f b = 0 ↔ ∀ a, f a ≠ b := by
  unfold tally
  rw [Finset.card_eq_zero, Finset.filter_eq_empty_iff]
  exact ⟨fun h a => h (Finset.mem_univ a), fun h a _ => h a⟩

theorem tally_pos {f : α → β} {b : β} {a : α} (h : f a = b) : 0 < tally f b :=
  Finset.card_pos.mpr ⟨a, by simp [h]⟩

theorem tally_prod {ι : Type*} [Fintype ι] (f : ι × α → β) (b : β) :
    tally f b = ∑ i, tally (fun a => f (i, a)) b := by
  unfold tally
  simp only [Finset.card_filter, Fintype.sum_prod_type]

variable [DecidableEq α]

theorem tally_erase (f : α → β) (a : α) (b : β) :
    tally f b = ((Finset.univ.erase a).filter fun x => f x = b).card + if f a = b then 1 else 0 := by
  have hu : (Finset.univ : Finset α) = insert a (Finset.univ.erase a) :=
    (Finset.insert_erase (Finset.mem_univ a)).symm
  unfold tally
  nth_rewrite 1 [hu]
  rw [Finset.filter_insert]
  split_ifs with h
  · rw [Finset.card_insert_of_notMem (by simp)]
  · rfl

theorem tally_update (f : α → β) (a : α) (v b : β) :
    tally (Function.update f a v) b + (if f a = b then 1 else 0) =
      tally f b + if v = b then 1 else 0 := by
  have hrest : ((Finset.univ.erase a).filter fun x => Function.update f a v x = b) =
      (Finset.univ.erase a).filter fun x => f x = b := by
    refine Finset.filter_congr fun x hx => ?_
    rw [Function.update_of_ne (Finset.ne_of_mem_erase hx)]
  rw [tally_erase (Function.update f a v) a b, tally_erase f a b, hrest, Function.update_self]
  omega

theorem sum_update {M : Type*} [AddCommMonoid M] (f : α → M) (a : α) (v : M) :
    (∑ x, Function.update f a v x) + f a = (∑ x, f x) + v := by
  have hrest : ∑ x, f x = f a + ∑ x ∈ Finset.univ \ {a}, f x := by
    rw [← Finset.erase_eq, Finset.add_sum_erase _ f (Finset.mem_univ a)]
  rw [Finset.sum_update_of_mem (Finset.mem_univ a), hrest]
  abel

end Xv6
