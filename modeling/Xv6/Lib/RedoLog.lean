import Mathlib.Data.List.Nodup
import Mathlib.Logic.Function.Basic
import Mathlib.Tactic.SplitIfs

/-!
# Redo logs

A redo log is a list of target addresses with a copy for each of them. `replay`
is the contents that recovery produces from it. Copying some of the targets home
does not change what replaying yields, which is why recovery can be repeated.
-/

namespace Xv6.RedoLog

variable {α β : Type*} [DecidableEq α]

/-- The contents after copy `i` has been installed at target `i`, for every `i`. -/
def replay (copies : Nat → β) (targets : List α) (base : α → β) (a : α) : β :=
  if a ∈ targets then copies (targets.idxOf a) else base a

variable {copies copies' : Nat → β} {targets : List α} {base base' : α → β} {a : α}

@[simp] theorem replay_nil : replay copies [] base a = base a := by simp [replay]

theorem replay_congr (hc : ∀ i, i < targets.length → copies' i = copies i)
    (hb : ∀ b, b ∉ targets → base' b = base b) :
    replay copies' targets base' a = replay copies targets base a := by
  unfold replay
  split_ifs with h
  · exact hc _ (List.idxOf_lt_length_iff.mpr h)
  · exact hb a h

/-- A log that holds `goal` for its targets, over a base that has it elsewhere. -/
theorem replay_eq {goal : α → β} (hc : ∀ i b, targets[i]? = some b → copies i = goal b)
    (hb : a ∉ targets → base a = goal a) : replay copies targets base a = goal a := by
  unfold replay
  split_ifs with ha
  · have hi := List.idxOf_lt_length_iff.mpr ha
    refine hc _ a ?_
    rw [List.getElem?_eq_getElem hi, List.getElem_idxOf hi]
  · exact hb ha

/-- Once every target holds its copy, replaying changes nothing. -/
theorem replay_of_installed (h : ∀ i b, targets[i]? = some b → base b = copies i) :
    replay copies targets base a = base a :=
  replay_eq (fun i b hi => (h i b hi).symm) fun _ => rfl

/-- Copying one target home is invisible to `replay`. -/
theorem replay_update {b : α} {v : β} (hb : b ∈ targets) :
    replay copies targets (Function.update base b v) a = replay copies targets base a := by
  refine replay_congr (fun _ _ => rfl) fun c hc => ?_
  refine Function.update_of_ne ?_ _ _
  rintro rfl
  exact hc hb

end Xv6.RedoLog
