import Mathlib.Data.BitVec
import Mathlib.Data.Nat.ModEq
import Mathlib.Logic.Function.Basic
import Mathlib.Tactic.Ring

/-!
# Arrays that are used in a circle

The indices count on beyond the length of the array, and wrap with the machine word: index `i`
stands for entry `i % N`. `window r e` is what lies between two indices.
-/

namespace Xv6

/-- The entry of the array for an index. -/
def slot (N : Nat) [NeZero N] {w : Nat} (i : BitVec w) : Fin N := Fin.ofNat N i.toNat

/-- The entries from index `r` up to index `e`. -/
def window {α : Type*} {N w : Nat} [NeZero N] (data : Fin N → α) (r e : BitVec w) : List α :=
  (List.range (e - r).toNat).map fun i => data (slot N (r + BitVec.ofNat w i))

namespace Ring

variable {α : Type*} {N w : Nat} [NeZero N] {data : Fin N → α} {r m e : BitVec w} {x : α}

@[simp] theorem length_window (data : Fin N → α) (r e : BitVec w) :
    (window data r e).length = (e - r).toNat := by
  unfold window
  rw [List.length_map, List.length_range]

@[simp] theorem window_self (data : Fin N → α) (r : BitVec w) : window data r r = [] := by
  apply List.length_eq_zero_iff.mp
  rw [length_window, BitVec.sub_self]
  rfl

theorem toNat_sub_pos (h : r ≠ e) : 0 < (e - r).toNat := by
  apply Nat.pos_of_ne_zero
  intro hz
  exact h (sub_eq_zero.mp (BitVec.eq_of_toNat_eq hz)).symm

theorem window_eq_nil : window data r e = [] ↔ r = e := by
  rw [← List.length_eq_zero_iff, length_window]
  constructor
  · intro h
    by_contra hne
    exact absurd h (Nat.pos_iff_ne_zero.mp (toNat_sub_pos hne))
  · intro h
    rw [h, BitVec.sub_self]
    rfl

theorem toNat_succ_sub (h : (e - r).toNat + 1 < 2 ^ w) :
    (e + 1#w - r).toNat = (e - r).toNat + 1 := by
  have hw : 0 < w := by
    by_contra hno
    have h0 : w = 0 := Nat.eq_zero_of_not_pos hno
    subst h0
    omega
  have hcomm : e + 1#w - r = e - r + 1#w := by ring
  rw [hcomm, BitVec.toNat_add, BitVec.toNat_ofNat, Nat.mod_eq_of_lt (Nat.one_lt_two_pow (by omega)),
    Nat.mod_eq_of_lt h]

theorem add_ofNat_sub (r e : BitVec w) : r + BitVec.ofNat w (e - r).toNat = e := by
  rw [BitVec.ofNat_toNat, BitVec.setWidth_eq, BitVec.add_comm, BitVec.sub_add_cancel]

theorem slot_ne (hN : N ∣ 2 ^ w) {i j : Nat} (hij : i < j) (hj : j < i + N) :
    slot N (r + BitVec.ofNat w i) ≠ slot N (r + BitVec.ofNat w j) := by
  intro h
  have hval := congrArg Fin.val h
  have hmod : ∀ k, (r + BitVec.ofNat w k).toNat % N = (r.toNat + k) % N := by
    intro k
    rw [BitVec.toNat_add, BitVec.toNat_ofNat, Nat.add_mod_mod, Nat.mod_mod_of_dvd _ hN]
  have heq : (r.toNat + i) % N = (r.toNat + j) % N := by
    rw [← hmod, ← hmod]
    exact hval
  have hdvd : N ∣ (r.toNat + j) - (r.toNat + i) := Nat.dvd_of_mod_eq_zero
    (Nat.sub_mod_eq_zero_of_mod_eq heq.symm)
  have hsub : (r.toNat + j) - (r.toNat + i) = j - i := by omega
  rw [hsub] at hdvd
  have hle := Nat.le_of_dvd (by omega) hdvd
  omega

theorem window_push (hN : N ∣ 2 ^ w) (hlt : (e - r).toNat < N) (hw : N < 2 ^ w) :
    window (Function.update data (slot N e) x) r (e + 1#w) = window data r e ++ [x] := by
  unfold window
  rw [toNat_succ_sub (by omega), List.range_succ, List.map_append]
  congr 1
  · apply List.map_congr_left
    intro i hi
    rw [List.mem_range] at hi
    apply Function.update_of_ne
    rw [← add_ofNat_sub r e]
    exact slot_ne hN hi (by omega)
  · rw [List.map_singleton, add_ofNat_sub, Function.update_self]

theorem toNat_sub_succ (h : r ≠ e) : (e - (r + 1#w)).toNat + 1 = (e - r).toNat := by
  have hpos := toNat_sub_pos h
  have hlt := (e - r).isLt
  have hw : 0 < w := by
    by_contra hno
    have h0 : w = 0 := Nat.eq_zero_of_not_pos hno
    subst h0
    omega
  have hcomm : e - (r + 1#w) = e - r - 1#w := by ring
  have hle : (1#w).toNat ≤ (e - r).toNat := by
    rw [BitVec.toNat_ofNat, Nat.mod_eq_of_lt (Nat.one_lt_two_pow (by omega))]
    exact hpos
  rw [hcomm, BitVec.toNat_sub_of_le (BitVec.le_def.mpr hle), BitVec.toNat_ofNat,
    Nat.mod_eq_of_lt (Nat.one_lt_two_pow (by omega))]
  omega

theorem window_pop (h : r ≠ e) :
    window data r e = data (slot N r) :: window data (r + 1#w) e := by
  unfold window
  rw [← toNat_sub_succ h, List.range_succ_eq_map, List.map_cons, List.map_map]
  congr 1
  · rw [BitVec.add_zero]
  · apply List.map_congr_left
    intro i _
    show data (slot N (r + BitVec.ofNat w (i + 1))) = _
    rw [BitVec.ofNat_add, BitVec.add_assoc, BitVec.add_comm (BitVec.ofNat w i)]

theorem window_split (h : (m - r).toNat + (e - m).toNat < 2 ^ w) :
    window data r e = window data r m ++ window data m e := by
  have hadd : e - r = (m - r) + (e - m) := by ring
  unfold window
  rw [hadd, BitVec.toNat_add, Nat.mod_eq_of_lt h, List.range_add, List.map_append, List.map_map]
  congr 1
  apply List.map_congr_left
  intro i _
  show data (slot N (r + BitVec.ofNat w ((m - r).toNat + i))) = _
  rw [BitVec.ofNat_add, ← BitVec.add_assoc, add_ofNat_sub]

theorem window_passed {xs : List α} (h : window data r e = xs ++ window data m e) :
    window data r m = xs := by
  have hlen := congrArg List.length h
  rw [List.length_append, length_window, length_window] at hlen
  have hlt := (e - r).isLt
  have hcomm : m - r = (e - r) - (e - m) := by ring
  have hpassed : (m - r).toNat = xs.length := by
    rw [hcomm, BitVec.toNat_sub_of_le (BitVec.le_def.mpr (by omega))]
    omega
  have hsplit := @window_split α N w _ data r m e (by omega)
  rw [h] at hsplit
  exact (List.append_cancel_right hsplit).symm

theorem window_unpush (h : r ≠ e) :
    window data r e = window data r (e - 1#w) ++ [data (slot N (e - 1#w))] := by
  have hpos := toNat_sub_pos h
  have hlt := (e - r).isLt
  have hw : 0 < w := by
    by_contra hno
    have h0 : w = 0 := Nat.eq_zero_of_not_pos hno
    subst h0
    omega
  have hone : (1#w).toNat = 1 := by
    rw [BitVec.toNat_ofNat, Nat.mod_eq_of_lt (Nat.one_lt_two_pow (by omega))]
  have hback : e - (e - 1#w) = 1#w := by ring
  have hprev : (e - 1#w - r).toNat = (e - r).toNat - 1 := by
    have hcomm : e - 1#w - r = e - r - 1#w := by ring
    rw [hcomm, BitVec.toNat_sub_of_le (BitVec.le_def.mpr (by omega)), hone]
  have hsplit := @window_split α N w _ data r (e - 1#w) e (by rw [hback, hprev, hone]; omega)
  rw [hsplit]
  congr 1
  have hne : e - 1#w ≠ e := by
    intro heq
    rw [heq, BitVec.sub_self] at hback
    have hz := congrArg BitVec.toNat hback
    rw [hone] at hz
    cases hz
  rw [window_pop hne, BitVec.sub_add_cancel, window_self]

theorem window_update (hN : N ∣ 2 ^ w) (hle : (m - r).toNat ≤ (e - r).toNat)
    (hlt : (e - r).toNat < N) : window (Function.update data (slot N e) x) r m = window data r m := by
  unfold window
  apply List.map_congr_left
  intro i hi
  rw [List.mem_range] at hi
  apply Function.update_of_ne
  rw [← add_ofNat_sub r e]
  exact slot_ne hN (by omega) (by omega)

end Ring

end Xv6
