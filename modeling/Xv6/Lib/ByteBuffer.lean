import Mathlib.Algebra.Order.Ring.Nat
import Mathlib.Data.List.GetD
import Mathlib.Tactic.SplitIfs

/-!
# Little-endian fields in byte buffers

A buffer of `n` bytes is a function on `Fin n`. `patch` overwrites a run of bytes
and `slice` reads one; 16-bit and 32-bit fields are runs in little-endian order.
-/

namespace Xv6

abbrev Byte := BitVec 8

/-! ### Numbers as bytes -/

def leNat : List Byte → Nat
  | [] => 0
  | b :: bs => b.toNat + 256 * leNat bs

def natLE : Nat → Nat → List Byte
  | 0, _ => []
  | k + 1, v => BitVec.ofNat 8 v :: natLE k (v / 256)

@[simp] theorem length_natLE (k v : Nat) : (natLE k v).length = k := by
  induction k generalizing v with
  | zero => rfl
  | succ k ih => simp only [natLE, List.length_cons, ih]

theorem leNat_natLE (k v : Nat) : leNat (natLE k v) = v % 256 ^ k := by
  induction k generalizing v with
  | zero => simp [natLE, leNat, Nat.mod_one]
  | succ k ih =>
    simp only [natLE, leNat, ih, BitVec.toNat_ofNat]
    show v % 256 + 256 * (v / 256 % 256 ^ k) = v % 256 ^ (k + 1)
    rw [Nat.pow_succ, Nat.mul_comm (256 ^ k) 256, Nat.mod_mul]

namespace Buffer

variable {n : Nat}

/-- Byte `i`; zero behind the end. -/
def byteAt (b : Fin n → Byte) (i : Nat) : Byte := if h : i < n then b ⟨i, h⟩ else 0

/-- Overwrites the bytes from `off` on. -/
def patch (b : Fin n → Byte) (off : Nat) (bs : List Byte) : Fin n → Byte := fun i =>
  if off ≤ i.val then bs.getD (i.val - off) (b i) else b i

/-- The `k` bytes from `off` on. -/
def slice (b : Fin n → Byte) (off k : Nat) : List Byte :=
  (List.range k).map fun j => byteAt b (off + j)

variable (b : Fin n → Byte) (off k : Nat) (bs : List Byte)

@[simp] theorem length_slice : (slice b off k).length = k := by simp [slice]

theorem byteAt_eq (i : Fin n) : byteAt b i = b i := dif_pos i.isLt

theorem ext_byteAt {b c : Fin n → Byte} (h : ∀ i, i < n → byteAt b i = byteAt c i) : b = c := by
  funext i
  have hi := h i i.isLt
  rw [byteAt_eq, byteAt_eq] at hi
  exact hi

theorem byteAt_patch_of_mem {i : Nat} (h : off ≤ i) (hi : i < off + bs.length) (hn : i < n) :
    byteAt (patch b off bs) i = bs.getD (i - off) 0 := by
  have hlt : i - off < bs.length := by omega
  simp only [byteAt, dif_pos hn, patch, if_pos h, List.getD_eq_getElem _ _ hlt]

theorem byteAt_patch_of_not_mem {i : Nat} (h : i < off ∨ off + bs.length ≤ i) :
    byteAt (patch b off bs) i = byteAt b i := by
  unfold byteAt patch
  split_ifs with hn ho
  · have ho' : off ≤ i := ho
    have hle : bs.length ≤ i - off := by omega
    exact List.getD_eq_default _ _ hle
  · rfl
  · rfl

/-- A byte of a patch comes from the patch, or from the same byte below. -/
theorem patch_congr {c : Fin n → Byte} {i : Fin n}
    (h : (off ≤ i.val ∧ i.val < off + bs.length) ∨ b i = c i) :
    patch b off bs i = patch c off bs i := by
  unfold patch
  by_cases hoff : off ≤ i.val
  · rw [if_pos hoff, if_pos hoff]
    cases h with
    | inl hin =>
      have hlt : i.val - off < bs.length := by omega
      rw [List.getD_eq_getElem _ _ hlt, List.getD_eq_getElem _ _ hlt]
    | inr heq => rw [heq]
  · rw [if_neg hoff, if_neg hoff]
    exact h.resolve_left fun hin => hoff hin.1

theorem patch_append {m : Nat} (xs ys : List Byte) (hm : m = off + xs.length) :
    patch (patch b off xs) m ys = patch b off (xs ++ ys) := by
  subst hm
  funext k
  unfold patch
  by_cases hoff : off ≤ k.val
  · rw [if_pos hoff, if_pos hoff]
    by_cases hend : off + xs.length ≤ k.val
    · have hsub : k.val - (off + xs.length) = k.val - off - xs.length := by omega
      have hle : xs.length ≤ k.val - off := by omega
      rw [if_pos hend, List.getD_append_right _ _ _ _ hle, List.getD_eq_default xs _ hle, hsub]
    · rw [if_neg hend, List.getD_append _ _ _ _ (by omega)]
  · rw [if_neg hoff, if_neg hoff, if_neg (by omega)]

theorem patch_zeros (m : Nat) :
    patch (fun _ => 0 : Fin n → Byte) off (List.replicate m 0) = fun _ => 0 := by
  funext k
  unfold patch
  rw [List.getD_eq_getElem?_getD, List.getElem?_getD_replicate_default_eq]
  exact ite_self _

theorem slice_patch_self (h : off + bs.length ≤ n) :
    slice (patch b off bs) off bs.length = bs := by
  apply List.ext_getElem
  · simp
  · intro i hi hi'
    simp only [slice, List.getElem_map, List.getElem_range]
    rw [byteAt_patch_of_mem _ _ _ (by omega) (by omega) (by omega)]
    rw [List.getD_eq_getElem _ _ (by omega)]
    congr 1
    omega

theorem slice_patch_of_disjoint {off' : Nat}
    (h : off' + k ≤ off ∨ off + bs.length ≤ off') :
    slice (patch b off bs) off' k = slice b off' k := by
  unfold slice
  refine List.map_congr_left fun j hj => ?_
  rw [List.mem_range] at hj
  exact byteAt_patch_of_not_mem _ _ _ (by omega)

/-! ### Fields -/

def getWord : BitVec 32 := BitVec.ofNat 32 (leNat (slice b off 4))

def setWord (w : BitVec 32) : Fin n → Byte := patch b off (natLE 4 w.toNat)

def getShort : BitVec 16 := BitVec.ofNat 16 (leNat (slice b off 2))

def setShort (w : BitVec 16) : Fin n → Byte := patch b off (natLE 2 w.toNat)

theorem getWord_setWord (w : BitVec 32) (h : off + 4 ≤ n) :
    getWord (setWord b off w) off = w := by
  have hs := slice_patch_self b off (natLE 4 w.toNat) (by simpa using h)
  rw [length_natLE] at hs
  unfold getWord setWord
  rw [hs, leNat_natLE]
  have hw := w.isLt
  refine BitVec.eq_of_toNat_eq ?_
  rw [BitVec.toNat_ofNat]
  omega

theorem getShort_setShort (w : BitVec 16) (h : off + 2 ≤ n) :
    getShort (setShort b off w) off = w := by
  have hs := slice_patch_self b off (natLE 2 w.toNat) (by simpa using h)
  rw [length_natLE] at hs
  unfold getShort setShort
  rw [hs, leNat_natLE]
  have hw := w.isLt
  refine BitVec.eq_of_toNat_eq ?_
  rw [BitVec.toNat_ofNat]
  omega

theorem getWord_patch {off' : Nat} (h : off' + 4 ≤ off ∨ off + bs.length ≤ off') :
    getWord (patch b off bs) off' = getWord b off' := by
  unfold getWord
  rw [slice_patch_of_disjoint _ _ _ _ h]

theorem slice_congr {b c : Fin n → Byte} (h : ∀ i, off ≤ i → i < off + k → byteAt b i = byteAt c i) :
    slice b off k = slice c off k := by
  unfold slice
  refine List.map_congr_left fun j hj => ?_
  rw [List.mem_range] at hj
  exact h _ (by omega) (by omega)

theorem getWord_congr {b c : Fin n → Byte}
    (h : ∀ i, off ≤ i → i < off + 4 → byteAt b i = byteAt c i) : getWord b off = getWord c off := by
  unfold getWord
  rw [slice_congr _ _ h]

theorem getShort_congr {b c : Fin n → Byte}
    (h : ∀ i, off ≤ i → i < off + 2 → byteAt b i = byteAt c i) :
    getShort b off = getShort c off := by
  unfold getShort
  rw [slice_congr _ _ h]

theorem byteAt_zero (i : Nat) : byteAt (fun _ => 0 : Fin n → Byte) i = 0 := by
  unfold byteAt
  split_ifs <;> rfl

theorem slice_zero : slice (fun _ => 0 : Fin n → Byte) off k = List.replicate k 0 := by
  apply List.ext_getElem
  · simp
  · intro i hi hi'
    simp only [slice, List.getElem_map, List.getElem_range, List.getElem_replicate]
    exact byteAt_zero _

theorem getWord_zeros : getWord (fun _ => 0 : Fin n → Byte) off = 0 := by
  unfold getWord
  rw [slice_zero]
  rfl

theorem getShort_zeros : getShort (fun _ => 0 : Fin n → Byte) off = 0 := by
  unfold getShort
  rw [slice_zero]
  rfl

theorem byteAt_setWord {i : Nat} (w : BitVec 32) (h : i < off ∨ off + 4 ≤ i) :
    byteAt (setWord b off w) i = byteAt b i :=
  byteAt_patch_of_not_mem _ _ _ (by simpa using h)

theorem byteAt_setShort {i : Nat} (w : BitVec 16) (h : i < off ∨ off + 2 ≤ i) :
    byteAt (setShort b off w) i = byteAt b i :=
  byteAt_patch_of_not_mem _ _ _ (by simpa using h)

theorem getWord_setWord_ne {off' : Nat} (w : BitVec 32) (h : off' + 4 ≤ off ∨ off + 4 ≤ off') :
    getWord (setWord b off w) off' = getWord b off' :=
  getWord_patch _ _ _ (by simpa using h)

/-- Consecutive 32-bit fields. -/
def setWords (b : Fin n → Byte) (off : Nat) : List (BitVec 32) → Fin n → Byte
  | [] => b
  | w :: ws => setWords (setWord b off w) (off + 4) ws

theorem byteAt_setWords {i : Nat} (ws : List (BitVec 32))
    (h : i < off ∨ off + 4 * ws.length ≤ i) : byteAt (setWords b off ws) i = byteAt b i := by
  induction ws generalizing b off with
  | nil => rfl
  | cons w ws ih =>
    simp only [List.length_cons] at h
    rw [setWords, ih _ _ (by omega)]
    exact byteAt_setWord _ _ _ (by omega)

theorem setWords_congr {c : Fin n → Byte} {i : Fin n} (ws : List (BitVec 32))
    (h : (off ≤ i.val ∧ i.val < off + 4 * ws.length) ∨ b i = c i) :
    setWords b off ws i = setWords c off ws i := by
  induction ws generalizing b c off with
  | nil =>
    cases h with
    | inl hin =>
      rw [List.length_nil] at hin
      omega
    | inr heq => exact heq
  | cons w ws ih =>
    apply ih
    rw [List.length_cons] at h
    by_cases hin : off + 4 ≤ i.val ∧ i.val < off + 4 + 4 * ws.length
    · exact Or.inl hin
    · right
      apply patch_congr
      rw [length_natLE]
      cases h with
      | inl hall =>
        left
        omega
      | inr heq => exact Or.inr heq

theorem getWord_setWords (ws : List (BitVec 32)) (h : off + 4 * ws.length ≤ n) (k : Nat)
    (hk : k < ws.length) : getWord (setWords b off ws) (off + 4 * k) = ws[k] := by
  induction ws generalizing b off k with
  | nil => simp at hk
  | cons w ws ih =>
    simp only [List.length_cons] at h hk
    cases k with
    | zero =>
      have hkeep : getWord (setWords (setWord b off w) (off + 4) ws) off
          = getWord (setWord b off w) off :=
        getWord_congr _ fun i _ hi => byteAt_setWords _ _ _ (by omega)
      simp only [setWords, Nat.mul_zero, Nat.add_zero, hkeep, List.getElem_cons_zero]
      exact getWord_setWord _ _ _ (by omega)
    | succ k =>
      have hidx : off + 4 * (k + 1) = off + 4 + 4 * k := by omega
      rw [setWords, hidx, List.getElem_cons_succ]
      exact ih _ _ (by omega) k (by omega)

/-! ### Bits -/

def bitMask (i : Nat) : Byte := 1#8 <<< (i % 8)

def getBit (b : Fin n → Byte) (i : Nat) : Bool := byteAt b (i / 8) &&& bitMask i != 0

def setBit (b : Fin n → Byte) (i : Nat) : Fin n → Byte :=
  patch b (i / 8) [byteAt b (i / 8) ||| bitMask i]

def clearBit (b : Fin n → Byte) (i : Nat) : Fin n → Byte :=
  patch b (i / 8) [byteAt b (i / 8) &&& ~~~ bitMask i]

theorem and_bitMask_ne_zero (x : Byte) (i : Nat) :
    (x &&& bitMask i != 0) = x.getLsbD (i % 8) := by
  have hm : bitMask i = BitVec.twoPow 8 (i % 8) := rfl
  have hlt : i % 8 < 8 := Nat.mod_lt _ (by omega)
  have hne : BitVec.twoPow 8 (i % 8) ≠ 0#8 := by
    intro h
    have hb := congrArg (fun y : Byte => y.getLsbD (i % 8)) h
    simp [hlt] at hb
  rw [hm, BitVec.and_twoPow]
  cases h : x.getLsbD (i % 8) with
  | false => simp
  | true => simpa using hne

theorem getLsbD_bitMask (i j : Nat) :
    (bitMask i).getLsbD (j % 8) = decide (i % 8 = j % 8) := by
  have hm : bitMask i = BitVec.twoPow 8 (i % 8) := rfl
  have hlt : i % 8 < 8 := Nat.mod_lt _ (by omega)
  rw [hm, BitVec.getLsbD_twoPow]
  simp [hlt]

theorem byteAt_singleton_self (v : Byte) (h : off < n) : byteAt (patch b off [v]) off = v := by
  rw [byteAt_patch_of_mem _ _ _ (Nat.le_refl _) (by simp) h, Nat.sub_self]
  rfl

theorem getBit_setBit (i j : Nat) (h : i / 8 < n) :
    getBit (setBit b i) j = (getBit b j || decide (i = j)) := by
  unfold getBit setBit
  rw [and_bitMask_ne_zero, and_bitMask_ne_zero]
  by_cases hij : j / 8 = i / 8
  · rw [hij, byteAt_singleton_self _ _ _ h, BitVec.getLsbD_or, getLsbD_bitMask]
    have hiff : (i % 8 = j % 8) ↔ i = j := by omega
    simp [hiff]
  · rw [byteAt_patch_of_not_mem _ _ _ (by simp only [List.length_singleton]; omega)]
    have hne : i ≠ j := by
      rintro rfl
      exact hij rfl
    simp [hne]

theorem getBit_clearBit (i j : Nat) (h : i / 8 < n) :
    getBit (clearBit b i) j = (getBit b j && decide (i ≠ j)) := by
  unfold getBit clearBit
  rw [and_bitMask_ne_zero, and_bitMask_ne_zero]
  by_cases hij : j / 8 = i / 8
  · rw [hij, byteAt_singleton_self _ _ _ h, BitVec.getLsbD_and, BitVec.getLsbD_not,
      getLsbD_bitMask]
    have hlt : j % 8 < 8 := Nat.mod_lt _ (by omega)
    have hiff : (i % 8 = j % 8) ↔ i = j := by omega
    simp [hiff, hlt]
  · rw [byteAt_patch_of_not_mem _ _ _ (by simp only [List.length_singleton]; omega)]
    have hne : i ≠ j := by
      rintro rfl
      exact hij rfl
    simp [hne]

end Buffer
end Xv6
