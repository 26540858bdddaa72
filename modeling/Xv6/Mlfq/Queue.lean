import Mathlib.Algebra.Order.Ring.Nat
import Mathlib.Data.List.Basic

/-!
# The queues of the MLFQ scheduler (project1/proc.h, project1/proc.c:665-721)

`struct queue` is an array of `NPROC+1` process pointers with the number of
entries in use. Its operations are embedded with their loops over the array;
`Queue.toList` reads the entries in use as a list, and each operation comes
with the list operation that it performs.
-/

namespace Xv6.Mlfq

/-- Size of the process table (param.h). -/
def NPROC : Nat := 64

instance : NeZero NPROC := ⟨Nat.succ_ne_zero 63⟩

/-- A `struct proc *` into the process table. -/
abbrev Slot := Fin NPROC

/-- `struct queue` (proc.h). Entries from `size` on are not in use; C leaves
null or stale pointers there, which no function reads. -/
structure Queue where
  procs : Vector Slot (NPROC + 1)
  size : Nat
  timequantum : Int
  size_le : size ≤ NPROC

namespace Queue

/-- The entries in use, front first. -/
def toList (q : Queue) : List Slot := q.procs.toList.take q.size

-- procs[0]
def front (q : Queue) : Slot := q.procs[0]

def enqueue (q : Queue) (proc : Slot) : Queue :=
  if h : q.size < NPROC then
    { q with procs := q.procs.set q.size proc, size := q.size + 1, size_le := h }
  else q

/-- The loop `for(; i < last; i++) procs[i] = procs[i+1]` with `k = last - i`
iterations to go. -/
def pull (procs : Vector Slot (NPROC + 1)) (i : Nat) :
    (k : Nat) → i + k ≤ NPROC → Vector Slot (NPROC + 1)
  | 0, _ => procs
  | k + 1, h => pull (procs.set i procs[i + 1]) (i + 1) k (by omega)

/-- The loop `for(i = k; i > 0; i--) procs[i] = procs[i-1]`. -/
def push (procs : Vector Slot (NPROC + 1)) :
    (k : Nat) → k ≤ NPROC → Vector Slot (NPROC + 1)
  | 0, _ => procs
  | k + 1, h => push (procs.set (k + 1) procs[k]) k (by omega)

def dequeue (q : Queue) : Queue :=
  if h : 0 < q.size then
    have hs := q.size_le
    { q with procs := pull q.procs 0 (q.size - 1) (by omega), size := q.size - 1,
             size_le := by omega }
  else q

/-- The loop `for(i = 0; i < size; i++) if(procs[i]->pid == pid) break;` from
index `i` on, with `k = size - i` entries to go: the index it stops at. -/
def find (pidOf : Slot → Int) (pid : Int) (procs : Vector Slot (NPROC + 1)) (i : Nat) :
    (k : Nat) → i + k ≤ NPROC → Nat
  | 0, _ => i
  | k + 1, h => if pidOf procs[i] = pid then i else find pidOf pid procs (i + 1) k (by omega)

/-- `pidOf` is the `pid` field of a slot. -/
def remove (q : Queue) (pidOf : Slot → Int) (pid : Int) : Queue :=
  let i := find pidOf pid q.procs 0 q.size (by have := q.size_le; omega)
  if h : i < q.size then
    have hs := q.size_le
    { q with procs := pull q.procs i (q.size - 1 - i) (by omega), size := q.size - 1,
             size_le := by omega }
  else q

def insertqueue (q : Queue) (p : Slot) : Queue :=
  if h : q.size < NPROC then
    { q with procs := (push q.procs q.size q.size_le).set 0 p, size := q.size + 1, size_le := h }
  else q

/-! ### The array loops entry by entry -/

theorem length_toList (q : Queue) : q.toList.length = q.size := by
  have hs := q.size_le
  simp only [toList, List.length_take, Vector.length_toList]
  omega

theorem getElem_toList (q : Queue) (j : Nat) (hj : j < q.toList.length) (hn : j < NPROC + 1) :
    q.toList[j] = q.procs[j] := by
  simp [toList]

theorem pull_getElem (procs : Vector Slot (NPROC + 1)) (i k : Nat) (h : i + k ≤ NPROC)
    (j : Nat) (hj : j < NPROC) :
    (pull procs i k h)[j] = if i ≤ j ∧ j < i + k then procs[j + 1] else procs[j] := by
  induction k generalizing procs i with
  | zero =>
    have hn : ¬ (i ≤ j ∧ j < i + 0) := by omega
    simp only [pull, hn, if_false]
  | succ k ih =>
    simp only [pull]
    rw [ih]
    by_cases hji : j = i
    · subst hji
      have hn : ¬ (j + 1 ≤ j ∧ j < j + 1 + k) := by omega
      have hy : j ≤ j ∧ j < j + (k + 1) := by omega
      simp only [hn, if_false, hy, and_self, if_true, Vector.getElem_set_self]
    · by_cases hc : i + 1 ≤ j ∧ j < i + 1 + k
      · have hy : i ≤ j ∧ j < i + (k + 1) := by omega
        rw [if_pos hc, if_pos hy, Vector.getElem_set_ne _ _ (by omega)]
      · have hn : ¬ (i ≤ j ∧ j < i + (k + 1)) := by omega
        rw [if_neg hc, if_neg hn, Vector.getElem_set_ne _ _ (by omega)]

theorem push_getElem (procs : Vector Slot (NPROC + 1)) (k : Nat) (h : k ≤ NPROC)
    (j : Nat) (hj : j ≤ NPROC) :
    (push procs k h)[j] = if hc : 0 < j ∧ j ≤ k then procs[j - 1] else procs[j] := by
  induction k generalizing procs with
  | zero =>
    have hn : ¬ (0 < j ∧ j ≤ 0) := by omega
    simp only [push, hn, dite_false]
  | succ k ih =>
    simp only [push]
    rw [ih]
    by_cases hjk : j = k + 1
    · subst hjk
      have hn : ¬ (0 < k + 1 ∧ k + 1 ≤ k) := by omega
      have hy : 0 < k + 1 ∧ k + 1 ≤ k + 1 := by omega
      rw [dif_neg hn, dif_pos hy, Vector.getElem_set_self]
      rfl
    · by_cases hc : 0 < j ∧ j ≤ k
      · have hy : 0 < j ∧ j ≤ k + 1 := by omega
        rw [dif_pos hc, dif_pos hy, Vector.getElem_set_ne _ _ (by omega)]
      · have hn : ¬ (0 < j ∧ j ≤ k + 1) := by omega
        rw [dif_neg hc, dif_neg hn, Vector.getElem_set_ne _ _ (by omega)]

/-! ### The operations on the list of entries -/

theorem toList_enqueue (q : Queue) (p : Slot) (h : q.size < NPROC) :
    (q.enqueue p).toList = q.toList ++ [p] := by
  apply List.ext_getElem
  · simp [length_toList, enqueue, h]
  · intro j hj hj'
    simp only [length_toList, List.length_append, List.length_singleton] at hj'
    rw [getElem_toList _ _ _ (by omega)]
    by_cases hjs : j = q.size
    · subst hjs
      simp [enqueue, h, length_toList]
    · have hlt : j < q.toList.length := by
        rw [length_toList]
        omega
      rw [List.getElem_append_left hlt, getElem_toList _ _ _ (by omega)]
      simp only [enqueue, h, dite_true]
      exact Vector.getElem_set_ne _ _ (fun e => hjs e.symm)

theorem enqueue_full (q : Queue) (p : Slot) (h : ¬ q.size < NPROC) : q.enqueue p = q := by
  simp only [enqueue, h, dite_false]

theorem toList_insertqueue (q : Queue) (p : Slot) (h : q.size < NPROC) :
    (q.insertqueue p).toList = p :: q.toList := by
  apply List.ext_getElem
  · simp [length_toList, insertqueue, h]
  · intro j hj hj'
    simp only [length_toList, List.length_cons] at hj'
    rw [getElem_toList _ _ _ (by omega)]
    cases j with
    | zero => simp [insertqueue, h]
    | succ j =>
      simp only [insertqueue, h, dite_true, List.getElem_cons_succ]
      rw [getElem_toList _ _ _ (by omega), Vector.getElem_set_ne _ _ (by omega), push_getElem _ _ _ _ (by omega)]
      have hc : 0 < j + 1 ∧ j + 1 ≤ q.size := by omega
      simp only [hc, and_self, dite_true, Nat.add_sub_cancel]

theorem insertqueue_full (q : Queue) (p : Slot) (h : ¬ q.size < NPROC) :
    q.insertqueue p = q := by
  simp only [insertqueue, h, dite_false]

/-- Pulling the entries behind index `i` one place forward erases entry `i`. -/
theorem take_pull (procs : Vector Slot (NPROC + 1)) (n i : Nat) (hn : n ≤ NPROC) (hi : i < n)
    (h : i + (n - 1 - i) ≤ NPROC) :
    (pull procs i (n - 1 - i) h).toList.take (n - 1) = (procs.toList.take n).eraseIdx i := by
  apply List.ext_getElem
  · simp only [List.length_take, Vector.length_toList, List.length_eraseIdx]
    split <;> omega
  · intro j hj hj'
    simp only [List.length_take, Vector.length_toList] at hj
    simp only [List.getElem_take, Vector.getElem_toList, List.getElem_eraseIdx]
    rw [pull_getElem _ _ _ _ _ (by omega)]
    by_cases hc : j < i
    · have hn' : ¬ (i ≤ j ∧ j < i + (n - 1 - i)) := by omega
      simp only [hn', if_false, hc, dite_true]
    · have hy : i ≤ j ∧ j < i + (n - 1 - i) := by omega
      simp only [hy, and_self, if_true, hc, dite_false]

theorem toList_dequeue (q : Queue) : q.dequeue.toList = q.toList.tail := by
  by_cases h : 0 < q.size
  · have hs := q.size_le
    have ht := take_pull q.procs q.size 0 hs h (by omega)
    simp only [dequeue, h, dite_true, toList]
    rw [← List.eraseIdx_zero]
    exact ht
  · have h0 : q.toList = [] := by
      apply List.eq_nil_of_length_eq_zero
      rw [length_toList]
      omega
    simp only [dequeue, h, dite_false, h0, List.tail_nil]

theorem find_eq (pidOf : Slot → Int) (pid : Int) (procs : Vector Slot (NPROC + 1)) (i k : Nat)
    (h : i + k ≤ NPROC) :
    find pidOf pid procs i k h =
      i + ((procs.toList.take (i + k)).drop i).findIdx fun p => pidOf p = pid := by
  induction k generalizing i with
  | zero =>
    have hd : (procs.toList.take i).drop i = [] := by
      apply List.drop_eq_nil_of_le
      rw [List.length_take]
      omega
    simp only [find, Nat.add_zero, hd, List.findIdx_nil]
  | succ k ih =>
    have hlt : i < (procs.toList.take (i + (k + 1))).length := by
      simp only [List.length_take, Vector.length_toList]
      omega
    rw [List.drop_eq_getElem_cons hlt, List.findIdx_cons]
    simp only [find, List.getElem_take, Vector.getElem_toList]
    by_cases hp : pidOf procs[i] = pid
    · simp [hp]
    · rw [if_neg hp, ih]
      have hk : i + 1 + k = i + (k + 1) := by omega
      simp only [hp, decide_false, cond_false, hk]
      omega

/-- `remove` erases the first entry with the pid, if there is one. -/
theorem toList_remove (q : Queue) (pidOf : Slot → Int) (pid : Int) :
    (q.remove pidOf pid).toList = q.toList.eraseP fun p => pidOf p = pid := by
  have hs := q.size_le
  have hf : find pidOf pid q.procs 0 q.size (by omega)
      = q.toList.findIdx fun p => pidOf p = pid := by
    rw [find_eq]
    simp only [Nat.zero_add, List.drop_zero, toList]
  have hlen := length_toList q
  simp only [remove, List.eraseP_eq_eraseIdx, List.findIdx?_eq_guard_findIdx_lt, hf, hlen]
  by_cases h : (q.toList.findIdx fun p => pidOf p = pid) < q.size
  · simp only [h, dite_true, Option.guard, decide_true, if_true]
    exact take_pull q.procs q.size _ hs h (by omega)
  · simp only [h, dite_false, Option.guard, decide_false, Bool.false_eq_true, if_false]

end Queue
end Xv6.Mlfq
