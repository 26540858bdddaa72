import Xv6.Mlfq.Queue

/-!
# The arrays under the queues (project1/proc.h:68-72, project1/proc.c:665-721)

The queue operations on a `struct queue` that may hold anything: `size` and the indices are
numbers of any sign. An access outside of `procs` fails, and so does a loop that is not at its end
after `NPROC` turns.
-/

namespace Xv6.Mlfq

abbrev Procs := Vector Slot (NPROC + 1)

structure QueueArray where
  procs : Procs
  size : Int
  timequantum : Int

namespace QueueArray

def read (procs : Procs) (i : Int) : Option Slot := if 0 ≤ i then procs[i.toNat]? else none

def write (procs : Procs) (i : Int) (p : Slot) : Option Procs :=
  if h : 0 ≤ i ∧ i.toNat < NPROC + 1 then some (procs.set i.toNat p h.2) else none

def enqueue (q : QueueArray) (proc : Slot) : Option QueueArray :=
  if q.size < NPROC then do
    let procs ← write q.procs q.size proc
    pure { q with procs := procs, size := q.size + 1 }
  else pure q

-- for(; i < last; i++) procs[i] = procs[i+1]
def pullLoop (last : Int) : Nat → Procs → Int → Option Procs
  | 0, procs, i => if i < last then none else some procs
  | turns + 1, procs, i =>
    if i < last then do
      let p ← read procs (i + 1)
      let procs ← write procs i p
      pullLoop last turns procs (i + 1)
    else some procs

def dequeue (q : QueueArray) : Option QueueArray :=
  if 0 < q.size then do
    let procs ← pullLoop (q.size - 1) NPROC q.procs 0
    pure { q with procs := procs, size := q.size - 1 }
  else pure q

-- for(; i < size; i++) if(procs[i]->pid == pid) break
def findLoop (pidOf : Slot → Int) (pid : Int) (procs : Procs) (size : Int) :
    Nat → Int → Option Int
  | 0, i => if i < size then none else some i
  | turns + 1, i =>
    if i < size then do
      let p ← read procs i
      if pidOf p = pid then pure i else findLoop pidOf pid procs size turns (i + 1)
    else some i

def remove (q : QueueArray) (pidOf : Slot → Int) (pid : Int) : Option QueueArray := do
  let i ← findLoop pidOf pid q.procs q.size NPROC 0
  if i < q.size then do
    let procs ← pullLoop (q.size - 1) NPROC q.procs i
    pure { q with procs := procs, size := q.size - 1 }
  else pure q

-- for(; i > 0; i--) procs[i] = procs[i-1]
def pushLoop : Nat → Procs → Int → Option Procs
  | 0, procs, i => if 0 < i then none else some procs
  | turns + 1, procs, i =>
    if 0 < i then do
      let p ← read procs (i - 1)
      let procs ← write procs i p
      pushLoop turns procs (i - 1)
    else some procs

def insertqueue (q : QueueArray) (p : Slot) : Option QueueArray :=
  if q.size < NPROC then do
    let procs ← pushLoop NPROC q.procs q.size
    let procs ← write procs 0 p
    pure { q with procs := procs, size := q.size + 1 }
  else pure q

/-- `procs[0..size)`. -/
def toList (q : QueueArray) : List Slot := q.procs.toList.take q.size.toNat

/-- The size is one that a queue can have. -/
structure Sized (q : QueueArray) : Prop where
  nonneg : 0 ≤ q.size
  le : q.size ≤ NPROC

end QueueArray

/-- The queue in its array. -/
def Queue.array (q : Queue) : QueueArray := ⟨q.procs, q.size, q.timequantum⟩

namespace QueueArray

variable {procs : Procs} {q : QueueArray}

/-! ### Accesses inside the array -/

theorem read_eq (procs : Procs) {i : Nat} (hi : i < NPROC + 1) : read procs i = some procs[i] := by
  unfold read
  rw [if_pos (Int.natCast_nonneg i), Int.toNat_natCast]
  exact Vector.getElem?_eq_getElem hi

theorem write_eq (procs : Procs) {i : Nat} (p : Slot) (hi : i < NPROC + 1) :
    write procs i p = some (procs.set i p) := by
  unfold write
  rw [dif_pos ⟨Int.natCast_nonneg i, hi⟩]
  rfl

theorem pullLoop_eq (procs : Procs) {i k turns : Nat} {last : Int} (hlast : last = i + k)
    (h : i + k ≤ NPROC) (ht : k ≤ turns) :
    pullLoop last turns procs i = some (Queue.pull procs i k h) := by
  induction k generalizing procs i turns with
  | zero =>
    have hend : ¬ (i : Int) < last := by omega
    cases turns with
    | zero => exact if_neg hend
    | succ turns => exact if_neg hend
  | succ k ih =>
    cases turns with
    | zero => omega
    | succ turns =>
      have hgo : (i : Int) < last := by omega
      have hnext : (i : Int) + 1 = ((i + 1 : Nat) : Int) := by omega
      have hread := read_eq procs (show i + 1 < NPROC + 1 by omega)
      have hwrite := write_eq procs procs[i + 1] (show i < NPROC + 1 by omega)
      unfold pullLoop
      rw [if_pos hgo, hnext, hread, Option.bind_eq_bind, Option.bind_some, hwrite]
      exact ih (procs.set i procs[i + 1]) (by omega) (by omega) (by omega)

theorem findLoop_eq (pidOf : Slot → Int) (pid : Int) (procs : Procs) {i k turns : Nat}
    {size : Int} (hsize : size = i + k) (h : i + k ≤ NPROC) (ht : k ≤ turns) :
    findLoop pidOf pid procs size turns i =
      some ((Queue.find pidOf pid procs i k h : Nat) : Int) := by
  induction k generalizing i turns with
  | zero =>
    have hend : ¬ (i : Int) < size := by omega
    cases turns with
    | zero => exact if_neg hend
    | succ turns => exact if_neg hend
  | succ k ih =>
    cases turns with
    | zero => omega
    | succ turns =>
      have hgo : (i : Int) < size := by omega
      have hnext : (i : Int) + 1 = ((i + 1 : Nat) : Int) := by omega
      have hread := read_eq procs (show i < NPROC + 1 by omega)
      unfold findLoop Queue.find
      rw [if_pos hgo, hread, Option.bind_eq_bind, Option.bind_some]
      by_cases hp : pidOf procs[i] = pid
      · rw [if_pos hp, if_pos hp]
        rfl
      · rw [if_neg hp, if_neg hp, hnext]
        exact ih (by omega) (by omega) (by omega)

theorem pushLoop_eq (procs : Procs) {k turns : Nat} (h : k ≤ NPROC) (ht : k ≤ turns) :
    pushLoop turns procs k = some (Queue.push procs k h) := by
  induction k generalizing procs turns with
  | zero =>
    have hend : ¬ (0 : Int) < ((0 : Nat) : Int) := by omega
    cases turns with
    | zero => exact if_neg hend
    | succ turns => exact if_neg hend
  | succ k ih =>
    cases turns with
    | zero => omega
    | succ turns =>
      have hgo : (0 : Int) < ((k + 1 : Nat) : Int) := by omega
      have hprev : ((k + 1 : Nat) : Int) - 1 = (k : Int) := by omega
      have hread := read_eq procs (show k < NPROC + 1 by omega)
      have hwrite := write_eq procs procs[k] (show k + 1 < NPROC + 1 by omega)
      unfold pushLoop
      rw [if_pos hgo, hprev, hread, Option.bind_eq_bind, Option.bind_some, hwrite]
      exact ih (procs.set (k + 1) procs[k]) (by omega) (by omega)

/-! ### The operations -/

theorem enqueue_array (q : Queue) (p : Slot) : q.array.enqueue p = some (q.enqueue p).array := by
  unfold enqueue Queue.enqueue
  by_cases h : q.size < NPROC
  · have hsize : q.array.size < NPROC := Int.ofNat_lt.mpr h
    have hwrite : write q.array.procs q.array.size p = some (q.procs.set q.size p) :=
      write_eq q.procs p (Nat.lt_succ_of_lt h)
    rw [if_pos hsize, dif_pos h, hwrite]
    rfl
  · have hsize : ¬ q.array.size < NPROC := fun hlt => h (Int.ofNat_lt.mp hlt)
    rw [if_neg hsize, dif_neg h]
    rfl

theorem insertqueue_array (q : Queue) (p : Slot) :
    q.array.insertqueue p = some (q.insertqueue p).array := by
  unfold insertqueue Queue.insertqueue
  by_cases h : q.size < NPROC
  · have hsize : q.array.size < NPROC := Int.ofNat_lt.mpr h
    have hpush : pushLoop NPROC q.array.procs q.array.size =
        some (Queue.push q.procs q.size q.size_le) := pushLoop_eq q.procs q.size_le q.size_le
    have hwrite := write_eq (Queue.push q.procs q.size q.size_le) p (Nat.succ_pos NPROC)
    rw [if_pos hsize, dif_pos h, hpush, Option.bind_eq_bind, Option.bind_some]
    rw [Int.ofNat_zero] at hwrite
    rw [hwrite]
    rfl
  · have hsize : ¬ q.array.size < NPROC := fun hlt => h (Int.ofNat_lt.mp hlt)
    rw [if_neg hsize, dif_neg h]
    rfl

theorem dequeue_array (q : Queue) : q.array.dequeue = some q.dequeue.array := by
  have hs := q.size_le
  unfold dequeue Queue.dequeue
  by_cases h : 0 < q.size
  · have hsize : 0 < q.array.size := Int.natCast_pos.mpr h
    have hlast : q.array.size - 1 = ((0 : Nat) : Int) + ((q.size - 1 : Nat) : Int) := by
      show (q.size : Int) - 1 = _
      omega
    have hpull : pullLoop _ NPROC q.procs _ = some _ :=
      pullLoop_eq q.procs hlast (by omega) (by omega)
    rw [if_pos hsize, dif_pos h]
    show (pullLoop _ NPROC q.procs ((0 : Nat) : Int) >>= _) = _
    rw [hpull]
    show some _ = some _
    unfold Queue.array
    simp only [Option.some.injEq, QueueArray.mk.injEq, true_and, and_true]
    omega
  · have hsize : ¬ 0 < q.array.size := fun hlt => h (Int.natCast_pos.mp hlt)
    rw [if_neg hsize, dif_neg h]
    rfl

theorem remove_array (q : Queue) (pidOf : Slot → Int) (pid : Int) :
    q.array.remove pidOf pid = some (q.remove pidOf pid).array := by
  have hs := q.size_le
  have hfind := @findLoop_eq pidOf pid q.procs 0 q.size NPROC q.size
    (Int.zero_add (q.size : Int)).symm (by omega) hs
  unfold remove Queue.remove
  show (findLoop pidOf pid q.procs (q.size : Int) NPROC ((0 : Nat) : Int) >>= _) = _
  rw [hfind, Option.bind_eq_bind, Option.bind_some]
  dsimp only
  by_cases h : Queue.find pidOf pid q.procs 0 q.size (by omega) < q.size
  · have hsize : (Queue.find pidOf pid q.procs 0 q.size (by omega) : Int) < q.array.size :=
      Int.ofNat_lt.mpr h
    have hlast : q.array.size - 1 =
        (Queue.find pidOf pid q.procs 0 q.size (by omega) : Int) +
          ((q.size - 1 - Queue.find pidOf pid q.procs 0 q.size (by omega) : Nat) : Int) := by
      show (q.size : Int) - 1 = _
      omega
    have hpull : pullLoop _ NPROC q.procs _ = some _ :=
      pullLoop_eq q.procs hlast (by omega) (by omega)
    rw [if_pos hsize, dif_pos h]
    show (pullLoop _ NPROC q.procs _ >>= _) = _
    rw [hpull]
    show some _ = some _
    unfold Queue.array
    simp only [Option.some.injEq, QueueArray.mk.injEq, true_and, and_true]
    omega
  · have hsize : ¬ (Queue.find pidOf pid q.procs 0 q.size (by omega) : Int) < q.array.size :=
      fun hlt => h (Int.ofNat_lt.mp hlt)
    rw [if_neg hsize, dif_neg h]
    rfl

/-! ### Arrays as lists -/

theorem Sized.array (h : q.Sized) : ∃ r : Queue, r.array = q := by
  have hle := h.le
  have hsize : q.size.toNat ≤ NPROC := by omega
  refine ⟨⟨q.procs, q.size.toNat, q.timequantum, hsize⟩, ?_⟩
  unfold Queue.array
  rw [Int.toNat_of_nonneg h.nonneg]

theorem sized_array (q : Queue) : q.array.Sized :=
  ⟨Int.natCast_nonneg q.size, Int.ofNat_le.mpr q.size_le⟩

theorem toList_array (q : Queue) : q.array.toList = q.toList := rfl

/-- What an operation with the result `r` makes of the queue: it comes to its end inside the
array, and the queue has a size again. -/
def Gives (r : Option QueueArray) (post : QueueArray → Prop) : Prop :=
  ∃ q, r = some q ∧ q.Sized ∧ post q

/-- The operations are those on the list of the entries in use. -/
structure ListLaw (q : QueueArray) : Prop where
  enqueue : ∀ p, Gives (q.enqueue p) fun r =>
    (q.size < NPROC → r.toList = q.toList ++ [p]) ∧ (¬ q.size < NPROC → r = q)
  insertqueue : ∀ p, Gives (q.insertqueue p) fun r =>
    (q.size < NPROC → r.toList = p :: q.toList) ∧ (¬ q.size < NPROC → r = q)
  dequeue : Gives q.dequeue fun r =>
    (∀ p ps, q.toList = p :: ps → r.toList = ps) ∧ (q.toList = [] → r = q)
  remove : ∀ pidOf pid, Gives (q.remove pidOf pid) fun r =>
    (∀ ps p rest, q.toList = ps ++ p :: rest → (∀ o ∈ ps, pidOf o ≠ pid) → pidOf p = pid →
      r.toList = ps ++ rest) ∧
    ((∀ o ∈ q.toList, pidOf o ≠ pid) → r.toList = q.toList)

theorem listLaw_array (q : Queue) : ListLaw q.array where
  enqueue p := by
    refine ⟨_, enqueue_array q p, sized_array _, ?_, ?_⟩
    · intro h
      exact q.toList_enqueue p (Int.ofNat_lt.mp h)
    · intro h
      rw [q.enqueue_full p fun hlt => h (Int.ofNat_lt.mpr hlt)]
  insertqueue p := by
    refine ⟨_, insertqueue_array q p, sized_array _, ?_, ?_⟩
    · intro h
      exact q.toList_insertqueue p (Int.ofNat_lt.mp h)
    · intro h
      rw [q.insertqueue_full p fun hlt => h (Int.ofNat_lt.mpr hlt)]
  dequeue := by
    refine ⟨_, dequeue_array q, sized_array _, ?_, ?_⟩
    · intro p ps h
      rw [toList_array] at h ⊢
      rw [q.toList_dequeue, h, List.tail_cons]
    · intro h
      have hzero : ¬ 0 < q.size := by
        rw [← q.length_toList, ← toList_array, h]
        exact Nat.lt_irrefl 0
      unfold Queue.dequeue
      rw [dif_neg hzero]
  remove pidOf pid := by
    refine ⟨_, remove_array q pidOf pid, sized_array _, ?_, ?_⟩
    · intro ps p rest h hps hp
      rw [toList_array] at h ⊢
      have hno : ∀ o ∈ ps, ¬ decide (pidOf o = pid) = true := by
        intro o ho heq
        exact hps o ho (of_decide_eq_true heq)
      have hhit : (fun o => decide (pidOf o = pid)) p = true := decide_eq_true hp
      rw [q.toList_remove, h, List.eraseP_append_right _ hno]
      exact congrArg (ps ++ ·) (List.eraseP_cons_of_pos hhit)
    · intro h
      rw [toList_array] at h ⊢
      rw [q.toList_remove]
      apply List.eraseP_of_forall_not
      intro o ho heq
      exact h o ho (of_decide_eq_true heq)

/-- Every queue whose size is not above `NPROC` is a list for its operations. -/
theorem listLaw_of_sized (h : q.Sized) : ListLaw q := by
  obtain ⟨r, rfl⟩ := h.array
  exact listLaw_array r

/-- A queue with two entries. -/
def twoEntries : QueueArray := ⟨(Vector.replicate 65 3).set 0 7, 2, 1⟩

theorem listLaw_of_sized_twoEntries : twoEntries.toList = [7, 3] ∧ ListLaw twoEntries :=
  ⟨by decide, listLaw_of_sized ⟨by decide, by decide⟩⟩

end QueueArray

end Xv6.Mlfq
