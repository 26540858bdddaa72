import Mathlib.Logic.Function.Basic
import Xv6.Lib.Transition
import Xv6.Memory.Vm

/-!
# The address space that the threads of a process share (project2)

`sys_sbrk` with `growproc`, `thread_create`, `thread_exit` and `thread_join`, as far
as they touch `mainthread->sz`, the page directory and the slots of the process.
`growproc` runs under `ptable.lock` and is one step; `thread_create` does not take
the lock, and a switch can come between any two of its accesses, also inside the
loops of `allocuvm` and `deallocuvm`.
-/

namespace Xv6.Memory
open Mlfq (NPROC Slot Procstate)
open Threads (PGSIZE KERNBASE uint)

/-- The addresses from `addr` to `addr + len`. -/
structure Region where
  addr : Nat
  len : Nat
  deriving DecidableEq, Repr

/-- What is left of a region when the memory from `hi` on is given back. -/
def Region.below (hi : Nat) (r : Region) : Region := ⟨r.addr, min r.len (hi - r.addr)⟩

/-- The next access of `thread_create` on the new slot. `oldsz` is the argument of
`allocuvm`, `a` the page that its loop has reached and `as` the pages after it. -/
inductive Stage where
  | sz | limit | allocuvm
  | kalloc (oldsz : Nat) (as : List Nat)
  | check (oldsz a : Nat) (as : List Nat)
  | set (oldsz a : Nat) (as : List Nat)
  | dealloc (as : List Nat)
  | clearpteu | mainSz | copyout | runnable
  deriving DecidableEq, Repr

/-- Where a thread is: `growproc` comes with the old size that `sys_sbrk` has read. -/
inductive Call where
  | user
  | growproc (n : Int) (addr : Nat)
  | create (np : Slot) (st : Stage)
  deriving DecidableEq, Repr

/-- The part of `struct proc` that is used here. Any thread that can run may be the
next: RUNNABLE stands for RUNNING and SLEEPING too. -/
structure Thread where
  sz : Nat
  state : Procstate
  call : Call
  deriving DecidableEq, Repr

/-- A process. `lockHeld` says that a failed `growproc` has returned with
`ptable.lock`. `handed` (what `sbrk` has returned and not taken back), `grown` (what
was added to `mainthread->sz`) and `overwritten` (a page was mapped over another) are
ghosts. -/
structure Space where
  pgdir : Pgdir
  main : Slot
  memorylimit : Int
  slot : Slot → Thread
  lockHeld : Bool
  panicked : Bool
  handed : List Region
  grown : List Region
  overwritten : Bool

namespace Space

-- mainthread->sz
def size (s : Space) : Nat := (s.slot s.main).sz

def setSlot (s : Space) (i : Slot) (f : Thread → Thread) : Space :=
  { s with slot := Function.update s.slot i (f (s.slot i)) }

def setCall (s : Space) (i : Slot) (k : Call) : Space := s.setSlot i fun r => { r with call := k }

def setSz (s : Space) (p : Slot) (sz : Nat) : Space := s.setSlot p fun r => { r with sz := sz }

def setState (s : Space) (p : Slot) (st : Procstate) : Space :=
  s.setSlot p fun r => { r with state := st }

/-! ### What the setters leave alone -/

section

variable (s : Space) (i j p : Slot) (k : Call) (sz : Nat) (st : Procstate)

@[simp] theorem setCall_sz : ((s.setCall i k).slot j).sz = (s.slot j).sz := by
  by_cases h : j = i
  · subst h
    simp [setCall, setSlot]
  · simp [setCall, setSlot, h]

@[simp] theorem setCall_state : ((s.setCall i k).slot j).state = (s.slot j).state := by
  by_cases h : j = i
  · subst h
    simp [setCall, setSlot]
  · simp [setCall, setSlot, h]

theorem setCall_call :
    ((s.setCall i k).slot j).call = if j = i then k else (s.slot j).call := by
  by_cases h : j = i
  · subst h
    simp [setCall, setSlot]
  · simp [setCall, setSlot, h]

theorem setSz_sz : ((s.setSz p sz).slot j).sz = if j = p then sz else (s.slot j).sz := by
  by_cases h : j = p
  · subst h
    simp [setSz, setSlot]
  · simp [setSz, setSlot, h]

@[simp] theorem setSz_state : ((s.setSz p sz).slot j).state = (s.slot j).state := by
  by_cases h : j = p
  · subst h
    simp [setSz, setSlot]
  · simp [setSz, setSlot, h]

@[simp] theorem setSz_call : ((s.setSz p sz).slot j).call = (s.slot j).call := by
  by_cases h : j = p
  · subst h
    simp [setSz, setSlot]
  · simp [setSz, setSlot, h]

@[simp] theorem setState_sz : ((s.setState p st).slot j).sz = (s.slot j).sz := by
  by_cases h : j = p
  · subst h
    simp [setState, setSlot]
  · simp [setState, setSlot, h]

theorem setState_state :
    ((s.setState p st).slot j).state = if j = p then st else (s.slot j).state := by
  by_cases h : j = p
  · subst h
    simp [setState, setSlot]
  · simp [setState, setSlot, h]

@[simp] theorem setState_call : ((s.setState p st).slot j).call = (s.slot j).call := by
  by_cases h : j = p
  · subst h
    simp [setState, setSlot]
  · simp [setState, setSlot, h]

theorem setState_setCall :
    (s.setState p st).setCall i k = (s.setCall i k).setState p st := by
  unfold setState setCall setSlot
  congr 1
  funext j
  by_cases hi : j = i
  · subst hi
    by_cases hp : j = p
    · subst hp
      simp
    · simp [hp]
  · by_cases hp : j = p
    · subst hp
      simp [hi]
    · simp [hi, hp]

@[simp] theorem setCall_size : (s.setCall i k).size = s.size := setCall_sz _ _ _ _

@[simp] theorem setState_size : (s.setState p st).size = s.size := setState_sz _ _ _ _

theorem setSz_size : (s.setSz p sz).size = if s.main = p then sz else s.size := setSz_sz _ _ _ _

@[simp] theorem setCall_pgdir : (s.setCall i k).pgdir = s.pgdir := rfl
@[simp] theorem setCall_main : (s.setCall i k).main = s.main := rfl
@[simp] theorem setCall_handed : (s.setCall i k).handed = s.handed := rfl
@[simp] theorem setCall_grown : (s.setCall i k).grown = s.grown := rfl
@[simp] theorem setCall_panicked : (s.setCall i k).panicked = s.panicked := rfl
@[simp] theorem setCall_overwritten : (s.setCall i k).overwritten = s.overwritten := rfl
@[simp] theorem setSz_main : (s.setSz p sz).main = s.main := rfl
@[simp] theorem setSz_pgdir : (s.setSz p sz).pgdir = s.pgdir := rfl
@[simp] theorem setState_main : (s.setState p st).main = s.main := rfl
@[simp] theorem setState_pgdir : (s.setState p st).pgdir = s.pgdir := rfl

end

/-! ### The system calls -/

/-- The test of `growproc` and `thread_create` on the main thread's limit. -/
def overLimit (s : Space) (n : Int) : Bool :=
  s.memorylimit ≠ 0 ∧ uint s.memorylimit < uint (s.size + n)

/-- The rest of `sys_sbrk(n)`, which returns `addr` when `growproc` succeeds. Its
failing ways out keep `ptable.lock`. -/
def growproc (s : Space) (n : Int) (addr free : Nat) : Space :=
  if s.overLimit n then { s with lockHeld := true }
  else if 0 < n then
    match s.pgdir.allocuvm s.size (uint (s.size + n)) free with
    | none => { s with panicked := true }
    | some (sz, pd) =>
      if sz = 0 then { s with pgdir := pd, lockHeld := true }
      else
        { s.setSz s.main sz with
          pgdir := pd
          handed := s.handed ++ [⟨addr, n.toNat⟩]
          grown := s.grown ++ [⟨s.size, n.toNat⟩] }
  else if n < 0 then
    let (sz, pd) := s.pgdir.deallocuvm s.size (uint (s.size + n))
    if sz = 0 then { s with pgdir := pd, lockHeld := true }
    else { s.setSz s.main sz with pgdir := pd, handed := s.handed.map (Region.below sz) }
  else s

/-- The statements of `thread_create` after `allocproc`; `enough` says whether `kalloc`
finds a page for the stack (and `walkpgdir` one for the page table). The failing ways
out leave the slot EMBRYO. -/
def threadNext (s : Space) (i np : Slot) (enough : Bool) : Stage → Space
  | .sz => (s.setSz np s.size).setCall i (.create np .limit)
  | .limit => s.setCall i (if s.overLimit (2 * PGSIZE) then .user else .create np .allocuvm)
  | .allocuvm =>
    let oldsz := (s.slot np).sz
    let newsz := uint (oldsz + 2 * PGSIZE)
    if KERNBASE ≤ newsz then (s.setSz np 0).setCall i .user
    else if newsz < oldsz then s.setCall i (.create np .clearpteu)
    else s.setCall i (.create np (.kalloc oldsz (pages oldsz newsz)))
  | .kalloc oldsz [] =>
    (s.setSz np (uint (oldsz + 2 * PGSIZE))).setCall i (.create np .clearpteu)
  | .kalloc oldsz (a :: as) =>
    s.setCall i (.create np
      (if enough then .check oldsz a as
       else .dealloc (pages oldsz (uint (oldsz + 2 * PGSIZE)))))
  | .check oldsz a as =>
    if (s.pgdir a).isSome then { s with panicked := true }
    else s.setCall i (.create np (.set oldsz a as))
  | .set oldsz a as =>
    { s.setCall i (.create np (.kalloc oldsz as)) with
      pgdir := Function.update s.pgdir a (some true)
      overwritten := s.overwritten || (s.pgdir a).isSome }
  | .dealloc [] => (s.setSz np 0).setCall i .user
  | .dealloc (a :: as) =>
    { s.setCall i (.create np (.dealloc as)) with pgdir := s.pgdir.unmap a }
  | .clearpteu =>
    { s.setCall i (.create np .mainSz) with
      pgdir := s.pgdir.clearpteu (uint ((s.slot np).sz - 2 * PGSIZE : Int)) }
  | .mainSz =>
    { (s.setSz s.main (s.slot np).sz).setCall i (.create np .copyout) with
      grown := s.grown ++ [⟨(s.slot np).sz - 2 * PGSIZE, 2 * PGSIZE⟩] }
  | .copyout =>
    s.setCall i
      (if s.pgdir.copyout (uint ((s.slot np).sz - 8 : Int)) 8 then .create np .runnable else .user)
  | .runnable => (s.setState np .runnable).setCall i .user

/-- `cleanthread` on a ZOMBIE. -/
def cleanthread (s : Space) (p : Slot) : Space :=
  { s.setState p .unused with
    pgdir := (s.pgdir.deallocuvm (s.slot p).sz ((s.slot p).sz + 2 * PGSIZE)).2 }

end Space

inductive Action where
  | sbrk (i : Slot) (n : Int)
  | growproc (i : Slot) (free : Nat)
  | threadCreate (i np : Slot)
  | threadNext (i : Slot) (enough : Bool)
  | threadExit (i : Slot)
  | threadJoin (i p : Slot)
  deriving DecidableEq, Repr

/-- The thread `i` can run and is in no system call. -/
def Space.atUser (s : Space) (i : Slot) : Prop :=
  (s.slot i).state = .runnable ∧ (s.slot i).call = .user

instance (s : Space) (i : Slot) : Decidable (s.atUser i) := inferInstanceAs (Decidable (_ ∧ _))

/-- A step of the process; after a panic there is none. `np` is the slot that
`allocproc` finds, `p` the one that `thread_join` cleans; calls of these that fail
change nothing and are left out. -/
def step (s : Space) (a : Action) : Option Space :=
  if s.panicked then none
  else
    match a with
    | .sbrk i n =>
      if s.atUser i ∧ -2147483648 ≤ n ∧ n < 2147483648 then
        some (s.setCall i (.growproc n s.size))
      else none
    | .growproc i free =>
      match (s.slot i).call with
      | .growproc n addr =>
        if (s.slot i).state = .runnable ∧ ¬ s.lockHeld then
          some ((s.setCall i .user).growproc n addr free)
        else none
      | _ => none
    | .threadCreate i np =>
      if s.atUser i ∧ ¬ s.lockHeld ∧ (s.slot np).state = .unused then
        some ((s.setState np .embryo).setCall i (.create np .sz))
      else none
    | .threadNext i enough =>
      match (s.slot i).call with
      | .create np st =>
        if (s.slot i).state = .runnable ∧ (st = .runnable → ¬ s.lockHeld) then
          some (s.threadNext i np enough st)
        else none
      | _ => none
    | .threadExit i => if s.atUser i ∧ ¬ s.lockHeld then some (s.setState i .zombie) else none
    | .threadJoin i p =>
      if s.atUser i ∧ ¬ s.lockHeld ∧ (s.slot p).state = .zombie then some (s.cleanthread p)
      else none

end Xv6.Memory
