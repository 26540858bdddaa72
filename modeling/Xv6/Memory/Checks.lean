import Xv6.Lib.ByteBuffer
import Xv6.Memory.Sbrk
import Xv6.Threads.Effect

/-!
# The checks of system call arguments (project2/syscall.c:17-83)

`fetchint`, `fetchstr`, `argptr` and `argstr` compare with the size in the slot of the
calling thread, which nobody keeps up to date.
-/

namespace Xv6.Memory
open Mlfq (Slot)
open Threads (PGSIZE KERNBASE uint)
open Xv6.Transition

/-! ### The checks, for a thread with the size `sz` -/

/-- `fetchint`: the word at `addr`, or no value for -1. -/
def fetchint (mem : Nat → Byte) (sz addr : Nat) : Option Nat :=
  if sz ≤ addr ∨ sz < uint (addr + 4) then none
  else some (leNat ((List.range 4).map fun j => mem (addr + j)))

/-- `fetchstr`: the length. -/
def fetchstr (mem : Nat → Byte) (sz addr : Nat) : Option Nat :=
  if sz ≤ addr then none else (List.range (sz - addr)).find? fun k => mem (addr + k) = 0

def argint (mem : Nat → Byte) (sz esp n : Nat) : Option Nat :=
  fetchint mem sz (uint (esp + 4 + 4 * n))

/-- `argptr`: the pointer. -/
def argptr (mem : Nat → Byte) (sz esp n : Nat) (size : Int) : Option Nat :=
  (argint mem sz esp n).bind fun i =>
    if size < 0 ∨ sz ≤ i ∨ sz < uint (i + size) then none else some i

def argstr (mem : Nat → Byte) (sz esp n : Nat) : Option Nat :=
  (argint mem sz esp n).bind (fetchstr mem sz)

/-! ### What they accept -/

theorem uint_of_lt {n : Int} (h0 : 0 ≤ n) (hn : n < 4294967296) : uint n = n.toNat := by
  unfold uint
  rw [Int.emod_eq_of_lt h0 hn]

section Accept

variable {mem : Nat → Byte} {sz addr : Nat}

theorem fetchint_isSome (hsz : sz < KERNBASE) :
    (fetchint mem sz addr).isSome ↔ addr + 4 ≤ sz := by
  unfold fetchint
  unfold KERNBASE at hsz
  by_cases ha : sz ≤ addr
  · simp only [ha, true_or, if_true, Option.isSome_none, Bool.false_eq_true, false_iff]
    omega
  · have hu : uint (addr + 4) = addr + 4 := by
      rw [uint_of_lt (by omega) (by omega)]
      omega
    rw [hu]
    split_ifs
    · simp only [Option.isSome_none, Bool.false_eq_true, false_iff]
      omega
    · simp only [Option.isSome_some, true_iff]
      omega

theorem fetchstr_isSome :
    (fetchstr mem sz addr).isSome ↔ ∃ k, addr + k < sz ∧ mem (addr + k) = 0 := by
  unfold fetchstr
  split_ifs with ha
  · simp only [Option.isSome_none, Bool.false_eq_true, false_iff, not_exists]
    omega
  · simp only [List.find?_isSome, List.mem_range, decide_eq_true_eq]
    constructor
    · intro h
      obtain ⟨k, hk, h0⟩ := h
      exact ⟨k, by omega, h0⟩
    · intro h
      obtain ⟨k, hk, h0⟩ := h
      exact ⟨k, by omega, h0⟩

theorem argptr_isSome (hsz : sz < KERNBASE) {esp n : Nat} {size : Int} (h : size < 2147483648) :
    (argptr mem sz esp n size).isSome ↔
      ∃ i, argint mem sz esp n = some i ∧ 0 ≤ size ∧ i < sz ∧ i + size ≤ sz := by
  unfold argptr
  cases hi : argint mem sz esp n with
  | none => simp
  | some i =>
    unfold KERNBASE at hsz
    simp only [Option.bind_some, Option.some.injEq, exists_eq_left']
    by_cases hneg : size < 0
    · simp only [hneg, true_or, if_true, Option.isSome_none, Bool.false_eq_true, false_iff]
      omega
    · by_cases hle : sz ≤ i
      · simp only [hle, true_or, or_true, if_true, Option.isSome_none, Bool.false_eq_true,
          false_iff]
        omega
      · have hu : (uint (i + size) : Int) = i + size := by
          rw [uint_of_lt (by omega) (by omega)]
          omega
        split_ifs
        · simp only [Option.isSome_none, Bool.false_eq_true, false_iff]
          omega
        · simp only [Option.isSome_some, true_iff]
          omega

end Accept

/-- The checks accept what lies inside the process, whichever thread makes the call. -/
structure ChecksLaw (s : Space) : Prop where
  ints : ∀ p, (s.slot p).state = .runnable → ∀ mem addr,
    (fetchint mem (s.slot p).sz addr).isSome ↔ addr + 4 ≤ s.size
  strs : ∀ p, (s.slot p).state = .runnable → ∀ mem addr,
    (fetchstr mem (s.slot p).sz addr).isSome ↔ ∃ k, addr + k < s.size ∧ mem (addr + k) = 0
  ptrs : ∀ p, (s.slot p).state = .runnable → ∀ mem esp n (size : Int), size < 2147483648 →
    ((argptr mem (s.slot p).sz esp n size).isSome ↔
      ∃ i, argint mem s.size esp n = some i ∧ 0 ≤ size ∧ i < s.size ∧ i + size ≤ s.size)
  agree : ∀ p q, (s.slot p).state = .runnable → (s.slot q).state = .runnable →
    ∀ mem addr esp n size,
      fetchint mem (s.slot p).sz addr = fetchint mem (s.slot q).sz addr ∧
      fetchstr mem (s.slot p).sz addr = fetchstr mem (s.slot q).sz addr ∧
      argptr mem (s.slot p).sz esp n size = argptr mem (s.slot q).sz esp n size ∧
      argstr mem (s.slot p).sz esp n = argstr mem (s.slot q).sz esp n

/-- Every thread that can run has the size of the process. -/
def Space.inStep (s : Space) : Prop := ∀ p, (s.slot p).state = .runnable → (s.slot p).sz = s.size

instance (s : Space) : Decidable s.inStep := inferInstanceAs (Decidable (∀ _, _))

theorem checksLaw_iff {s : Space} (hsz : s.size < KERNBASE) : ChecksLaw s ↔ s.inStep := by
  constructor
  · intro h p hp
    -- in empty memory `fetchstr` accepts the addresses below the size
    have hzero : ∀ addr, addr < (s.slot p).sz ↔ addr < s.size := by
      intro addr
      have hstr := h.strs p hp (fun _ => 0) addr
      rw [fetchstr_isSome] at hstr
      constructor
      · intro ha
        obtain ⟨k, hk, -⟩ := hstr.mp ⟨0, by omega, rfl⟩
        omega
      · intro ha
        obtain ⟨k, hk, -⟩ := hstr.mpr ⟨0, by omega, rfl⟩
        omega
    have h1 := hzero s.size
    have h2 := hzero (s.slot p).sz
    omega
  · intro h
    refine ⟨?_, ?_, ?_, ?_⟩
    · intro p hp mem addr
      rw [h p hp]
      exact fetchint_isSome hsz
    · intro p hp mem addr
      rw [h p hp]
      exact fetchstr_isSome
    · intro p hp mem esp n size hsize
      rw [h p hp]
      exact argptr_isSome hsz hsize
    · intro p q hp hq mem addr esp n size
      rw [h p hp, h q hq]
      simp

/-! ### Sizes stay below the kernel -/

/-- What the checks before a stage say about the new size. -/
def Stage.Bounded : Stage → Prop
  | .kalloc oldsz _ | .check oldsz _ _ | .set oldsz _ _ => uint (oldsz + 2 * PGSIZE) < KERNBASE
  | _ => True

def Call.Bounded : Call → Prop
  | .create _ st => st.Bounded
  | _ => True

/-- Every size is below the kernel. -/
structure Bounded (s : Space) : Prop where
  sz : ∀ p, (s.slot p).sz < KERNBASE
  calls : ∀ i, (s.slot i).call.Bounded

namespace Bounded

variable {s t : Space} {i np p : Slot}

theorem setCall (h : Bounded s) {k : Call} (hk : k.Bounded) : Bounded (s.setCall i k) := by
  constructor
  · intro q
    rw [Space.setCall_sz]
    exact h.sz q
  · intro j
    rw [Space.setCall_call]
    split_ifs
    · exact hk
    · exact h.calls j

theorem setSz (h : Bounded s) {sz : Nat} (hsz : sz < KERNBASE) : Bounded (s.setSz p sz) := by
  constructor
  · intro q
    rw [Space.setSz_sz]
    split_ifs
    · exact hsz
    · exact h.sz q
  · intro j
    rw [Space.setSz_call]
    exact h.calls j

theorem setState (h : Bounded s) (st : Mlfq.Procstate) : Bounded (s.setState p st) := by
  constructor
  · intro q
    rw [Space.setState_sz]
    exact h.sz q
  · intro j
    rw [Space.setState_call]
    exact h.calls j

theorem of_slot (h : Bounded s) (hslot : t.slot = s.slot) : Bounded t := by
  constructor
  · intro q
    rw [hslot]
    exact h.sz q
  · intro j
    rw [hslot]
    exact h.calls j

theorem threadNext (h : Bounded s) {st : Stage} (hi : (s.slot i).call = .create np st)
    (enough : Bool) : Bounded (s.threadNext i np enough st) := by
  have hst := h.calls i
  rw [hi] at hst
  cases st with
  | sz => exact (h.setSz (h.sz s.main)).setCall trivial
  | limit =>
    simp only [Space.threadNext]
    split_ifs
    · exact h.setCall trivial
    · exact h.setCall trivial
  | allocuvm =>
    simp only [Space.threadNext]
    split_ifs with hk hlt
    · exact (h.setSz (by decide)).setCall trivial
    · exact h.setCall trivial
    · exact h.setCall (Nat.lt_of_not_le hk)
  | kalloc oldsz as =>
    cases as with
    | nil => exact (h.setSz hst).setCall trivial
    | cons a as =>
      simp only [Space.threadNext]
      split_ifs
      · exact h.setCall hst
      · exact h.setCall trivial
  | check oldsz a as =>
    simp only [Space.threadNext]
    split_ifs
    · exact h.of_slot rfl
    · exact h.setCall hst
  | set oldsz a as => exact (h.setCall (k := .create np (.kalloc oldsz as)) hst).of_slot rfl
  | dealloc as =>
    cases as with
    | nil => exact (h.setSz (by decide)).setCall trivial
    | cons a as => exact (h.setCall (k := .create np (.dealloc as)) trivial).of_slot rfl
  | clearpteu => exact (h.setCall (k := .create np .mainSz) trivial).of_slot rfl
  | mainSz =>
    have hset := h.setSz (p := s.main) (h.sz np)
    exact (hset.setCall (k := .create np .copyout) trivial).of_slot rfl
  | copyout =>
    simp only [Space.threadNext]
    split_ifs
    · exact h.setCall trivial
    · exact h.setCall trivial
  | runnable => exact (h.setState _).setCall trivial

theorem allocuvm_lt {pd pd' : Pgdir} {oldsz newsz free sz : Nat} (hold : oldsz < KERNBASE)
    (h : pd.allocuvm oldsz newsz free = some (sz, pd')) : sz < KERNBASE := by
  rw [Pgdir.allocuvm_size h]
  unfold Threads.State.allocuvm
  split_ifs
  · decide
  · exact hold
  · omega
  · decide

theorem growproc (h : Bounded s) (n : Int) (addr free : Nat) :
    Bounded (s.growproc n addr free) := by
  unfold Space.growproc
  split_ifs
  · exact h.of_slot rfl
  · cases halloc : s.pgdir.allocuvm s.size (uint (s.size + n)) free with
    | none => exact h.of_slot rfl
    | some r =>
      dsimp only
      split_ifs
      · exact h.of_slot rfl
      · exact (h.setSz (p := s.main) (allocuvm_lt (h.sz s.main) halloc)).of_slot rfl
  · dsimp only
    split_ifs
    · exact h.of_slot rfl
    · have hle := Threads.deallocuvm_le s.size (uint (s.size + n))
      have hlt : (s.pgdir.deallocuvm s.size (uint (s.size + n))).1 < KERNBASE := by
        rw [Pgdir.deallocuvm_size]
        exact Nat.lt_of_le_of_lt hle (h.sz s.main)
      have hset : Bounded (s.setSz s.main (s.pgdir.deallocuvm s.size (uint (s.size + n))).1) :=
        h.setSz hlt
      exact hset.of_slot rfl
  · exact h

theorem step (h : Bounded s) {a : Action} (hs : Memory.step s a = some t) : Bounded t := by
  unfold Memory.step at hs
  split_ifs at hs
  cases a with
  | sbrk i n =>
    simp only at hs
    split_ifs at hs
    cases hs
    exact h.setCall trivial
  | growproc i free =>
    cases hcall : (s.slot i).call with
    | growproc n addr =>
      simp only [hcall] at hs
      split_ifs at hs
      cases hs
      exact (h.setCall (k := .user) trivial).growproc n addr free
    | user => simp [hcall] at hs
    | create np st => simp [hcall] at hs
  | threadCreate i np =>
    simp only at hs
    split_ifs at hs
    cases hs
    exact (h.setState _).setCall trivial
  | threadNext i enough =>
    cases hcall : (s.slot i).call with
    | create np st =>
      simp only [hcall] at hs
      split_ifs at hs
      cases hs
      exact h.threadNext hcall enough
    | user => simp [hcall] at hs
    | growproc n addr => simp [hcall] at hs
  | threadExit i =>
    simp only at hs
    split_ifs at hs
    cases hs
    exact h.setState _
  | threadJoin i p =>
    simp only at hs
    split_ifs at hs
    cases hs
    exact (h.setState _).of_slot rfl

end Bounded

/-- In every state of every run the checks agree with each other and with the size of the
process exactly where no thread has fallen behind. -/
theorem checksLaw_iff_of_reach {s₀ s : Space} (h0 : Bounded s₀) (hr : Reachable step s₀ s) :
    ChecksLaw s ↔ s.inStep := by
  have hs : Bounded s := by
    apply hr.invariant h0
    intro u a v hu _ hv
    exact hu.step hv
  exact checksLaw_iff (hs.sz s.main)

theorem bounded_twoThreads : Bounded twoThreads := by
  constructor
  · decide +kernel
  · intro i
    rw [started_twoThreads.user i]
    trivial

/-- The main thread gets a page and gives it back. -/
def pageReturned : Space :=
  (run step twoThreads [.sbrk 1 4096, .growproc 1 1, .sbrk 1 (-4096), .growproc 1 1]).getD
    twoThreads

/-- The size is what the other thread has in its own slot, again. -/
theorem checksLaw_iff_of_reach_twoThreads : ChecksLaw pageReturned := by
  have hr : Reachable step twoThreads pageReturned :=
    reachable_of_run (eq_some_getD (by decide +kernel))
  exact (checksLaw_iff_of_reach bounded_twoThreads hr).mpr (by decide +kernel)

/-- The main thread gets a page more. -/
def mainGrown : Space := (run step twoThreads [.sbrk 1 4096, .growproc 1 1]).getD twoThreads

/-- The other thread cannot pass it to the kernel. -/
theorem not_checksLaw : ¬ ∀ s₀ s, Bounded s₀ → Reachable step s₀ s → ChecksLaw s := by
  intro hall
  have hr : Reachable step twoThreads mainGrown :=
    reachable_of_run (eq_some_getD (by decide +kernel))
  have hlaw := hall _ _ bounded_twoThreads hr
  have hint := (hlaw.ints 2 (by decide +kernel) (fun _ => 0) 20480).mpr (by decide +kernel)
  exact absurd hint (by decide +kernel)

end Xv6.Memory
