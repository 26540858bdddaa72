import Xv6.Exec.Access
import Xv6.Memory.Checks
import Xv6.Threads.Effect

/-!
# thread_create as one call (project2/proc.c:651-718, vm.c)

`thread_create` from the first statement to the last, without a switch in between, over the
table and the memory of one process: what it takes, and what each of its ways out leaves.
-/

namespace Xv6.Threads

open Mlfq (NPROC Slot Procstate)
open Exec (Vm Page pdx)
open Memory (pgup pages)
open Transition

/-- The fields of `struct trapframe` that are used here. -/
structure Trapframe where
  eip : Nat
  esp : Nat
  deriving DecidableEq, Repr

/-- The table, the kernel stacks and trap frames of its slots, and the page directory of one
process with the number of free pages. -/
structure System where
  table : State
  kstack : Slot → Bool
  tf : Slot → Trapframe
  vm : Vm

/-- The assignments of `thread_create` after `allocproc`. -/
def State.initThread (s : State) (i np main : Slot) : State :=
  [ThreadStage.pgdir, .sz, .parent, .mainthread, .pid, .tid, .nexttid s.nexttid,
      .setTid s.nexttid, .retval, .mainParent].foldl
    (fun s st => s.threadNext i np main true st) s

/-- A bound on the accesses that are left. -/
def CopyStage.left : CopyStage → Nat
  | .ofile fd => 3 * (NOFILE - fd) + 3
  | .filedup fd _ => 3 * (NOFILE - fd) + 2
  | .setOfile fd _ => 3 * (NOFILE - fd) + 1
  | .cwd => 3
  | .idup _ => 2
  | .setCwd _ => 1

/-- The loop over the files from one access on, without a switch. -/
def State.copyRun (p np : Slot) : Nat → State → Option CopyStage → State
  | n + 1, s, some st => copyRun p np n (s.copyNext p np st).1 (s.copyNext p np st).2
  | _, s, _ => s

def State.copyFiles (s : State) (p np : Slot) : State :=
  copyRun p np CopyStage.first.left s (some .first)

-- Give it the files of the main thread, and let it run.
def State.startThread (s : State) (i np main : Slot) : State :=
  ((s.copyFiles main np).setProc np fun r => { r with state := .runnable }).setPc i .user

namespace System

def setSz (k : System) (p : Slot) (sz : Nat) : System :=
  { k with table := k.table.setProc p fun r => { r with sz := sz } }

/-- The thread `i` returns to user space. -/
def back (k : System) (i : Slot) : System := { k with table := k.table.setPc i .user }

/-- `allocproc` with the kernel stack. -/
def allocproc (k : System) : Option Slot × System :=
  match k.table.allocproc with
  | none => (none, k)
  | some np =>
    if k.vm.free = 0 then
      (none, { k with
        table := k.table.setProc np fun r => { r with state := .unused }
        kstack := Function.update k.kstack np false })
    else
      (some np, { k with
        table := k.table.setProc np fun r => { r with state := .embryo }
        kstack := Function.update k.kstack np true
        vm := { k.vm with free := k.vm.free - 1 } })

/-- From `clearpteu` on; `np->sz` is set. -/
def finishThread (k : System) (i np main : Slot) (thread start arg : Nat) :
    Option (Int × System) :=
  let sz := (k.table.proc np).sz
  (k.vm.clearpteu (uint (sz - 2 * PGSIZE : Int))).bind fun vm =>
    let esp := uint (sz - 8 : Int)
    let k := { k with
      vm := vm
      tf := Function.update k.tf np { k.tf np with esp := esp } }.setSz main sz
    (k.vm.copyout (k.vm.page 0) esp (natLE 4 0xffffffff ++ natLE 4 arg)).bind fun r =>
      let k := { k with vm := r.2 }
      if r.1 then
        -- *thread = np->tid
        (k.vm.store thread (natLE 4 (k.table.proc np).tid)).map fun vm =>
          (0, { k with
            table := k.table.startThread i np main
            tf := Function.update k.tf np { k.tf np with eip := start }
            vm := vm })
      else some (-1, k.back i)

/-- From the check of the limit on. -/
def growThread (k : System) (i np main : Slot) (thread start arg : Nat) :
    Option (Int × System) :=
  let m := k.table.proc main
  if m.memorylimit ≠ 0 ∧ uint m.memorylimit < uint (m.sz + 2 * PGSIZE) then some (-1, k.back i)
  else
    let sz := (k.table.proc np).sz
    (k.vm.allocuvm sz (uint (sz + 2 * PGSIZE))).bind fun r =>
      let k := { k with vm := r.2 }.setSz np r.1
      if r.1 = 0 then some (-1, k.back i) else k.finishThread i np main thread start arg

/-- `thread_create`; no value is a panic or a fault of the kernel, or a null `mainthread`. -/
def threadCreate (k : System) (i : Slot) (thread start arg : Nat) : Option (Int × System) :=
  (k.table.proc i).mainthread.bind fun main =>
    match k.allocproc with
    | (none, k) => some (-1, k)
    | (some np, k) =>
      { k with
        table := k.table.initThread i np main
        tf := Function.update k.tf np (k.tf i) }.growThread i np main thread start arg

end System

/-! ### The process before and after -/

/-- Exactly the pages below the size of the main thread are mapped, and a free slot has no
kernel stack. -/
structure Tidy (k : System) (main : Slot) : Prop where
  kstack : ∀ p, (k.table.proc p).state = .unused → k.kstack p = false
  size : (k.table.proc main).sz < KERNBASE
  mapped : ∀ a, (k.vm.page a).isSome ↔ a < pgup (k.table.proc main).sz
  tables : ∀ a, (k.vm.page a).isSome → pdx a ∈ k.vm.pgdir.tables

/-- The limit allows two pages more, there is room below the kernel, and there is memory for
them, their page tables and the kernel stack. -/
def System.creatable (k : System) (main : Slot) : Prop :=
  ((k.table.proc main).memorylimit = 0 ∨
    uint ((k.table.proc main).sz + 2 * PGSIZE) ≤ uint (k.table.proc main).memorylimit) ∧
  (k.table.proc main).sz + 2 * PGSIZE < KERNBASE ∧
  1 + Vm.cost k.vm.pgdir.tables
    (pages (k.table.proc main).sz ((k.table.proc main).sz + 2 * PGSIZE)) ≤ k.vm.free

instance (k : System) (main : Slot) : Decidable (k.creatable main) :=
  inferInstanceAs (Decidable (_ ∧ _))

/-- `v'` has a new stack for a process of the size `sz`, with the argument on it. -/
structure Stacked (v : Vm) (sz arg : Nat) (v' : Vm) : Prop where
  fresh : ∀ a ∈ pages sz (sz + 2 * PGSIZE), v.page a = none
  user : ∀ a, (v'.page a).map Page.user =
    if a = sz / PGSIZE then
      if a ∈ pages sz (sz + 2 * PGSIZE) ∨ (v.page a).isSome then some false else none
    else if a ∈ pages sz (sz + 2 * PGSIZE) then some true else (v.page a).map Page.user
  mem : ∀ x, v'.mem x =
    if sz + 2 * PGSIZE - 8 ≤ x ∧ x < sz + 2 * PGSIZE then
      some ((natLE 4 0xffffffff ++ natLE 4 arg).getD (x - (sz + 2 * PGSIZE - 8)) 0)
    else if x / PGSIZE ∈ pages sz (sz + 2 * PGSIZE) then some 0
    else v.mem x
  tables : ∀ t ∈ v.pgdir.tables, t ∈ v'.pgdir.tables
  newTables : ∀ a ∈ pages sz (sz + 2 * PGSIZE), pdx a ∈ v'.pgdir.tables
  length : v'.pgdir.pages.length = v.pgdir.pages.length + 2
  free : v'.free + Vm.cost v.pgdir.tables (pages sz (sz + 2 * PGSIZE)) = v.free

/-! ### The new stack -/

section Stack

open Exec.Vm

variable {v v' : Vm} {sz arg : Nat}

theorem mem_stack {a : Nat} :
    a ∈ pages sz (sz + 2 * PGSIZE) ↔ a = pgup sz ∨ a = pgup sz + 1 := by
  have hup : pgup (sz + 2 * PGSIZE) = pgup sz + 2 := by
    unfold pgup PGSIZE
    omega
  rw [Memory.mem_pages, hup]
  omega

theorem length_stack : (pages sz (sz + 2 * PGSIZE)).length = 2 := by
  have hup : pgup (sz + 2 * PGSIZE) = pgup sz + 2 := by
    unfold pgup PGSIZE
    omega
  rw [pages, List.length_range', hup]
  omega

theorem uint_newsz (hsz : sz < KERNBASE) : uint (sz + 2 * PGSIZE) = sz + 2 * PGSIZE := by
  unfold KERNBASE at hsz
  unfold uint PGSIZE
  omega

/-- The eight bytes below the new size are on the new pages, above the one that
`clearpteu` hits. -/
theorem top_mem {x : Nat} (hlo : sz + 2 * PGSIZE - 8 ≤ x) (hhi : x < sz + 2 * PGSIZE) :
    x / PGSIZE ∈ pages sz (sz + 2 * PGSIZE) ∧ x / PGSIZE ≠ sz / PGSIZE := by
  rw [mem_stack]
  unfold pgup
  unfold PGSIZE at *
  omega

/-- `allocuvm`, `clearpteu` and `copyout` one after the other. -/
theorem stacked (arg : Nat) (page0 : Vm → Option Page)
    (hnone : ∀ a ∈ pages sz (sz + 2 * PGSIZE), v.page a = none)
    (htable : sz / PGSIZE < pgup sz → pdx (sz / PGSIZE) ∈ v.pgdir.tables)
    (hroom : sz + 2 * PGSIZE < KERNBASE)
    (hcost : cost v.pgdir.tables (pages sz (sz + 2 * PGSIZE)) ≤ v.free) :
    ∃ v1 v2 v3, v.allocuvm sz (sz + 2 * PGSIZE) = some (sz + 2 * PGSIZE, v1) ∧
      v1.clearpteu sz = some v2 ∧
      v2.copyout (page0 v2) (sz + 2 * PGSIZE - 8) (natLE 4 0xffffffff ++ natLE 4 arg) =
        some (true, v3) ∧ Stacked v sz arg v3 := by
  rcases allocuvm_cases (Nat.le_add_right sz (2 * PGSIZE)) hnone with
    ⟨-, -, v1, halloc, hext⟩ | ⟨hno, -⟩
  · have hguard : pdx (sz / PGSIZE) ∈ v1.pgdir.tables := by
      by_cases hlt : sz / PGSIZE < pgup sz
      · exact hext.tables _ (htable hlt)
      · apply hext.newTables
        rw [mem_stack]
        unfold pgup at *
        unfold PGSIZE at *
        omega
    let v2 := v1.setPage (sz / PGSIZE) fun p => { p with user := false }
    have hclear : v1.clearpteu sz = some v2 := by
      unfold clearpteu
      rw [if_pos hguard]
    have huser : ∀ a, (v2.page a).map Page.user =
        if a = sz / PGSIZE then
          if a ∈ pages sz (sz + 2 * PGSIZE) ∨ (v.page a).isSome then some false else none
        else if a ∈ pages sz (sz + 2 * PGSIZE) then some true
        else (v.page a).map Page.user := by
      intro a
      rw [page_setPage, hext.page a]
      by_cases hnew : a ∈ pages sz (sz + 2 * PGSIZE)
      · simp only [hnew, if_true, true_or]
        split_ifs <;> rfl
      · simp only [hnew, if_false, false_or]
        cases v.page a <;> split_ifs <;> simp_all
    have hmem : ∀ x, v2.mem x =
        if x / PGSIZE ∈ pages sz (sz + 2 * PGSIZE) then some 0 else v.mem x := by
      intro x
      unfold Vm.mem
      rw [page_setPage, hext.page]
      by_cases hnew : x / PGSIZE ∈ pages sz (sz + 2 * PGSIZE)
      · simp only [hnew, if_true]
        split_ifs <;> rfl
      · simp only [hnew, if_false]
        cases v.page (x / PGSIZE) <;> split_ifs <;> rfl
    have htop : sz + 2 * PGSIZE - 8 + (natLE 4 0xffffffff ++ natLE 4 arg).length =
        sz + 2 * PGSIZE := by
      simp only [List.length_append, length_natLE]
      unfold PGSIZE
      omega
    obtain ⟨v3, hcopy, hw⟩ := @copyout_spec v2 (page0 v2) (sz + 2 * PGSIZE - 8)
      (natLE 4 0xffffffff ++ natLE 4 arg) (by rw [htop]; omega)
      (by
        intro x hlo hhi
        rw [htop] at hhi
        obtain ⟨hin, hne⟩ := top_mem hlo hhi
        have hx := huser (x / PGSIZE)
        rw [if_neg hne, if_pos hin] at hx
        unfold Vm.user
        obtain ⟨p, hp, hpu⟩ := Option.map_eq_some_iff.mp hx
        rw [hp]
        exact hpu)
      (by
        intro x hlo hhi
        rw [htop] at hhi
        exact hext.newTables _ (top_mem hlo hhi).1)
    refine ⟨v1, v2, v3, halloc, hclear, hcopy, ?_⟩
    constructor
    · exact hnone
    · intro a
      rw [hw.user a, huser a]
    · intro x
      rw [hw.mem x, htop, hmem x]
    · intro t ht
      rw [hw.tables]
      exact hext.tables t ht
    · intro a ha
      rw [hw.tables]
      exact hext.newTables a ha
    · have hlen : v2.pgdir.pages.length = v1.pgdir.pages.length := by simp [v2, setPage]
      rw [hw.length, hlen, hext.length, length_stack]
    · have hfree : v2.free = v1.free := rfl
      rw [hw.free, hfree]
      exact hext.free
  · exact absurd ⟨hroom, hcost⟩ hno

end Stack

/-! ### The loop over the files -/

section Copy

variable {s : State} {p np : Slot}

theorem left_nextFd (fd : Fin NOFILE) : (State.nextFd fd).left + 1 ≤ 3 * (NOFILE - fd) + 1 := by
  have hlt := fd.isLt
  unfold State.nextFd
  split
  · dsimp only [CopyStage.left]
    omega
  · dsimp only [CopyStage.left]
    omega

theorem left_copyNext {st st' : CopyStage} (h : (s.copyNext p np st).2 = some st') :
    st'.left < st.left := by
  have hnext := left_nextFd
  cases st with
  | ofile fd =>
    unfold State.copyNext at h
    dsimp only at h
    split at h
    · cases h
      exact Nat.lt_succ_self _
    · cases h
      have hfd := hnext fd
      dsimp only [CopyStage.left] at hfd ⊢
      omega
  | filedup fd f =>
    cases h
    exact Nat.lt_succ_self _
  | setOfile fd f =>
    cases h
    exact hnext fd
  | cwd =>
    unfold State.copyNext at h
    dsimp only at h
    split at h
    · cases h
      exact Nat.lt_succ_self _
    · cases h
      dsimp only [CopyStage.left]
      omega
  | idup ip =>
    cases h
    exact Nat.lt_succ_self _
  | setCwd ip => cases h

/-- More steps than are left change nothing. -/
theorem copyRun_enough {n m : Nat} {st : Option CopyStage}
    (hn : ∀ st', st = some st' → st'.left ≤ n) (hm : ∀ st', st = some st' → st'.left ≤ m) :
    State.copyRun p np n s st = State.copyRun p np m s st := by
  have hpos : ∀ st : CopyStage, 0 < st.left := fun st => by
    cases st <;> exact Nat.succ_pos _
  induction n generalizing s m st with
  | zero =>
    cases st with
    | none => cases m <;> rfl
    | some st => exact absurd (hn st rfl) (hpos st).not_ge
  | succ n ih =>
    cases st with
    | none => cases m <;> rfl
    | some st =>
      cases m with
      | zero => exact absurd (hm st rfl) (hpos st).not_ge
      | succ m =>
        refine ih (fun st' hst' => ?_) fun st' hst' => ?_
        · exact Nat.le_of_lt_succ ((left_copyNext hst').trans_le (hn st rfl))
        · exact Nat.le_of_lt_succ ((left_copyNext hst').trans_le (hm st rfl))

theorem only_copyRun (p np : Slot) (n : Nat) (s : State) (st : Option CopyStage) :
    OnlyFiles np s (State.copyRun p np n s st) := by
  induction n generalizing s st with
  | zero => exact .refl np s
  | succ n ih =>
    cases st with
    | none => exact .refl np s
    | some st => exact (OnlyFiles.copyNext s p np st).trans (ih _ _)

theorem only_copyFiles (s : State) (p np : Slot) : OnlyFiles np s (s.copyFiles p np) :=
  only_copyRun p np _ s _

end Copy

/-! ### The new slot -/

section initThread

variable (s : State) (i np main q : Slot)

theorem initThread_other (hq : q ≠ np) : (s.initThread i np main).proc q = s.proc q := by
  simp [State.initThread, State.threadNext, State.setProc, State.setPc, hq]

theorem initThread_sz : ((s.initThread i np main).proc np).sz = (s.proc main).sz := by
  by_cases h : main = np
  · simp [State.initThread, State.threadNext, State.setProc, State.setPc, h]
  · simp [State.initThread, State.threadNext, State.setProc, State.setPc, h]

theorem initThread_main :
    ((s.initThread i np main).proc main).sz = (s.proc main).sz ∧
      ((s.initThread i np main).proc main).memorylimit = (s.proc main).memorylimit := by
  by_cases h : main = np
  · simp [State.initThread, State.threadNext, State.setProc, State.setPc, h]
  · simp [State.initThread, State.threadNext, State.setProc, State.setPc, h]

theorem initThread_np :
    ((s.initThread i np main).proc np).state = (s.proc np).state ∧
      ((s.initThread i np main).proc np).tid = uint s.nexttid ∧
      ((s.initThread i np main).proc np).mainthread = some main := by
  simp [State.initThread, State.threadNext, State.setProc, State.setPc]

end initThread

/-! ### What thread_create does -/

/-- The table before the stack is made. -/
def State.takeSlot (s : State) (i np main : Slot) : State :=
  (s.setProc np fun r => { r with state := .embryo }).initThread i np main

-- np->sz = mainthread->sz = sz
def State.setSizes (s : State) (np main : Slot) (sz : Nat) : State :=
  (s.setProc np fun r => { r with sz := sz }).setProc main fun r => { r with sz := sz }

/-- A call that failed has kept the slot `np`, and changed nothing else. -/
structure Leaked (k : System) (np : Slot) (k' : System) : Prop where
  proc : ∀ q, q ≠ np → k'.table.proc q = k.table.proc q
  kstack : ∀ q, q ≠ np → k'.kstack q = k.kstack q
  embryo : (k'.table.proc np).state = .embryo
  size : (k'.table.proc np).sz < KERNBASE
  vm : Vm.Kept k.vm k'.vm

/-- The results of `thread_create` by the thread `i`. -/
inductive Created (k : System) (i main : Slot) (thread start arg : Nat) :
    Option (Int × System) → Prop where
  | noSlot (h : k.table.allocproc = none) : Created k i main thread start arg (some (-1, k))
  | noStack (np : Slot) (h : k.table.allocproc = some np) (hfree : k.vm.free = 0) :
      Created k i main thread start arg (some (-1, { k with
        table := k.table.setProc np fun r => { r with state := .unused }
        kstack := Function.update k.kstack np false }))
  | fails (np : Slot) (k' : System) (h : k.table.allocproc = some np) (hfree : k.vm.free ≠ 0)
      (hno : ¬ k.creatable main) (hleft : Leaked k np k') :
      Created k i main thread start arg (some (-1, k'))
  | works (np : Slot) (vm : Vm) (h : k.table.allocproc = some np) (hfree : k.vm.free ≠ 0)
      (hok : k.creatable main)
      (hvm : Stacked { k.vm with free := k.vm.free - 1 } (k.table.proc main).sz arg vm) :
      Created k i main thread start arg
        ((vm.store thread (natLE 4 (uint k.table.nexttid))).map fun vm =>
          (0, {
            table := ((k.table.takeSlot i np main).setSizes np main
              ((k.table.proc main).sz + 2 * PGSIZE)).startThread i np main
            kstack := Function.update k.kstack np true
            tf := Function.update k.tf np ⟨start, (k.table.proc main).sz + 2 * PGSIZE - 8⟩
            vm := vm }))

section Create

variable {k k' : System} {i np main : Slot} {thread start arg : Nat}

theorem takeSlot_sz (s : State) (i np main : Slot) :
    ((s.takeSlot i np main).proc np).sz = (s.proc main).sz := by
  unfold State.takeSlot
  rw [initThread_sz, State.setProc_proc]
  split_ifs <;> rfl

theorem takeSlot_main (s : State) (i np main : Slot) :
    ((s.takeSlot i np main).proc main).sz = (s.proc main).sz ∧
      ((s.takeSlot i np main).proc main).memorylimit = (s.proc main).memorylimit := by
  have hm := initThread_main (s.setProc np fun r => { r with state := .embryo }) i np main
  rw [State.setProc_proc] at hm
  unfold State.takeSlot
  rw [hm.1, hm.2]
  split_ifs
  · exact ⟨rfl, rfl⟩
  · exact ⟨rfl, rfl⟩

theorem takeSlot_np (s : State) (i np main : Slot) :
    ((s.takeSlot i np main).proc np).state = .embryo ∧
      ((s.takeSlot i np main).proc np).tid = uint s.nexttid := by
  obtain ⟨hstate, htid, -⟩ :=
    initThread_np (s.setProc np fun r => { r with state := .embryo }) i np main
  unfold State.takeSlot
  refine ⟨?_, htid⟩
  rw [hstate, State.setProc_proc_self]

theorem Tidy.fresh (h : Tidy k main) :
    ∀ a ∈ pages (k.table.proc main).sz ((k.table.proc main).sz + 2 * PGSIZE),
      k.vm.page a = none := by
  intro a ha
  have hlo := (Memory.mem_pages.mp ha).1
  by_contra hc
  have hhi := (h.mapped a).mp (Option.isSome_iff_ne_none.mpr hc)
  omega

theorem finishThread_spec {v v2 v3 : Vm} {t : State} {sz : Nat} {kstack : Slot → Bool}
    {tf : Slot → Trapframe} (hsz : sz + 2 * PGSIZE < KERNBASE)
    (hnp : (t.proc np).sz = sz + 2 * PGSIZE)
    (hclear : v.clearpteu sz = some v2)
    (hcopy : v2.copyout (v2.page 0) (sz + 2 * PGSIZE - 8) (natLE 4 0xffffffff ++ natLE 4 arg) =
      some (true, v3)) :
    (System.mk t kstack tf v).finishThread i np main thread start arg =
      (v3.store thread (natLE 4 ((t.proc np).tid))).map fun vm =>
        (0, {
          table := (t.setProc main fun r => { r with sz := sz + 2 * PGSIZE }).startThread i np main
          kstack := kstack
          tf := Function.update tf np ⟨start, sz + 2 * PGSIZE - 8⟩
          vm := vm }) := by
  have hguard : uint ((sz + 2 * PGSIZE : Nat) - 2 * PGSIZE : Int) = sz := by
    unfold KERNBASE at hsz
    unfold uint
    omega
  have hesp : uint ((sz + 2 * PGSIZE : Nat) - 8 : Int) = sz + 2 * PGSIZE - 8 := by
    unfold KERNBASE at hsz
    unfold uint
    unfold PGSIZE at *
    omega
  have htid : ((t.setProc main fun r => { r with sz := sz + 2 * PGSIZE }).proc np).tid =
      (t.proc np).tid := by
    rw [State.setProc_proc]
    split_ifs <;> rfl
  unfold System.finishThread
  simp only [hnp, hguard, hclear, Option.bind_some, System.setSz, hesp, hcopy, if_true, htid,
    Function.update_idem, Function.update_self]

/-- The slot that a failure after `allocproc` leaves behind. -/
theorem growThread_fails (i : Slot) (thread start arg : Nat) (kstack : Slot → Bool)
    (tf : Slot → Trapframe) {v : Vm} {t : State} {sz : Nat} (hmain : (t.proc main).sz = sz)
    (hnp : (t.proc np).sz = sz)
    (hembryo : (t.proc np).state = .embryo) (hsz : sz < KERNBASE)
    (hnone : ∀ a ∈ pages sz (sz + 2 * PGSIZE), v.page a = none)
    (hno : ¬ (((t.proc main).memorylimit = 0 ∨
        uint (sz + 2 * PGSIZE) ≤ uint (t.proc main).memorylimit) ∧
      sz + 2 * PGSIZE < KERNBASE ∧
        Vm.cost v.pgdir.tables (pages sz (sz + 2 * PGSIZE)) ≤ v.free)) :
    ∃ k', (System.mk t kstack tf v).growThread i np main thread start arg = some (-1, k') ∧
      Leaked ⟨t, kstack, tf, v⟩ np k' := by
  unfold System.growThread
  simp only [hmain, hnp]
  by_cases hlimit : (t.proc main).memorylimit ≠ 0 ∧
      uint (t.proc main).memorylimit < uint (sz + 2 * PGSIZE)
  · rw [if_pos hlimit]
    refine ⟨_, rfl, fun _ _ => rfl, fun _ _ => rfl, hembryo, ?_, fun _ => rfl, fun _ ht => ht⟩
    rw [System.back, State.setPc_proc, hnp]
    exact hsz
  · rw [if_neg hlimit]
    have hnew := uint_newsz hsz
    have hlim : (t.proc main).memorylimit = 0 ∨
        uint (sz + 2 * PGSIZE) ≤ uint (t.proc main).memorylimit := by
      by_cases h0 : (t.proc main).memorylimit = 0
      · exact Or.inl h0
      · exact Or.inr (Nat.le_of_not_lt fun hlt => hlimit ⟨h0, hlt⟩)
    rw [hnew]
    rcases Vm.allocuvm_cases (Nat.le_add_right sz (2 * PGSIZE)) hnone with
      ⟨hroom, hcost, -⟩ | ⟨-, v', halloc, hkept⟩
    · exact absurd ⟨hlim, hroom, hcost⟩ hno
    · rw [halloc, Option.bind_some]
      refine ⟨_, if_pos rfl, ?_, fun _ _ => rfl, ?_, ?_, hkept⟩
      · intro q hq
        simp only [System.back, System.setSz, State.setPc_proc]
        rw [State.setProc_proc_ne _ _ _ _ hq]
      · simp only [System.back, System.setSz, State.setPc_proc, State.setProc_proc_self]
        exact hembryo
      · simp only [System.back, System.setSz, State.setPc_proc, State.setProc_proc_self]
        exact Nat.lt_of_le_of_lt (Nat.zero_le _) hsz

theorem created (thread start arg : Nat) (h : Tidy k main)
    (hmain : (k.table.proc i).mainthread = some main) :
    Created k i main thread start arg (k.threadCreate i thread start arg) := by
  unfold System.threadCreate System.allocproc
  rw [hmain, Option.bind_some]
  cases hslot : k.table.allocproc with
  | none => exact .noSlot hslot
  | some np =>
    dsimp only
    by_cases hfree : k.vm.free = 0
    · rw [if_pos hfree]
      exact .noStack np hslot hfree
    · rw [if_neg hfree]
      dsimp only
      obtain ⟨hsz, hlimit⟩ := takeSlot_main k.table i np main
      have hnp := takeSlot_sz k.table i np main
      obtain ⟨hembryo, htid⟩ := takeSlot_np k.table i np main
      unfold State.takeSlot at hsz hlimit hnp hembryo htid
      by_cases hok : k.creatable main
      · obtain ⟨hlim, hroom, hcost⟩ := hok
        have hnew := uint_newsz h.size
        obtain ⟨v1, v2, v3, halloc, hclear, hcopy, hstacked⟩ :=
          stacked arg (fun v => v.page 0) (v := { k.vm with free := k.vm.free - 1 }) h.fresh
            (fun hlt => h.tables _ ((h.mapped _).mpr hlt)) hroom (by dsimp only; omega)
        have hwork : Created k i main thread start arg _ :=
          .works np v3 hslot hfree ⟨hlim, hroom, hcost⟩ hstacked
        unfold System.growThread
        simp only [hsz, hlimit, hnp]
        rw [if_neg (by omega), hnew, halloc, Option.bind_some, if_neg (by unfold PGSIZE; omega)]
        rw [System.setSz, finishThread_spec hroom (by rw [State.setProc_proc_self]) hclear hcopy,
          State.setProc_proc_self, htid, Function.update_idem]
        exact hwork
      · obtain ⟨k', hk', hleft⟩ := growThread_fails i thread start arg
          (Function.update k.kstack np true) (Function.update k.tf np (k.tf i))
          (v := { k.vm with free := k.vm.free - 1 }) hsz hnp hembryo h.size h.fresh (by
            rw [hlimit]
            intro hc
            obtain ⟨hlim, hroom, hcost⟩ := hc
            dsimp only at hcost
            exact hok ⟨hlim, hroom, by omega⟩)
        rw [hk']
        refine .fails np k' hslot hfree hok ⟨?_, ?_, hleft.embryo, hleft.size, ?_⟩
        · intro q hq
          rw [hleft.proc q hq, initThread_other _ _ _ _ _ hq, State.setProc_proc_ne _ _ _ _ hq]
        · intro q hq
          rw [hleft.kstack q hq]
          exact Function.update_of_ne hq _ _
        · exact ⟨hleft.vm.page, hleft.vm.tables⟩

end Create

/-! ### A process after sbrk -/

/-- `n` pages from address 0 on. -/
def heap : Nat → List (Nat × Page)
  | 0 => []
  | n + 1 => (n, ⟨true, fun _ => 0⟩) :: heap n

theorem lookup_heap (n a : Nat) : ((heap n).lookup a).isSome ↔ a < n := by
  induction n with
  | zero => simp [heap]
  | succ n ih =>
    rw [heap, Vm.lookup_cons]
    split_ifs with ha
    · simp [ha]
    · rw [ih]
      omega

/-- The process 1 in slot 1, of one page, has called `sbrk(n)` and has the memory limit
`limit`. -/
def grownBy (n limit : Int) : State :=
  (run step userinit (.sched 0 :: forkSteps 0 1 0 ++
    [.yield 0, .sched 1, .growproc 1 n true, .setmemorylimit 1 1 limit])).getD userinit

def oneProcess (n limit : Int) (free : Nat) : System where
  table := grownBy n limit
  kstack := fun p => p = 0 ∨ p = 1
  tf := fun _ => ⟨0, 0⟩
  vm := ⟨⟨[0], heap (pgup (PGSIZE + n.toNat))⟩, free⟩

theorem tidy_oneProcess {n limit : Int} (free : Nat)
    (hsz : ((grownBy n limit).proc 1).sz = PGSIZE + n.toNat)
    (hn : PGSIZE + n.toNat ≤ 1024 * PGSIZE)
    (hused : ∀ p, ((grownBy n limit).proc p).state = .unused → ¬ (p = 0 ∨ p = 1)) :
    Tidy (oneProcess n limit free) 1 := by
  have hpages : ∀ a, ((oneProcess n limit free).vm.page a).isSome ↔
      a < pgup (PGSIZE + n.toNat) := fun a => lookup_heap _ a
  constructor
  · intro p hp
    exact decide_eq_false (hused p hp)
  · change ((grownBy n limit).proc 1).sz < KERNBASE
    rw [hsz]
    unfold KERNBASE
    unfold PGSIZE at *
    omega
  · intro a
    change _ ↔ a < pgup ((grownBy n limit).proc 1).sz
    rw [hpages, hsz]
  · intro a ha
    have hlt := (hpages a).mp ha
    have hzero : pdx a = 0 := by
      unfold pgup at hlt
      unfold PGSIZE at *
      unfold pdx
      omega
    rw [hzero]
    exact List.mem_singleton.mpr rfl

end Xv6.Threads
