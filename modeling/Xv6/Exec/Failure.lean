import Xv6.Exec.Image
import Xv6.Threads.Exec

/-!
# exec that fails (project2/exec.c:109-117, 223-231)

`exec` and `exec2` with what they take and give back: the log operation, the reference to
the inode and its lock, the pages of the new directory. Up to `cleanforexec` a failure
undoes everything; the other threads that `cleanforexec` has ended do not come back.
-/

namespace Xv6.Exec
open Mlfq (NPROC Slot Procstate)
open Threads (PGSIZE KERNBASE uint)

/-- `struct proc`, with the fields that only `exec` uses of those shown here. -/
structure Proc extends Threads.Proc where
  kstack : Option Nat
  name : List Byte
  stacksize : Nat
  eip : Nat
  esp : Nat

/-- What `exec` reads and writes. A page directory is known by a number, as in the table of
threads; `namei` is what a path leads to from a current directory. -/
structure Kernel where
  proc : Slot → Proc
  vm : Nat → Option Pgdir
  free : Nat
  namei : Option Nat → List Byte → Option Nat
  inode : Nat → Inode
  iref : Nat → Nat
  locked : Nat → Bool
  outstanding : Int

/-- `cleanthread` of a ZOMBIE. -/
def Proc.clean (r : Proc) : Proc := { r with toProc := r.toProc.clean, kstack := none, name := [] }

/-- The name for debugging: the last element of the path, cut off by `safestrcpy`. -/
def progName (path : List Byte) : List Byte :=
  ((path.reverse.takeWhile fun c => c ≠ 47).reverse).take 15

namespace Kernel

def beginOp (k : Kernel) : Kernel := { k with outstanding := k.outstanding + 1 }

def endOp (k : Kernel) : Kernel := { k with outstanding := k.outstanding - 1 }

/-- The reference that `namei` returns. -/
def iget (k : Kernel) (n : Nat) : Kernel :=
  { k with iref := Function.update k.iref n (k.iref n + 1) }

/-- `ilock`; no value means that the caller sleeps. -/
def ilock (k : Kernel) (n : Nat) : Option Kernel :=
  if k.locked n then none else some { k with locked := Function.update k.locked n true }

def iunlockput (k : Kernel) (n : Nat) : Kernel :=
  { k with
    locked := Function.update k.locked n false
    iref := Function.update k.iref n (k.iref n - 1) }

/-- The page 0 of the process that runs. -/
def page0 (k : Kernel) (i : Slot) : Option Page :=
  ((k.proc i).pgdir.bind k.vm).bind fun pd => pd.pages.lookup 0

/-- `p->state = ZOMBIE` and `cleanthread(p)`; no value is a panic of `kfree`, or a missing
page directory. -/
def cleanthread (k : Kernel) (p : Slot) : Option Kernel :=
  let r := k.proc p
  r.kstack.bind fun _ =>
    let k := { k with free := k.free + 1 }
    let newsz := uint (r.sz + 2 * PGSIZE)
    -- deallocuvm(p->pgdir, p->sz, p->sz + 2*PGSIZE)
    let dealloc :=
      if r.sz ≤ newsz then some k
      else
        r.pgdir.bind fun pd =>
          (k.vm pd).map fun d =>
            let v := ((⟨d, k.free⟩ : Vm).deallocuvm r.sz newsz).2
            { k with vm := Function.update k.vm pd (some v.pgdir), free := v.free }
    dealloc.map fun k => { k with proc := Function.update k.proc p r.clean }

/-- One round of the loop of `cleanforexec`. -/
def cleanSlot (i : Slot) (k : Kernel) (p : Slot) : Option Kernel :=
  if (k.proc p).pid = (k.proc i).pid ∧ p ≠ i then k.cleanthread p else some k

def cleanforexec (k : Kernel) (i : Slot) : Option Kernel :=
  if (k.proc i).tid = 0 then some k else (List.finRange NPROC).foldlM (cleanSlot i) k

/-- Commit to the user image, in the page directory `pd`, and free the old one. -/
def commit (k : Kernel) (i : Slot) (path : List Byte) (elf : Elfhdr) (sz sp stacksize : Nat)
    (v : Vm) (pd : Nat) : Option Kernel :=
  (k.proc i).kstack.bind fun _ =>
    (k.proc i).pgdir.bind fun oldpgdir =>
      (k.vm oldpgdir).map fun d =>
        { k with
          proc := Function.update k.proc i
            { k.proc i with
              name := progName path, pgdir := some pd, sz := sz, eip := elf.entry, esp := sp,
              stacksize := stacksize }
          vm := Function.update (Function.update k.vm pd (some v.pgdir)) oldpgdir none
          free := (⟨d, v.free⟩ : Vm).freevm }

/-- `exec` and `exec2`; `valid` says that `stacksize` passes the check of `exec2`, and `pd`
is the page that `setupkvm` gets for the directory. -/
def image (k : Kernel) (i : Slot) (path : List Byte) (argv : List (List Byte)) (valid : Bool)
    (stacksize pd : Nat) : Option (Int × Kernel) :=
  let k := k.beginOp
  match k.namei (k.proc i).cwd path with
  | none => some (-1, k.endOp)
  | some n =>
    ((k.iget n).ilock n).bind fun k =>
      if !valid then some (-1, (k.iunlockput n).endOp)
      else
        (loadImage (k.inode n) k.free).bind fun
          | .error free => some (-1, ({ k with free := free }.iunlockput n).endOp)
          | .ok (elf, sz, v) =>
            ((({ k with free := v.free }.iunlockput n).endOp).cleanforexec i).bind fun k =>
              ((⟨v.pgdir, k.free⟩ : Vm).buildStack (k.page0 i) sz stacksize argv).bind fun
                | (none, v) => some (-1, { k with free := v.freevm })
                | (some (sz, sp), v) =>
                  (k.commit i path elf sz sp stacksize v pd).map fun k => (0, k)

def exec (k : Kernel) (i : Slot) (path : List Byte) (argv : List (List Byte)) (pd : Nat) :
    Option (Int × Kernel) := k.image i path argv true 1 pd

def exec2 (k : Kernel) (i : Slot) (path : List Byte) (argv : List (List Byte)) (stacksize : Int)
    (pd : Nat) : Option (Int × Kernel) :=
  k.image i path argv (0 < stacksize ∧ stacksize ≤ 100) stacksize.toNat pd

/-! ### What a failure leaves -/

/-- The path leads to a program that memory is enough to load. -/
def loads (k : Kernel) (i : Slot) (path : List Byte) : Bool :=
  (k.namei (k.proc i).cwd path).any fun n =>
    match loadImage (k.inode n) k.free with
    | some (.ok _) => true
    | _ => false

/-- The thread is the main thread or the only one, or `exec` does not get as far as
`cleanforexec`. -/
def spared (k : Kernel) (i : Slot) (path : List Byte) (valid : Bool) : Prop :=
  (k.proc i).tid = 0 ∨ (∀ q, q ≠ i → (k.proc q).pid ≠ (k.proc i).pid) ∨
    (valid && k.loads i path) = false

instance (k : Kernel) (i : Slot) (path : List Byte) (valid : Bool) :
    Decidable (k.spared i path valid) := inferInstanceAs (Decidable (_ ∨ _ ∨ _))

/-! ### What is given back -/

variable {k k' : Kernel} {i : Slot}

theorem endOp_beginOp (k : Kernel) : k.beginOp.endOp = k := by
  simp [beginOp, endOp]

/-- The lock, the reference and the operation. -/
theorem release_take (free : Nat) {n : Nat} (h : (k.beginOp.iget n).ilock n = some k') :
    k'.inode = k.inode ∧ k'.free = k.free ∧
      ({ k' with free := free }.iunlockput n).endOp = { k with free := free } := by
  unfold ilock at h
  split_ifs at h with hl
  cases h
  have hlocked : k.locked n = false := by simpa [iget, beginOp] using hl
  refine ⟨rfl, rfl, ?_⟩
  have hlock : Function.update (Function.update k.locked n true) n false = k.locked := by
    rw [Function.update_idem, ← hlocked, Function.update_eq_self]
  have href : Function.update (Function.update k.iref n (k.iref n + 1)) n (k.iref n) = k.iref := by
    rw [Function.update_idem, Function.update_eq_self]
  simp [iunlockput, endOp, iget, beginOp, hlock, href]

theorem release_take_eq {n : Nat} (h : (k.beginOp.iget n).ilock n = some k') :
    (k'.iunlockput n).endOp = k := by
  obtain ⟨-, hfree, hrel⟩ := release_take k'.free h
  rw [hfree] at hrel
  have hself : { k' with free := k.free } = k' := by rw [← hfree]
  rw [hself] at hrel
  exact hrel

/-! ### The threads that cleanforexec ends -/

theorem cleanthread_proc {p : Slot} (h : k.cleanthread p = some k') :
    (k.proc p).kstack ≠ none ∧ k'.proc = Function.update k.proc p (k.proc p).clean := by
  obtain ⟨ks, hks, h⟩ := Option.bind_eq_some_iff.mp h
  obtain ⟨w, hw, h⟩ := Option.map_eq_some_iff.mp h
  subst h
  refine ⟨by rw [hks]; exact Option.some_ne_none ks, ?_⟩
  have hproc : w.proc = k.proc := by
    split_ifs at hw
    · cases hw
      rfl
    · obtain ⟨pd, -, hw⟩ := Option.bind_eq_some_iff.mp hw
      obtain ⟨d, -, hw⟩ := Option.map_eq_some_iff.mp hw
      subst hw
      rfl
  rw [hproc]

theorem cleanSlot_proc {p : Slot} (h : cleanSlot i k p = some k') (q : Slot) :
    (q = p ∧ (k.proc q).pid = (k.proc i).pid ∧ q ≠ i → (k.proc q).kstack ≠ none) ∧
    k'.proc q = if q = p ∧ (k.proc q).pid = (k.proc i).pid ∧ q ≠ i then (k.proc q).clean
      else k.proc q := by
  unfold cleanSlot at h
  split_ifs at h with hp
  · obtain ⟨hks, hproc⟩ := cleanthread_proc h
    rw [hproc]
    by_cases hqp : q = p
    · subst hqp
      exact ⟨fun _ => hks, by rw [Function.update_self, if_pos ⟨rfl, hp⟩]⟩
    · exact ⟨fun hq => absurd hq.1 hqp,
        by rw [Function.update_of_ne hqp, if_neg fun hq => hqp hq.1]⟩
  · cases h
    have hno : ¬ (q = p ∧ (k.proc q).pid = (k.proc i).pid ∧ q ≠ i) := by
      rintro ⟨rfl, hq⟩
      exact hp hq
    exact ⟨fun hq => absurd hq hno, by rw [if_neg hno]⟩

theorem cleanSlots_proc {ps : List Slot} (hnd : ps.Nodup)
    (h : ps.foldlM (cleanSlot i) k = some k') (q : Slot) :
    (q ∈ ps ∧ (k.proc q).pid = (k.proc i).pid ∧ q ≠ i → (k.proc q).kstack ≠ none) ∧
    k'.proc q = if q ∈ ps ∧ (k.proc q).pid = (k.proc i).pid ∧ q ≠ i then (k.proc q).clean
      else k.proc q := by
  induction ps generalizing k with
  | nil =>
    cases h
    simp
  | cons p ps ih =>
    rw [List.foldlM_cons] at h
    obtain ⟨w, hw, h⟩ := Option.bind_eq_some_iff.mp h
    obtain ⟨hp, hnd⟩ := List.nodup_cons.mp hnd
    obtain ⟨hks, hq⟩ := cleanSlot_proc hw q
    have hi : w.proc i = k.proc i := by
      rw [(cleanSlot_proc hw i).2, if_neg fun hi => hi.2.2 rfl]
    obtain ⟨hks', hq'⟩ := ih hnd h
    by_cases hqp : q = p
    · subst hqp
      rw [hq', if_neg fun hc => hp hc.1, hq]
      simp only [List.mem_cons, true_or, true_and] at hks ⊢
      exact ⟨hks, trivial⟩
    · rw [if_neg fun hc => hqp hc.1] at hq
      rw [hq, hi] at hks' hq'
      simp only [List.mem_cons, hqp, false_or]
      exact ⟨hks', hq'⟩

/-- What `cleanforexec` does to a slot. -/
theorem cleanforexec_proc (h : k.cleanforexec i = some k') (htid : (k.proc i).tid ≠ 0)
    (q : Slot) :
    ((k.proc q).pid = (k.proc i).pid ∧ q ≠ i → (k.proc q).kstack ≠ none) ∧
    k'.proc q = if (k.proc q).pid = (k.proc i).pid ∧ q ≠ i then (k.proc q).clean
      else k.proc q := by
  unfold cleanforexec at h
  rw [if_neg htid] at h
  simpa [List.mem_finRange] using cleanSlots_proc (List.nodup_finRange NPROC) h q

/-- It does nothing in a main thread, or in a thread without siblings. -/
theorem cleanforexec_alone
    (h : (k.proc i).tid = 0 ∨ ∀ q, q ≠ i → (k.proc q).pid ≠ (k.proc i).pid) :
    k.cleanforexec i = some k := by
  unfold cleanforexec
  split_ifs with htid
  · rfl
  · have hslot : ∀ q, cleanSlot i k q = some k := by
      intro q
      unfold cleanSlot
      rw [if_neg fun hq => (h.resolve_left htid) q hq.2 hq.1]
    have hslots : ∀ ps : List Slot, ps.foldlM (cleanSlot i) k = some k := by
      intro ps
      induction ps with
      | nil => rfl
      | cons q ps ih =>
        rw [List.foldlM_cons, hslot]
        exact ih
    exact hslots _

/-! ### The law -/

/-- A failure before `cleanforexec`. -/
theorem image_unloaded {path : List Byte} {valid : Bool} (hk : k' = k)
    (h : (valid && k.loads i path) = false) : k' = k ↔ k.spared i path valid :=
  ⟨fun _ => Or.inr (Or.inr h), fun _ => hk⟩

/-- `exec` that returns -1 leaves everything as it was, exactly where it is spared. -/
theorem image_fails {path : List Byte} {argv : List (List Byte)} {valid : Bool}
    {stacksize pd : Nat} (h : k.image i path argv valid stacksize pd = some (-1, k')) :
    k' = k ↔ k.spared i path valid := by
  unfold image at h
  dsimp only at h
  cases hn : k.namei (k.proc i).cwd path with
  | none =>
    rw [show k.beginOp.namei (k.beginOp.proc i).cwd path = none from hn] at h
    cases h
    exact image_unloaded (endOp_beginOp k) (by simp [loads, hn])
  | some n =>
    rw [show k.beginOp.namei (k.beginOp.proc i).cwd path = some n from hn] at h
    obtain ⟨k2, hk2, h⟩ := Option.bind_eq_some_iff.mp h
    obtain ⟨hinode, hfree, -⟩ := release_take 0 hk2
    cases valid with
    | false =>
      cases h
      exact image_unloaded (release_take_eq hk2) rfl
    | true =>
      obtain ⟨r, hr, h⟩ := Option.bind_eq_some_iff.mp h
      rw [hinode, hfree] at hr
      obtain ⟨herror, hok⟩ := loadImage_free hr
      cases r with
      | error free =>
        cases h
        refine image_unloaded ?_ (by simp [loads, hn, hr])
        rw [herror free rfl, (release_take _ hk2).2.2]
      | ok r =>
        obtain ⟨elf, sz, v⟩ := r
        dsimp only at h
        rw [(release_take _ hk2).2.2] at h
        obtain ⟨k4, hk4, h⟩ := Option.bind_eq_some_iff.mp h
        obtain ⟨⟨r, w⟩, hw, h⟩ := Option.bind_eq_some_iff.mp h
        cases r with
        | some r =>
          obtain ⟨k5, -, h⟩ := Option.map_eq_some_iff.mp h
          exact absurd (congrArg Prod.fst h) (by decide : (0 : Int) ≠ -1)
        | none =>
          cases h
          have hloads : k.loads i path = true := by simp [loads, hn, hr]
          constructor
          · intro hk
            by_contra hno
            unfold spared at hno
            rw [hloads] at hno
            simp only [Bool.true_and, Bool.true_eq_false, or_false, not_or, not_forall,
              not_not] at hno
            obtain ⟨htid, q, hqi, hpid⟩ := hno
            -- the sibling has lost its kernel stack
            obtain ⟨hks, hq⟩ := cleanforexec_proc hk4 htid q
            rw [if_pos ⟨hpid, hqi⟩] at hq
            refine hks ⟨hpid, hqi⟩ ?_
            have hproc : k4.proc q = k.proc q := congrFun (congrArg Kernel.proc hk) q
            have hnone : (k4.proc q).kstack = none := by rw [hq]; rfl
            rw [hproc] at hnone
            exact hnone
          · intro hs
            have halone : (k.proc i).tid = 0 ∨ ∀ q, q ≠ i → (k.proc q).pid ≠ (k.proc i).pid := by
              rcases hs with hs | hs | hs
              · exact Or.inl hs
              · exact Or.inr hs
              · rw [hloads] at hs
                cases hs
            have hk : { k with free := v.free }.cleanforexec i = some { k with free := v.free } :=
              cleanforexec_alone halone
            rw [hk] at hk4
            cases hk4
            obtain ⟨htotal, hbelow⟩ := hok elf sz v rfl
            have hback := (Vm.conserves_buildStack hw).freevm_eq hbelow
            rw [show w.freevm = k.free from hback.trans htotal]

theorem exec_fails (k k' : Kernel) (i : Slot) (path : List Byte) (argv : List (List Byte))
    (stacksize : Int) (pd : Nat) :
    (k.exec i path argv pd = some (-1, k') → (k' = k ↔ k.spared i path true)) ∧
    (k.exec2 i path argv stacksize pd = some (-1, k') →
      (k' = k ↔ k.spared i path (0 < stacksize ∧ stacksize ≤ 100))) :=
  ⟨fun h => image_fails h, fun h => image_fails h⟩

-- A program of one page.
def program : List Byte :=
  natLE 4 ELF_MAGIC ++ List.replicate 20 0 ++ natLE 4 0 ++ natLE 4 52 ++ List.replicate 12 0 ++
    natLE 2 1 ++ List.replicate 6 0 ++
    [ELF_PROG_LOAD, 84, 0, 0, 0, 100, 0, PGSIZE].flatMap (natLE 4)

/-- Process 1 has the threads 1 and 2, and there is one program. -/
def twoThreads : Kernel where
  proc q :=
    { Threads.threadCalls.proc q with
      kstack := if (Threads.threadCalls.proc q).state = .unused then none else some 0
      name := [], stacksize := 1, eip := 0, esp := 0 }
  vm pd := if Threads.threadCalls.vm pd then some ⟨[0], [(0, ⟨true, fun _ => 0⟩)]⟩ else none
  free := 100
  namei _ path := if path = [97] then some 5 else none
  inode _ := ⟨2, program, fun _ => none⟩
  iref _ := 0
  locked _ := false
  outstanding := 0

-- An argument that is longer than the stack.
def longArg : List (List Byte) := [List.replicate 5000 97]

theorem fst_of_map {r : Option (Int × Kernel)} {n : Int} (h : r.map Prod.fst = some n) :
    ∃ k', r = some (n, k') := by
  obtain ⟨⟨m, k'⟩, hr, hm⟩ := Option.map_eq_some_iff.mp h
  subst hm
  exact ⟨k', hr⟩

/-- The main thread fails with the long argument, and the other thread with a bad size. -/
theorem exec_fails_spared :
    twoThreads.exec 1 [97] longArg 9 = some (-1, twoThreads) ∧
      twoThreads.exec2 2 [97] [] 0 9 = some (-1, twoThreads) := by
  obtain ⟨k1, h1⟩ := fst_of_map (r := twoThreads.exec 1 [97] longArg 9) (n := -1)
    (by decide +kernel)
  obtain ⟨k2, h2⟩ := fst_of_map (r := twoThreads.exec2 2 [97] [] 0 9) (n := -1)
    (by decide +kernel)
  have hk1 : k1 = twoThreads :=
    ((exec_fails twoThreads k1 1 [97] longArg 0 9).1 h1).mpr (Or.inl (by decide +kernel))
  have hk2 : k2 = twoThreads :=
    ((exec_fails twoThreads k2 2 [97] [] 0 9).2 h2).mpr (Or.inr (Or.inr rfl))
  exact ⟨by rw [h1, hk1], by rw [h2, hk2]⟩

/-- The thread 2 fails with the long argument, and the thread 1 is gone. -/
theorem not_exec_fails : ¬ ∀ (k k' : Kernel) (i : Slot) (path : List Byte)
    (argv : List (List Byte)) (pd : Nat), k.exec i path argv pd = some (-1, k') → k' = k := by
  intro hall
  obtain ⟨k', h⟩ := fst_of_map (r := twoThreads.exec 2 [97] longArg 9) (n := -1)
    (by decide +kernel)
  have hk := hall twoThreads k' 2 [97] longArg 9 h
  have hgone : (twoThreads.exec 2 [97] longArg 9).all
      (fun r => (r.2.proc 1).kstack.isNone) = true := by decide +kernel
  rw [h, hk] at hgone
  exact absurd hgone (by decide +kernel)

/-! ### The table of threads -/

/-- The table of the kernel is the one of the threads' model. -/
def Shows (k : Kernel) (s : Threads.State) : Prop := ∀ q, s.proc q = (k.proc q).toProc

theorem shows_cleanforexec {s : Threads.State} (hs : Shows k s) (h : k.cleanforexec i = some k') :
    Shows k' (s.cleanforexec i) := by
  intro q
  unfold Threads.State.cleanforexec
  by_cases htid : (k.proc i).tid = 0
  · rw [cleanforexec_alone (Or.inl htid)] at h
    cases h
    rw [if_pos (by rw [hs i]; exact htid)]
    exact hs q
  · have hq := (cleanforexec_proc h htid q).2
    rw [if_neg (by rw [hs i]; exact htid), hq]
    cases hsib : s.siblings i q with
    | true =>
      have hp := of_decide_eq_true hsib
      rw [hs q, hs i] at hp
      rw [if_pos hp]
      show (if s.siblings i q = true then (s.proc q).clean else s.proc q) = _
      rw [if_pos hsib, hs q]
      rfl
    | false =>
      have hp : ¬ ((k.proc q).pid = (k.proc i).pid ∧ q ≠ i) := by
        intro hp
        rw [← hs q, ← hs i] at hp
        exact Bool.false_ne_true (hsib.symm.trans (decide_eq_true hp))
      rw [if_neg hp, Threads.vacate_proc_of_not _ hsib, hs q]

theorem shows_commit {s : Threads.State} (hs : Shows k s) {path : List Byte} {elf : Elfhdr}
    {sz sp stacksize pd : Nat} {v : Vm}
    (h : k.commit i path elf sz sp stacksize v pd = some k') :
    ∃ t, s.execCommit i pd sz = some t ∧ Shows k' t := by
  obtain ⟨ks, -, h⟩ := Option.bind_eq_some_iff.mp h
  obtain ⟨oldpgdir, hold, h⟩ := Option.bind_eq_some_iff.mp h
  obtain ⟨d, -, h⟩ := Option.map_eq_some_iff.mp h
  subst h
  refine ⟨_, Option.map_eq_some_iff.mpr ⟨oldpgdir, by rw [hs i]; exact hold, rfl⟩, fun q => ?_⟩
  rw [Threads.State.setPc_proc, Threads.State.setProc_proc]
  dsimp only
  by_cases hq : q = i
  · subst hq
    rw [if_pos rfl, Function.update_self, hs q]
  · rw [if_neg hq, Function.update_of_ne hq, hs q]

/-- What `exec` does to the table of threads: nothing, `cleanforexec`, or that and the
commit. -/
theorem image_table {s : Threads.State} (hs : Shows k s) {path : List Byte}
    {argv : List (List Byte)} {valid : Bool} {stacksize pd : Nat} {r : Int}
    (h : k.image i path argv valid stacksize pd = some (r, k')) :
    Shows k' s ∨ Shows k' (s.cleanforexec i) ∨
      ∃ sz t, (s.cleanforexec i).execCommit i pd sz = some t ∧ Shows k' t := by
  unfold image at h
  dsimp only at h
  split at h
  · cases h
    exact Or.inl hs
  · obtain ⟨k2, hk2, h⟩ := Option.bind_eq_some_iff.mp h
    have hs2 : Shows k2 s := by
      unfold ilock at hk2
      split_ifs at hk2
      cases hk2
      exact hs
    cases valid with
    | false =>
      cases h
      exact Or.inl hs2
    | true =>
      obtain ⟨r, -, h⟩ := Option.bind_eq_some_iff.mp h
      cases r with
      | error free =>
        cases h
        exact Or.inl hs2
      | ok r =>
        obtain ⟨elf, sz, v⟩ := r
        obtain ⟨k4, hk4, h⟩ := Option.bind_eq_some_iff.mp h
        have hs4 : Shows k4 (s.cleanforexec i) := by
          refine shows_cleanforexec ?_ hk4
          exact hs2
        obtain ⟨⟨r, w⟩, -, h⟩ := Option.bind_eq_some_iff.mp h
        cases r with
        | none =>
          cases h
          exact Or.inr (Or.inl hs4)
        | some r =>
          obtain ⟨k5, hk5, h⟩ := Option.map_eq_some_iff.mp h
          cases h
          obtain ⟨t, ht, hst⟩ := shows_commit hs4 hk5
          exact Or.inr (Or.inr ⟨_, t, ht, hst⟩)

end Kernel

end Xv6.Exec
