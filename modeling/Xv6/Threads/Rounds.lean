import Xv6.Threads.CreateLaw

/-!
# A process whose threads come and go (project2/proc.c:613-790)

`sbrk`, `thread_create`, `thread_exit` and `thread_join`, each as one call, on the memory of
one process. In every run its pages are those below the size in the slot of the main thread.
-/

namespace Xv6.Threads

open Mlfq (NPROC Slot Procstate)
open Exec (Vm Page pdx)
open Memory (pgup pages)
open Transition

/-- A bound on the steps that are left. -/
def CloseStage.left : CloseStage → Nat
  | .ofile fd => 3 * (NOFILE - fd) + 2
  | .iput fd _ _ => 3 * (NOFILE - fd) + 1
  | .clear fd _ => 3 * (NOFILE - fd)
  | .cwd => 2
  | .clearCwd _ => 1
  | .last => 0

/-- The part of `thread_exit` that closes the files from one step on, without a switch. -/
def State.closeRun (i : Slot) : Nat → State → CloseStage → Option State
  | _, s, .last => some s
  | 0, _, _ => none
  | n + 1, s, st => (s.closeNext i st).bind fun r => closeRun i n r.1 r.2

-- A panic of fileclose() is not modelled: the files stay as they are.
def State.closeFiles (s : State) (i : Slot) : State :=
  (closeRun i CloseStage.first.left s .first).getD s

namespace System

-- return -1; without release(&ptable.lock)
def keepLock (k : System) : System := { k with table := { k.table with lockHeld := true } }

/-- The end of `growproc`, with the new size. -/
def setGrown (k : System) (main : Slot) (sz : Nat) : System :=
  if sz = 0 then k.keepLock else k.setSz main sz

/-- `growproc` in a thread of the main thread `main`; no value is a panic. -/
def growproc (k : System) (main : Slot) (n : Int) : Option System :=
  let m := k.table.proc main
  if m.memorylimit ≠ 0 ∧ uint m.memorylimit < uint (m.sz + n) then some k.keepLock
  else if 0 < n then
    (k.vm.allocuvm m.sz (uint (m.sz + n))).map fun r => { k with vm := r.2 }.setGrown main r.1
  else if n < 0 then
    let r := k.vm.deallocuvm m.sz (uint (m.sz + n))
    some ({ k with vm := r.2 }.setGrown main r.1)
  else some k

def threadExit (k : System) (i : Slot) (retval : Nat) : System :=
  { k with table := (k.table.closeFiles i).threadExitLast i retval }

/-- `cleanthread` on a ZOMBIE. -/
def cleanthread (k : System) (p : Slot) : System :=
  let sz := (k.table.proc p).sz
  { k with
    table := k.table.vacate fun q => q = p
    kstack := Function.update k.kstack p false
    vm := (Vm.deallocuvm { k.vm with free := k.vm.free + 1 } sz (uint (sz + 2 * PGSIZE))).2 }

/-- One round of the loop of `thread_join`, with the value returned; no value there means that
the caller sleeps, and no value at all is a page fault. -/
def threadJoin (k : System) (i : Slot) (thread retval : Nat) : Option (Option Int × System) :=
  match k.table.joinFor thread with
  | some p =>
    (k.vm.store retval (natLE 4 (k.table.proc p).retval)).map fun vm =>
      (some 0, ({ k with vm := vm }.cleanthread p).back i)
  | none =>
    let r := k.table.threadJoin i thread
    some (r.1.map Prod.fst, { k with table := r.2 })

end System

/-- What the threads of the process do, and the scheduler. -/
inductive Call where
  | sched (p : Slot)
  | yield (p : Slot)
  | write (va : Nat) (bs : List Byte)
  | sbrk (i : Slot) (n : Int)
  | create (i : Slot) (thread start arg : Nat)
  | exit (i : Slot) (retval : Nat)
  | join (i : Slot) (thread retval : Nat)

namespace System

/-- The thread `i` of the process can make a system call. -/
def ready (k : System) (main i : Slot) : Prop :=
  k.table.atUser i ∧ k.table.idle i ∧ (k.table.proc i).mainthread = some main

instance (k : System) (main i : Slot) : Decidable (k.ready main i) :=
  inferInstanceAs (Decidable (_ ∧ _))

def step (main : Slot) (k : System) (a : Call) : Option System :=
  if k.table.lockHeld then none
  else
    match a with
    | .sched p => (Threads.step k.table (.sched p)).map fun t => { k with table := t }
    | .yield p => (Threads.step k.table (.yield p)).map fun t => { k with table := t }
    | .write va bs => (k.vm.store va bs).map fun vm => { k with vm := vm }
    | .sbrk i n => if k.ready main i then k.growproc main n else none
    | .create i thread start arg =>
      if k.ready main i then (k.threadCreate i thread start arg).map Prod.snd else none
    | .exit i retval =>
      if k.ready main i ∧ i ≠ k.table.initproc then some (k.threadExit i retval) else none
    | .join i thread retval =>
      if k.ready main i ∨ (k.table.proc i).state = .running ∧ k.table.pc i = .join thread ∧
          (k.table.proc i).mainthread = some main then
        (k.threadJoin i thread retval).map Prod.snd
      else none

end System

/-! ### The process stays tidy -/

/-- A tidy process whose main thread has its slot. -/
structure Sane (k : System) (main : Slot) : Prop extends Tidy k main where
  main : (k.table.proc main).state ≠ .unused
  sizes : ∀ q, (k.table.proc q).sz < KERNBASE

section Sane

variable {k k' : System} {main i p q np : Slot} {s t : State} {v v' : Vm} {sz : Nat}

theorem Sane.table (h : Sane k main)
    (hstate : ∀ q, (t.proc q).state = .unused → (k.table.proc q).state = .unused)
    (hsz : ∀ q, (t.proc q).sz = (k.table.proc q).sz) : Sane { k with table := t } main := by
  constructor
  · constructor
    · intro q hq
      exact h.kstack q (hstate q hq)
    · dsimp only
      rw [hsz]
      exact h.size
    · dsimp only
      rw [hsz]
      exact h.mapped
    · exact h.tables
  · intro hc
    exact h.main (hstate main hc)
  · intro q
    dsimp only
    rw [hsz]
    exact h.sizes q

theorem unused_of_same {r r' : Proc} (h : r.Same r') (hr : r'.state = .unused) :
    r.state = .unused := by
  rw [← Proc.phase_unused, ← h.phase, Proc.phase_unused]
  exact hr

theorem Sane.keeps (h : Sane k main) (hk : Keeps k.table t) : Sane { k with table := t } main :=
  h.table (fun q hq => unused_of_same (hk.proc q) hq) fun q => (hk.proc q).sz

theorem Sane.samePages (h : Sane k main) (hv : Vm.SamePages k.vm v) :
    Sane { k with vm := v } main := by
  constructor
  · constructor
    · exact h.kstack
    · exact h.size
    · intro a
      dsimp only
      rw [hv.page_isSome]
      exact h.mapped a
    · intro a ha
      dsimp only at ha ⊢
      rw [hv.page_isSome] at ha
      rw [hv.tables]
      exact h.tables a ha
  · exact h.main
  · exact h.sizes

/-! ### sbrk -/

/-- The main thread gets the size up to which there are pages. -/
theorem Sane.setSz (h : Sane k main) (hsz : sz < KERNBASE)
    (hmapped : ∀ a, (v.page a).isSome ↔ a < pgup sz)
    (htables : ∀ a, (v.page a).isSome → pdx a ∈ v.pgdir.tables) :
    Sane ({ k with vm := v }.setSz main sz) main := by
  have hproc : ∀ q, (({ k with vm := v }.setSz main sz).table.proc q).state =
      (k.table.proc q).state ∧ (({ k with vm := v }.setSz main sz).table.proc q).sz =
        if q = main then sz else (k.table.proc q).sz := by
    intro q
    unfold System.setSz
    dsimp only
    rw [State.setProc_proc]
    split_ifs
    · exact ⟨rfl, rfl⟩
    · exact ⟨rfl, rfl⟩
  have hmain : (({ k with vm := v }.setSz main sz).table.proc main).sz = sz := by
    rw [(hproc main).2, if_pos rfl]
  constructor
  · constructor
    · intro q hq
      rw [(hproc q).1] at hq
      exact h.kstack q hq
    · rw [hmain]
      exact hsz
    · rw [hmain]
      exact hmapped
    · exact htables
  · rw [(hproc main).1]
    exact h.main
  · intro q
    rw [(hproc q).2]
    split_ifs
    · exact hsz
    · exact h.sizes q

theorem Sane.setGrown (h : Sane k main) (hsz : sz < KERNBASE)
    (hmapped : ∀ a, (v.page a).isSome ↔ a < pgup sz)
    (htables : ∀ a, (v.page a).isSome → pdx a ∈ v.pgdir.tables)
    (hlock : ({ k with vm := v }.setGrown main sz).table.lockHeld = false) :
    Sane ({ k with vm := v }.setGrown main sz) main := by
  unfold System.setGrown at hlock ⊢
  split_ifs at hlock ⊢
  · cases hlock
  · exact h.setSz hsz hmapped htables

/-- The pages of a process that has grown. -/
theorem extended_mapped {newsz : Nat} (h : Vm.Extended v (pages sz newsz) v') (hle : sz ≤ newsz)
    (hmapped : ∀ a, (v.page a).isSome ↔ a < pgup sz)
    (htables : ∀ a, (v.page a).isSome → pdx a ∈ v.pgdir.tables) :
    (∀ a, (v'.page a).isSome ↔ a < pgup newsz) ∧
      ∀ a, (v'.page a).isSome → pdx a ∈ v'.pgdir.tables := by
  have hup : pgup sz ≤ pgup newsz := by
    unfold pgup PGSIZE
    omega
  constructor
  · intro a
    rw [h.page a]
    split_ifs with ha
    · have hhi := (Memory.mem_pages.mp ha).2
      simp [hhi]
    · rw [hmapped]
      rw [Memory.mem_pages] at ha
      omega
  · intro a ha
    by_cases hin : a ∈ pages sz newsz
    · exact h.newTables a hin
    · rw [h.page a, if_neg hin] at ha
      exact h.tables _ (htables a ha)

theorem Sane.growproc (h : Sane k main) {n : Int} (hlock : k'.table.lockHeld = false)
    (hk : k.growproc main n = some k') : Sane k' main := by
  unfold System.growproc at hk
  dsimp only at hk
  generalize hnew : uint ((k.table.proc main).sz + n) = newsz at hk
  split_ifs at hk with hlimit hpos hneg
  · cases hk
    cases hlock
  · obtain ⟨r, hr, hk⟩ := Option.map_eq_some_iff.mp hk
    obtain ⟨sz, v'⟩ := r
    subst hk
    by_cases hle : (k.table.proc main).sz ≤ newsz
    · have hnone : ∀ a ∈ pages (k.table.proc main).sz newsz, k.vm.page a = none := by
        intro a ha
        have hlo := (Memory.mem_pages.mp ha).1
        by_contra hc
        have hhi := (h.mapped a).mp (Option.isSome_iff_ne_none.mpr hc)
        omega
      rcases Vm.allocuvm_cases hle hnone with ⟨hroom, -, v1, halloc, hext⟩ | ⟨-, v1, halloc, -⟩
      · rw [halloc] at hr
        cases hr
        obtain ⟨hmapped, htables⟩ := extended_mapped hext hle h.mapped h.tables
        exact h.setGrown hroom hmapped htables hlock
      · -- growproc keeps the lock when allocuvm fails
        rw [halloc] at hr
        cases hr
        cases hlock
    · -- the sum has wrapped around
      unfold Vm.allocuvm at hr
      rw [if_neg, if_pos (by omega)] at hr
      · cases hr
        exact h.setGrown h.size h.mapped h.tables hlock
      · have hsz := h.size
        omega
  · cases hk
    by_cases hle : (k.table.proc main).sz ≤ newsz
    · have hsame : k.vm.deallocuvm (k.table.proc main).sz newsz =
          ((k.table.proc main).sz, k.vm) := by
        unfold Vm.deallocuvm
        rw [if_pos hle]
      rw [hsame] at hlock ⊢
      exact h.setGrown h.size h.mapped h.tables hlock
    · have hfst : (k.vm.deallocuvm (k.table.proc main).sz newsz).1 = newsz := by
        unfold Vm.deallocuvm
        rw [if_neg hle]
      have hpage := Vm.page_deallocuvm k.vm (k.table.proc main).sz newsz
      rw [hfst] at hlock ⊢
      refine h.setGrown (Nat.lt_trans (by omega) h.size) ?_ ?_ hlock
      · intro a
        rw [hpage]
        split_ifs with ha
        · simp only [Option.isSome_none, Bool.false_eq_true, false_iff]
          omega
        · rw [h.mapped]
          unfold pgup at *
          unfold PGSIZE at *
          omega
      · intro a ha
        rw [hpage] at ha
        rw [Vm.tables_deallocuvm]
        split_ifs at ha
        · cases ha
        · exact h.tables a ha
  · cases hk
    exact h

/-! ### thread_exit and thread_join -/

theorem threadExitLast_unused (s : State) (i : Slot) (retval : Nat)
    (h : ((s.threadExitLast i retval).proc q).state = .unused) : (s.proc q).state = .unused := by
  unfold State.threadExitLast at h
  rw [State.setPc_proc, State.setProc_proc] at h
  split_ifs at h with hq
  have hwake := unused_of_same ((State.quiet_wakeup1 _ _).proc q) h
  rwa [State.setProc_proc_ne _ _ _ _ hq] at hwake

theorem setProc_sz {f : Proc → Proc} (hf : (f (s.proc p)).sz = (s.proc p).sz) :
    ((s.setProc p f).proc q).sz = (s.proc q).sz := by
  rw [State.setProc_proc]
  split_ifs with hq
  · rw [hq, hf]
  · rfl

theorem threadExitLast_sz (s : State) (i : Slot) (retval : Nat) :
    ((s.threadExitLast i retval).proc q).sz = (s.proc q).sz := by
  let u := s.setProc i fun r => { r with retval := retval }
  have hset : (u.proc q).sz = (s.proc q).sz := setProc_sz rfl
  have hwake := ((State.quiet_wakeup1 u (.tid (u.proc i).tid)).proc q).sz
  rw [← hset, ← hwake]
  exact setProc_sz (f := fun r => { r with state := .zombie }) rfl

theorem left_nextClose (fd : Fin NOFILE) :
    (State.nextClose fd).left < 3 * (NOFILE - fd) := by
  have hlt := fd.isLt
  unfold State.nextClose
  split
  · dsimp only [CloseStage.left]
    omega
  · dsimp only [CloseStage.left]
    omega

theorem left_closeNext {u : State} {st st' : CloseStage}
    (h : s.closeNext i st = some (u, st')) : st'.left < st.left := by
  have hnext := left_nextClose
  cases st with
  | ofile fd =>
    unfold State.closeNext at h
    dsimp only at h
    split at h
    · split_ifs at h
      split at h
      · cases h
        exact Nat.lt_succ_self _
      · cases h
        dsimp only [CloseStage.left]
        omega
    · cases h
      have hfd := hnext fd
      dsimp only [CloseStage.left] at hfd ⊢
      omega
  | iput fd f ip =>
    cases h
    exact Nat.lt_succ_self _
  | clear fd f =>
    cases h
    exact hnext fd
  | cwd =>
    cases h
    exact Nat.lt_succ_self _
  | clearCwd ip =>
    unfold State.closeNext at h
    dsimp only at h
    split_ifs at h
    cases h
    exact Nat.lt_succ_self _
  | last => cases h

theorem closeRun_succ (i : Slot) (n : Nat) (s : State) {st : CloseStage} (h : st ≠ .last) :
    State.closeRun i (n + 1) s st =
      (s.closeNext i st).bind fun r => State.closeRun i n r.1 r.2 := by
  cases st with
  | last => exact absurd rfl h
  | _ => rfl

theorem closeRun_last (i : Slot) (n : Nat) (s : State) :
    State.closeRun i n s .last = some s := by
  cases n <;> rfl

theorem left_pos {st : CloseStage} (h : st ≠ .last) : 0 < st.left := by
  cases st with
  | clear fd f =>
    have hlt := fd.isLt
    dsimp only [CloseStage.left]
    omega
  | last => exact absurd rfl h
  | _ => exact Nat.succ_pos _

/-- More steps than are left change nothing. -/
theorem closeRun_enough {n m : Nat} {st : CloseStage} (hn : st.left ≤ n) (hm : st.left ≤ m) :
    State.closeRun i n s st = State.closeRun i m s st := by
  induction n generalizing m s st with
  | zero =>
    have hlast : st = .last := by
      by_contra hne
      exact absurd hn (left_pos hne).not_ge
    rw [hlast, closeRun_last, closeRun_last]
  | succ n ih =>
    by_cases hlast : st = .last
    · rw [hlast, closeRun_last, closeRun_last]
    cases m with
    | zero => exact absurd hm (left_pos hlast).not_ge
    | succ m =>
      rw [closeRun_succ i n s hlast, closeRun_succ i m s hlast]
      cases hnext : s.closeNext i st with
      | none => rfl
      | some r =>
        obtain ⟨u, st'⟩ := r
        have hless := left_closeNext hnext
        exact ih (Nat.le_of_lt_succ (hless.trans_le hn)) (Nat.le_of_lt_succ (hless.trans_le hm))

theorem only_closeRun {n : Nat} {st : CloseStage} (h : State.closeRun i n s st = some t) :
    OnlyFiles i s t := by
  induction n generalizing s st with
  | zero =>
    cases st with
    | last =>
      cases h
      exact .refl i _
    | _ => cases h
  | succ n ih =>
    by_cases hlast : st = .last
    · rw [hlast, closeRun_last] at h
      cases h
      exact .refl i _
    · rw [closeRun_succ i n s hlast] at h
      obtain ⟨r, hr, h⟩ := Option.bind_eq_some_iff.mp h
      obtain ⟨u, st'⟩ := r
      exact (OnlyFiles.closeNext hr).trans (ih h)

theorem only_closeFiles (s : State) (i : Slot) : OnlyFiles i s (s.closeFiles i) := by
  unfold State.closeFiles
  cases h : State.closeRun i CloseStage.first.left s .first with
  | none => exact .refl i s
  | some t => exact only_closeRun h

theorem Sane.threadExit (h : Sane k main) (i : Slot) (retval : Nat) :
    Sane (k.threadExit i retval) main := by
  have hfiles := (only_closeFiles k.table i).quiet
  apply h.table
  · intro q hq
    exact unused_of_same (hfiles.proc q) (threadExitLast_unused _ i retval hq)
  · intro q
    rw [threadExitLast_sz]
    exact (hfiles.proc q).sz

/-- `deallocuvm` gets the old and the new size in the wrong order. -/
theorem cleanthread_eq (h : (k.table.proc p).sz < KERNBASE) :
    k.cleanthread p = { k with
      table := k.table.vacate fun q => q = p
      kstack := Function.update k.kstack p false
      vm := { k.vm with free := k.vm.free + 1 } } := by
  unfold System.cleanthread Vm.deallocuvm
  dsimp only
  rw [uint_newsz h, if_pos (Nat.le_add_right _ _)]

theorem vacate_unused (s : State) (p : Slot)
    (h : ((s.vacate fun q => q = p).proc q).state = .unused) :
    q = p ∨ (s.proc q).state = .unused := by
  by_cases hq : q = p
  · exact Or.inl hq
  · right
    simpa [State.vacate, hq] using h

theorem vacate_sz (s : State) (gone : Slot → Bool) :
    ((s.vacate gone).proc q).sz = (s.proc q).sz := by
  unfold State.vacate
  dsimp only
  split_ifs <;> rfl

theorem Sane.cleanthread (h : Sane k main) (hp : p ≠ main) : Sane (k.cleanthread p) main := by
  rw [cleanthread_eq (h.sizes p)]
  constructor
  · constructor
    · intro q hq
      by_cases hqp : q = p
      · rw [hqp]
        exact Function.update_self ..
      · rcases vacate_unused _ _ hq with hc | hunused
        · exact absurd hc hqp
        · dsimp only
          rw [Function.update_of_ne hqp]
          exact h.kstack q hunused
    · dsimp only
      rw [vacate_sz]
      exact h.size
    · dsimp only
      rw [vacate_sz]
      exact h.mapped
    · exact h.tables
  · intro hc
    rcases vacate_unused _ _ hc with heq | hunused
    · exact hp heq.symm
    · exact h.main hunused
  · intro q
    dsimp only
    rw [vacate_sz]
    exact h.sizes q

theorem Sane.back (h : Sane k main) (i : Slot) : Sane (k.back i) main :=
  h.table (fun _ hq => hq) fun _ => rfl

theorem keeps_sleep (s : State) (i : Slot) (chan : Chan) (hrun : (s.proc i).state = .running)
    (k : Pc) : Keeps s ((s.setProc i fun r =>
      { r with chan := some chan, state := .sleeping }).setPc i k) := by
  have hquiet : Quiet s (s.setProc i fun r =>
      { r with chan := some chan, state := .sleeping }) := by
    apply State.quiet_setProc
    refine ⟨?_, rfl, rfl, rfl, rfl, rfl, rfl, rfl, rfl⟩
    unfold Proc.phase
    rw [hrun]
  exact hquiet.toKeeps.trans (State.keeps_setPc _ i k)

/-- Without a ZOMBIE to join the caller sleeps, or there is no such thread. -/
theorem keeps_threadJoin {s : State} {thread : Nat} (hrun : (s.proc i).state = .running)
    (hj : s.joinFor thread = none) : Keeps s (s.threadJoin i thread).2 := by
  unfold State.threadJoin
  rw [hj]
  dsimp only
  split_ifs
  · exact State.keeps_setPc _ i _
  · exact keeps_sleep _ i _ hrun _

theorem Sane.threadJoin (h : Sane k main) {thread retval : Nat} {x : Option Int}
    (hrun : (k.table.proc i).state = .running) (hkeep : k.table.joinFor thread ≠ some main)
    (hk : k.threadJoin i thread retval = some (x, k')) : Sane k' main := by
  unfold System.threadJoin at hk
  cases hj : k.table.joinFor thread with
  | some p =>
    rw [hj] at hk hkeep
    obtain ⟨vm, hstore, hk⟩ := Option.map_eq_some_iff.mp hk
    cases hk
    have hp : p ≠ main := fun hc => hkeep (by rw [hc])
    exact ((h.samePages (Vm.store_spec hstore).toSamePages).cleanthread hp).back i
  | none =>
    rw [hj] at hk
    cases hk
    exact h.keeps (keeps_threadJoin hrun hj)

/-! ### thread_create -/

/-- The table after a `thread_create` that works. -/
theorem newThread_other (s : State) (i main : Slot) (sz : Nat) (hq : q ≠ np) :
    (((s.takeSlot i np main).setSizes np main sz).startThread i np main).proc q =
      if q = main then { s.proc q with sz := sz } else s.proc q := by
  have htake : (s.takeSlot i np main).proc q = s.proc q := by
    unfold State.takeSlot
    rw [initThread_other _ _ _ _ _ hq, State.setProc_proc_ne _ _ _ _ hq]
  have hsizes : ((s.takeSlot i np main).setSizes np main sz).proc q =
      if q = main then { s.proc q with sz := sz } else s.proc q := by
    unfold State.setSizes
    rw [State.setProc_proc, State.setProc_proc_ne _ _ _ _ hq, htake]
  unfold State.startThread
  rw [State.setPc_proc, State.setProc_proc_ne _ _ _ _ hq,
    (only_copyFiles _ main np).other q hq, hsizes]

theorem newThread_np (s : State) (i np main : Slot) (sz : Nat) :
    ((((s.takeSlot i np main).setSizes np main sz).startThread i np main).proc np).state =
        .runnable ∧
      ((((s.takeSlot i np main).setSizes np main sz).startThread i np main).proc np).sz = sz := by
  unfold State.startThread
  rw [State.setPc_proc, State.setProc_proc_self]
  refine ⟨rfl, ?_⟩
  dsimp only
  rw [((only_copyFiles _ main np).quiet.proc np).sz]
  unfold State.setSizes
  rw [State.setProc_proc]
  split_ifs
  · rfl
  · rw [State.setProc_proc_self]

/-- The pages of the process with the new stack. -/
theorem stacked_mapped {arg : Nat} (h : Stacked v sz arg v')
    (hmapped : ∀ a, (v.page a).isSome ↔ a < pgup sz)
    (htables : ∀ a, (v.page a).isSome → pdx a ∈ v.pgdir.tables) :
    (∀ a, (v'.page a).isSome ↔ a < pgup (sz + 2 * PGSIZE)) ∧
      ∀ a, (v'.page a).isSome → pdx a ∈ v'.pgdir.tables := by
  have hup : pgup (sz + 2 * PGSIZE) = pgup sz + 2 := by
    unfold pgup PGSIZE
    omega
  have hpage : ∀ a, (v'.page a).isSome ↔
      a ∈ pages sz (sz + 2 * PGSIZE) ∨ (v.page a).isSome := by
    intro a
    have hsome : (v'.page a).isSome = ((v'.page a).map Page.user).isSome := by simp
    rw [hsome, h.user a]
    by_cases hnew : a ∈ pages sz (sz + 2 * PGSIZE)
    · simp only [hnew, true_or, if_true, iff_true]
      split_ifs <;> rfl
    · simp only [hnew, false_or, if_false]
      split_ifs with hclear hold
      · simp [hold]
      · simp [hold]
      · simp
  constructor
  · intro a
    rw [hpage, hmapped, mem_stack, hup]
    omega
  · intro a ha
    rcases (hpage a).mp ha with hnew | hold
    · exact h.newTables a hnew
    · exact h.tables _ (htables a hold)

theorem Sane.leaked (h : Sane k main) (hnp : np ≠ main) (hleft : Leaked k np k') :
    Sane k' main := by
  have hmain := hleft.proc main (Ne.symm hnp)
  constructor
  · constructor
    · intro q hq
      have hne : q ≠ np := by
        intro hc
        rw [hc, hleft.embryo] at hq
        cases hq
      rw [hleft.proc q hne] at hq
      rw [hleft.kstack q hne]
      exact h.kstack q hq
    · rw [hmain]
      exact h.size
    · intro a
      rw [hleft.vm.page, hmain]
      exact h.mapped a
    · intro a ha
      rw [hleft.vm.page] at ha
      exact hleft.vm.tables _ (h.tables a ha)
  · rw [hmain]
    exact h.main
  · intro q
    by_cases hq : q = np
    · rw [hq]
      exact hleft.size
    · rw [hleft.proc q hq]
      exact h.sizes q

theorem Unchanged.sane (hu : Unchanged k k') (h : Sane k main) : Sane k' main := by
  constructor
  · constructor
    · rw [hu.proc, hu.kstack]
      exact h.kstack
    · rw [hu.proc]
      exact h.size
    · unfold Vm.page
      rw [hu.proc, hu.pgdir]
      exact h.mapped
    · unfold Vm.page
      rw [hu.pgdir]
      exact h.tables
  · rw [hu.proc]
    exact h.main
  · rw [hu.proc]
    exact h.sizes

theorem Sane.works {thread arg start : Nat} (h : Sane k main) (hnp : np ≠ main)
    (hok : k.creatable main)
    (hvm : Stacked { k.vm with free := k.vm.free - 1 } (k.table.proc main).sz arg v)
    (hstore : v.store thread (natLE 4 (uint k.table.nexttid)) = some v') :
    Sane {
      table := ((k.table.takeSlot i np main).setSizes np main
        ((k.table.proc main).sz + 2 * PGSIZE)).startThread i np main
      kstack := Function.update k.kstack np true
      tf := Function.update k.tf np ⟨start, (k.table.proc main).sz + 2 * PGSIZE - 8⟩
      vm := v' } main := by
  have hsz := hok.2.1
  obtain ⟨hrunnable, hnpsz⟩ := newThread_np k.table i np main
    ((k.table.proc main).sz + 2 * PGSIZE)
  have hmain := newThread_other k.table i main ((k.table.proc main).sz + 2 * PGSIZE)
    (Ne.symm hnp)
  rw [if_pos rfl] at hmain
  obtain ⟨hmapped, htables⟩ := stacked_mapped hvm h.mapped h.tables
  have hsame := (Vm.store_spec hstore).toSamePages
  constructor
  · constructor
    · intro q hq
      dsimp only at hq ⊢
      have hne : q ≠ np := by
        intro hc
        rw [hc, hrunnable] at hq
        cases hq
      rw [newThread_other _ _ _ _ hne] at hq
      rw [Function.update_of_ne hne]
      split_ifs at hq
      · exact h.kstack q hq
      · exact h.kstack q hq
    · dsimp only
      rw [hmain]
      exact hsz
    · intro a
      dsimp only
      rw [hsame.page_isSome, hmain]
      exact hmapped a
    · intro a ha
      dsimp only at ha ⊢
      rw [hsame.page_isSome] at ha
      rw [hsame.tables]
      exact htables a ha
  · dsimp only
    rw [hmain]
    exact h.main
  · intro q
    dsimp only
    by_cases hq : q = np
    · rw [hq, hnpsz]
      exact hsz
    · rw [newThread_other _ _ _ _ hq]
      split_ifs
      · exact hsz
      · exact h.sizes q

theorem Sane.ne_main (h : Sane k main) (hslot : k.table.allocproc = some np) : np ≠ main := by
  intro hc
  exact h.main (hc ▸ allocproc_unused hslot)

theorem Sane.threadCreate (h : Sane k main) (hmain : (k.table.proc i).mainthread = some main)
    {thread start arg : Nat} {x : Int} (hk : k.threadCreate i thread start arg = some (x, k')) :
    Sane k' main := by
  have hcreated := created thread start arg h.toTidy hmain
  rw [hk] at hcreated
  generalize hr : some (x, k') = r at hcreated
  cases hcreated with
  | noSlot hslot =>
    cases hr
    exact h
  | noStack np hslot hfree =>
    cases hr
    exact (unchanged_noStack h.toTidy hslot).sane h
  | fails np k'' hslot hfree hno hleft =>
    cases hr
    exact h.leaked (h.ne_main hslot) hleft
  | works np vm hslot hfree hok hvm =>
    obtain ⟨v', hstore, heq⟩ := Option.map_eq_some_iff.mp hr.symm
    cases heq
    exact h.works (h.ne_main hslot) hok hvm hstore

/-! ### Runs -/

theorem keeps_sched (h : Threads.step s (.sched p) = some t) : Keeps s t := by
  unfold Threads.step at h
  split_ifs at h
  dsimp only at h
  split_ifs at h with hrun
  cases h
  apply Quiet.toKeeps
  apply State.quiet_setProc
  refine ⟨?_, rfl, rfl, rfl, rfl, rfl, rfl, rfl, rfl⟩
  unfold Proc.phase
  rw [hrun.1]

theorem keeps_yield (h : Threads.step s (.yield p) = some t) : Keeps s t := by
  unfold Threads.step at h
  split_ifs at h
  dsimp only at h
  split_ifs at h with hrun
  cases h
  apply Quiet.toKeeps
  apply State.quiet_setProc
  refine ⟨?_, rfl, rfl, rfl, rfl, rfl, rfl, rfl, rfl⟩
  unfold Proc.phase
  rw [hrun]

/-- The slot of the main thread is not taken away by `thread_join`. -/
def keepsMain (main : Slot) (k : System) : Call → Prop
  | .join _ thread _ => k.table.joinFor thread ≠ some main
  | _ => True

instance (main : Slot) (k : System) : (a : Call) → Decidable (keepsMain main k a)
  | .join _ _ _ => inferInstanceAs (Decidable (_ ≠ some main))
  | .sched _ | .yield _ | .write _ _ | .sbrk _ _ | .create _ _ _ _ | .exit _ _ =>
    inferInstanceAs (Decidable True)

theorem Sane.step (h : Sane k main) {a : Call} (hok : keepsMain main k a)
    (hs : k.step main a = some k') (hlock : k'.table.lockHeld = false) : Sane k' main := by
  unfold System.step at hs
  split_ifs at hs
  cases a with
  | sched p =>
    obtain ⟨t, ht, heq⟩ := Option.map_eq_some_iff.mp hs
    subst heq
    exact h.keeps (keeps_sched ht)
  | yield p =>
    obtain ⟨t, ht, heq⟩ := Option.map_eq_some_iff.mp hs
    subst heq
    exact h.keeps (keeps_yield ht)
  | write va bs =>
    obtain ⟨v, hv, heq⟩ := Option.map_eq_some_iff.mp hs
    subst heq
    exact h.samePages (Vm.store_spec hv).toSamePages
  | sbrk i n =>
    dsimp only at hs
    split_ifs at hs
    exact h.growproc hlock hs
  | create i thread start arg =>
    dsimp only at hs
    split_ifs at hs with hready
    obtain ⟨r, hr, heq⟩ := Option.map_eq_some_iff.mp hs
    obtain ⟨x, k''⟩ := r
    subst heq
    exact h.threadCreate hready.2.2 hr
  | exit i retval =>
    dsimp only at hs
    split_ifs at hs
    cases hs
    exact h.threadExit i retval
  | join i thread retval =>
    dsimp only at hs
    split_ifs at hs with hready
    obtain ⟨r, hr, heq⟩ := Option.map_eq_some_iff.mp hs
    obtain ⟨x, k''⟩ := r
    subst heq
    have hrun : (k.table.proc i).state = .running := by
      rcases hready with hc | hc
      · exact hc.1.1
      · exact hc.1
    exact h.threadJoin hrun hok hr

end Sane

theorem sane_oneProcess : Sane (oneProcess 16384 0 10) 1 := by
  constructor
  · exact tidy_oneProcess 10 (by decide +kernel) (by decide) (by decide +kernel)
  · decide +kernel
  · decide +kernel

end Xv6.Threads
