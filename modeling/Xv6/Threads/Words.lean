import Xv6.Threads.Rounds

/-!
# The argument and the return value of a thread (project2/sysproc.c:111-145, proc.c:652-790)

The system calls take the argument of `thread_create` and the value of `thread_exit` by
`argptr`, as if they were pointers into the process.
-/

namespace Xv6.Threads

open Mlfq (NPROC Slot Procstate)
open Exec (Vm Page pdx)
open Memory (pgup pages)
open Transition

namespace System

def argint (k : System) (i : Slot) (n : Nat) : Option Nat :=
  Memory.argint (fun x => (k.vm.mem x).getD 0) (k.table.proc i).sz (k.tf i).esp n

def argptr (k : System) (i : Slot) (n : Nat) (size : Int) : Option Nat :=
  Memory.argptr (fun x => (k.vm.mem x).getD 0) (k.table.proc i).sz (k.tf i).esp n size

end System

section Words

variable {k k' e e' z z' : System} {main i j p q np : Slot} {thread start a v sz tid : Nat}
  {u u' w : Vm} {s : State}

/-- The thread in slot `j` has ended with the value `v`. -/
def Ended (s : State) (j : Slot) (v : Nat) : Prop :=
  (s.proc j).state = .zombie ∧ (s.proc j).retval = v

theorem Ended.keeps {t : State} (h : Ended s j v) (hk : Keeps s t) : Ended t j v := by
  obtain ⟨hz, hv⟩ := h
  refine ⟨?_, (hk.proc j).retval.trans hv⟩
  rw [← Proc.phase_zombie, (hk.proc j).phase, Proc.phase_zombie]
  exact hz

theorem Ended.of_proc {t : State} (h : Ended s j v) (hp : t.proc j = s.proc j) :
    Ended t j v := by
  unfold Ended
  rw [hp]
  exact h

theorem Ended.threadExitLast (h : Ended s j v) (hij : j ≠ i) (retval : Nat) :
    Ended (s.threadExitLast i retval) j v := by
  let u := s.setProc i fun r => { r with retval := retval }
  have hset : Ended u j v := h.of_proc (State.setProc_proc_ne _ _ _ _ hij)
  have hwake := hset.keeps (State.quiet_wakeup1 u (.tid (u.proc i).tid)).toKeeps
  exact hwake.of_proc (State.setProc_proc_ne _ i j (fun r => { r with state := .zombie }) hij)

theorem Ended.growproc (h : Ended k.table j v) {n : Int} (hk : k.growproc main n = some k') :
    Ended k'.table j v := by
  have hset : ∀ vm sz, Ended ({ k with vm := vm }.setGrown main sz).table j v := by
    intro vm sz
    unfold System.setGrown
    split_ifs
    · exact h
    · unfold System.setSz Ended
      dsimp only
      rw [State.setProc_proc]
      split_ifs
      · exact h
      · exact h
  unfold System.growproc at hk
  dsimp only at hk
  split_ifs at hk
  · cases hk
    exact h
  · obtain ⟨r, -, hk⟩ := Option.map_eq_some_iff.mp hk
    subst hk
    exact hset _ _
  · cases hk
    exact hset _ _
  · cases hk
    exact h

theorem Ended.threadCreate (hs : Sane k main) (h : Ended k.table j v)
    (hmain : (k.table.proc i).mainthread = some main) {x : Int}
    (hk : k.threadCreate i thread start a = some (x, k')) : Ended k'.table j v := by
  have hne : ∀ np, k.table.allocproc = some np → j ≠ np := by
    intro np hslot hc
    have hz := h.1
    rw [hc, allocproc_unused hslot] at hz
    cases hz
  have hcreated := created thread start a hs.toTidy hmain
  rw [hk] at hcreated
  generalize hr : some (x, k') = r at hcreated
  cases hcreated with
  | noSlot =>
    cases hr
    exact h
  | noStack np hslot =>
    cases hr
    apply h.of_proc
    dsimp only
    rw [State.setProc_proc_ne _ _ _ _ (hne np hslot)]
  | fails np k'' hslot _ _ hleft =>
    cases hr
    exact h.of_proc (hleft.proc j (hne np hslot))
  | works np vm hslot hfree hok hvm =>
    obtain ⟨v', -, heq⟩ := Option.map_eq_some_iff.mp hr.symm
    cases heq
    unfold Ended
    dsimp only
    rw [newThread_other _ _ _ _ (hne np hslot)]
    split_ifs
    · exact h
    · exact h

theorem Ended.threadJoin (h : Ended k.table j v) {retval : Nat} {x : Option Int}
    (hrun : (k.table.proc i).state = .running) (hkeep : k.table.joinFor thread ≠ some j)
    (hk : k.threadJoin i thread retval = some (x, k')) : Ended k'.table j v := by
  unfold System.threadJoin at hk
  cases hj : k.table.joinFor thread with
  | some p =>
    rw [hj] at hk hkeep
    obtain ⟨vm, -, hk⟩ := Option.map_eq_some_iff.mp hk
    cases hk
    have hp : j ≠ p := fun hc => hkeep (by rw [hc])
    apply h.of_proc
    simp [System.back, System.cleanthread, State.vacate, hp]
  | none =>
    rw [hj] at hk
    cases hk
    exact h.keeps (keeps_threadJoin hrun hj)

theorem Ended.step (hs : Sane k main) (h : Ended k.table j v) {c : Call}
    (hok : keepsMain j k c) (hk : k.step main c = some k') : Ended k'.table j v := by
  unfold System.step at hk
  split_ifs at hk
  cases c with
  | sched p =>
    obtain ⟨t, ht, heq⟩ := Option.map_eq_some_iff.mp hk
    subst heq
    exact h.keeps (keeps_sched ht)
  | yield p =>
    obtain ⟨t, ht, heq⟩ := Option.map_eq_some_iff.mp hk
    subst heq
    exact h.keeps (keeps_yield ht)
  | write va bs =>
    obtain ⟨vm, -, heq⟩ := Option.map_eq_some_iff.mp hk
    subst heq
    exact h
  | sbrk i n =>
    dsimp only at hk
    split_ifs at hk
    exact h.growproc hk
  | create i thread start arg =>
    dsimp only at hk
    split_ifs at hk with hready
    obtain ⟨r, hr, heq⟩ := Option.map_eq_some_iff.mp hk
    obtain ⟨x, k''⟩ := r
    subst heq
    exact h.threadCreate hs hready.2.2 hr
  | exit i retval =>
    dsimp only at hk
    split_ifs at hk with hready
    cases hk
    have hij : j ≠ i := by
      intro hc
      have hrun := hready.1.1.1
      rw [← hc, h.1] at hrun
      cases hrun
    exact (h.keeps (only_closeFiles k.table i).quiet.toKeeps).threadExitLast hij retval
  | join i thread retval =>
    dsimp only at hk
    split_ifs at hk with hready
    obtain ⟨r, hr, heq⟩ := Option.map_eq_some_iff.mp hk
    obtain ⟨x, k''⟩ := r
    subst heq
    have hrun : (k.table.proc i).state = .running := by
      rcases hready with hc | hc
      · exact hc.1.1
      · exact hc.1
    exact h.threadJoin hrun hok hr

end Words

end Xv6.Threads
