import Mathlib.Algebra.BigOperators.Ring.Finset
import Xv6.Lib.Tally
import Xv6.Threads.Cleared

/-!
# References to open files and inodes

Each descriptor counts once in its file (file.c:43-80), each open file and each current
directory once in its inode, and what a thread has in its local variables counts too. A
thread that has dropped a reference its slot still shows is a reference behind.
-/

namespace Xv6.Threads

open Mlfq (NPROC Slot Procstate)

/-- One if `x` is `a`. -/
def one {α : Type} [DecidableEq α] (x : Option α) (a : α) : Int := if x = some a then 1 else 0

namespace Refs

/-- The references to the file `f` in the local variables, less those that are owed. -/
def netFiles (r : Refs) (f : Fin NFILE) : Int := r.files.count f - r.owedFiles.count f

def netInodes (r : Refs) (n : Nat) : Int := r.inodes.count n - r.owedInodes.count n

theorem netFiles_none (f : Fin NFILE) : Refs.none.netFiles f = 0 := rfl

theorem netInodes_none (n : Nat) : Refs.none.netInodes n = 0 := rfl

end Refs

namespace State

/-- In the local variables of all threads. -/
def netFiles (s : State) (f : Fin NFILE) : Int := ∑ q, (s.pc q).refs.netFiles f

def netInodes (s : State) (n : Nat) : Int := ∑ q, (s.pc q).refs.netInodes n

def fds (s : State) (x : Slot × Fin NOFILE) : Option (Fin NFILE) := (s.proc x.1).ofile x.2

def inodes (s : State) (f : Fin NFILE) : Option Nat := (s.file f).inode

def cwds (s : State) (q : Slot) : Option Nat := (s.proc q).cwd

end State

/-- Every reference is counted, with `F` references to each file and `N` to each inode that are
in no table. -/
structure Counted (s : State) (F : Fin NFILE → Int) (N : Nat → Int) : Prop where
  ref : ∀ f, ((s.file f).ref : Int) = tally s.fds (some f) + F f
  iref : ∀ n, s.iref n = tally s.inodes (some n) + tally s.cwds (some n) + N n
  closed : ∀ f, (s.file f).ref = 0 → (s.file f).type = .none

theorem one_self {α : Type} [DecidableEq α] (a : α) : one (some a) a = 1 := if_pos rfl

theorem one_none {α : Type} [DecidableEq α] (a : α) : one none a = 0 := if_neg nofun

theorem count_cons_one {α : Type} [DecidableEq α] (a b : α) (l : List α) :
    ((a :: l).count b : Int) = one (some a) b + l.count b := by
  rw [List.count_cons, one]
  by_cases h : a = b
  · simp [h]
    omega
  · simp [h]

theorem count_toList {α : Type} [DecidableEq α] (x : Option α) (b : α) :
    (x.toList.count b : Int) = one x b := by
  cases x with
  | none => exact (one_none b).symm
  | some a => simpa using count_cons_one a b []

/-! ### Counting in file.c and fs.c -/

section Operations

variable {s t : State} {F F' : Fin NFILE → Int} {N N' : Nat → Int}

theorem SameFiles.counted (h : SameFiles s t) (hc : Counted s F N) : Counted t F N := by
  have hfds : t.fds = s.fds := funext fun x => congrFun (h.ofile x.1) x.2
  have hinodes : t.inodes = s.inodes := funext fun f => by unfold State.inodes; rw [h.file]
  have hcwds : t.cwds = s.cwds := funext h.cwd
  refine ⟨fun f => ?_, fun n => ?_, fun f => ?_⟩
  · rw [h.file, hfds]
    exact hc.ref f
  · rw [h.iref, hinodes, hcwds]
    exact hc.iref n
  · rw [h.file]
    exact hc.closed f

theorem Counted.congr (hc : Counted s F N) (hF : ∀ f, F' f = F f) (hN : ∀ n, N' n = N n) :
    Counted s F' N' :=
  ⟨fun f => by rw [hF, hc.ref], fun n => by rw [hN, hc.iref], hc.closed⟩

theorem Counted.setPc (hc : Counted s F N) (i : Slot) (k : Pc) : Counted (s.setPc i k) F N :=
  ⟨hc.ref, hc.iref, hc.closed⟩

theorem tally_update_one {α β : Type} [Fintype α] [DecidableEq α] [DecidableEq β]
    (f : α → Option β) (a : α) (v : Option β) (b : β) :
    (tally (Function.update f a v) (some b) : Int) =
      tally f (some b) + one v b - one (f a) b := by
  have hu := tally_update f a v (some b)
  unfold one
  split_ifs at hu ⊢ <;> omega

theorem fds_setFd (s : State) (i : Slot) (fd : Fin NOFILE) (f : Option (Fin NFILE)) :
    (s.setFd i fd f).fds = Function.update s.fds (i, fd) f := by
  funext x
  obtain ⟨q, fd'⟩ := x
  unfold State.fds State.setFd
  by_cases hq : q = i
  · subst hq
    rw [State.setProc_proc_self]
    dsimp only
    by_cases hfd : fd' = fd
    · rw [hfd, Function.update_self, Function.update_self]
    · rw [Function.update_of_ne hfd, Function.update_of_ne (by simp [hfd])]
  · rw [State.setProc_proc_ne _ _ _ _ hq, Function.update_of_ne (by simp [hq])]

theorem cwds_setFd (s : State) (i : Slot) (fd : Fin NOFILE) (f : Option (Fin NFILE)) :
    (s.setFd i fd f).cwds = s.cwds := by
  funext q
  unfold State.cwds State.setFd
  rw [State.setProc_proc]
  split_ifs with hq
  · rfl
  · rfl

/-- The file that goes into a descriptor comes from outside of the tables, and the one that was
there goes outside. -/
theorem Counted.setFd (hc : Counted s F N) {i : Slot} {fd : Fin NOFILE} {f : Option (Fin NFILE)}
    (hF : ∀ g, F' g = F g - one f g + one ((s.proc i).ofile fd) g) (hN : ∀ n, N' n = N n) :
    Counted (s.setFd i fd f) F' N' := by
  refine ⟨fun g => ?_, fun n => ?_, hc.closed⟩
  · have hu := tally_update_one s.fds (i, fd) f g
    have hr := hc.ref g
    have hg := hF g
    rw [fds_setFd]
    change ((s.file g).ref : Int) = _
    change _ = _ - one ((s.proc i).ofile fd) g at hu
    omega
  · rw [cwds_setFd, hN]
    exact hc.iref n

theorem Counted.setCwd (hc : Counted s F N) {i : Slot} {ip : Option Nat}
    (hF : ∀ f, F' f = F f) (hN : ∀ n, N' n = N n - one ip n + one (s.proc i).cwd n) :
    Counted (s.setProc i fun r => { r with cwd := ip }) F' N' := by
  have hfds : (s.setProc i fun r => { r with cwd := ip }).fds = s.fds := by
    funext x
    unfold State.fds
    rw [State.setProc_proc]
    split_ifs <;> rfl
  have hcwds : (s.setProc i fun r => { r with cwd := ip }).cwds = Function.update s.cwds i ip := by
    funext q
    unfold State.cwds
    rw [State.setProc_proc, Function.update_apply]
    split_ifs <;> rfl
  refine ⟨fun f => ?_, fun n => ?_, hc.closed⟩
  · rw [hfds, hF]
    exact hc.ref f
  · have hu := tally_update_one s.cwds i ip n
    have hr := hc.iref n
    have hn := hN n
    rw [hcwds]
    change s.iref n = tally s.inodes (some n) + _ + _
    change _ = _ - one (s.proc i).cwd n at hu
    omega

theorem Counted.idup (hc : Counted s F N) {ip : Option Nat} (hF : ∀ f, F' f = F f)
    (hN : ∀ n, N' n = N n + one ip n) : Counted (s.idup ip) F' N' := by
  cases ip with
  | none => exact hc.congr hF fun n => by rw [hN, one_none, Int.add_zero]
  | some m =>
    refine ⟨(hc.congr hF fun _ => rfl).ref, fun n => ?_, hc.closed⟩
    have hr := hc.iref n
    have hn := hN n
    change Function.update s.iref m (s.iref m + 1) n =
      tally s.inodes (some n) + tally s.cwds (some n) + _
    rw [Function.update_apply]
    split_ifs with h1
    · subst h1
      rw [one_self] at hn
      omega
    · rw [one, if_neg fun h2 => h1 (Option.some.inj h2).symm] at hn
      omega

theorem Counted.iput (hc : Counted s F N) {ip : Option Nat} (hF : ∀ f, F' f = F f)
    (hN : ∀ n, N' n = N n - one ip n) : Counted (s.iput ip) F' N' := by
  cases ip with
  | none => exact hc.congr hF fun n => by rw [hN, one_none, Int.sub_zero]
  | some m =>
    refine ⟨(hc.congr hF fun _ => rfl).ref, fun n => ?_, hc.closed⟩
    have hr := hc.iref n
    have hn := hN n
    change Function.update s.iref m (s.iref m - 1) n =
      tally s.inodes (some n) + tally s.cwds (some n) + _
    rw [Function.update_apply]
    split_ifs with h1
    · subst h1
      rw [one_self] at hn
      omega
    · rw [one, if_neg fun h2 => h1 (Option.some.inj h2).symm] at hn
      omega

/-- The entry of a file changes, and with it the references that are in no table. -/
theorem Counted.setFile (hc : Counted s F N) {f : Fin NFILE} {r : File}
    (h0 : r.ref = 0 → r.type = .none) (hf : F' f = F f + r.ref - (s.file f).ref)
    (hg : ∀ g, g ≠ f → F' g = F g)
    (hN : ∀ n, N' n = N n - one r.inode n + one (s.inodes f) n) :
    Counted { s with file := Function.update s.file f r } F' N' := by
  have hino : State.inodes { s with file := Function.update s.file f r } =
      Function.update s.inodes f r.inode := by
    funext g
    unfold State.inodes
    dsimp only
    rw [Function.update_apply, Function.update_apply]
    split_ifs <;> rfl
  refine ⟨fun g => ?_, fun n => ?_, fun g hz => ?_⟩
  · have hr := hc.ref g
    change ((Function.update s.file f r g).ref : Int) = tally s.fds (some g) + _
    by_cases hgf : g = f
    · subst hgf
      rw [Function.update_self]
      omega
    · rw [Function.update_of_ne hgf, hr, hg g hgf]
  · have hr := hc.iref n
    have hu := tally_update_one s.inodes f r.inode n
    have hn := hN n
    rw [hino]
    change s.iref n = _ + tally s.cwds (some n) + _
    omega
  · change (Function.update s.file f r g).ref = 0 at hz
    change (Function.update s.file f r g).type = _
    rw [Function.update_apply] at hz ⊢
    split_ifs at hz ⊢
    · exact h0 hz
    · exact hc.closed g hz

theorem Counted.setType (hc : Counted s F N) {f : Fin NFILE} {type : FileType}
    (h0 : 0 < (s.file f).ref) (hi : s.inodes f = none) (ht : type ≠ .inode) :
    Counted (s.setType f type) F N := by
  refine hc.setFile (fun hr => absurd hr h0.ne') ?_ (fun _ _ => rfl) fun n => ?_
  · dsimp only
    omega
  · rw [hi, File.inode, if_neg ht]
    omega

theorem one_ne {α : Type} [DecidableEq α] {a b : α} (h : b ≠ a) : one (some a) b = 0 :=
  if_neg fun hc => h (Option.some.inj hc).symm

theorem Counted.filedup (hc : Counted s F N) {f : Fin NFILE}
    (hF : ∀ g, F' g = F g + one (some f) g) (hN : ∀ n, N' n = N n) :
    Counted (s.filedup f) F' N' := by
  refine hc.setFile nofun ?_ (fun g hg => ?_) fun n => ?_
  · have hf := hF f
    rw [one_self] at hf
    dsimp only
    omega
  · rw [hF, one_ne hg, Int.add_zero]
  · exact (hN n).trans (Int.sub_add_cancel _ _).symm

/-- The inode of a file that is closed passes to the caller. -/
theorem Counted.fileclose (hc : Counted s F N) {f : Fin NFILE} (hpos : 0 < (s.file f).ref)
    (hF : ∀ g, F' g = F g - one (some f) g)
    (hN : ∀ n, N' n = N n + one (s.fileclose f).2 n) : Counted (s.fileclose f).1 F' N' := by
  have hf := hF f
  rw [one_self] at hf
  have hg : ∀ g, g ≠ f → F' g = F g := fun g hg => by rw [hF, one_ne hg, Int.sub_zero]
  unfold State.fileclose at hN ⊢
  dsimp only at hN ⊢
  by_cases h1 : 1 < (s.file f).ref
  · rw [if_pos h1] at hN ⊢
    refine hc.setFile (fun h0 => ?_) ?_ hg fun n => ?_
    · dsimp only at h0
      omega
    · dsimp only
      omega
    · rw [hN, one_none, Int.add_zero]
      exact (Int.sub_add_cancel _ _).symm
  · rw [if_neg h1] at hN ⊢
    refine hc.setFile (fun _ => rfl) ?_ hg fun n => ?_
    · dsimp only
      omega
    · have hnone : File.inode { s.file f with type := .none, ref := 0 } = none := rfl
      rw [hN, hnone, one_none, Int.sub_zero]
      rfl

/-- `filealloc` takes a file that refers to no inode. -/
theorem Counted.filealloc (hc : Counted s F N) {f : Fin NFILE} (h : s.filealloc = some f)
    (hF : ∀ g, F' g = F g + one (some f) g) (hN : ∀ n, N' n = N n) :
    Counted (s.setRef f 1) F' N' := by
  have hfree : (s.file f).ref = 0 := by simpa using List.find?_some h
  have hf := hF f
  rw [one_self] at hf
  refine hc.setFile nofun ?_ (fun g hg => ?_) fun n => ?_
  · dsimp only
    omega
  · rw [hF, one_ne hg, Int.add_zero]
  · exact (hN n).trans (Int.sub_add_cancel _ _).symm

theorem fdalloc_none {i : Slot} {fd : Fin NOFILE} (h : s.fdalloc i = some fd) :
    (s.proc i).ofile fd = none := by
  simpa using List.find?_some h

end Operations

/-! ### References in local variables -/

section Net

variable {s t u : State} {F : Fin NFILE → Int} {N : Nat → Int} {i : Slot}

theorem count_erase_one {α : Type} [DecidableEq α] {a : α} {l : List α} (h : a ∈ l) (b : α) :
    ((l.erase a).count b : Int) = l.count b - one (some a) b := by
  have hperm := (List.perm_cons_erase h).count_eq b
  have hcons := count_cons_one a b (l.erase a)
  omega

theorem netFiles_congr {s t : State} (h : t.pc = s.pc) : t.netFiles = s.netFiles := by
  funext f
  unfold State.netFiles
  rw [h]

theorem netInodes_congr {s t : State} (h : t.pc = s.pc) : t.netInodes = s.netInodes := by
  funext n
  unfold State.netInodes
  rw [h]

theorem netFiles_setPc (s : State) (i : Slot) (k : Pc) (f : Fin NFILE) :
    (s.setPc i k).netFiles f =
      s.netFiles f + k.refs.netFiles f - (s.pc i).refs.netFiles f := by
  have hsum : (s.setPc i k).netFiles f =
      ∑ q, Function.update (fun q => (s.pc q).refs.netFiles f) i (k.refs.netFiles f) q := by
    refine Finset.sum_congr rfl fun q _ => ?_
    rw [State.setPc_pc, Function.update_apply]
    split_ifs <;> rfl
  have hu := sum_update (fun q => (s.pc q).refs.netFiles f) i (k.refs.netFiles f)
  rw [hsum, State.netFiles]
  omega

theorem netInodes_setPc (s : State) (i : Slot) (k : Pc) (n : Nat) :
    (s.setPc i k).netInodes n =
      s.netInodes n + k.refs.netInodes n - (s.pc i).refs.netInodes n := by
  have hsum : (s.setPc i k).netInodes n =
      ∑ q, Function.update (fun q => (s.pc q).refs.netInodes n) i (k.refs.netInodes n) q := by
    refine Finset.sum_congr rfl fun q _ => ?_
    rw [State.setPc_pc, Function.update_apply]
    split_ifs <;> rfl
  have hu := sum_update (fun q => (s.pc q).refs.netInodes n) i (k.refs.netInodes n)
  rw [hsum, State.netInodes]
  omega

/-- A thread goes on, and its references with it. -/
theorem Counted.goOn {k : Pc} (hpc : u.pc = s.pc)
    (hc : Counted u (fun f => s.netFiles f + k.refs.netFiles f - (s.pc i).refs.netFiles f)
      fun n => s.netInodes n + k.refs.netInodes n - (s.pc i).refs.netInodes n) :
    Counted (u.setPc i k) (u.setPc i k).netFiles (u.setPc i k).netInodes := by
  refine (hc.setPc i k).congr (fun f => ?_) fun n => ?_
  · rw [netFiles_setPc, netFiles_congr hpc, hpc]
  · rw [netInodes_setPc, netInodes_congr hpc, hpc]

/-- The references to a file from one slot and its thread. -/
def State.weight (s : State) (q : Slot) (f : Fin NFILE) : Int :=
  tally (s.proc q).ofile (some f) + (s.pc q).refs.netFiles f

theorem Counted.ref_eq (hc : Counted s s.netFiles N) (f : Fin NFILE) :
    ((s.file f).ref : Int) = ∑ q, s.weight q f := by
  unfold State.weight
  rw [hc.ref f, tally_prod, Finset.sum_add_distrib, Nat.cast_sum]
  rfl

theorem Counted.ref_pos (hc : Counted s s.netFiles N) {f : Fin NFILE}
    (hw : ∀ q, 0 ≤ s.weight q f) (hi : 0 < s.weight i f) : 0 < (s.file f).ref := by
  have hle : s.weight i f ≤ ∑ q, s.weight q f :=
    Finset.single_le_sum (fun q _ => hw q) (Finset.mem_univ i)
  have hr := hc.ref_eq f
  omega

end Net

/-! ### What the slot of a thread shows -/

/-- What a file system call finds in the slot of its thread. -/
def FsStage.Shows (r : Proc) : FsStage → Prop
  | .opened _ f | .dup f => ∃ fd, r.ofile fd = some f
  | .chdir _ cwd => r.cwd = cwd
  | .fd0 rf _ fd => r.ofile fd = some rf
  | _ => True

def CloseStage.Shows (r : Proc) : CloseStage → Prop
  | .iput fd f _ | .clear fd f => r.ofile fd = some f
  | .clearCwd ip => r.cwd = ip
  | _ => True

def Pc.Shows (k : Pc) (r : Proc) : Prop :=
  match k with
  | .fs st => st.Shows r
  | .exit st | .threadExit _ st => st.Shows r
  | _ => True

/-- The files that the call has just taken from the table. -/
def FsStage.fresh : FsStage → List (Fin NFILE)
  | .open _ f | .opened _ f => [f]
  | .pipe rf => [rf]
  | .pipes rf wf => [rf, wf]
  | _ => []

def Pc.fresh : Pc → List (Fin NFILE)
  | .fs st => st.fresh
  | _ => []

section Stages

variable {s u : State} {F : Fin NFILE → Int} {N : Nat → Int} {i : Slot}

theorem closing_refs (fs : List (Fin NFILE)) (ips : List Nat) :
    (State.closing fs ips).refs = ⟨fs, ips, [], []⟩ := by
  cases fs <;> rfl

theorem FsStage.netFiles_refs (st : FsStage) (g : Fin NFILE) :
    st.refs.netFiles g =
      match st with
      | .open _ f | .pipe f | .fd0 _ f _ => one (some f) g
      | .dup f => -one (some f) g
      | .pipes rf wf | .ends rf wf => one (some rf) g + one (some wf) g
      | .close f fs _ => one (some f) g + fs.count g
      | _ => 0 := by
  unfold Refs.netFiles
  cases st <;> simp only [refs, count_cons_one, List.count_nil] <;> omega

theorem FsStage.netInodes_refs (st : FsStage) (n : Nat) :
    st.refs.netInodes n =
      match st with
      | .io ips | .close _ _ ips => (ips.count n : Int)
      | .open ip _ | .opened ip _ => one (some ip) n
      | .chdir ip cwd => one (some ip) n - one cwd n
      | _ => 0 := by
  unfold Refs.netInodes
  cases st <;> simp only [refs, count_cons_one, count_toList, List.count_nil] <;> omega

theorem ref_setType (s : State) (f g : Fin NFILE) (type : FileType) :
    ((s.setType f type).file g).ref = (s.file g).ref := by
  unfold State.setType
  dsimp only
  rw [Function.update_apply]
  split_ifs with hg
  · rw [hg]
  · rfl

theorem inodes_setType {f g : Fin NFILE} {type : FileType} (ht : type ≠ .inode)
    (hg : s.inodes g = none) : (s.setType f type).inodes g = none := by
  unfold State.setType State.inodes
  dsimp only
  rw [Function.update_apply]
  split_ifs
  · exact if_neg ht
  · exact hg

/-- One step of a file system call and the references in its local variables. -/
theorem Counted.fsNext (hc : Counted s F N) {st st' : FsStage} {op : FsOp}
    (h : s.fsNext i st op = some (u, st')) (hshow : st.Shows (s.proc i))
    (hfresh : ∀ f ∈ st.fresh, (s.file f).type = .none ∧ 0 < (s.file f).ref) :
    Counted u (fun f => F f + st'.refs.netFiles f - st.refs.netFiles f)
      fun n => N n + st'.refs.netInodes n - st.refs.netInodes n := by
  have hinode : ∀ f ∈ st.fresh, s.inodes f = none := by
    intro f hf
    unfold State.inodes File.inode
    rw [(hfresh f hf).1]
    exact if_neg nofun
  unfold State.fsNext at h
  split at h
  · cases h
    refine hc.idup (fun f => ?_) fun n => ?_
    · simp only [FsStage.netFiles_refs]
      omega
    · simp only [FsStage.netInodes_refs, count_cons_one]
      omega
  · split_ifs at h with hmem
    cases h
    refine hc.iput (fun f => ?_) fun n => ?_
    · simp only [FsStage.netFiles_refs]
      omega
    · simp only [FsStage.netInodes_refs, count_erase_one hmem]
      omega
  · obtain ⟨f, hf, h⟩ := Option.map_eq_some_iff.mp h
    cases h
    refine hc.filealloc hf (fun g => ?_) fun n => ?_
    · simp only [FsStage.netFiles_refs]
      omega
    · simp only [FsStage.netInodes_refs, count_cons_one, List.count_nil]
      omega
  · split at h
    · next fd hfd =>
      cases h
      refine hc.setFd (fun g => ?_) fun n => ?_
      · simp only [FsStage.netFiles_refs, fdalloc_none hfd, one_none]
        omega
      · simp only [FsStage.netInodes_refs]
        omega
    · cases h
      refine hc.congr (fun g => ?_) fun n => ?_
      · simp only [FsStage.netFiles_refs, List.count_nil]
        omega
      · simp only [FsStage.netInodes_refs, count_cons_one, List.count_nil]
        omega
  · next ip f =>
    split_ifs at h
    cases h
    have hf : f ∈ (FsStage.opened ip f).fresh := List.mem_cons_self
    refine hc.setFile (fun h0 => absurd h0 (hfresh f hf).2.ne') ?_ (fun g _ => ?_) fun n => ?_
    · simp only [FsStage.netFiles_refs]
      omega
    · simp only [FsStage.netFiles_refs]
      omega
    · rw [hinode f hf, one_none]
      simp only [FsStage.netInodes_refs, List.count_nil, File.inode, if_true]
      omega
  · cases h
    refine hc.iput (fun f => ?_) fun n => ?_
    · simp only [FsStage.netFiles_refs]
      omega
    · simp only [FsStage.netInodes_refs, count_cons_one, List.count_nil]
      omega
  · next ip cwd =>
    split_ifs at h
    cases h
    have hcwd : (s.proc i).cwd = cwd := hshow
    refine hc.setCwd (fun f => ?_) fun n => ?_
    · simp only [FsStage.netFiles_refs]
      omega
    · simp only [FsStage.netInodes_refs, List.count_nil, hcwd]
      omega
  · split at h
    · next fd' _ hfd =>
      cases h
      refine hc.setFd (fun g => ?_) fun n => ?_
      · simp only [FsStage.netFiles_refs, fdalloc_none hfd, one_none]
        omega
      · simp only [FsStage.netInodes_refs, List.count_nil]
        omega
    · cases h
  · split_ifs at h
    cases h
    refine hc.filedup (fun f => ?_) fun n => ?_
    · simp only [FsStage.netFiles_refs]
      omega
    · simp only [FsStage.netInodes_refs, List.count_nil]
      omega
  · obtain ⟨f, hf, h⟩ := Option.map_eq_some_iff.mp h
    cases h
    refine hc.filealloc hf (fun g => ?_) fun n => ?_
    · simp only [FsStage.netFiles_refs]
      omega
    · simp only [FsStage.netInodes_refs, List.count_nil]
      omega
  · split at h
    · next wf hf =>
      cases h
      refine hc.filealloc hf (fun g => ?_) fun n => ?_
      · simp only [FsStage.netFiles_refs]
        omega
      · simp only [FsStage.netInodes_refs]
        omega
    · cases h
      refine hc.congr (fun g => ?_) fun n => ?_
      · simp only [FsStage.netFiles_refs, List.count_nil]
        omega
      · simp only [FsStage.netInodes_refs, List.count_nil]
        omega
  · next rf wf enough =>
    split_ifs at h
    · cases h
      have hrf : rf ∈ (FsStage.pipes rf wf).fresh := List.mem_cons_self
      have hwf : wf ∈ (FsStage.pipes rf wf).fresh := List.mem_cons_of_mem _ List.mem_cons_self
      have hne : FileType.pipe ≠ .inode := nofun
      have hread : Counted (s.setType rf .pipe) F N :=
        hc.setType (hfresh rf hrf).2 (hinode rf hrf) hne
      have hpos : 0 < ((s.setType rf .pipe).file wf).ref := by
        rw [ref_setType]
        exact (hfresh wf hwf).2
      refine (hread.setType hpos (inodes_setType hne (hinode wf hwf)) hne).congr
        (fun g => ?_) fun n => ?_
      · simp only [FsStage.netFiles_refs]
        omega
      · simp only [FsStage.netInodes_refs]
        omega
    · cases h
      refine hc.congr (fun g => ?_) fun n => ?_
      · simp only [FsStage.netFiles_refs, count_cons_one, List.count_nil]
        omega
      · simp only [FsStage.netInodes_refs, List.count_nil]
        omega
  · split at h
    · next fd hfd =>
      cases h
      refine hc.setFd (fun g => ?_) fun n => ?_
      · simp only [FsStage.netFiles_refs, fdalloc_none hfd, one_none]
        omega
      · simp only [FsStage.netInodes_refs]
        omega
    · cases h
      refine hc.congr (fun g => ?_) fun n => ?_
      · simp only [FsStage.netFiles_refs, count_cons_one, List.count_nil]
        omega
      · simp only [FsStage.netInodes_refs, List.count_nil]
        omega
  · next rf wf fd =>
    split at h
    · next fd' hfd =>
      cases h
      refine hc.setFd (fun g => ?_) fun n => ?_
      · simp only [FsStage.netFiles_refs, fdalloc_none hfd, one_none]
        omega
      · simp only [FsStage.netInodes_refs, List.count_nil]
        omega
    · cases h
      have hfd : (s.proc i).ofile fd = some rf := hshow
      refine hc.setFd (fun g => ?_) fun n => ?_
      · simp only [FsStage.netFiles_refs, count_cons_one, List.count_nil, hfd, one_none]
        omega
      · simp only [FsStage.netInodes_refs, List.count_nil]
        omega
  · next fd =>
    obtain ⟨f, hf, h⟩ := Option.map_eq_some_iff.mp h
    cases h
    refine hc.setFd (fun g => ?_) fun n => ?_
    · simp only [FsStage.netFiles_refs, List.count_nil, hf, one_none]
      omega
    · simp only [FsStage.netInodes_refs, List.count_nil]
      omega
  · next f fs ips =>
    split_ifs at h with hpos
    cases h
    refine hc.fileclose hpos (fun g => ?_) fun n => ?_
    · rw [FsStage.netFiles_refs (.close f fs ips), closing_refs, Refs.netFiles, List.count_nil]
      dsimp only
      omega
    · rw [FsStage.netInodes_refs (.close f fs ips), closing_refs, Refs.netInodes, List.count_nil,
        List.count_append, Nat.cast_add, count_toList]
      dsimp only
      omega
  · cases h

theorem CloseStage.netFiles_refs (st : CloseStage) (g : Fin NFILE) :
    st.refs.netFiles g =
      match st with
      | .iput _ f _ | .clear _ f => -one (some f) g
      | _ => 0 := by
  unfold Refs.netFiles
  cases st <;> simp only [refs, Refs.none, count_cons_one, List.count_nil] <;> omega

theorem CloseStage.netInodes_refs (st : CloseStage) (n : Nat) :
    st.refs.netInodes n =
      match st with
      | .iput _ _ ip => one (some ip) n
      | .clearCwd ip => -one ip n
      | _ => 0 := by
  unfold Refs.netInodes
  cases st <;> simp only [refs, Refs.none, count_cons_one, count_toList, List.count_nil] <;> omega

theorem refs_nextClose (fd : Fin NOFILE) : (State.nextClose fd).refs = .none := by
  unfold State.nextClose
  split <;> rfl

/-- One step of the part of `exit` and `thread_exit` that closes the files. -/
theorem Counted.closeNext (hc : Counted s F N) {st st' : CloseStage}
    (h : s.closeNext i st = some (u, st')) (hshow : st.Shows (s.proc i)) :
    Counted u (fun f => F f + st'.refs.netFiles f - st.refs.netFiles f)
      fun n => N n + st'.refs.netInodes n - st.refs.netInodes n := by
  cases st with
  | ofile fd =>
    unfold State.closeNext at h
    dsimp only at h
    split at h
    · next f hf =>
      split_ifs at h with hpos
      split at h
      · next ip hip =>
        cases h
        refine hc.fileclose hpos (fun g => ?_) fun n => ?_
        · simp only [CloseStage.netFiles_refs]
          omega
        · simp only [CloseStage.netInodes_refs, hip]
          omega
      · next hip =>
        cases h
        refine hc.fileclose hpos (fun g => ?_) fun n => ?_
        · simp only [CloseStage.netFiles_refs]
          omega
        · simp only [CloseStage.netInodes_refs, hip, one_none]
          omega
    · cases h
      refine hc.congr (fun g => ?_) fun n => ?_
      · rw [refs_nextClose, Refs.netFiles_none, CloseStage.netFiles_refs]
        dsimp only
        omega
      · rw [refs_nextClose, Refs.netInodes_none, CloseStage.netInodes_refs]
        dsimp only
        omega
  | iput fd f ip =>
    cases h
    refine hc.iput (fun g => ?_) fun n => ?_
    · simp only [CloseStage.netFiles_refs]
      omega
    · simp only [CloseStage.netInodes_refs]
      omega
  | clear fd f =>
    cases h
    have hfd : (s.proc i).ofile fd = some f := hshow
    refine hc.setFd (fun g => ?_) fun n => ?_
    · rw [refs_nextClose, Refs.netFiles_none, CloseStage.netFiles_refs, hfd, one_none]
      dsimp only
      omega
    · rw [refs_nextClose, Refs.netInodes_none, CloseStage.netInodes_refs]
      dsimp only
      omega
  | cwd =>
    cases h
    refine hc.iput (fun g => ?_) fun n => ?_
    · simp only [CloseStage.netFiles_refs]
      omega
    · simp only [CloseStage.netInodes_refs]
      omega
  | clearCwd cwd =>
    unfold State.closeNext at h
    dsimp only at h
    split_ifs at h
    cases h
    have hcwd : (s.proc i).cwd = cwd := hshow
    refine hc.setCwd (fun g => ?_) fun n => ?_
    · simp only [CloseStage.netFiles_refs]
      omega
    · simp only [CloseStage.netInodes_refs, hcwd, one_none]
      omega
  | last => cases h

theorem CopyStage.netFiles_refs (st : Option CopyStage) (g : Fin NFILE) :
    ((st.map CopyStage.refs).getD .none).netFiles g =
      match st with
      | some (.setOfile _ f) => one (some f) g
      | _ => 0 := by
  cases st with
  | none => rfl
  | some st =>
    change st.refs.netFiles g = _
    unfold Refs.netFiles
    cases st <;> simp only [refs, Refs.none, count_cons_one, List.count_nil] <;> omega

theorem CopyStage.netInodes_refs (st : Option CopyStage) (n : Nat) :
    ((st.map CopyStage.refs).getD .none).netInodes n =
      match st with
      | some (.setCwd ip) => one ip n
      | _ => 0 := by
  cases st with
  | none => rfl
  | some st =>
    change st.refs.netInodes n = _
    unfold Refs.netInodes
    cases st <;> simp only [refs, Refs.none, count_toList, List.count_nil] <;> omega

theorem refs_nextFd (fd : Fin NOFILE) : (State.nextFd fd).refs = .none := by
  unfold State.nextFd
  split <;> rfl

theorem refs_some (st : CopyStage) : ((some st).map CopyStage.refs).getD .none = st.refs := rfl

/-- One step of the loop that copies the files; what it sets was empty. -/
theorem Counted.copyNext (hc : Counted s F N) (p : Slot) {np : Slot} {st : CopyStage}
    (hempty : ∀ x, st.Ahead x → (s.proc np).Empty x) :
    Counted (s.copyNext p np st).1
      (fun f => F f + (((s.copyNext p np st).2.map CopyStage.refs).getD .none).netFiles f -
        st.refs.netFiles f)
      fun n => N n + (((s.copyNext p np st).2.map CopyStage.refs).getD .none).netInodes n -
        st.refs.netInodes n := by
  rw [← refs_some st]
  cases st with
  | ofile fd =>
    unfold State.copyNext
    dsimp only
    split
    · refine hc.congr (fun g => ?_) fun n => ?_
      · simp only [CopyStage.netFiles_refs]
        omega
      · simp only [CopyStage.netInodes_refs]
        omega
    · refine hc.congr (fun g => ?_) fun n => ?_
      · rw [refs_some, refs_nextFd, Refs.netFiles_none, CopyStage.netFiles_refs]
        dsimp only
        omega
      · rw [refs_some, refs_nextFd, Refs.netInodes_none, CopyStage.netInodes_refs]
        dsimp only
        omega
  | filedup fd f =>
    refine hc.filedup (fun g => ?_) fun n => ?_
    · simp only [State.copyNext, CopyStage.netFiles_refs]
      omega
    · simp only [State.copyNext, CopyStage.netInodes_refs]
      omega
  | setOfile fd f =>
    have hfd : (s.proc np).ofile fd = none := hempty (.fd fd) le_rfl
    refine hc.setFd (fun g => ?_) fun n => ?_
    · rw [State.copyNext, refs_some (State.nextFd fd), refs_nextFd, Refs.netFiles_none,
        CopyStage.netFiles_refs, hfd, one_none]
      dsimp only
      omega
    · rw [State.copyNext, refs_some (State.nextFd fd), refs_nextFd, Refs.netInodes_none,
        CopyStage.netInodes_refs]
      dsimp only
      omega
  | cwd =>
    unfold State.copyNext
    dsimp only
    split
    · refine hc.congr (fun g => ?_) fun n => ?_
      · simp only [CopyStage.netFiles_refs]
        omega
      · simp only [CopyStage.netInodes_refs]
        omega
    · refine hc.congr (fun g => ?_) fun n => ?_
      · simp only [CopyStage.netFiles_refs]
        omega
      · simp only [CopyStage.netInodes_refs, one_none]
        omega
  | idup ip =>
    unfold State.copyNext
    dsimp only
    refine hc.idup (fun g => ?_) fun n => ?_
    · simp only [CopyStage.netFiles_refs]
      omega
    · simp only [CopyStage.netInodes_refs]
      omega
  | setCwd ip =>
    have hcwd : (s.proc np).cwd = none := hempty .cwd trivial
    refine hc.setCwd (fun g => ?_) fun n => ?_
    · simp only [State.copyNext, CopyStage.netFiles_refs]
      omega
    · simp only [State.copyNext, CopyStage.netInodes_refs, hcwd, one_none]
      omega

/-! ### What the steps show -/

theorem shows_closing (fs : List (Fin NFILE)) (ips : List Nat) (r : Proc) :
    (State.closing fs ips).Shows r := by
  cases fs <;> trivial

theorem ofile_setFd (s : State) (i : Slot) (fd : Fin NOFILE) (f : Option (Fin NFILE)) :
    ((s.setFd i fd f).proc i).ofile fd = f := by
  unfold State.setFd
  rw [State.setProc_proc_self]
  exact Function.update_self _ _ _

theorem shows_fsNext {st st' : FsStage} {op : FsOp} (h : s.fsNext i st op = some (u, st')) :
    st'.Shows (u.proc i) := by
  unfold State.fsNext at h
  split at h
  · cases h
    trivial
  · split_ifs at h
    cases h
    trivial
  · obtain ⟨f, -, h⟩ := Option.map_eq_some_iff.mp h
    cases h
    trivial
  · split at h
    · next fd _ =>
      cases h
      exact ⟨fd, ofile_setFd _ _ _ _⟩
    · cases h
      trivial
  · split_ifs at h
    cases h
    trivial
  · cases h
    exact congrArg Proc.cwd (congrFun (proc_iput _ _) i)
  · split_ifs at h
    cases h
    trivial
  · split at h
    · next fd' _ _ =>
      cases h
      exact ⟨fd', ofile_setFd _ _ _ _⟩
    · cases h
  · split_ifs at h
    cases h
    trivial
  · obtain ⟨f, -, h⟩ := Option.map_eq_some_iff.mp h
    cases h
    trivial
  · split at h <;> cases h <;> trivial
  · split_ifs at h <;> cases h <;> trivial
  · split at h
    · cases h
      exact ofile_setFd _ _ _ _
    · cases h
      trivial
  · split at h <;> cases h <;> trivial
  · obtain ⟨f, -, h⟩ := Option.map_eq_some_iff.mp h
    cases h
    trivial
  · split_ifs at h
    cases h
    exact shows_closing _ _ _
  · cases h

theorem shows_nextClose (fd : Fin NOFILE) (r : Proc) : (State.nextClose fd).Shows r := by
  unfold State.nextClose
  split <;> trivial

theorem shows_closeNext {st st' : CloseStage} (h : s.closeNext i st = some (u, st'))
    (hshow : st.Shows (s.proc i)) : st'.Shows (u.proc i) := by
  cases st with
  | ofile fd =>
    unfold State.closeNext at h
    dsimp only at h
    split at h
    · next f hf =>
      split_ifs at h
      split at h
      · cases h
        rw [proc_fileclose]
        exact hf
      · cases h
        rw [proc_fileclose]
        exact hf
    · cases h
      exact shows_nextClose _ _
  | iput fd f ip =>
    cases h
    exact hshow
  | clear fd f =>
    cases h
    exact shows_nextClose _ _
  | cwd =>
    cases h
    rw [proc_iput]
    rfl
  | clearCwd cwd =>
    unfold State.closeNext at h
    dsimp only at h
    split_ifs at h
    cases h
    trivial
  | last => cases h

/-- A file that a call has just taken was free before the step or taken already. -/
theorem fresh_fsNext {st st' : FsStage} {op : FsOp} (h : s.fsNext i st op = some (u, st'))
    {f : Fin NFILE} (hf : f ∈ st'.fresh) : f ∈ st.fresh ∨ (s.file f).ref = 0 := by
  have hfree : ∀ {g}, s.filealloc = some g → (s.file g).ref = 0 := fun hg => by
    simpa using List.find?_some hg
  unfold State.fsNext at h
  split at h
  · cases h
    cases hf
  · split_ifs at h
    cases h
    cases hf
  · obtain ⟨g, hg, h⟩ := Option.map_eq_some_iff.mp h
    cases h
    rw [List.mem_singleton.mp hf]
    exact Or.inr (hfree hg)
  · split at h
    · cases h
      exact Or.inl hf
    · cases h
      cases hf
  · split_ifs at h
    cases h
    cases hf
  · cases h
    cases hf
  · split_ifs at h
    cases h
    cases hf
  · split at h <;> cases h
    cases hf
  · split_ifs at h
    cases h
    cases hf
  · obtain ⟨g, hg, h⟩ := Option.map_eq_some_iff.mp h
    cases h
    rw [List.mem_singleton.mp hf]
    exact Or.inr (hfree hg)
  · split at h
    · next wf hwf =>
      cases h
      rcases List.mem_cons.mp hf with hf | hf
      · exact Or.inl (List.mem_singleton.mpr hf)
      · rw [List.mem_singleton.mp hf]
        exact Or.inr (hfree hwf)
    · cases h
      cases hf
  · split_ifs at h <;> cases h <;> cases hf
  · split at h <;> cases h <;> cases hf
  · split at h <;> cases h <;> cases hf
  · obtain ⟨g, -, h⟩ := Option.map_eq_some_iff.mp h
    cases h
    cases hf
  · next f fs ips =>
    split_ifs at h
    cases h
    cases fs <;> cases hf
  · cases h

theorem type_fileclose {f : Fin NFILE} (g : Fin NFILE) (h : (s.file f).type = .none) :
    ((s.fileclose g).1.file f).type = .none := by
  unfold State.fileclose
  dsimp only
  split_ifs
  · dsimp only
    rw [Function.update_apply]
    split_ifs with hfg
    · rw [← hfg]
      exact h
    · exact h
  · dsimp only
    rw [Function.update_apply]
    split_ifs
    · rfl
    · exact h

theorem type_setFile {f g : Fin NFILE} {r : File} (h : (s.file f).type = .none)
    (hr : f = g → r.type = .none) : (Function.update s.file g r f).type = .none := by
  rw [Function.update_apply]
  split_ifs with hfg
  · exact hr hfg
  · exact h

/-- Only the call that has taken a file gives it a type. -/
theorem type_fsNext {st st' : FsStage} {op : FsOp} (h : s.fsNext i st op = some (u, st'))
    {f : Fin NFILE} (hf : (s.file f).type = .none) (hno : f ∉ st.fresh ∨ f ∈ st'.fresh) :
    (u.file f).type = .none := by
  unfold State.fsNext at h
  split at h
  · cases h
    exact hf
  · split_ifs at h
    cases h
    exact hf
  · obtain ⟨g, -, h⟩ := Option.map_eq_some_iff.mp h
    cases h
    exact type_setFile hf fun hfg => hfg ▸ hf
  · split at h <;> cases h <;> exact hf
  · next ip g =>
    split_ifs at h
    cases h
    have hfg : f ≠ g := fun hc => by
      rcases hno with hno | hno
      · exact hno (List.mem_singleton.mpr hc)
      · cases hno
    exact type_setFile hf fun hc => absurd hc hfg
  · cases h
    cases (s.proc i).cwd <;> exact hf
  · split_ifs at h
    cases h
    exact hf
  · split at h <;> cases h
    exact hf
  · split_ifs at h
    cases h
    exact type_setFile hf fun hfg => hfg ▸ hf
  · obtain ⟨g, -, h⟩ := Option.map_eq_some_iff.mp h
    cases h
    exact type_setFile hf fun hfg => hfg ▸ hf
  · split at h
    · cases h
      exact type_setFile hf fun hfg => hfg ▸ hf
    · cases h
      exact hf
  · next rf wf enough =>
    split_ifs at h
    · cases h
      have hno : f ≠ rf ∧ f ≠ wf := by
        rcases hno with hno | hno
        · exact ⟨fun hc => hno (List.mem_cons.mpr (Or.inl hc)),
            fun hc => hno (List.mem_cons_of_mem _ (List.mem_singleton.mpr hc))⟩
        · cases hno
      exact type_setFile (type_setFile hf fun hc => absurd hc hno.1) fun hc => absurd hc hno.2
    · cases h
      exact hf
  · split at h <;> cases h <;> exact hf
  · split at h <;> cases h <;> exact hf
  · obtain ⟨g, -, h⟩ := Option.map_eq_some_iff.mp h
    cases h
    exact hf
  · split_ifs at h
    cases h
    exact type_fileclose _ hf
  · cases h

theorem type_closeNext {st st' : CloseStage} (h : s.closeNext i st = some (u, st'))
    {f : Fin NFILE} (hf : (s.file f).type = .none) : (u.file f).type = .none := by
  cases st with
  | ofile fd =>
    unfold State.closeNext at h
    dsimp only at h
    split at h
    · split_ifs at h
      split at h <;> cases h <;> exact type_fileclose _ hf
    · cases h
      exact hf
  | cwd =>
    cases h
    cases (s.proc i).cwd <;> exact hf
  | clearCwd ip =>
    unfold State.closeNext at h
    dsimp only at h
    split_ifs at h
    cases h
    exact hf
  | iput fd g ip =>
    cases h
    exact hf
  | clear fd g =>
    cases h
    exact hf
  | last => cases h

theorem type_copyNext {p np : Slot} {st : CopyStage} {f : Fin NFILE}
    (hf : (s.file f).type = .none) : ((s.copyNext p np st).1.file f).type = .none := by
  cases st with
  | ofile fd =>
    unfold State.copyNext
    dsimp only
    split <;> exact hf
  | filedup fd g => exact type_setFile hf fun hfg => hfg ▸ hf
  | cwd =>
    unfold State.copyNext
    dsimp only
    split <;> exact hf
  | _ => exact hf

end Stages

end Xv6.Threads
