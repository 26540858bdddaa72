import Xv6.Threads.OpenFiles

/-!
# The references of threads that are gone

A thread that returns from `exit` or `thread_exit` has closed its files (proc.c:254-266,
732-741). Those that `exit` and `cleanforexec` clean (proc.c:278-286, 637-647) have not, and
neither have they dropped what they had in their local variables: nobody will.
-/

namespace Xv6.Threads

open Mlfq (NPROC Slot Procstate)
open Transition

/-- Neither UNUSED nor ZOMBIE. -/
def State.live (s : State) (q : Slot) : Prop :=
  (s.proc q).state ≠ .unused ∧ (s.proc q).state ≠ .zombie

instance (s : State) (q : Slot) : Decidable (s.live q) := inferInstanceAs (Decidable (_ ∧ _))

namespace State

/-- The descriptors of live slots that refer to a file. -/
def descriptors (s : State) (f : Fin NFILE) : Nat :=
  (Finset.univ.filter fun x : Slot × Fin NOFILE =>
    s.live x.1 ∧ (s.proc x.1).ofile x.2 = some f).card

/-- The open files that refer to an inode, and the live slots whose current directory it is. -/
def holders (s : State) (n : Nat) : Nat :=
  (Finset.univ.filter fun f =>
    0 < (s.file f).ref ∧ (s.file f).type = .inode ∧ (s.file f).ip = some n).card +
  (Finset.univ.filter fun q => s.live q ∧ (s.proc q).cwd = some n).card

end State

/-- The references to a file are the descriptors of live slots, those to an inode the
open files and the current directories of live slots. -/
structure Balanced (s : State) : Prop where
  ref : ∀ f, (s.file f).ref = s.descriptors f
  iref : ∀ n, s.iref n = s.holders n

/-- The same in the middle of system calls, with what the threads have in their local variables
and what their slots still show. -/
structure Accounted (s : State) : Prop where
  ref : ∀ f, ((s.file f).ref : Int) = s.descriptors f + s.netFiles f
  iref : ∀ n, s.iref n = s.holders n + s.netInodes n

/-- The slots that come out of use have no open file and no current directory, and their threads
have no reference in a local variable. -/
def filesOk (s : State) (a : Action) : Bool :=
  ∀ q, s.frees a q = true →
    (∀ fd, (s.proc q).ofile fd = none) ∧ (s.proc q).cwd = none ∧ (s.pc q).refs = .none

def FilesOk (s : State) (a : Action) : Prop := idsOk s a = true ∧ filesOk s a = true

instance (s : State) (a : Action) : Decidable (FilesOk s a) :=
  inferInstanceAs (Decidable (_ ∧ _))

structure FilesInv (s : State) : Prop where
  counted : Counted s s.netFiles s.netInodes
  clean : ∀ x, Clean s x
  shows : ∀ q, (s.pc q).Shows (s.proc q)
  fresh : ∀ q f, f ∈ (s.pc q).fresh → (s.file f).type = .none
  single : ∀ q r f, f ∈ (s.pc q).fresh → f ∈ (s.pc r).fresh → q = r

section Steps

variable {s t u : State} {a : Action} {i q : Slot}

/-! ### Files with a reference -/

theorem owed_of_shows {k : Pc} {r : Proc} (h : k.Shows r) :
    k.refs.owedFiles = [] ∨ ∃ fd f, k.refs.owedFiles = [f] ∧ r.ofile fd = some f := by
  have hclose : ∀ st : CloseStage, st.Shows r →
      st.refs.owedFiles = [] ∨ ∃ fd f, st.refs.owedFiles = [f] ∧ r.ofile fd = some f := by
    intro st hst
    cases st with
    | iput fd f ip => exact Or.inr ⟨fd, f, rfl, hst⟩
    | clear fd f => exact Or.inr ⟨fd, f, rfl, hst⟩
    | _ => exact Or.inl rfl
  have hcopy : ∀ st : CopyStage, st.refs.owedFiles = [] := fun st => by cases st <;> rfl
  cases k with
  | fs st =>
    cases st with
    | dup f =>
      obtain ⟨fd, hfd⟩ := h
      exact Or.inr ⟨fd, f, rfl, hfd⟩
    | _ => exact Or.inl rfl
  | exit st => exact hclose st h
  | threadExit retval st => exact hclose st h
  | fork np st =>
    cases st with
    | files st => exact Or.inl (hcopy st)
    | _ => exact Or.inl rfl
  | thread np main st =>
    cases st with
    | files st => exact Or.inl (hcopy st)
    | _ => exact Or.inl rfl
  | exec pd st => cases st <;> exact Or.inl rfl
  | _ => exact Or.inl rfl

/-- A reference that is owed is still in the table. -/
theorem weight_nonneg (h : (s.pc q).Shows (s.proc q)) (f : Fin NFILE) : 0 ≤ s.weight q f := by
  unfold State.weight Refs.netFiles
  rcases owed_of_shows h with howed | ⟨fd, g, howed, hfd⟩
  · rw [howed, List.count_nil]
    omega
  · have hcount := count_cons_one g f []
    rw [howed]
    unfold one at hcount
    split_ifs at hcount with hgf
    · have hpos := tally_pos (hgf ▸ hfd)
      rw [List.count_nil] at hcount
      omega
    · rw [List.count_nil] at hcount
      omega

theorem refs_of_fresh {k : Pc} {r : Proc} (h : k.Shows r) {f : Fin NFILE} (hf : f ∈ k.fresh) :
    k.refs.owedFiles = [] ∧ (f ∈ k.refs.files ∨ ∃ fd, r.ofile fd = some f) := by
  cases k with
  | fs st =>
    cases st with
    | opened ip g =>
      rw [List.mem_singleton.mp hf]
      exact ⟨rfl, Or.inr h⟩
    | «open» ip g => exact ⟨rfl, Or.inl hf⟩
    | pipe g => exact ⟨rfl, Or.inl hf⟩
    | pipes rf wf => exact ⟨rfl, Or.inl hf⟩
    | _ => cases hf
  | _ => cases hf

theorem weight_fresh (h : (s.pc q).Shows (s.proc q)) {f : Fin NFILE} (hf : f ∈ (s.pc q).fresh) :
    0 < s.weight q f := by
  obtain ⟨howed, hfile⟩ := refs_of_fresh h hf
  unfold State.weight Refs.netFiles
  rw [howed, List.count_nil]
  rcases hfile with hfile | ⟨fd, hfd⟩
  · have hpos := List.count_pos_iff.mpr hfile
    omega
  · have hpos := tally_pos hfd
    omega

namespace FilesInv

theorem ref_fresh (hi : FilesInv s) {f : Fin NFILE} (hf : f ∈ (s.pc q).fresh) :
    0 < (s.file f).ref :=
  hi.counted.ref_pos (fun r => weight_nonneg (hi.shows r) f) (weight_fresh (hi.shows q) hf)

/-! ### Steps -/

theorem counted_step (hi : FilesInv s) (hok : filesOk s a = true) (h : FilesEffect s a t) :
    Counted t t.netFiles t.netInodes := by
  have hc := hi.counted
  cases h with
  | same h hr _ =>
    have hfree : ∀ q, s.frees a q = true → (s.pc q).refs = .none := fun q hq =>
      ((of_decide_eq_true hok : ∀ q, _) q hq).2.2
    have hrefs : ∀ q, (t.pc q).refs = (s.pc q).refs := by
      intro q
      rcases hr q with hr | ⟨hq, hr⟩
      · exact hr
      · rw [hr, hfree q hq]
    refine (h.counted hc).congr (fun f => ?_) fun n => ?_
    · exact Finset.sum_congr rfl fun q _ => by rw [hrefs]
    · exact Finset.sum_congr rfl fun q _ => by rw [hrefs]
  | fs i op st st' u ha hrun hpc h ht =>
    have hfresh : ∀ f ∈ st.fresh, (s.file f).type = .none ∧ 0 < (s.file f).ref := by
      intro f hf
      have hmem : f ∈ (s.pc i).fresh := by
        rw [hpc]
        exact hf
      exact ⟨hi.fresh i f hmem, hi.ref_fresh hmem⟩
    have hshow := hi.shows i
    rw [hpc] at hshow
    rw [ht]
    have hu := hc.fsNext h hshow hfresh
    refine Counted.goOn (OnlyFiles.fsNext h).quiet.pc (hu.congr (fun f => ?_) fun n => ?_)
    · rw [hpc]
      rfl
    · rw [hpc]
      rfl
  | close i retval st st' u ha hrun hpc h ht =>
    have hrefs : ∀ st, (Pc.close retval st).refs = st.refs := fun st => by cases retval <;> rfl
    have hshow : st.Shows (s.proc i) := by
      have hi := hi.shows i
      rw [hpc] at hi
      cases retval <;> exact hi
    rw [ht]
    have hu := hc.closeNext h hshow
    refine Counted.goOn (OnlyFiles.closeNext h).quiet.pc (hu.congr (fun f => ?_) fun n => ?_)
    · rw [hpc, hrefs, hrefs]
    · rw [hpc, hrefs, hrefs]
  | put i pd ip hrun hpc ht =>
    have hload : (Pc.exec pd (.load ip)).refs = (FsStage.io [ip]).refs := rfl
    have hclean : (Pc.exec pd .clean).refs = .none := rfl
    rw [ht]
    refine Counted.goOn (s := s) (by rfl) (hc.iput (fun f => ?_) fun n => ?_)
    · rw [hpc, hload, hclean, FsStage.netFiles_refs, Refs.netFiles_none]
      dsimp only
      omega
    · have hone := count_cons_one ip n []
      rw [hpc, hload, hclean, FsStage.netInodes_refs, Refs.netInodes_none]
      rw [List.count_nil] at hone
      dsimp only
      omega
  | copy i np main st ha hrun hpc ht =>
    have hempty : ∀ x, st.Ahead x → (s.proc np).Empty x := by
      intro x hx
      apply (hi.clean x).ahead i np
      rw [hpc]
      exact Pc.ahead_copy.mpr ⟨rfl, st, rfl, hx⟩
    rw [ht]
    have hu := hc.copyNext (main.getD i) hempty
    refine Counted.goOn (OnlyFiles.copyNext s _ np st).quiet.pc
      (hu.congr (fun f => ?_) fun n => ?_)
    · rw [hpc, Pc.refs_copy, Pc.refs_copy]
      rfl
    · rw [hpc, Pc.refs_copy, Pc.refs_copy]
      rfl

theorem shows_of_same {k : Pc} {r r' : Proc} (ho : r'.ofile = r.ofile) (hcw : r'.cwd = r.cwd)
    (h : k.Shows r) : k.Shows r' := by
  have hclose : ∀ st : CloseStage, st.Shows r → st.Shows r' := by
    intro st hst
    cases st with
    | iput fd f ip => exact (congrFun ho fd).trans hst
    | clear fd f => exact (congrFun ho fd).trans hst
    | clearCwd ip => exact hcw.trans hst
    | _ => trivial
  cases k with
  | fs st =>
    cases st with
    | opened ip f =>
      obtain ⟨fd, hfd⟩ := h
      exact ⟨fd, (congrFun ho fd).trans hfd⟩
    | dup f =>
      obtain ⟨fd, hfd⟩ := h
      exact ⟨fd, (congrFun ho fd).trans hfd⟩
    | chdir ip cwd => exact hcw.trans h
    | fd0 rf wf fd => exact (congrFun ho fd).trans h
    | _ => trivial
  | exit st => exact hclose st h
  | threadExit retval st => exact hclose st h
  | _ => trivial

theorem shows_of_loose {k : Pc} {r : Proc} (hk : k.loose = true) : k.Shows r := by
  cases k with
  | fs st =>
    cases st with
    | io ips => trivial
    | _ => cases hk
  | exit st =>
    rw [of_decide_eq_true hk]
    trivial
  | threadExit retval st =>
    rw [of_decide_eq_true hk]
    trivial
  | _ => trivial

theorem shows_step (hi : FilesInv s) (hst : Sound t) (h : FilesEffect s a t) (q : Slot) :
    (t.pc q).Shows (t.proc q) := by
  cases h.slot q with
  | same ho hcw hc =>
    rcases hc with hc | hc
    · rw [hc]
      exact shows_of_same ho hcw (hi.shows q)
    · exact shows_of_loose hc
  | fs op st st' u hrun hpc h ht =>
    rw [ht, State.setPc_pc, if_pos rfl, State.setPc_proc]
    exact shows_fsNext h
  | close retval st st' u hrun hpc h ht =>
    have hshow : st.Shows (s.proc q) := by
      have hi := hi.shows q
      rw [hpc] at hi
      cases retval <;> exact hi
    have hu := shows_closeNext h hshow
    rw [ht, State.setPc_pc, if_pos rfl, State.setPc_proc]
    cases retval <;> exact hu
  | copy i main st hrun hpc ht =>
    -- a slot that is set up has no thread yet
    have hembryo : (t.proc q).phase = .embryo := by
      apply hst.embryo (i := i)
      rw [ht, State.setPc_pc, if_pos rfl, Pc.owns_copy]
    have huser : t.pc q = .user := by
      by_contra hu
      rw [hst.busy q hu] at hembryo
      cases hembryo
    rw [huser]
    trivial

theorem fresh_of_loose {k : Pc} (hk : k.loose = true) : k.fresh = [] := by
  cases k with
  | fs st =>
    cases st with
    | io ips => rfl
    | _ => cases hk
  | _ => rfl

/-- A file that a call has just taken was taken before by the same call, or it was free. -/
theorem fresh_before (h : FilesEffect s a t) {f : Fin NFILE} (hf : f ∈ (t.pc q).fresh) :
    f ∈ (s.pc q).fresh ∨ (s.file f).ref = 0 := by
  have hcopy : ∀ main np st, (Pc.copy main np st).fresh = [] := fun main np st => by
    cases main <;> rfl
  have hsame : (t.pc q = s.pc q ∨ (t.pc q).loose = true) → f ∈ (s.pc q).fresh := by
    intro hc
    rcases hc with hc | hc
    · rw [← hc]
      exact hf
    · rw [fresh_of_loose hc] at hf
      cases hf
  cases h.slot q with
  | same ho hcw hc => exact Or.inl (hsame hc)
  | fs op st st' u hrun hpc h ht =>
    rw [ht, State.setPc_pc, if_pos rfl] at hf
    rw [hpc]
    exact fresh_fsNext h hf
  | close retval st st' u hrun hpc h ht =>
    rw [ht, State.setPc_pc, if_pos rfl] at hf
    cases retval <;> cases hf
  | copy i main st hrun hpc ht =>
    left
    rw [ht, State.setPc_pc] at hf
    split_ifs at hf
    · rw [hcopy] at hf
      cases hf
    · rw [(OnlyFiles.copyNext s _ q st).quiet.pc] at hf
      exact hf

theorem type_step (hi : FilesInv s) (h : FilesEffect s a t) {f : Fin NFILE}
    (hf : f ∈ (t.pc q).fresh) : (t.file f).type = .none := by
  have hs : (s.file f).type = .none := by
    rcases fresh_before h hf with hq | h0
    · exact hi.fresh q f hq
    · exact hi.counted.closed f h0
  have hold := fresh_before h hf
  cases h with
  | same h hr hc =>
    rw [h.file]
    exact hs
  | fs i op st st' u ha hrun hpc h ht =>
    rw [ht]
    refine type_fsNext h hs ?_
    by_cases hqi : q = i
    · right
      rw [ht, hqi, State.setPc_pc, if_pos rfl] at hf
      exact hf
    left
    intro hmem
    have hfi : f ∈ (s.pc i).fresh := by
      rw [hpc]
      exact hmem
    rcases hold with hold | h0
    · exact hqi (hi.single q i f hold hfi)
    · exact absurd h0 (hi.ref_fresh hfi).ne'
  | close i retval st st' u ha hrun hpc h ht =>
    rw [ht]
    exact type_closeNext h hs
  | put i pd ip hrun hpc ht =>
    rw [ht]
    exact hs
  | copy i np main st ha hrun hpc ht =>
    rw [ht]
    exact type_copyNext hs

theorem single_step (hi : FilesInv s) (h : FilesEffect s a t) {q r : Slot} {f : Fin NFILE}
    (hq : f ∈ (t.pc q).fresh) (hr : f ∈ (t.pc r).fresh) : q = r := by
  -- only one thread has moved
  have hmoved : ∃ i, ∀ p, p ≠ i → f ∈ (t.pc p).fresh → f ∈ (s.pc p).fresh := by
    have hsame : ∀ p, (t.pc p = s.pc p ∨ (t.pc p).loose = true) → f ∈ (t.pc p).fresh →
        f ∈ (s.pc p).fresh := by
      intro p hc hp
      rcases hc with hc | hc
      · rw [← hc]
        exact hp
      · rw [fresh_of_loose hc] at hp
        cases hp
    have hset : ∀ {i : Slot} {u : State} {k : Pc}, u.pc = s.pc → t = u.setPc i k →
        ∃ i, ∀ p, p ≠ i → f ∈ (t.pc p).fresh → f ∈ (s.pc p).fresh := by
      intro i u k hu ht
      refine ⟨i, fun p hp hmem => ?_⟩
      rw [ht, State.setPc_pc, if_neg hp, hu] at hmem
      exact hmem
    cases h with
    | same h _ hc => exact ⟨0, fun p _ => hsame p (hc p)⟩
    | fs i op st st' u ha hrun hpc h ht => exact hset (OnlyFiles.fsNext h).quiet.pc ht
    | close i retval st st' u ha hrun hpc h ht => exact hset (OnlyFiles.closeNext h).quiet.pc ht
    | put i pd ip hrun hpc ht => exact hset (OnlyFiles.iput i s (some ip)).quiet.pc ht
    | copy i np main st ha hrun hpc ht => exact hset (OnlyFiles.copyNext s _ np st).quiet.pc ht
  obtain ⟨i, hmoved⟩ := hmoved
  have hfree : ∀ {p p' : Slot}, f ∈ (t.pc p).fresh → f ∈ (s.pc p').fresh → f ∈ (s.pc p).fresh := by
    intro p p' hp hp'
    rcases fresh_before h hp with hp | h0
    · exact hp
    · exact absurd h0 (hi.ref_fresh hp').ne'
  by_cases hqr : q = r
  · exact hqr
  by_cases hqi : q = i
  · have hr' := hmoved r (fun hri => hqr (hqi.trans hri.symm)) hr
    exact hi.single q r f (hfree hq hr') hr'
  · have hq' := hmoved q hqi hq
    exact hi.single q r f hq' (hfree hr hq')

theorem step (hs : Sound s) (hi : FilesInv s) (hok : FilesOk s a) (h : step s a = some t) :
    FilesInv t := by
  have heff := step_effect h
  have hfiles := files_effect heff
  have hst : Sound t := hs.step hok.1 h
  have hfree : ∀ q, s.frees a q = true →
      (∀ fd, (s.proc q).ofile fd = none) ∧ (s.proc q).cwd = none ∧ (s.pc q).refs = .none :=
    of_decide_eq_true hok.2
  refine ⟨hi.counted_step hok.2 hfiles, fun x => ?_, hi.shows_step hst hfiles,
    fun q f => hi.type_step hfiles, fun q r f => hi.single_step hfiles⟩
  refine (hi.clean x).step hs heff hst fun q hq => ?_
  cases x with
  | fd fd => exact (hfree q hq).1 fd
  | cwd => exact (hfree q hq).2.1

end FilesInv

end Steps

/-! ### Runs -/

theorem netFiles_eq_zero {s : State} (h : ∀ q, (s.pc q).refs = .none) (f : Fin NFILE) :
    s.netFiles f = 0 :=
  Finset.sum_eq_zero fun q _ => by rw [h q, Refs.netFiles_none]

theorem netInodes_eq_zero {s : State} (h : ∀ q, (s.pc q).refs = .none) (n : Nat) :
    s.netInodes n = 0 :=
  Finset.sum_eq_zero fun q _ => by rw [h q, Refs.netInodes_none]

theorem filesInv_userinit : FilesInv userinit := by
  refine ⟨⟨fun f => ?_, fun n => ?_, fun f _ => rfl⟩, clean_userinit, fun q => trivial,
    fun q f hf => ?_, fun q r f hf => ?_⟩
  · have hz : tally userinit.fds (some f) = 0 := by
      refine tally_eq_zero.mpr fun x hx => ?_
      rw [State.fds, userinit_ofile] at hx
      cases hx
    rw [hz, netFiles_eq_zero fun _ => rfl]
    rfl
  · have hcwds : userinit.cwds = Function.update (fun _ => none) 0 (some ROOTINO) := by
      funext q
      unfold State.cwds
      rw [userinit_cwd, Function.update_apply]
    have hino : tally userinit.inodes (some n) = 0 := tally_eq_zero.mpr fun f => nofun
    have hnone : tally (fun _ : Slot => (none : Option Nat)) (some n) = 0 :=
      tally_eq_zero.mpr fun q => nofun
    have hu := tally_update_one (fun _ : Slot => (none : Option Nat)) 0 (some ROOTINO) n
    rw [hino, hcwds, hu, hnone, one_none, netInodes_eq_zero fun _ => rfl]
    change Function.update (fun _ => (0 : Int)) ROOTINO 1 n = _
    rw [Function.update_apply, one]
    simp only [Option.some.injEq, eq_comm (a := ROOTINO)]
    omega
  · cases hf
  · cases hf

namespace FilesInv

variable {s : State} {q : Slot}

theorem live (h : FilesInv s) (x : Item) (hq : ¬(s.proc q).Empty x) : s.live q :=
  ⟨fun hu => hq ((h.clean x).gone q (Or.inl (Proc.phase_unused.mpr hu))),
    fun hz => hq ((h.clean x).gone q (Or.inr (Proc.phase_zombie.mpr hz)))⟩

theorem descriptors_eq (h : FilesInv s) (f : Fin NFILE) :
    s.descriptors f = tally s.fds (some f) := by
  refine congrArg Finset.card (Finset.filter_congr fun x _ => ⟨And.right, fun hx => ⟨?_, hx⟩⟩)
  refine h.live (.fd x.2) fun hb => ?_
  have hnone : s.fds x = none := hb
  rw [hnone] at hx
  cases hx

theorem holders_eq (h : FilesInv s) (n : Nat) :
    s.holders n = tally s.inodes (some n) + tally s.cwds (some n) := by
  have hfile : ∀ f, s.inodes f = some n ↔
      0 < (s.file f).ref ∧ (s.file f).type = .inode ∧ (s.file f).ip = some n := by
    intro f
    unfold State.inodes File.inode
    split_ifs with hf
    · refine ⟨fun hip => ⟨Nat.pos_of_ne_zero fun h0 => ?_, hf, hip⟩, fun hip => hip.2.2⟩
      rw [h.counted.closed f h0] at hf
      cases hf
    · exact ⟨nofun, fun hip => absurd hip.2.1 hf⟩
  have hcwd : ∀ q, s.cwds q = some n ↔ s.live q ∧ (s.proc q).cwd = some n := by
    refine fun q => ⟨fun hq => ⟨h.live .cwd fun hb => ?_, hq⟩, And.right⟩
    have hnone : s.cwds q = none := hb
    rw [hnone] at hq
    cases hq
  unfold State.holders tally
  simp only [hfile, hcwd]

theorem accounted (h : FilesInv s) : Accounted s := by
  refine ⟨fun f => ?_, fun n => ?_⟩
  · rw [h.descriptors_eq]
    exact h.counted.ref f
  · rw [h.holders_eq, Nat.cast_add]
    exact h.counted.iref n

end FilesInv

theorem Accounted.balanced {s : State} (h : Accounted s) (hr : ∀ q, (s.pc q).refs = .none) :
    Balanced s := by
  refine ⟨fun f => ?_, fun n => ?_⟩
  · have hf := h.ref f
    rw [netFiles_eq_zero hr] at hf
    omega
  · have hn := h.iref n
    rw [netInodes_eq_zero hr] at hn
    omega

theorem balanced_of_reach {s : State} (hr : Reach step FilesOk userinit s) :
    Accounted s ∧ ((∀ q, (s.pc q).refs = .none) → Balanced s) := by
  have hinv : Sound s ∧ FilesInv s := by
    refine hr.invariant (I := fun s => Sound s ∧ FilesInv s) ⟨sound_userinit, filesInv_userinit⟩ ?_
    intro u a v ⟨hu, hi⟩ hok hv
    exact ⟨hu.step hok.1 hv, hi.step hu hok hv⟩
  have ha := hinv.2.accounted
  exact ⟨ha, ha.balanced⟩

def firstFile : Fin NFILE := ⟨0, by decide⟩

def firstFd : Fin NOFILE := ⟨0, nofile_pos⟩

-- The thread in slot 2 opens a file and closes it in thread_exit, then slot 1 exits.
def closesFiles : List Action :=
  processAndThread ++ openSteps 1 5 ++ [.yield 1, .sched 2] ++ openSteps 2 6 ++
    threadExitSteps 2 0 2 ++ [.sched 1] ++ exitSteps 1 2

def threadClosed : State := (run (guarded step FilesOk) userinit closesFiles).getD userinit

theorem balanced_of_reach_threadClosed :
    Balanced threadClosed ∧ (threadClosed.proc 2).state = .unused := by
  have hfacts : (run (guarded step FilesOk) userinit closesFiles).isSome ∧
      (∀ q, (threadClosed.pc q).refs = .none) ∧ (threadClosed.proc 2).state = .unused := by
    decide +kernel
  obtain ⟨hrun, hrefs, hunused⟩ := hfacts
  have hr : Reach step FilesOk userinit threadClosed := reach_of_guarded_run (eq_some_getD hrun)
  exact ⟨(balanced_of_reach hr).2 hrefs, hunused⟩

/-- Slot 1 exits while the thread in slot 2 still has its file open. -/
theorem not_balanced_of_reach :
    ¬ ∀ s, Reach step (fun s a => idsOk s a = true) userinit s →
      (∀ q, (s.pc q).refs = .none) → Balanced s := by
  intro hall
  have hrun : (run (guarded step fun s a => idsOk s a = true) userinit (.sched 0 ::
      openSteps 0 5 ++ forkSteps 0 1 1 ++ closeSteps 0 firstFd ++ [.yield 0, .sched 1] ++
      threadSteps 1 1 ++ exitSteps 1 1)).any (fun s =>
        decide (∀ q, (s.pc q).refs = .none) && (s.file firstFile).ref == 1 &&
          s.descriptors firstFile == 0) = true := by decide +kernel
  obtain ⟨s, hs, hview⟩ := (Option.any_eq_true _ _).mp hrun
  simp only [Bool.and_eq_true, beq_iff_eq, decide_eq_true_eq] at hview
  have hcount := (hall s (reach_of_guarded_run hs) hview.1.1).ref firstFile
  rw [hview.1.2, hview.2] at hcount
  cases hcount

end Xv6.Threads
