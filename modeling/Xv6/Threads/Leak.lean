import Xv6.Lib.Tally
import Xv6.Threads.Rounds

/-!
# What rounds of thread_create, thread_exit and thread_join cost

`cleanthread` gives back the kernel stack and calls `deallocuvm` with a new size above the old
one. So a round leaves the two pages of the user stack and the size behind.
-/

namespace Xv6.Threads

open Mlfq (NPROC Slot Procstate)
open Exec (Vm Page pdx)
open Memory (pgup pages)
open Transition

/-- The pages of user memory, and the kernel stacks. -/
def System.owned (k : System) : Nat := k.vm.pgdir.pages.length + tally k.kstack true

/-- A run of the process: the threads created in it that are not joined, how many were joined,
and how many pages the joins have put on the free list. -/
structure Rounds where
  sys : System
  live : List Slot
  joined : Nat
  returned : Nat

namespace Rounds

/-- The call `a` has led to `k`. -/
def record (r : Rounds) (k : System) : Call → Rounds
  | .create _ _ _ _ =>
    match r.sys.table.allocproc with
    | some np => { r with sys := k, live := np :: r.live }
    | none => { r with sys := k }
  | .join _ thread _ =>
    match r.sys.table.joinFor thread with
    | some p =>
      { sys := k
        live := r.live.erase p
        joined := r.joined + 1
        returned := r.returned + (k.vm.free - r.sys.vm.free) }
    | none => { r with sys := k }
  | _ => { r with sys := k }

def step (main : Slot) (r : Rounds) (a : Call) : Option Rounds :=
  (r.sys.step main a).map fun k => r.record k a

/-- The rounds are completed: `thread_create` returns 0, and `thread_join` joins the threads
that were created in them. -/
def ok (r : Rounds) : Call → Prop
  | .sbrk _ _ => False
  | .create i thread start arg => (r.sys.threadCreate i thread start arg).map Prod.fst = some 0
  | .join _ thread _ => ∀ p, r.sys.table.joinFor thread = some p → p ∈ r.live
  | _ => True

instance (r : Rounds) : (a : Call) → Decidable (r.ok a)
  | .sbrk _ _ => inferInstanceAs (Decidable False)
  | .create _ _ _ _ => inferInstanceAs (Decidable (_ = some 0))
  | .join _ _ _ => inferInstanceAs (Decidable (∀ p, _ = some p → p ∈ r.live))
  | .sched _ | .yield _ | .write _ _ | .exit _ _ => inferInstanceAs (Decidable True)

end Rounds

/-- Every join has put three pages on the free list, and the process has no more than in the
beginning apart from what the threads use that are not joined. -/
structure RoundsLaw (main : Slot) (k₀ : System) (r : Rounds) : Prop where
  returned : r.returned = 3 * r.joined
  owned : r.sys.owned ≤ k₀.owned + 3 * r.live.length
  size : (r.sys.table.proc main).sz ≤ (k₀.table.proc main).sz + 2 * PGSIZE * r.live.length

/-! ### What the calls leave behind -/

/-- The pages and the size count the threads that were ever created. -/
structure Balance (main : Slot) (k₀ : System) (r : Rounds) : Prop where
  sane : Sane r.sys main
  nodup : r.live.Nodup
  live : ∀ p ∈ r.live, p ≠ main ∧ (r.sys.table.proc p).state ≠ .unused ∧ r.sys.kstack p = true
  pages : r.sys.vm.pgdir.pages.length =
    k₀.vm.pgdir.pages.length + 2 * (r.live.length + r.joined)
  kstacks : tally r.sys.kstack true = tally k₀.kstack true + r.live.length
  size : (r.sys.table.proc main).sz =
    (k₀.table.proc main).sz + 2 * PGSIZE * (r.live.length + r.joined)
  returned : r.returned = r.joined

theorem record_create {r : Rounds} {np : Slot} (h : r.sys.table.allocproc = some np)
    (k : System) (i : Slot) (thread start arg : Nat) :
    r.record k (.create i thread start arg) = { r with sys := k, live := np :: r.live } := by
  unfold Rounds.record
  dsimp only
  rw [h]

theorem record_join {r : Rounds} {p : Slot} {thread : Nat}
    (h : r.sys.table.joinFor thread = some p) (k : System) (i : Slot) (retval : Nat) :
    r.record k (.join i thread retval) =
      ⟨k, r.live.erase p, r.joined + 1, r.returned + (k.vm.free - r.sys.vm.free)⟩ := by
  unfold Rounds.record
  dsimp only
  rw [h]

theorem record_wait {r : Rounds} {thread : Nat} (h : r.sys.table.joinFor thread = none)
    (k : System) (i : Slot) (retval : Nat) :
    r.record k (.join i thread retval) = { r with sys := k } := by
  unfold Rounds.record
  dsimp only
  rw [h]

section Balance

variable {k₀ k k' : System} {r : Rounds} {main i p np : Slot} {t : State}

/-- A call that leaves the memory as it is. -/
theorem Balance.frame (h : Balance main k₀ r) (hsane : Sane k' main)
    (hkstack : k'.kstack = r.sys.kstack)
    (hpages : k'.vm.pgdir.pages.length = r.sys.vm.pgdir.pages.length)
    (hsz : (k'.table.proc main).sz = (r.sys.table.proc main).sz)
    (hstate : ∀ q, (k'.table.proc q).state = .unused → (r.sys.table.proc q).state = .unused) :
    Balance main k₀ { r with sys := k' } := by
  constructor
  · exact hsane
  · exact h.nodup
  · intro p hp
    obtain ⟨hmain, hused, hstack⟩ := h.live p hp
    refine ⟨hmain, fun hc => hused (hstate p hc), ?_⟩
    dsimp only
    rw [hkstack]
    exact hstack
  · rw [hpages]
    exact h.pages
  · rw [hkstack]
    exact h.kstacks
  · rw [hsz]
    exact h.size
  · exact h.returned

theorem Balance.keeps (h : Balance main k₀ r) (hk : Keeps r.sys.table t) :
    Balance main k₀ { r with sys := { r.sys with table := t } } :=
  h.frame (h.sane.keeps hk) rfl rfl (hk.proc main).sz fun q hq => unused_of_same (hk.proc q) hq

theorem Balance.samePages (h : Balance main k₀ r) {v : Vm} (hv : Vm.SamePages r.sys.vm v) :
    Balance main k₀ { r with sys := { r.sys with vm := v } } :=
  h.frame (h.sane.samePages hv) rfl hv.length rfl fun _ hq => hq

theorem Balance.threadExit (h : Balance main k₀ r) (i : Slot) (retval : Nat) :
    Balance main k₀ { r with sys := r.sys.threadExit i retval } := by
  have hfiles := (only_closeFiles r.sys.table i).quiet
  refine h.frame (h.sane.threadExit i retval) rfl rfl ?_ ?_
  · unfold System.threadExit
    dsimp only
    rw [threadExitLast_sz]
    exact (hfiles.proc main).sz
  · intro q hq
    exact unused_of_same (hfiles.proc q) (threadExitLast_unused _ i retval hq)

/-- A new thread has three pages. -/
theorem Balance.threadCreate (h : Balance main k₀ r) {thread start arg : Nat}
    (hmain : (r.sys.table.proc i).mainthread = some main)
    (hk : r.sys.threadCreate i thread start arg = some (0, k')) :
    ∃ np, r.sys.table.allocproc = some np ∧
      Balance main k₀ { r with sys := k', live := np :: r.live } := by
  have hsane := h.sane.threadCreate hmain hk
  have hcreated := created thread start arg h.sane.toTidy hmain
  rw [hk] at hcreated
  generalize hx : some ((0 : Int), k') = x at hcreated
  cases hcreated with
  | noSlot => cases hx
  | noStack => cases hx
  | fails => cases hx
  | works np vm hslot hfree hok hvm =>
    obtain ⟨v', hstore, heq⟩ := Option.map_eq_some_iff.mp hx.symm
    cases heq
    have hunused := allocproc_unused hslot
    have hnp := h.sane.ne_main hslot
    have hnostack := h.sane.kstack np hunused
    have hnew : np ∉ r.live := fun hc => (h.live np hc).2.1 hunused
    obtain ⟨hrunnable, -⟩ := newThread_np r.sys.table i np main
      ((r.sys.table.proc main).sz + 2 * PGSIZE)
    have hmainsz := newThread_other r.sys.table i main
      ((r.sys.table.proc main).sz + 2 * PGSIZE) (Ne.symm hnp)
    rw [if_pos rfl] at hmainsz
    refine ⟨np, hslot, ?_⟩
    constructor
    · exact hsane
    · exact List.nodup_cons.mpr ⟨hnew, h.nodup⟩
    · intro p hp
      dsimp only
      rcases List.mem_cons.mp hp with heq | hold
      · rw [heq, hrunnable]
        exact ⟨hnp, by simp, Function.update_self ..⟩
      · obtain ⟨hpm, hused, hstack⟩ := h.live p hold
        have hne : p ≠ np := fun hc => hnew (hc ▸ hold)
        rw [newThread_other _ _ _ _ hne, if_neg hpm, Function.update_of_ne hne]
        exact ⟨hpm, hused, hstack⟩
    · have hlen := (Vm.store_spec hstore).length
      have hv := hvm.length
      have hp := h.pages
      dsimp only at hv hp ⊢
      simp only [List.length_cons]
      omega
    · have hu := tally_update r.sys.kstack np true true
      have hs := h.kstacks
      rw [hnostack] at hu
      simp only [List.length_cons, Bool.false_eq_true, if_false, if_true] at hu ⊢
      omega
    · have hs := h.size
      dsimp only
      rw [hmainsz]
      simp only [List.length_cons]
      unfold PGSIZE at *
      omega
    · exact h.returned

/-- A thread that is joined gives back one page. -/
theorem Balance.cleanthread (h : Balance main k₀ r) {v : Vm} (hv : Vm.SamePages r.sys.vm v)
    (hp : p ∈ r.live) :
    Balance main k₀ {
      sys := ({ r.sys with vm := v }.cleanthread p).back i
      live := r.live.erase p
      joined := r.joined + 1
      returned := r.returned +
        ((({ r.sys with vm := v }.cleanthread p).back i).vm.free - r.sys.vm.free) } := by
  obtain ⟨hpm, hused, hstack⟩ := h.live p hp
  have hsane := ((h.sane.samePages hv).cleanthread hpm).back i
  have hclean := cleanthread_eq (k := { r.sys with vm := v }) (p := p) (h.sane.sizes p)
  have hlen := List.length_erase_of_mem hp
  have hpos := List.length_pos_of_mem hp
  rw [hclean] at hsane ⊢
  constructor
  · exact hsane
  · exact h.nodup.erase p
  · intro q hq
    have hne : q ≠ p := by
      intro hc
      rw [hc] at hq
      exact h.nodup.not_mem_erase hq
    obtain ⟨hqm, hqused, hqstack⟩ := h.live q (List.mem_of_mem_erase hq)
    refine ⟨hqm, ?_, ?_⟩
    · intro hc
      rcases vacate_unused _ _ hc with heq | hunused
      · exact hne heq
      · exact hqused hunused
    · unfold System.back
      dsimp only
      rw [Function.update_of_ne hne]
      exact hqstack
  · have hpages := h.pages
    have hvlen := hv.length
    unfold System.back
    dsimp only at hpages ⊢
    omega
  · have hu := tally_update r.sys.kstack p false true
    have hs := h.kstacks
    rw [hstack] at hu
    unfold System.back
    simp only [Bool.false_eq_true, if_false, if_true] at hu ⊢
    omega
  · have hs := h.size
    unfold System.back
    dsimp only
    rw [State.setPc_proc, vacate_sz, hs]
    unfold PGSIZE
    omega
  · have hret := h.returned
    have hvfree := hv.free
    unfold System.back
    dsimp only
    omega

theorem Balance.step (h : Balance main k₀ r) {a : Call} {r' : Rounds} (hok : r.ok a)
    (hs : r.step main a = some r') : Balance main k₀ r' := by
  obtain ⟨k, hk, heq⟩ := Option.map_eq_some_iff.mp hs
  subst heq
  unfold System.step at hk
  split_ifs at hk
  cases a with
  | sched p =>
    obtain ⟨t, ht, heq⟩ := Option.map_eq_some_iff.mp hk
    subst heq
    exact h.keeps (keeps_sched ht)
  | yield p =>
    obtain ⟨t, ht, heq⟩ := Option.map_eq_some_iff.mp hk
    subst heq
    exact h.keeps (keeps_yield ht)
  | write va bs =>
    obtain ⟨v, hv, heq⟩ := Option.map_eq_some_iff.mp hk
    subst heq
    exact h.samePages (Vm.store_spec hv).toSamePages
  | sbrk i n => exact hok.elim
  | create i thread start arg =>
    dsimp only at hk
    split_ifs at hk with hready
    obtain ⟨x, hx, heq⟩ := Option.map_eq_some_iff.mp hk
    obtain ⟨y, k''⟩ := x
    subst heq
    have hzero : (r.sys.threadCreate i thread start arg).map Prod.fst = some 0 := hok
    rw [hx] at hzero
    cases hzero
    obtain ⟨np, hslot, hnew⟩ := h.threadCreate hready.2.2 hx
    rw [record_create hslot]
    exact hnew
  | exit i retval =>
    dsimp only at hk
    split_ifs at hk
    cases hk
    exact h.threadExit i retval
  | join i thread retval =>
    dsimp only at hk
    split_ifs at hk with hready
    obtain ⟨x, hx, heq⟩ := Option.map_eq_some_iff.mp hk
    obtain ⟨y, k''⟩ := x
    subst heq
    have hrun : (r.sys.table.proc i).state = .running := by
      rcases hready with hc | hc
      · exact hc.1.1
      · exact hc.1
    cases hj : r.sys.table.joinFor thread with
    | some p =>
      unfold System.threadJoin at hx
      rw [hj] at hx
      obtain ⟨vm, hstore, hx⟩ := Option.map_eq_some_iff.mp hx
      cases hx
      rw [record_join hj]
      exact h.cleanthread (Vm.store_spec hstore).toSamePages (hok p hj)
    | none =>
      unfold System.threadJoin at hx
      rw [hj] at hx
      cases hx
      rw [record_wait hj]
      exact h.keeps (keeps_threadJoin hrun hj)

theorem balance_init (h0 : Sane k₀ main) : Balance main k₀ ⟨k₀, [], 0, 0⟩ := by
  constructor
  · exact h0
  · exact List.nodup_nil
  · intro p hp
    cases hp
  · rfl
  · rfl
  · rfl
  · rfl

end Balance

theorem balance_of_reach {main : Slot} {k₀ : System} {r : Rounds} (h0 : Sane k₀ main)
    (hr : Reach (Rounds.step main) Rounds.ok ⟨k₀, [], 0, 0⟩ r) : Balance main k₀ r := by
  apply hr.invariant (I := Balance main k₀) (balance_init h0)
  intro u a w hu hok hs
  exact hu.step hok hs

/-- After any completed rounds the process owns two pages too many for each thread joined. -/
theorem roundsLaw_iff {main : Slot} {k₀ : System} {r : Rounds} (h0 : Sane k₀ main)
    (hr : Reach (Rounds.step main) Rounds.ok ⟨k₀, [], 0, 0⟩ r) :
    RoundsLaw main k₀ r ↔ r.joined = 0 := by
  have h := balance_of_reach h0 hr
  have hpages := h.pages
  have hstacks := h.kstacks
  have hsize := h.size
  have hreturned := h.returned
  constructor
  · intro hlaw
    have hret := hlaw.returned
    omega
  · intro hzero
    rw [hzero, Nat.add_zero] at hpages hsize
    rw [hzero] at hreturned
    constructor
    · omega
    · unfold System.owned
      omega
    · omega

/-- The rounds on the process of five pages. -/
def roundsFrom (calls : List Call) : Rounds :=
  (run (guarded (Rounds.step 1) Rounds.ok) ⟨oneProcess 16384 0 10, [], 0, 0⟩ calls).getD
    ⟨oneProcess 16384 0 10, [], 0, 0⟩

theorem roundsLaw_iff_created :
    RoundsLaw 1 (oneProcess 16384 0 10) (roundsFrom [.create 1 0 100 7]) :=
  (roundsLaw_iff sane_oneProcess
    (reach_of_guarded_run (eq_some_getD (by decide +kernel)))).mpr (by decide +kernel)

/-- After one round the two pages of the stack are still there. -/
theorem not_roundsLaw : ¬ ∀ main k₀ r, Sane k₀ main →
    Reach (Rounds.step main) Rounds.ok ⟨k₀, [], 0, 0⟩ r → RoundsLaw main k₀ r := by
  intro hall
  have hr : Reach (Rounds.step 1) Rounds.ok ⟨oneProcess 16384 0 10, [], 0, 0⟩
      (roundsFrom [.create 1 0 100 7, .yield 1, .sched 2, .exit 2 9, .sched 1, .join 1 1 0]) :=
    reach_of_guarded_run (eq_some_getD (by decide +kernel))
  have hlaw := hall _ _ _ sane_oneProcess hr
  have hreturned := (balance_of_reach sane_oneProcess hr).returned
  have hwanted := hlaw.returned
  have hjoined : 0 < (roundsFrom [.create 1 0 100 7, .yield 1, .sched 2, .exit 2 9, .sched 1,
    .join 1 1 0]).joined := by decide +kernel
  omega

end Xv6.Threads
