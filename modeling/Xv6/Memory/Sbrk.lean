import Xv6.Memory.Space

/-!
# Concurrent sbrk (project2/sysproc.c:45-57)

`sys_sbrk` reads the size before `growproc` takes `ptable.lock`. The regions that
the calls add are always disjoint; those that they return are if no call grows the
process after another one has grown it behind its back.
-/

namespace Xv6.Memory
open Mlfq (Slot)
open Threads (KERNBASE uint)
open Xv6.Transition

/-- No address is in both. -/
def Region.Disjoint (r r' : Region) : Prop :=
  r.len = 0 ∨ r'.len = 0 ∨ r.addr + r.len ≤ r'.addr ∨ r'.addr + r'.len ≤ r.addr

instance (r r' : Region) : Decidable (r.Disjoint r') := inferInstanceAs (Decidable (_ ∨ _))

theorem uint_add {sz : Nat} {n : Int} (hsz : sz < KERNBASE) (h0 : 0 ≤ n) (hn : n < 2147483648) :
    uint (sz + n) = sz + n.toNat := by
  unfold uint
  unfold KERNBASE at hsz
  rw [Int.emod_eq_of_lt (by omega) (by omega)]
  omega

/-- The ways in which `growproc` ends for a positive `n`. -/
inductive Grow (s : Space) (n : Int) (addr : Nat) : Space → Prop where
  | failed (pd : Pgdir)
      (hpd : ∀ b, pd b = s.pgdir b ∨ b ∈ pages s.size (s.size + n.toNat) ∧ pd b = none) :
      Grow s n addr { s with pgdir := pd, lockHeld := true }
  | remap (hpd : ∃ a ∈ pages s.size (s.size + n.toNat), s.pgdir a ≠ none) :
      Grow s n addr { s with panicked := true }
  | grown (pd : Pgdir) (hlt : s.size + n.toNat < KERNBASE)
      (hfree : ∀ a ∈ pages s.size (s.size + n.toNat), s.pgdir a = none)
      (hpd : ∀ b, pd b =
        if b ∈ pages s.size (s.size + n.toNat) then some true else s.pgdir b) :
      Grow s n addr
        { s.setSz s.main (s.size + n.toNat) with
          pgdir := pd
          handed := s.handed ++ [⟨addr, n.toNat⟩]
          grown := s.grown ++ [⟨s.size, n.toNat⟩] }

theorem Space.growproc_cases (s : Space) {n : Int} (addr free : Nat) (hsz : s.size < KERNBASE)
    (h0 : 0 < n) (hn : n < 2147483648) : Grow s n addr (s.growproc n addr free) := by
  have hnew := uint_add hsz h0.le hn
  unfold Space.growproc
  by_cases hlim : s.overLimit n
  · rw [if_pos hlim]
    exact Grow.failed s.pgdir fun b => Or.inl rfl
  · rw [if_neg hlim, if_pos h0, hnew]
    cases halloc : s.pgdir.allocuvm s.size (s.size + n.toNat) free with
    | none =>
      refine Grow.remap ?_
      by_contra hno
      have hfree : ∀ a ∈ pages s.size (s.size + n.toNat), s.pgdir a = none := by
        intro a ha
        by_contra hc
        exact hno ⟨a, ha, hc⟩
      unfold Pgdir.allocuvm at halloc
      split_ifs at halloc
      have hsome := Pgdir.allocLoop_isSome s.size (s.size + n.toNat) free (nodup_pages _ _) hfree
      rw [halloc] at hsome
      exact Bool.false_ne_true hsome
    | some r =>
      obtain ⟨sz, pd⟩ := r
      unfold Pgdir.allocuvm at halloc
      split_ifs at halloc with hk hlt
      · cases halloc
        exact Grow.failed s.pgdir fun b => Or.inl rfl
      · omega
      · rcases Pgdir.allocLoop_spec (fun _ ha => ha) halloc with
          ⟨-, rfl, hfree, hpd⟩ | ⟨-, rfl, hpd⟩
        · have hne : ¬ s.size + n.toNat = 0 := by omega
          simp only [hne, if_false]
          exact Grow.grown pd (by omega) hfree hpd
        · refine Grow.failed pd fun b => ?_
          rw [hpd b]
          split_ifs with hb
          · exact Or.inr ⟨hb, rfl⟩
          · exact Or.inl rfl

/-- The ways in which it ends for a negative one; `newsz` is the new size as a
`uint`. -/
inductive Shrink (s : Space) (newsz : Nat) : Space → Prop where
  | failed (pd : Pgdir)
      (hpd : ∀ b, pd b = s.pgdir b ∨ b ∈ pages newsz s.size ∧ pd b = none) :
      Shrink s newsz { s with pgdir := pd, lockHeld := true }
  | shrunk (pd : Pgdir)
      (hpd : ∀ b, pd b = if b ∈ pages newsz s.size then none else s.pgdir b) :
      Shrink s newsz
        { s.setSz s.main (min s.size newsz) with
          pgdir := pd
          handed := s.handed.map (Region.below (min s.size newsz)) }

theorem Space.growproc_neg_cases (s : Space) {n : Int} (addr free : Nat) (hn : n < 0) :
    Shrink s (uint (s.size + n)) (s.growproc n addr free) := by
  unfold Space.growproc
  by_cases hlim : s.overLimit n
  · rw [if_pos hlim]
    exact Shrink.failed s.pgdir fun b => Or.inl rfl
  · rw [if_neg hlim, if_neg (by omega), if_pos hn]
    have hpd := s.pgdir.deallocuvm_pages s.size (uint (s.size + n))
    have hsz : (s.pgdir.deallocuvm s.size (uint (s.size + n))).1 =
        min s.size (uint (s.size + n)) := by
      rw [Pgdir.deallocuvm_size, Threads.State.deallocuvm]
      split_ifs <;> omega
    generalize s.pgdir.deallocuvm s.size (uint (s.size + n)) = r at hpd hsz ⊢
    obtain ⟨sz, pd⟩ := r
    subst hsz
    dsimp only at hpd ⊢
    split_ifs with hz
    · refine Shrink.failed pd fun b => ?_
      rw [hpd b]
      split_ifs with hb
      · exact Or.inr ⟨hb, rfl⟩
      · exact Or.inl rfl
    · exact Shrink.shrunk pd hpd

/-- Without a panic it is the `growproc` of the table of threads, where only the size
is kept. -/
theorem Space.growproc_table (s : Space) (u : Threads.State) {i : Slot} {n : Int} {addr free : Nat}
    (hmain : (u.proc i).mainthread = some s.main) (hsz : (u.proc s.main).sz = s.size)
    (hlimit : (u.proc s.main).memorylimit = s.memorylimit) (hlock : u.lockHeld = s.lockHeld)
    (hp : (s.growproc n addr free).panicked = false) :
    ∃ enough, ∀ v, u.growproc i n enough = some v →
      (v.proc s.main).sz = (s.growproc n addr free).size ∧
        v.lockHeld = (s.growproc n addr free).lockHeld := by
  refine ⟨decide ((pages s.size (uint (s.size + n))).length ≤ free), fun v hv => ?_⟩
  unfold Threads.State.growproc at hv
  rw [hmain] at hv
  obtain rfl := Option.some.inj hv
  clear hv
  have hset : ∀ sz, (s.setSz s.main sz).size = sz := by
    intro sz
    rw [setSz_size, if_pos rfl]
  simp only [hsz, hlimit]
  unfold growproc overLimit at hp ⊢
  by_cases hlim : s.memorylimit ≠ 0 ∧ uint s.memorylimit < uint (s.size + n)
  · rw [if_pos hlim, if_pos (decide_eq_true hlim)]
    exact ⟨hsz, rfl⟩
  · have hlim' : ¬ decide (s.memorylimit ≠ 0 ∧ uint s.memorylimit < uint (s.size + n)) = true := by
      simpa using hlim
    rw [if_neg hlim, if_neg hlim']
    rw [if_neg hlim'] at hp
    rcases Int.lt_trichotomy 0 n with h0 | h0 | h0
    · simp only [if_pos h0] at hp ⊢
      cases halloc : s.pgdir.allocuvm s.size (uint (s.size + n)) free with
      | none =>
        rw [halloc] at hp
        exact absurd hp.symm Bool.false_ne_true
      | some r =>
        obtain ⟨sz, pd⟩ := r
        have hr := Pgdir.allocuvm_size halloc
        simp only [← hr]
        have hn : n ≠ 0 := by omega
        by_cases hz : sz = 0
        · rw [if_pos ⟨hn, hz⟩, if_pos hz]
          exact ⟨hsz, rfl⟩
        · rw [if_neg (fun hc => hz hc.2), if_neg hz]
          refine ⟨?_, hlock⟩
          refine Eq.trans ?_ (hset sz).symm
          simp [Threads.State.setProc]
    · subst h0
      simp only [lt_irrefl, if_false, ne_eq, not_true_eq_false, false_and]
      refine ⟨?_, hlock⟩
      simp [Threads.State.setProc, Space.size]
    · have hn : ¬ 0 < n := by omega
      have hr := Pgdir.deallocuvm_size s.pgdir s.size (uint (s.size + n))
      simp only [if_neg hn, if_pos h0, ← hr]
      have hne : n ≠ 0 := by omega
      by_cases hz : (s.pgdir.deallocuvm s.size (uint (s.size + n))).1 = 0
      · rw [if_pos ⟨hne, hz⟩, if_pos hz]
        exact ⟨hsz, rfl⟩
      · rw [if_neg (fun hc => hz hc.2), if_neg hz]
        refine ⟨?_, hlock⟩
        refine Eq.trans ?_ (hset _).symm
        simp [Threads.State.setProc]

/-- A process with no system call under way. -/
structure Started (s : Space) : Prop where
  user : ∀ i, (s.slot i).call = .user
  size : s.size < KERNBASE
  handed : s.handed = []

/-- The `sbrk` calls have returned disjoint regions below the size of the process,
which has grown by their lengths. -/
structure SbrkLaw (s₀ s : Space) : Prop where
  disjoint : s.handed.Pairwise Region.Disjoint
  inside : ∀ r ∈ s.handed, r.addr + r.len ≤ s.size
  total : s.size = s₀.size + (s.handed.map Region.len).sum

/-- The steps of `sbrk(n)` with a positive `n`. -/
def Action.sbrks : Action → Bool
  | .sbrk _ n => 0 < n
  | .growproc _ _ => true
  | _ => false

/-- `growproc` adds memory while the size is the one that `sys_sbrk` has read. -/
def freshAddr (s : Space) : Action → Bool
  | .growproc i _ =>
    match (s.slot i).call with
    | .growproc n addr => n ≤ 0 ∨ addr = s.size
    | _ => true
  | _ => true

def SbrkOk (s : Space) (a : Action) : Prop := a.sbrks ∧ freshAddr s a

instance (s : Space) (a : Action) : Decidable (SbrkOk s a) :=
  inferInstanceAs (Decidable (_ ∧ _))

/-- `SbrkLaw` with what its proof needs besides: calls under way have a positive `n`. -/
structure SbrkInv (s₀ s : Space) : Prop extends SbrkLaw s₀ s where
  size : s.size < KERNBASE
  pending : ∀ i n addr, (s.slot i).call = .growproc n addr → 0 < n ∧ n < 2147483648

theorem Started.sbrkInv {s : Space} (h : Started s) : SbrkInv s s where
  disjoint := by
    rw [h.handed]
    exact List.Pairwise.nil
  inside := by simp [h.handed]
  total := by simp [h.handed]
  size := h.size
  pending := by
    intro i n addr hc
    rw [h.user i] at hc
    exact Call.noConfusion hc

namespace SbrkInv

variable {s₀ s t : Space} {i : Slot}

theorem setCall (h : SbrkInv s₀ s) {k : Call}
    (hk : ∀ n addr, k = .growproc n addr → 0 < n ∧ n < 2147483648) :
    SbrkInv s₀ (s.setCall i k) where
  disjoint := h.disjoint
  inside := by
    rw [Space.setCall_size]
    exact h.inside
  total := by
    rw [Space.setCall_size]
    exact h.total
  size := by
    rw [Space.setCall_size]
    exact h.size
  pending := by
    intro j n addr hc
    rw [Space.setCall_call] at hc
    split_ifs at hc
    · exact hk n addr hc
    · exact h.pending j n addr hc

theorem growproc (h : SbrkInv s₀ s) {n : Int} {addr free : Nat} (h0 : 0 < n)
    (hn : n < 2147483648) (haddr : addr = s.size) : SbrkInv s₀ (s.growproc n addr free) := by
  have hgrow := s.growproc_cases addr free h.size h0 hn
  generalize s.growproc n addr free = u at hgrow ⊢
  cases hgrow with
  | failed pd hpd => exact ⟨⟨h.disjoint, h.inside, h.total⟩, h.size, h.pending⟩
  | remap hpd => exact ⟨⟨h.disjoint, h.inside, h.total⟩, h.size, h.pending⟩
  | grown pd hlt hfree hpd =>
    subst haddr
    have hsize : (s.setSz s.main (s.size + n.toNat)).size = s.size + n.toNat := by
      rw [Space.setSz_size, if_pos rfl]
    refine ⟨⟨?_, ?_, ?_⟩, ?_, ?_⟩
    · refine List.pairwise_append.mpr ⟨h.disjoint, List.pairwise_singleton _ _, ?_⟩
      intro r hr r' hr'
      rw [List.mem_singleton.mp hr']
      exact Or.inr (Or.inr (Or.inl (h.inside r hr)))
    · intro r hr
      show _ ≤ (s.setSz s.main (s.size + n.toNat)).size
      rw [hsize]
      rcases List.mem_append.mp hr with hr | hr
      · have hin := h.inside r hr
        omega
      · rw [List.mem_singleton.mp hr]
    · show (s.setSz s.main (s.size + n.toNat)).size = _
      have htot := h.total
      rw [hsize, List.map_append, List.sum_append]
      simp only [List.map_cons, List.map_nil, List.sum_cons, List.sum_nil]
      omega
    · show (s.setSz s.main (s.size + n.toNat)).size < _
      rw [hsize]
      exact hlt
    · intro j m a hc
      refine h.pending j m a ?_
      rw [← hc]
      exact (Space.setSz_call _ _ _ _).symm

theorem step (h : SbrkInv s₀ s) {a : Action} (hok : SbrkOk s a)
    (hs : Memory.step s a = some t) : SbrkInv s₀ t := by
  unfold Memory.step at hs
  split_ifs at hs
  cases a with
  | sbrk i n =>
    simp only at hs
    split_ifs at hs with hc
    cases hs
    refine h.setCall ?_
    intro m addr hk
    cases hk
    exact ⟨of_decide_eq_true hok.1, hc.2.2⟩
  | growproc i free =>
    cases hcall : (s.slot i).call with
    | growproc n addr =>
      simp only [hcall] at hs
      split_ifs at hs with hc
      cases hs
      obtain ⟨h0, hn⟩ := h.pending i n addr hcall
      have hset : SbrkInv s₀ (s.setCall i .user) := h.setCall fun m a hk => Call.noConfusion hk
      refine hset.growproc h0 hn ?_
      rw [Space.setCall_size]
      have hfresh := hok.2
      simp only [freshAddr, hcall] at hfresh
      exact (of_decide_eq_true hfresh).resolve_left (by omega)
    | user => simp [hcall] at hs
    | create np st => simp [hcall] at hs
  | threadCreate i np => exact absurd hok.1 Bool.false_ne_true
  | threadNext i enough => exact absurd hok.1 Bool.false_ne_true
  | threadExit i => exact absurd hok.1 Bool.false_ne_true
  | threadJoin i p => exact absurd hok.1 Bool.false_ne_true

end SbrkInv

/-- The law of concurrent `sbrk` calls holds in every state of a run in which no
call grows the process while its old size is out of date. -/
theorem sbrkLaw_of_reach {s₀ s : Space} (h0 : Started s₀) (hr : Reach step SbrkOk s₀ s) :
    SbrkLaw s₀ s := by
  have hinv : SbrkInv s₀ s := hr.invariant h0.sbrkInv fun _ _ _ h hok hs => h.step hok hs
  exact hinv.toSbrkLaw

/-- A process of three pages, the second of which keeps the stack of its main thread
from the program, with a second thread in slot 2. -/
def twoThreads : Space where
  pgdir := fun a => if a < 5 then some (decide (a ≠ 1 ∧ a ≠ 3)) else none
  main := 1
  memorylimit := 0
  slot := fun i => if i = 1 ∨ i = 2 then ⟨20480, .runnable, .user⟩ else ⟨0, .unused, .user⟩
  lockHeld := false
  panicked := false
  handed := []
  grown := []
  overwritten := false

theorem started_twoThreads : Started twoThreads :=
  ⟨by decide +kernel, by decide +kernel, rfl⟩

/-- One call after the other. -/
def sbrkInTurn : Space :=
  (run (guarded step SbrkOk) twoThreads
    [.sbrk 1 4096, .growproc 1 1, .sbrk 2 100, .growproc 2 1]).getD twoThreads

theorem sbrkLaw_of_reach_inTurn :
    sbrkInTurn.handed = [⟨20480, 4096⟩, ⟨24576, 100⟩] ∧ SbrkLaw twoThreads sbrkInTurn := by
  have hr : Reach step SbrkOk twoThreads sbrkInTurn :=
    reach_of_guarded_run (eq_some_getD (by decide +kernel))
  exact ⟨by decide +kernel, sbrkLaw_of_reach started_twoThreads hr⟩

/-- Both threads read the size before either of them grows the process. -/
def sbrkOverlapping : Space :=
  (run (guarded step fun _ a => a.sbrks) twoThreads
    [.sbrk 1 4096, .sbrk 2 4096, .growproc 1 1, .growproc 2 1]).getD twoThreads

theorem not_sbrkLaw_of_reach :
    ¬ ∀ s₀ s, Started s₀ → Reach step (fun _ a => a.sbrks) s₀ s → SbrkLaw s₀ s := by
  intro hall
  have hr : Reach step (fun _ a => a.sbrks) twoThreads sbrkOverlapping :=
    reach_of_guarded_run (eq_some_getD (by decide +kernel))
  have hlaw := hall _ _ started_twoThreads hr
  exact absurd hlaw.disjoint (by decide +kernel)

end Xv6.Memory
