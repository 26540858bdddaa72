import Xv6.Memory.Layout

/-!
# thread_create against concurrent growth

Each step leaves the size of the process alone or adds one region at its end; this
is where `undisturbed` is needed. With it no page is mapped twice and no growth is
lost.
-/

namespace Xv6.Memory
open Mlfq (Slot)
open Threads (PGSIZE KERNBASE uint)
open Xv6.Transition

/-- A process with no system call under way, whose pages end with its size. -/
structure Quiet (s : Space) : Prop extends Started s where
  main : (s.slot s.main).state ≠ .unused ∧ (s.slot s.main).state ≠ .embryo
  mapped : ∀ a, s.pgdir a ≠ none → a < pgup s.size
  panicked : s.panicked = false
  overwritten : s.overwritten = false
  grown : s.grown = []

theorem Quiet.layout {s : Space} (h : Quiet s) : Layout s := by
  have hcall : ∀ i np st, (s.slot i).call ≠ .create np st := by
    intro i np st hc
    rw [h.user i] at hc
    exact Call.noConfusion hc
  have hmapping : ∀ i, (s.slot i).call.mapping = false := by
    intro i
    rw [h.user i]
    rfl
  constructor
  · exact h.size
  · exact h.main
  · intro i
    rw [h.user i]
    trivial
  · intro i _ np st _ hi
    exact absurd hi (hcall i np st)
  · intro i _ hi
    rw [hmapping i] at hi
    exact absurd hi Bool.false_ne_true
  · intro a ha
    exact Or.inl (h.mapped a ha)
  · exact h.panicked
  · exact h.overwritten

/-- What a step adds to the process. -/
def Added (s t : Space) : Prop :=
  t.grown = s.grown ∧ t.size = s.size ∨
    ∃ len, t.grown = s.grown ++ [⟨s.size, len⟩] ∧ t.size = s.size + len

namespace Layout

variable {s t : Space} {i np : Slot} {st : Stage}

/-- Only `mainthread->sz = np->sz` changes the size. -/
theorem threadNext_size (h : Layout s) (hi : (s.slot i).call = .create np st) (enough : Bool)
    (hst : st ≠ .mainSz) :
    (s.threadNext i np enough st).grown = s.grown ∧
      (s.threadNext i np enough st).size = s.size := by
  have hne : s.main ≠ np := (h.ne_main hi).symm
  have hsz : ∀ x k, ((s.setSz np x).setCall i k).size = s.size := by
    intro x k
    rw [Space.setCall_size, Space.setSz_size, if_neg hne]
  cases st with
  | sz => exact ⟨rfl, hsz _ _⟩
  | limit => exact ⟨rfl, Space.setCall_size _ _ _⟩
  | allocuvm =>
    simp only [Space.threadNext]
    split_ifs
    · exact ⟨rfl, hsz _ _⟩
    · exact ⟨rfl, Space.setCall_size _ _ _⟩
    · exact ⟨rfl, Space.setCall_size _ _ _⟩
  | kalloc oldsz as =>
    cases as with
    | nil => exact ⟨rfl, hsz _ _⟩
    | cons a as => exact ⟨rfl, Space.setCall_size _ _ _⟩
  | check oldsz a as =>
    simp only [Space.threadNext]
    split_ifs
    · exact ⟨rfl, rfl⟩
    · exact ⟨rfl, Space.setCall_size _ _ _⟩
  | set oldsz a as => exact ⟨rfl, Space.setCall_size _ _ _⟩
  | dealloc as =>
    cases as with
    | nil => exact ⟨rfl, hsz _ _⟩
    | cons a as => exact ⟨rfl, Space.setCall_size _ _ _⟩
  | clearpteu => exact ⟨rfl, Space.setCall_size _ _ _⟩
  | mainSz => exact absurd rfl hst
  | copyout => exact ⟨rfl, Space.setCall_size _ _ _⟩
  | runnable =>
    refine ⟨rfl, ?_⟩
    exact (Space.setCall_size _ _ _).trans (Space.setState_size _ _ _)

theorem threadNext_added (h : Layout s) (hi : (s.slot i).call = .create np st) (enough : Bool) :
    Added s (s.threadNext i np enough st) := by
  by_cases hst : st = .mainSz
  · subst hst
    obtain ⟨-, hsz, -, -⟩ := h.embryo hi
    right
    refine ⟨2 * PGSIZE, ?_, ?_⟩
    · show s.grown ++ [⟨(s.slot np).sz - 2 * PGSIZE, 2 * PGSIZE⟩] = _
      rw [hsz, Nat.add_sub_cancel]
    · refine (Space.setCall_size _ _ _).trans ?_
      rw [Space.setSz_size, if_pos rfl, hsz]
  · exact Or.inl (h.threadNext_size hi enough hst)

end Layout

theorem Space.growproc_added (s : Space) (addr free : Nat) (hsz : s.size < KERNBASE) {n : Int}
    (h0 : 0 < n) (hn : n < 2147483648) : Added s (s.growproc n addr free) := by
  have hgrow := s.growproc_cases addr free hsz h0 hn
  generalize s.growproc n addr free = u at hgrow ⊢
  cases hgrow with
  | failed pd hpd => exact Or.inl ⟨rfl, rfl⟩
  | remap hpd => exact Or.inl ⟨rfl, rfl⟩
  | grown pd hlt hfree hpd =>
    refine Or.inr ⟨n.toNat, rfl, ?_⟩
    refine (Space.setSz_size s s.main _).trans ?_
    rw [if_pos rfl]

/-- The steps of `thread_create` and of `sbrk(n)` with a positive `n`. -/
def Action.grows : Action → Bool
  | .sbrk _ n => 0 < n
  | .growproc _ _ | .threadCreate _ _ | .threadNext _ _ => true
  | _ => false

/-- The regions that were added are disjoint and below the size, which has grown by
their lengths; no page was mapped twice. -/
structure GrowthLaw (s₀ s : Space) : Prop where
  noRemap : s.panicked = false
  once : s.overwritten = false
  disjoint : s.grown.Pairwise Region.Disjoint
  inside : ∀ r ∈ s.grown, r.addr + r.len ≤ s.size
  total : s.size = s₀.size + (s.grown.map Region.len).sum

def GrowthOk (s : Space) (a : Action) : Prop := a.grows ∧ undisturbed s a

instance (s : Space) (a : Action) : Decidable (GrowthOk s a) :=
  inferInstanceAs (Decidable (_ ∧ _))

/-- The invariant of such runs; calls of `growproc` under way have a positive `n`. -/
structure GrowthInv (s₀ s : Space) : Prop where
  layout : Layout s
  law : GrowthLaw s₀ s
  pending : ∀ i n addr, (s.slot i).call = .growproc n addr → 0 < n

theorem Quiet.growthInv {s : Space} (h : Quiet s) : GrowthInv s s where
  layout := h.layout
  law := by
    constructor
    · exact h.panicked
    · exact h.overwritten
    · rw [h.grown]
      exact List.Pairwise.nil
    · simp [h.grown]
    · simp [h.grown]
  pending := by
    intro i n addr hc
    rw [h.user i] at hc
    exact Call.noConfusion hc

theorem GrowthLaw.add {s₀ s t : Space} (h : GrowthLaw s₀ s) (ht : Layout t) (ha : Added s t) :
    GrowthLaw s₀ t := by
  refine ⟨ht.panicked, ht.overwritten, ?_, ?_, ?_⟩
  · rcases ha with ⟨hg, -⟩ | ⟨len, hg, -⟩
    · rw [hg]
      exact h.disjoint
    · rw [hg]
      refine List.pairwise_append.mpr ⟨h.disjoint, List.pairwise_singleton _ _, ?_⟩
      intro r hr r' hr'
      rw [List.mem_singleton.mp hr']
      exact Or.inr (Or.inr (Or.inl (h.inside r hr)))
  · intro r hr
    rcases ha with ⟨hg, hsize⟩ | ⟨len, hg, hsize⟩
    · rw [hg] at hr
      rw [hsize]
      exact h.inside r hr
    · rw [hg] at hr
      rw [hsize]
      rcases List.mem_append.mp hr with hr | hr
      · have hin := h.inside r hr
        omega
      · rw [List.mem_singleton.mp hr]
  · have htot := h.total
    rcases ha with ⟨hg, hsize⟩ | ⟨len, hg, hsize⟩
    · rw [hg, hsize]
      exact htot
    · rw [hg, hsize, List.map_append, List.sum_append]
      simp only [List.map_cons, List.map_nil, List.sum_cons, List.sum_nil]
      omega

namespace GrowthInv

variable {s₀ s t : Space}

theorem step (h : GrowthInv s₀ s) {a : Action} (hok : GrowthOk s a)
    (hs : Memory.step s a = some t) : GrowthInv s₀ t := by
  have hkeeps : keepsMain s a := by
    cases a with
    | threadJoin i p => exact absurd hok.1 Bool.false_ne_true
    | sbrk | growproc | threadCreate | threadNext | threadExit => rfl
  have hlayout := h.layout.step hok.2 hkeeps hs
  refine ⟨hlayout, h.law.add hlayout ?_, ?_⟩
  · unfold Memory.step at hs
    split_ifs at hs
    cases a with
    | sbrk i n =>
      simp only at hs
      split_ifs at hs
      cases hs
      exact Or.inl ⟨rfl, Space.setCall_size _ _ _⟩
    | growproc i free =>
      cases hcall : (s.slot i).call with
      | growproc n addr =>
        simp only [hcall] at hs
        split_ifs at hs
        cases hs
        have hbound := h.layout.calls i
        rw [hcall] at hbound
        have hsize : (s.setCall i .user).size = s.size := Space.setCall_size _ _ _
        have hadd := Space.growproc_added (s.setCall i .user) addr free
          (hsize ▸ h.layout.size) (h.pending i n addr hcall) hbound.2
        unfold Added at hadd ⊢
        rw [hsize] at hadd
        exact hadd
      | user => simp [hcall] at hs
      | create np st => simp [hcall] at hs
    | threadCreate i np =>
      simp only at hs
      split_ifs at hs
      cases hs
      exact Or.inl ⟨rfl, (Space.setCall_size _ _ _).trans (Space.setState_size _ _ _)⟩
    | threadNext i enough =>
      cases hcall : (s.slot i).call with
      | create np st =>
        simp only [hcall] at hs
        split_ifs at hs
        cases hs
        exact h.layout.threadNext_added hcall enough
      | user => simp [hcall] at hs
      | growproc n addr => simp [hcall] at hs
    | threadExit i => exact absurd hok.1 Bool.false_ne_true
    | threadJoin i p => exact absurd hok.1 Bool.false_ne_true
  · intro j n addr hj
    rcases step_pending hs hj with hold | rfl
    · exact h.pending j n addr hold
    · exact of_decide_eq_true hok.1

end GrowthInv

/-- The law of growing holds in every state of a run in which nothing disturbs a
`thread_create` while it maps a stack. -/
theorem growthLaw_of_reach {s₀ s : Space} (h0 : Quiet s₀) (hr : Reach step GrowthOk s₀ s) :
    GrowthLaw s₀ s := by
  have hinv : GrowthInv s₀ s := hr.invariant h0.growthInv fun _ _ _ h hok hs => h.step hok hs
  exact hinv.law

theorem quiet_twoThreads : Quiet twoThreads where
  toStarted := started_twoThreads
  main := by decide +kernel
  mapped := by
    intro a ha
    by_cases h : a < 5
    · exact h
    · simp [twoThreads, h] at ha
  panicked := rfl
  overwritten := rfl
  grown := rfl

/-- All the steps of a `thread_create` that succeeds. -/
def createSteps (i np : Slot) : List Action :=
  .threadCreate i np :: List.replicate 14 (.threadNext i true)

/-- Thread 1 creates a thread, and then thread 2 grows the process. -/
def createThenSbrk : Space :=
  (run (guarded step GrowthOk) twoThreads
    (createSteps 1 3 ++ [.sbrk 2 100, .growproc 2 1])).getD twoThreads

theorem growthLaw_of_reach_inTurn :
    createThenSbrk.grown = [⟨20480, 8192⟩, ⟨28672, 100⟩] ∧ GrowthLaw twoThreads createThenSbrk := by
  have hr : Reach step GrowthOk twoThreads createThenSbrk :=
    reach_of_guarded_run (eq_some_getD (by decide +kernel))
  exact ⟨by decide +kernel, growthLaw_of_reach quiet_twoThreads hr⟩

/-- Thread 2 grows the process after thread 1 has mapped the first page of the new
stack. -/
def sbrkDuringCreate : Space :=
  (run (guarded step fun _ a => a.grows) twoThreads
    ((createSteps 1 3).take 7 ++ [.sbrk 2 100, .growproc 2 1])).getD twoThreads

theorem not_growthLaw_of_reach :
    ¬ ∀ s₀ s, Quiet s₀ → Reach step (fun _ a => a.grows) s₀ s → GrowthLaw s₀ s := by
  intro hall
  have hr : Reach step (fun _ a => a.grows) twoThreads sbrkDuringCreate :=
    reach_of_guarded_run (eq_some_getD (by decide +kernel))
  have hlaw := hall _ _ quiet_twoThreads hr
  exact absurd hlaw.noRemap (by decide +kernel)

end Xv6.Memory
