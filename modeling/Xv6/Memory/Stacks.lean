import Xv6.Memory.Growth

/-!
# The stacks of the sub-threads stay mapped

Stacks and heap share one growing region. `StackInv` keeps the stacks of the threads
that are there, or nearly there, mapped and apart; a step keeps it if it takes no
page of theirs away (`keepsStacks`) and does not hand out memory that is in use.
-/

namespace Xv6.Memory
open Mlfq (Slot)
open Threads (PGSIZE KERNBASE uint)
open Xv6.Transition

/-- The stages after `mainthread->sz` has been written. -/
def Stage.placed : Stage → Bool
  | .copyout | .runnable => true
  | _ => false

/-- The call is setting up the thread `p`, whose stack is in place. -/
def Call.places : Call → Slot → Bool
  | .create np st, p => st.placed ∧ np = p
  | _, _ => false

namespace Space

/-- A sub-thread that was created and has not exited. -/
def live (s : Space) (p : Slot) : Prop := p ≠ s.main ∧ (s.slot p).state = .runnable

/-- A sub-thread with a stack: it is live, or is about to be. -/
def stacked (s : Space) (p : Slot) : Prop := s.live p ∨ ∃ i, (s.slot i).call.places p

instance (s : Space) (p : Slot) : Decidable (s.live p) := inferInstanceAs (Decidable (_ ∧ _))
instance (s : Space) (p : Slot) : Decidable (s.stacked p) := inferInstanceAs (Decidable (_ ∨ _))

/-- The page-sized range below the stack top of `p`. -/
def stack (s : Space) (p : Slot) : Region := ⟨(s.slot p).sz - PGSIZE, PGSIZE⟩

/-- The pages that `stack` touches. -/
def onStack (s : Space) (p : Slot) (a : Nat) : Prop :=
  ((s.slot p).sz - PGSIZE) / PGSIZE ≤ a ∧ a ≤ ((s.slot p).sz - 1) / PGSIZE

end Space

/-- The stacks of the live sub-threads are mapped for the user, and apart from each
other and from what `sbrk` has handed out. -/
structure StackLaw (s : Space) : Prop where
  mapped : ∀ p, s.live p → ∀ a, s.onStack p a → s.pgdir a = some true
  apart : ∀ p q, s.live p → s.live q → p ≠ q → (s.stack p).Disjoint (s.stack q)
  heap : ∀ p, s.live p → ∀ r ∈ s.handed, r.Disjoint (s.stack p)

structure StackInv (s : Space) : Prop where
  top : ∀ p, s.stacked p → 2 * PGSIZE ≤ (s.slot p).sz ∧ (s.slot p).sz ≤ s.size
  mapped : ∀ p, s.stacked p → ∀ a, s.onStack p a → s.pgdir a = some true
  apart : ∀ p q, s.stacked p → s.stacked q → p ≠ q →
    (s.slot p).sz + PGSIZE ≤ (s.slot q).sz ∨ (s.slot q).sz + PGSIZE ≤ (s.slot p).sz
  below : ∀ r ∈ s.handed, r.len = 0 ∨ r.addr + r.len ≤ s.size
  heap : ∀ p, s.stacked p → ∀ r ∈ s.handed, r.Disjoint (s.stack p)

theorem StackInv.law {s : Space} (h : StackInv s) : StackLaw s where
  mapped := fun p hp => h.mapped p (Or.inl hp)
  apart := by
    intro p q hp hq hpq
    have hap := h.apart p q (Or.inl hp) (Or.inl hq) hpq
    have htp := (h.top p (Or.inl hp)).1
    have htq := (h.top q (Or.inl hq)).1
    simp only [Region.Disjoint, Space.stack]
    omega
  heap := fun p hp => h.heap p (Or.inl hp)

/-- `sbrk(n)` with a negative `n` leaves the stacks below the new size, and `clearpteu`
takes no page of theirs. -/
def keepsStacks (s : Space) : Action → Bool
  | .growproc i _ =>
    match (s.slot i).call with
    | .growproc n _ => 0 ≤ n ∨ ∀ p, s.stacked p → (s.slot p).sz ≤ uint (s.size + n)
    | _ => true
  | .threadNext i _ =>
    match (s.slot i).call with
    | .create np .clearpteu =>
      ∀ p, s.stacked p → (s.slot p).sz ≤ ((s.slot np).sz - 2 * PGSIZE) / PGSIZE * PGSIZE
    | _ => true
  | _ => true

def StacksOk (s : Space) (a : Action) : Prop :=
  undisturbed s a ∧ keepsMain s a ∧ freshAddr s a ∧ keepsStacks s a

instance (s : Space) (a : Action) : Decidable (StacksOk s a) :=
  inferInstanceAs (Decidable (_ ∧ _))

/-! ### Which threads have a stack -/

namespace Space

variable {s t : Space}

theorem stacked_mono (hmain : t.main = s.main)
    (hstate : ∀ p, (t.slot p).state = .runnable → (s.slot p).state = .runnable)
    (hcall : ∀ j p, (t.slot j).call.places p → (s.slot j).call.places p) {p : Slot}
    (hp : t.stacked p) : s.stacked p := by
  rcases hp with ⟨hne, hrun⟩ | ⟨j, hj⟩
  · rw [hmain] at hne
    exact Or.inl ⟨hne, hstate p hrun⟩
  · exact Or.inr ⟨j, hcall j p hj⟩

theorem setCall_stacked {i p : Slot} {k : Call} (hk : ∀ q, k.places q = false)
    (hp : (s.setCall i k).stacked p) : s.stacked p := by
  refine stacked_mono ?_ ?_ ?_ hp
  · rfl
  · intro q hq
    rwa [setCall_state] at hq
  · intro j q hj
    rw [setCall_call] at hj
    split_ifs at hj
    · rw [hk q] at hj
      exact absurd hj Bool.false_ne_true
    · exact hj

theorem setState_stacked {p q : Slot} {x : Mlfq.Procstate} (hx : x ≠ .runnable)
    (hq : (s.setState p x).stacked q) : s.stacked q := by
  refine stacked_mono ?_ ?_ ?_ hq
  · rfl
  · intro r hr
    rw [setState_state] at hr
    split_ifs at hr
    · exact absurd hr hx
    · exact hr
  · intro j r hj
    rwa [setState_call] at hj

/-- A page of a stack lies below the first page that is free at the size. -/
theorem onStack_lt {p : Slot} {a x : Nat} (hp : 2 * PGSIZE ≤ (s.slot p).sz)
    (hx : (s.slot p).sz ≤ x) (ha : s.onStack p a) : a < pgup x := by
  obtain ⟨-, hle⟩ := ha
  unfold pgup
  unfold PGSIZE at *
  omega

end Space

namespace Layout

variable {s : Space} {i np : Slot} {st : Stage}

theorem ne_main_of_stacked (h : Layout s) {p : Slot} (hp : s.stacked p) : p ≠ s.main := by
  rcases hp with hp | ⟨j, hj⟩
  · exact hp.1
  · cases hc : (s.slot j).call with
    | create np st =>
      rw [hc] at hj
      have hnp : np = p := (of_decide_eq_true hj).2
      rw [← hnp]
      exact h.ne_main hc
    | user =>
      rw [hc] at hj
      exact absurd hj Bool.false_ne_true
    | growproc n addr =>
      rw [hc] at hj
      exact absurd hj Bool.false_ne_true

theorem not_stacked (h : Layout s) (hi : (s.slot i).call = .create np st)
    (hst : st.placed = false) : ¬ s.stacked np := by
  rintro (⟨-, hrun⟩ | ⟨j, hj⟩)
  · rw [(h.embryo hi).1] at hrun
    exact absurd hrun (by decide)
  · cases hc : (s.slot j).call with
    | create np' st' =>
      rw [hc] at hj
      obtain ⟨hpl, rfl⟩ : st'.placed ∧ np' = np := of_decide_eq_true hj
      have hji := h.own j i _ _ _ hc hi
      rw [hji, hi] at hc
      rw [← (Call.create.inj hc).2, hst] at hpl
      exact absurd hpl Bool.false_ne_true
    | user =>
      rw [hc] at hj
      exact absurd hj Bool.false_ne_true
    | growproc n addr =>
      rw [hc] at hj
      exact absurd hj Bool.false_ne_true

end Layout

/-! ### What a step has to respect -/

namespace StackInv

variable {s t : Space} {i np : Slot} {st : Stage} {k : Call}

theorem frame (h : StackInv s)
    (hstk : ∀ p, t.stacked p → s.stacked p ∧ (t.slot p).sz = (s.slot p).sz)
    (hsize : ∀ p, t.stacked p → (s.slot p).sz ≤ t.size)
    (hpte : ∀ p, s.stacked p → ∀ a, s.onStack p a →
      t.pgdir a = s.pgdir a ∨ t.pgdir a = some true)
    (hbelow : ∀ r ∈ t.handed, r.len = 0 ∨ r.addr + r.len ≤ t.size)
    (hheap : ∀ p, s.stacked p → (s.slot p).sz ≤ t.size → ∀ r ∈ t.handed, r.Disjoint (s.stack p)) :
    StackInv t := by
  constructor
  · intro p hp
    rw [(hstk p hp).2]
    exact ⟨(h.top p (hstk p hp).1).1, hsize p hp⟩
  · intro p hp a ha
    obtain ⟨hs, hsz⟩ := hstk p hp
    have ha' : s.onStack p a := by
      unfold Space.onStack at ha ⊢
      rwa [hsz] at ha
    rcases hpte p hs a ha' with heq | heq
    · rw [heq]
      exact h.mapped p hs a ha'
    · exact heq
  · intro p q hp hq hpq
    rw [(hstk p hp).2, (hstk q hq).2]
    exact h.apart p q (hstk p hp).1 (hstk q hq).1 hpq
  · exact hbelow
  · intro p hp r hr
    have hst : t.stack p = s.stack p := by rw [Space.stack, Space.stack, (hstk p hp).2]
    rw [hst]
    exact hheap p (hstk p hp).1 (hsize p hp) r hr

/-- A step of `thread_create` that neither starts the thread nor moves the size. -/
theorem advance (h : StackInv s) (hl : Layout s) (hi : (s.slot i).call = .create np st)
    (hmain : t.main = s.main)
    (hcall : ∀ j, (t.slot j).call = if j = i then k else (s.slot j).call)
    (hstate : ∀ p, (t.slot p).state = (s.slot p).state)
    (hk : ∀ p, k.places p → st.placed)
    (hk' : ∀ p, k.places p → np = p)
    (hsz : ∀ p, p ≠ np ∨ st.placed → (t.slot p).sz = (s.slot p).sz)
    (hpte : ∀ p, s.stacked p → ∀ a, s.onStack p a →
      t.pgdir a = s.pgdir a ∨ t.pgdir a = some true)
    (hhanded : t.handed = s.handed) : StackInv t := by
  have hstk : ∀ p, t.stacked p → s.stacked p := by
    intro p
    refine Space.stacked_mono hmain (fun q hq => (hstate q).symm.trans hq) ?_
    intro j q hj
    rw [hcall j] at hj
    split_ifs at hj with hji
    · rw [hji, hi]
      exact decide_eq_true ⟨hk q hj, hk' q hj⟩
    · exact hj
  have hsame : ∀ p, s.stacked p → (t.slot p).sz = (s.slot p).sz := by
    intro p hp
    refine hsz p ?_
    by_cases hpl : st.placed
    · exact Or.inr hpl
    · left
      rintro rfl
      exact hl.not_stacked hi (by simpa using hpl) hp
  have hsize : t.size = s.size := by
    unfold Space.size
    rw [hmain]
    exact hsz _ (Or.inl (hl.ne_main hi).symm)
  refine h.frame (fun p hp => ⟨hstk p hp, hsame p (hstk p hp)⟩) ?_ hpte ?_ ?_
  · intro p hp
    rw [hsize]
    exact (h.top p (hstk p hp)).2
  · rw [hhanded, hsize]
    exact h.below
  · intro p hp _
    rw [hhanded]
    exact h.heap p hp

theorem advance_call (h : StackInv s) (hl : Layout s) (hi : (s.slot i).call = .create np st)
    (hk : ∀ p, k.places p → st.placed) (hk' : ∀ p, k.places p → np = p) :
    StackInv (s.setCall i k) :=
  h.advance hl hi rfl (s.setCall_call i · k) (s.setCall_state i · k) hk hk'
    (fun p _ => s.setCall_sz i p k) (fun _ _ _ _ => Or.inl rfl) rfl

theorem advance_sz (h : StackInv s) (hl : Layout s) (hi : (s.slot i).call = .create np st)
    {x : Nat} (hst : st.placed = false) (hk : ∀ p, k.places p = false) :
    StackInv ((s.setSz np x).setCall i k) := by
  refine h.advance (k := k) hl hi rfl ?_ ?_ (fun p hp => ?_) (fun p hp => ?_) ?_
    (fun _ _ _ _ => Or.inl rfl) rfl
  · exact fun j => (Space.setCall_call _ _ _ _).trans (by rw [Space.setSz_call])
  · exact fun p => (Space.setCall_state _ _ _ _).trans (Space.setSz_state _ _ _ _)
  · rw [hk p] at hp
    exact absurd hp Bool.false_ne_true
  · rw [hk p] at hp
    exact absurd hp Bool.false_ne_true
  · intro p hp
    have hne : p ≠ np := hp.resolve_right fun hc => by
      rw [hst] at hc
      exact Bool.false_ne_true hc
    rw [Space.setCall_sz, Space.setSz_sz, if_neg hne]

theorem advance_pte (h : StackInv s) (hl : Layout s) (hi : (s.slot i).call = .create np st)
    {pd : Pgdir} {o : Bool} (hk : ∀ p, k.places p = false)
    (hpte : ∀ p, s.stacked p → ∀ a, s.onStack p a → pd a = s.pgdir a ∨ pd a = some true) :
    StackInv { s.setCall i k with pgdir := pd, overwritten := o } := by
  refine h.advance hl hi rfl (s.setCall_call i · k) (s.setCall_state i · k) (fun p hp => ?_)
    (fun p hp => ?_) (fun p _ => s.setCall_sz i p k) hpte rfl
  · rw [hk p] at hp
    exact absurd hp Bool.false_ne_true
  · rw [hk p] at hp
    exact absurd hp Bool.false_ne_true

/-- The stack of the new thread is in place: its two pages were mapped at the end of the
process, and the second of them is not the one that `clearpteu` has taken. -/
theorem writeSize (h : StackInv s) (hl : Layout s) (hi : (s.slot i).call = .create np .mainSz)
    (enough : Bool) : StackInv (s.threadNext i np enough .mainSz) := by
  obtain ⟨-, hnp, -, hmap⟩ := hl.embryo hi
  have hsize : (s.threadNext i np enough .mainSz).size = s.size + 2 * PGSIZE := by
    refine (Space.setCall_size _ _ _).trans ?_
    rw [Space.setSz_size, if_pos rfl, hnp]
  have hsz : ∀ p, p ≠ s.main → ((s.threadNext i np enough .mainSz).slot p).sz = (s.slot p).sz := by
    intro p hp
    refine (Space.setCall_sz _ _ _ _).trans ?_
    rw [Space.setSz_sz, if_neg hp]
  have hstk : ∀ p, (s.threadNext i np enough .mainSz).stacked p → s.stacked p ∨ p = np := by
    rintro p (⟨hne, hrun⟩ | ⟨j, hj⟩)
    · refine Or.inl (Or.inl ⟨hne, ?_⟩)
      rw [← hrun]
      exact ((Space.setCall_state _ _ _ _).trans (Space.setSz_state _ _ _ _)).symm
    · have hc : ((s.threadNext i np enough .mainSz).slot j).call =
          if j = i then .create np .copyout else (s.slot j).call := by
        refine (Space.setCall_call _ _ _ _).trans ?_
        rw [Space.setSz_call]
      rw [hc] at hj
      split_ifs at hj
      · exact Or.inr (of_decide_eq_true hj).2.symm
      · exact Or.inl (Or.inr ⟨j, hj⟩)
  have hne : ∀ p, (s.threadNext i np enough .mainSz).stacked p → p ≠ s.main := by
    intro p hp
    rcases hstk p hp with hs | rfl
    · exact hl.ne_main_of_stacked hs
    · exact hl.ne_main hi
  have hnew : ∀ a, s.onStack np a → s.pgdir a = some true := by
    rintro a ⟨hlo, hhi⟩
    rw [hnp] at hlo hhi
    refine hmap a (mem_pages.mpr ⟨?_, ?_⟩) ?_
    · unfold pgup
      unfold PGSIZE at *
      omega
    · unfold pgup
      unfold PGSIZE at *
      omega
    · unfold PGSIZE at *
      omega
  constructor
  · intro p hp
    rw [hsz p (hne p hp), hsize]
    rcases hstk p hp with hs | rfl
    · have ht := h.top p hs
      omega
    · omega
  · intro p hp a ha
    have ha' : s.onStack p a := by
      unfold Space.onStack at ha ⊢
      rwa [hsz p (hne p hp)] at ha
    rcases hstk p hp with hs | rfl
    · exact h.mapped p hs a ha'
    · exact hnew a ha'
  · intro p q hp hq hpq
    rw [hsz p (hne p hp), hsz q (hne q hq)]
    rcases hstk p hp with hs | rfl
    · rcases hstk q hq with hs' | rfl
      · exact h.apart p q hs hs' hpq
      · have ht := (h.top p hs).2
        left
        omega
    · rcases hstk q hq with hs' | rfl
      · have ht := (h.top q hs').2
        right
        omega
      · exact absurd rfl hpq
  · intro r hr
    rw [hsize]
    have hb := h.below r hr
    omega
  · intro p hp r hr
    have hst : (s.threadNext i np enough .mainSz).stack p = s.stack p := by
      rw [Space.stack, Space.stack, hsz p (hne p hp)]
    rw [hst]
    rcases hstk p hp with hs | rfl
    · exact h.heap p hs r hr
    · have hb := h.below r hr
      simp only [Region.Disjoint, Space.stack]
      omega

/-- A step that only ends calls, or starts or ends threads. -/
theorem keep (h : StackInv s) (hsz : ∀ p, (t.slot p).sz = (s.slot p).sz) (hmain : t.main = s.main)
    (hpte : t.pgdir = s.pgdir) (hhanded : t.handed = s.handed)
    (hstk : ∀ p, t.stacked p → s.stacked p) : StackInv t := by
  have hsize : t.size = s.size := by
    unfold Space.size
    rw [hmain, hsz]
  refine h.frame (fun p hp => ⟨hstk p hp, hsz p⟩) ?_ ?_ ?_ ?_
  · intro p hp
    rw [hsize]
    exact (h.top p (hstk p hp)).2
  · intro p _ a _
    exact Or.inl (by rw [hpte])
  · rw [hhanded, hsize]
    exact h.below
  · intro p hp _
    rw [hhanded]
    exact h.heap p hp

theorem threadNext (h : StackInv s) (hl : Layout s) (hi : (s.slot i).call = .create np st)
    (enough : Bool) (hok : keepsStacks s (.threadNext i enough)) :
    StackInv (s.threadNext i np enough st) := by
  have hno : ¬ (false = true) := Bool.false_ne_true
  have hnew : ∀ a ∈ s.newPages, ∀ p, s.stacked p → ∀ b, s.onStack p b → b ≠ a := by
    rintro a ha p hp b hb rfl
    have ht := h.top p hp
    have hlt := Space.onStack_lt ht.1 ht.2 hb
    have hge := (mem_pages.mp ha).1
    omega
  cases st with
  | sz => exact h.advance_sz hl hi rfl fun _ => rfl
  | limit =>
    simp only [Space.threadNext]
    split_ifs
    · exact h.advance_call hl hi (fun _ hp => absurd hp hno) fun _ hp => absurd hp hno
    · exact h.advance_call hl hi (fun _ hp => absurd hp hno) fun _ hp => absurd hp hno
  | allocuvm =>
    simp only [Space.threadNext]
    split_ifs
    · exact h.advance_sz hl hi rfl fun _ => rfl
    · exact h.advance_call hl hi (fun _ hp => absurd hp hno) fun _ hp => absurd hp hno
    · exact h.advance_call hl hi (fun _ hp => absurd hp hno) fun _ hp => absurd hp hno
  | kalloc oldsz as =>
    cases as with
    | nil => exact h.advance_sz hl hi rfl fun _ => rfl
    | cons a as =>
      cases enough with
      | true =>
        exact h.advance_call hl hi (fun _ hp => absurd hp hno) fun _ hp => absurd hp hno
      | false =>
        exact h.advance_call hl hi (fun _ hp => absurd hp hno) fun _ hp => absurd hp hno
  | check oldsz a as =>
    simp only [Space.threadNext]
    split_ifs
    · exact h.keep (fun _ => rfl) rfl rfl rfl fun _ => id
    · exact h.advance_call hl hi (fun _ hp => absurd hp hno) fun _ hp => absurd hp hno
  | set oldsz a as =>
    refine h.advance_pte hl hi (fun _ => rfl) ?_
    intro p _ b _
    by_cases hba : b = a
    · rw [hba, Function.update_self]
      exact Or.inr rfl
    · rw [Function.update_of_ne hba]
      exact Or.inl rfl
  | dealloc as =>
    cases as with
    | nil => exact h.advance_sz hl hi rfl fun _ => rfl
    | cons a as =>
      refine h.advance_pte hl hi (fun _ => rfl) ?_
      intro p hp b hb
      have ha := (hl.embryo hi).2.1 a List.mem_cons_self
      rw [Pgdir.unmap, Function.update_of_ne (hnew a ha p hp b hb)]
      exact Or.inl rfl
  | clearpteu =>
    refine h.advance_pte hl hi (fun _ => rfl) ?_
    intro p hp b hb
    left
    simp only [keepsStacks, hi, decide_eq_true_eq] at hok
    have hle := hok p hp
    have ht := h.top p hp
    have hsz := (hl.embryo hi).2.1
    have hlt := hl.size
    have huva : uint ((s.slot np).sz - 2 * PGSIZE : Int) = s.size := by
      rw [hsz]
      unfold uint
      unfold KERNBASE at hlt
      rw [Int.emod_eq_of_lt (by omega) (by omega)]
      omega
    rw [huva, Pgdir.clearpteu, Function.update_of_ne]
    rintro rfl
    rw [hsz, Nat.add_sub_cancel] at hle
    obtain ⟨-, hhi⟩ := hb
    unfold PGSIZE at *
    omega
  | mainSz => exact h.writeSize hl hi enough
  | copyout =>
    simp only [Space.threadNext]
    split_ifs
    · exact h.advance_call hl hi (fun _ _ => rfl) fun p hp => (of_decide_eq_true hp).2
    · exact h.advance_call hl hi (fun _ hp => absurd hp hno) fun _ hp => absurd hp hno
  | runnable =>
    refine h.keep ?_ rfl rfl rfl ?_
    · exact fun p => (Space.setCall_sz _ _ _ _).trans (Space.setState_sz _ _ _ _)
    · rintro p (⟨hne, hrun⟩ | ⟨j, hj⟩)
      · by_cases hp : p = np
        · right
          refine ⟨i, ?_⟩
          rw [hi, hp]
          exact decide_eq_true ⟨rfl, rfl⟩
        · left
          refine ⟨hne, ?_⟩
          rw [← hrun]
          refine ((Space.setCall_state _ _ _ _).trans ?_).symm
          rw [Space.setState_state, if_neg hp]
      · right
        have hc : ((s.threadNext i np enough .runnable).slot j).call =
            if j = i then .user else (s.slot j).call := by
          refine (Space.setCall_call _ _ _ _).trans ?_
          rw [Space.setState_call]
        rw [hc] at hj
        split_ifs at hj
        · exact absurd hj Bool.false_ne_true
        · exact ⟨j, hj⟩

/-- `growproc` changes `mainthread->sz`, the pages and what is handed out. -/
theorem resize (h : StackInv s) (hl : Layout s) {pd : Pgdir} {sz : Nat} {hs gs : List Region}
    (hsz : ∀ p, s.stacked p → (s.slot p).sz ≤ sz)
    (hpte : ∀ p, s.stacked p → ∀ a, s.onStack p a → pd a = s.pgdir a ∨ pd a = some true)
    (hbelow : ∀ r ∈ hs, r.len = 0 ∨ r.addr + r.len ≤ sz)
    (hheap : ∀ p, s.stacked p → ∀ r ∈ hs, r.Disjoint (s.stack p)) :
    StackInv { s.setSz s.main sz with pgdir := pd, handed := hs, grown := gs } := by
  have hsize : ({ s.setSz s.main sz with pgdir := pd, handed := hs, grown := gs } : Space).size
      = sz := by
    show (s.setSz s.main sz).size = sz
    rw [Space.setSz_size, if_pos rfl]
  have hstk : ∀ p, ({ s.setSz s.main sz with pgdir := pd, handed := hs, grown := gs } :
      Space).stacked p → s.stacked p := by
    intro p hp
    refine Space.stacked_mono ?_ ?_ ?_ hp
    · rfl
    · intro q hq
      exact (Space.setSz_state _ _ _ _).symm.trans hq
    · intro j q hj
      have hc : ((s.setSz s.main sz).slot j).call = (s.slot j).call := Space.setSz_call _ _ _ _
      rw [← hc]
      exact hj
  refine h.frame (fun p hp => ⟨hstk p hp, ?_⟩) ?_ hpte ?_ fun p hp _ => hheap p hp
  · refine (Space.setSz_sz _ _ _ _).trans ?_
    rw [if_neg (hl.ne_main_of_stacked (hstk p hp))]
  · intro p hp
    rw [hsize]
    exact hsz p (hstk p hp)
  · rw [hsize]
    exact hbelow

theorem failed (h : StackInv s) {pd : Pgdir} {l : Bool} {x : Nat}
    (hx : ∀ p, s.stacked p → (s.slot p).sz ≤ x)
    (hpd : ∀ b, pd b = s.pgdir b ∨ pgup x ≤ b) : StackInv { s with pgdir := pd, lockHeld := l } := by
  refine h.frame (fun p hp => ⟨hp, rfl⟩) (fun p hp => (h.top p hp).2) ?_ h.below
    fun p hp _ => h.heap p hp
  intro p hp a ha
  rcases hpd a with heq | hge
  · exact Or.inl heq
  · have hlt := Space.onStack_lt (h.top p hp).1 (hx p hp) ha
    omega

theorem growproc (h : StackInv s) (hl : Layout s) {n : Int} {addr free : Nat}
    (hn : -2147483648 ≤ n ∧ n < 2147483648) (hfresh : n ≤ 0 ∨ addr = s.size)
    (hkeep : 0 ≤ n ∨ ∀ p, s.stacked p → (s.slot p).sz ≤ uint (s.size + n)) :
    StackInv (s.growproc n addr free) := by
  have htop : ∀ p, s.stacked p → (s.slot p).sz ≤ s.size := fun p hp => (h.top p hp).2
  rcases Int.lt_trichotomy 0 n with h0 | h0 | h0
  · have haddr := hfresh.resolve_left (by omega)
    subst haddr
    have hgrow := s.growproc_cases s.size free hl.size h0 hn.2
    generalize s.growproc n s.size free = u at hgrow ⊢
    cases hgrow with
    | failed pd hpd =>
      refine h.failed htop fun b => ?_
      rcases hpd b with heq | ⟨hin, -⟩
      · exact Or.inl heq
      · exact Or.inr (mem_pages.mp hin).1
    | remap hpd => exact h.keep (fun _ => rfl) rfl rfl rfl fun _ => id
    | grown pd hlt hfree hpd =>
      refine h.resize hl ?_ ?_ ?_ ?_
      · intro p hp
        have ht := htop p hp
        omega
      · intro p _ a _
        rw [hpd a]
        split_ifs
        · exact Or.inr rfl
        · exact Or.inl rfl
      · intro r hr
        rcases List.mem_append.mp hr with hr | hr
        · have hb := h.below r hr
          omega
        · rw [List.mem_singleton.mp hr]
          exact Or.inr le_rfl
      · intro p hp r hr
        rcases List.mem_append.mp hr with hr | hr
        · exact h.heap p hp r hr
        · have ht := h.top p hp
          rw [List.mem_singleton.mp hr]
          simp only [Region.Disjoint, Space.stack]
          unfold PGSIZE at *
          omega
  · subst h0
    unfold Space.growproc
    by_cases hlim : s.overLimit 0
    · rw [if_pos hlim]
      exact h.failed htop fun b => Or.inl rfl
    · rw [if_neg hlim, if_neg (lt_irrefl _), if_neg (lt_irrefl _)]
      exact h
  · have hkeep := hkeep.resolve_left (by omega)
    have hshrink := s.growproc_neg_cases addr free h0
    generalize s.growproc n addr free = u at hshrink ⊢
    cases hshrink with
    | failed pd hpd =>
      refine h.failed hkeep fun b => ?_
      rcases hpd b with heq | ⟨hin, -⟩
      · exact Or.inl heq
      · exact Or.inr (mem_pages.mp hin).1
    | shrunk pd hpd =>
      refine h.resize hl ?_ ?_ ?_ ?_
      · intro p hp
        exact Nat.le_min.mpr ⟨htop p hp, hkeep p hp⟩
      · intro p hp a ha
        left
        rw [hpd a, if_neg]
        intro hin
        have hlt := Space.onStack_lt (h.top p hp).1 (hkeep p hp) ha
        have hge := (mem_pages.mp hin).1
        omega
      · intro r hr
        obtain ⟨r', -, rfl⟩ := List.mem_map.mp hr
        simp only [Region.below]
        omega
      · intro p hp r hr
        obtain ⟨r', hr', rfl⟩ := List.mem_map.mp hr
        have hd := h.heap p hp r' hr'
        simp only [Region.Disjoint, Region.below] at hd ⊢
        omega

theorem setCall (h : StackInv s) (hk : ∀ p, k.places p = false) : StackInv (s.setCall i k) := by
  exact h.keep (fun p => Space.setCall_sz _ _ _ _) rfl rfl rfl fun p => Space.setCall_stacked hk

theorem setState (h : StackInv s) {p : Slot} {x : Mlfq.Procstate} (hx : x ≠ .runnable) :
    StackInv (s.setState p x) := by
  exact h.keep (fun q => Space.setState_sz _ _ _ _) rfl rfl rfl fun q => Space.setState_stacked hx

theorem step (h : StackInv s) (hl : Layout s) {a : Action} (hok : StacksOk s a)
    (hs : Memory.step s a = some t) : StackInv t := by
  obtain ⟨-, -, hfresh, hkeeps⟩ := hok
  unfold Memory.step at hs
  split_ifs at hs
  cases a with
  | sbrk i n =>
    simp only at hs
    split_ifs at hs
    cases hs
    exact h.setCall fun _ => rfl
  | growproc i free =>
    cases hcall : (s.slot i).call with
    | growproc n addr =>
      simp only [hcall] at hs
      split_ifs at hs
      cases hs
      have hbound := hl.calls i
      rw [hcall] at hbound
      simp only [freshAddr, hcall, decide_eq_true_eq] at hfresh
      simp only [keepsStacks, hcall, decide_eq_true_eq] at hkeeps
      have hset : StackInv (s.setCall i .user) := h.setCall fun _ => rfl
      have hlset : Layout (s.setCall i .user) := hl.endCall hcall
      have hsize : (s.setCall i .user).size = s.size := Space.setCall_size _ _ _
      refine hset.growproc hlset hbound ?_ ?_
      · rw [hsize]
        exact hfresh
      · refine hkeeps.imp id fun hk p hp => ?_
        rw [Space.setCall_sz, hsize]
        exact hk p (Space.setCall_stacked (fun _ => rfl) hp)
    | user => simp [hcall] at hs
    | create np st => simp [hcall] at hs
  | threadCreate i np =>
    simp only at hs
    split_ifs at hs
    cases hs
    exact (h.setState (by decide)).setCall fun _ => rfl
  | threadNext i enough =>
    cases hcall : (s.slot i).call with
    | create np st =>
      simp only [hcall] at hs
      split_ifs at hs
      cases hs
      exact h.threadNext hl hcall enough hkeeps
    | user => simp [hcall] at hs
    | growproc n addr => simp [hcall] at hs
  | threadExit i =>
    simp only at hs
    split_ifs at hs
    cases hs
    exact h.setState (by decide)
  | threadJoin i p =>
    simp only at hs
    split_ifs at hs
    cases hs
    rw [Space.cleanthread_eq]
    exact h.setState (by decide)

end StackInv

/-- A process with one thread. -/
structure Single (s : Space) : Prop extends Quiet s where
  alone : ∀ p, ¬ s.live p

theorem Single.stackInv {s : Space} (h : Single s) : StackInv s := by
  have hno : ∀ p, ¬ s.stacked p := by
    rintro p (hp | ⟨i, hi⟩)
    · exact h.alone p hp
    · rw [h.user i] at hi
      exact absurd hi Bool.false_ne_true
  constructor
  · exact fun p hp => absurd hp (hno p)
  · exact fun p hp => absurd hp (hno p)
  · exact fun p q hp => absurd hp (hno p)
  · simp [h.handed]
  · exact fun p hp => absurd hp (hno p)

/-- The stacks of the live sub-threads are there in every state of a run that begins
with one thread and whose steps respect them. -/
theorem stackLaw_of_reach {s₀ s : Space} (h0 : Single s₀) (hr : Reach step StacksOk s₀ s) :
    StackLaw s := by
  have hinv : Layout s ∧ StackInv s := by
    refine hr.invariant (I := fun s => Layout s ∧ StackInv s) ⟨h0.layout, h0.stackInv⟩ ?_
    rintro u a v ⟨hl, hi⟩ hok hv
    exact ⟨hl.step hok.1 hok.2.1 hv, hi.step hl hok hv⟩
  exact hinv.2.law

/-- The process of `twoThreads` before its second thread. -/
def oneThread : Space :=
  { twoThreads with
    pgdir := fun a => if a < 3 then some (decide (a ≠ 1)) else none
    slot := fun i => if i = 1 then ⟨12288, .runnable, .user⟩ else ⟨0, .unused, .user⟩ }

theorem single_oneThread : Single oneThread where
  user := by decide +kernel
  size := by decide +kernel
  handed := rfl
  main := by decide +kernel
  mapped := by
    intro a ha
    by_cases h : a < 3
    · exact h
    · simp [oneThread, h] at ha
  panicked := rfl
  overwritten := rfl
  grown := rfl
  alone := by decide +kernel

/-- A thread is created, and the process grows and shrinks again above its stack. -/
def stackKept : Space :=
  (run (guarded step StacksOk) oneThread (createSteps 1 2 ++
    [.sbrk 2 8192, .growproc 2 2, .sbrk 1 (-4096), .growproc 1 0])).getD oneThread

theorem stackLaw_of_reach_kept :
    stackKept.size = 24576 ∧ stackKept.live 2 ∧ StackLaw stackKept := by
  have hr : Reach step StacksOk oneThread stackKept :=
    reach_of_guarded_run (eq_some_getD (by decide +kernel))
  exact ⟨by decide +kernel, by decide +kernel, stackLaw_of_reach single_oneThread hr⟩

/-- The main thread gives back the two pages at the end of the process, which are the
stack of thread 2. -/
def stackTaken : Space :=
  (run (guarded step fun _ _ => True) oneThread
    (createSteps 1 2 ++ [.sbrk 1 (-8192), .growproc 1 0])).getD oneThread

theorem not_stackLaw_of_reach :
    ¬ ∀ s₀ s, Single s₀ → Reach step (fun _ _ => True) s₀ s → StackLaw s := by
  intro hall
  have hr : Reach step (fun _ _ => True) oneThread stackTaken :=
    reach_of_guarded_run (eq_some_getD (by decide +kernel))
  have hlaw := hall _ _ single_oneThread hr
  have hmapped := hlaw.mapped 2 (by decide +kernel) 4 (by
    unfold Space.onStack
    decide +kernel)
  exact absurd hmapped (by decide +kernel)

end Xv6.Memory
