import Xv6.Exec.Paging
import Xv6.Memory.Growth

/-!
# What fork copies (project2/proc.c:189-238, vm.c:315-345)

`fork` copies as many pages as the slot of the calling thread says the process has.
`Filled` keeps the pages below the size mapped, so that the copy of a thread that knows
the size is whole.
-/

namespace Xv6.Memory
open Mlfq (Slot)
open Threads (PGSIZE KERNBASE uint)
open Xv6.Transition

/-- The user pages of the new process. -/
abbrev Child := Nat → Option Exec.Page

/-- The loop of `copyuvm` over the pages `as`; `data` is what they contain. The outer
option is its panics, the inner one the way out by `bad`. -/
def copyLoop (pd : Pgdir) (data : Nat → Nat → Byte) :
    List Nat → (free : Nat) → Child → Option (Option Child)
  | [], _, d => some (some d)
  | a :: as, free, d =>
    match pd a with
    | none => none
    | some user =>
      match free with
      | 0 => some none
      | free + 1 => copyLoop pd data as free (Function.update d a (some ⟨user, data a⟩))

/-- `copyuvm`; `kvm` says whether `setupkvm` has memory. -/
def copyuvm (pd : Pgdir) (data : Nat → Nat → Byte) (sz : Nat) (kvm : Bool) (free : Nat) :
    Option (Option Child) :=
  if kvm then copyLoop pd data (pages 0 sz) free fun _ => none else some none

/-- `fork` by the thread `i`: the size and the pages of the child. -/
def Space.fork (s : Space) (i : Slot) (data : Nat → Nat → Byte) (kvm : Bool) (free : Nat) :
    Option (Option (Nat × Child)) :=
  (copyuvm s.pgdir data (s.slot i).sz kvm free).map fun r => r.map fun d => ((s.slot i).sz, d)

/-- `fork` does not panic, and its child is a copy of the whole process. -/
structure ForkLaw (s : Space) (i : Slot) : Prop where
  returns : ∀ data kvm free, s.fork i data kvm free ≠ none
  size : ∀ data kvm free sz d, s.fork i data kvm free = some (some (sz, d)) → sz = s.size
  mapped : ∀ data kvm free sz d, s.fork i data kvm free = some (some (sz, d)) →
    ∀ a, d a ≠ none ↔ a < pgup s.size
  copied : ∀ data kvm free sz d, s.fork i data kvm free = some (some (sz, d)) →
    ∀ a, a < pgup s.size → d a = (s.pgdir a).map fun user => ⟨user, data a⟩

/-- Every page below the size is mapped. -/
def Space.whole (s : Space) : Prop := ∀ a, a < pgup s.size → s.pgdir a ≠ none

section Copy

variable {pd : Pgdir} {data : Nat → Nat → Byte} {as : List Nat} {free : Nat} {c d : Child}

theorem copyLoop_isSome (hpd : ∀ a ∈ as, pd a ≠ none) : copyLoop pd data as free c ≠ none := by
  induction as generalizing free c with
  | nil => simp [copyLoop]
  | cons a as ih =>
    have hrest : ∀ b ∈ as, pd b ≠ none := fun b hb => hpd b (List.mem_cons_of_mem _ hb)
    unfold copyLoop
    cases hp : pd a with
    | none => exact absurd hp (hpd a List.mem_cons_self)
    | some user =>
      cases free with
      | zero => simp
      | succ free => exact ih hrest

theorem copyLoop_spec (hd : copyLoop pd data as free c = some (some d)) :
    (∀ a ∈ as, pd a ≠ none) ∧
      ∀ a, d a = if a ∈ as then (pd a).map fun user => ⟨user, data a⟩ else c a := by
  induction as generalizing free c with
  | nil =>
    cases hd
    simp
  | cons a as ih =>
    unfold copyLoop at hd
    cases hp : pd a with
    | none =>
      rw [hp] at hd
      cases hd
    | some user =>
      rw [hp] at hd
      cases free with
      | zero => cases hd
      | succ free =>
        obtain ⟨hpd, hall⟩ := ih hd
        constructor
        · intro b hb
          rcases List.mem_cons.mp hb with hba | hb
          · rw [hba, hp]
            simp
          · exact hpd b hb
        · intro b
          rw [hall b]
          by_cases hba : b = a
          · subst hba
            simp [hp]
          · simp [hba]

/-- With enough memory the loop comes to its end or panics. -/
theorem copyLoop_enough (hfree : as.length ≤ free) : copyLoop pd data as free c ≠ some none := by
  induction as generalizing free c with
  | nil => simp [copyLoop]
  | cons a as ih =>
    unfold copyLoop
    cases hp : pd a with
    | none => simp
    | some user =>
      cases free with
      | zero => simp at hfree
      | succ free =>
        apply ih
        simpa using hfree

end Copy

theorem pages_zero (sz : Nat) : pages 0 sz = List.range' 0 (pgup sz) := by
  have h0 : pgup 0 = 0 := by decide
  rw [pages, h0, Nat.sub_zero]

theorem mem_pages_zero {a sz : Nat} : a ∈ pages 0 sz ↔ a < pgup sz := by
  rw [pages_zero, List.mem_range'_1]
  omega

theorem ForkLaw.exact {s : Space} {i : Slot} (h : ForkLaw s i) :
    (s.slot i).sz = s.size ∧ s.whole := by
  let n := (pages 0 (s.slot i).sz).length
  have hreturns := h.returns (fun _ _ => 0) true n
  have hsize := h.size (fun _ _ => 0) true n
  unfold Space.fork copyuvm at hreturns hsize
  rw [if_pos rfl] at hreturns hsize
  cases hr : copyLoop s.pgdir (fun _ _ => 0) (pages 0 (s.slot i).sz) n fun _ => none with
  | none =>
    rw [hr] at hreturns
    exact absurd rfl hreturns
  | some r =>
    cases r with
    | none => exact absurd hr (copyLoop_enough (Nat.le_refl _))
    | some d =>
      rw [hr] at hsize
      have hsz : (s.slot i).sz = s.size := hsize _ d rfl
      refine ⟨hsz, ?_⟩
      intro a ha
      rw [← hsz, ← mem_pages_zero] at ha
      exact (copyLoop_spec hr).1 a ha

/-- The child of a `fork` that works. -/
theorem fork_copied {s : Space} {i : Slot} {data : Nat → Nat → Byte} {kvm : Bool}
    {free sz : Nat} {d : Child} (hsz : (s.slot i).sz = s.size)
    (hd : s.fork i data kvm free = some (some (sz, d))) :
    sz = s.size ∧ ∀ a, d a =
      if a < pgup s.size then (s.pgdir a).map fun user => ⟨user, data a⟩ else none := by
  unfold Space.fork copyuvm at hd
  cases kvm with
  | false => simp at hd
  | true =>
    rw [if_pos rfl] at hd
    obtain ⟨r, hr, hd⟩ := Option.map_eq_some_iff.mp hd
    obtain ⟨d', rfl, hd⟩ := Option.map_eq_some_iff.mp hd
    cases hd
    refine ⟨hsz, ?_⟩
    intro a
    rw [(copyLoop_spec hr).2 a]
    simp only [hsz, mem_pages_zero]

theorem forkLaw_of_whole {s : Space} {i : Slot} (hsz : (s.slot i).sz = s.size)
    (hwhole : s.whole) : ForkLaw s i := by
  have hpages : ∀ a ∈ pages 0 (s.slot i).sz, s.pgdir a ≠ none := by
    intro a ha
    rw [hsz, mem_pages_zero] at ha
    exact hwhole a ha
  constructor
  · intro data kvm free
    unfold Space.fork copyuvm
    cases kvm with
    | false => simp
    | true => simpa using copyLoop_isSome hpages
  · intro data kvm free sz d hd
    exact (fork_copied hsz hd).1
  · intro data kvm free sz d hd a
    rw [(fork_copied hsz hd).2 a]
    split_ifs with ha
    · simp [ha, hwhole a ha]
    · simp [ha]
  · intro data kvm free sz d hd a ha
    rw [(fork_copied hsz hd).2 a, if_pos ha]

/-- `fork` copies the process exactly where the calling thread knows its size and its
pages are there. -/
theorem forkLaw_iff (s : Space) (i : Slot) :
    ForkLaw s i ↔ (s.slot i).sz = s.size ∧ s.whole := by
  constructor
  · intro h
    exact h.exact
  · intro h
    exact forkLaw_of_whole h.1 h.2

/-! ### The pages below the size -/

/-- The pages below the size are mapped, unless a `growproc` has failed, and so is a new
stack when the size is about to take it in. -/
structure Filled (s : Space) : Prop where
  whole : s.lockHeld = false → s.whole
  stack : ∀ i np, (s.slot i).call = .create np .mainSz → ∀ a ∈ s.newPages, s.pgdir a ≠ none

section Filled

variable {s t : Space} {i np : Slot} {st : Stage}

/-- A step of `thread_create` takes at most pages of the new stack away. -/
theorem Layout.threadNext_pte (h : Layout s) (hi : (s.slot i).call = .create np st)
    (enough : Bool) {a : Nat} (ha : s.pgdir a ≠ none) :
    (s.threadNext i np enough st).pgdir a ≠ none ∨
      (∃ as, st = .dealloc as) ∧ a ∈ s.newPages := by
  cases st with
  | sz | mainSz | runnable => exact Or.inl ha
  | limit =>
    simp only [Space.threadNext]
    exact Or.inl ha
  | allocuvm =>
    simp only [Space.threadNext]
    split_ifs
    · exact Or.inl ha
    · exact Or.inl ha
    · exact Or.inl ha
  | kalloc oldsz as => cases as <;> exact Or.inl ha
  | check oldsz b as =>
    simp only [Space.threadNext]
    split_ifs
    · exact Or.inl ha
    · exact Or.inl ha
  | set oldsz b as =>
    left
    simp only [Space.threadNext]
    by_cases hab : a = b
    · simp [hab]
    · rwa [Function.update_of_ne hab]
  | dealloc as =>
    cases as with
    | nil => exact Or.inl ha
    | cons b as =>
      by_cases hab : a = b
      · right
        refine ⟨⟨_, rfl⟩, ?_⟩
        rw [hab]
        exact (h.embryo hi).2.1 b List.mem_cons_self
      · left
        simp only [Space.threadNext]
        rwa [Pgdir.unmap, Function.update_of_ne hab]
  | clearpteu =>
    left
    simp only [Space.threadNext, Pgdir.clearpteu]
    by_cases hab : a = uint ((s.slot np).sz - 2 * PGSIZE : Int) / PGSIZE
    · rw [← hab, Function.update_self]
      simpa using ha
    · rwa [Function.update_of_ne hab]
  | copyout =>
    simp only [Space.threadNext]
    exact Or.inl ha

theorem Layout.newPages_ge {a : Nat} (ha : a ∈ s.newPages) : pgup s.size ≤ a :=
  (mem_pages.mp ha).1

/-- Only from `clearpteu` a call gets to `mainthread->sz = np->sz`. -/
theorem before_mainSz {p : Slot} {enough : Bool} (hi : (s.slot i).call = .create np st)
    (h : ((s.threadNext i np enough st).slot i).call = .create p .mainSz) : st = .clearpteu := by
  cases st with
  | clearpteu => rfl
  | kalloc oldsz as =>
    cases as with
    | nil => simp [Space.threadNext, Space.setCall_call] at h
    | cons a as =>
      simp only [Space.threadNext, Space.setCall_call] at h
      split_ifs at h
      all_goals simp at h
  | dealloc as => cases as <;> simp [Space.threadNext, Space.setCall_call] at h
  | limit | allocuvm | check oldsz b as | copyout =>
    simp only [Space.threadNext] at h
    split_ifs at h
    all_goals simp [Space.setCall_call, hi] at h
  | _ => simp [Space.threadNext, Space.setCall_call] at h

namespace Filled

/-- Neither pages nor sizes change, and no call gets to `mainthread->sz = np->sz`. -/
theorem congr (h : Filled s) (hpd : t.pgdir = s.pgdir) (hsize : t.size = s.size)
    (hlock : t.lockHeld = s.lockHeld)
    (hcall : ∀ j p, (t.slot j).call = .create p .mainSz → (s.slot j).call = .create p .mainSz) :
    Filled t := by
  constructor
  · intro hl a ha
    rw [hlock] at hl
    rw [hsize] at ha
    rw [hpd]
    exact h.whole hl a ha
  · intro j p hj a ha
    rw [Space.newPages_congr hsize] at ha
    rw [hpd]
    exact h.stack j p (hcall j p hj) a ha

theorem threadNext (h : Filled s) (hl : Layout s) (hi : (s.slot i).call = .create np st)
    (enough : Bool) : Filled (s.threadNext i np enough st) := by
  have hlock : (s.threadNext i np enough st).lockHeld = s.lockHeld := by
    cases st with
    | kalloc oldsz as | dealloc as => cases as <;> rfl
    | allocuvm | check oldsz a as =>
      simp only [Space.threadNext]
      split_ifs <;> rfl
    | _ => rfl
  constructor
  · intro hfree a ha
    rw [hlock] at hfree
    have hold := h.whole hfree
    by_cases hst : st = .mainSz
    · subst hst
      have hsize : (s.threadNext i np enough .mainSz).size = s.size + 2 * PGSIZE := by
        refine (Space.setCall_size _ _ _).trans ?_
        rw [Space.setSz_size, if_pos rfl, (hl.embryo hi).2.1]
      rw [hsize] at ha
      by_cases hlt : a < pgup s.size
      · exact hold a hlt
      · exact h.stack i np hi a (mem_pages.mpr ⟨Nat.le_of_not_lt hlt, ha⟩)
    · rw [(hl.threadNext_size hi enough hst).2] at ha
      rcases hl.threadNext_pte hi enough (hold a ha) with hkeep | ⟨-, hnew⟩
      · exact hkeep
      · have hge := Layout.newPages_ge hnew
        omega
  · intro j p hj a ha
    obtain ⟨k, hk, hcalls⟩ := s.threadNext_call hi enough
    rw [hcalls j] at hj
    split_ifs at hj with hji
    · -- the stage before is `clearpteu`, where every page of the stack is mapped
      subst hji
      have hcall := hcalls j
      rw [if_pos rfl, hj] at hcall
      have hst : st = .clearpteu := before_mainSz hi hcall
      subst hst
      have hsize := (hl.threadNext_size hi enough (by simp)).2
      rw [Space.newPages_congr hsize] at ha
      have hmap := (hl.embryo hi).2.2.pte a ha
      rcases hl.threadNext_pte hi enough (a := a) (by simp [hmap]) with hkeep | ⟨⟨as, has⟩, -⟩
      · exact hkeep
      · cases has
    · have him : (s.slot j).call.mapping := by
        rw [hj]
        rfl
      have hno : st.mapping = false := by
        have hidle := hl.idle him (fun hc => hji hc.symm)
        rwa [hi] at hidle
      have hst : st ≠ .mainSz := by
        intro hc
        rw [hc] at hno
        cases hno
      rw [Space.newPages_congr (hl.threadNext_size hi enough hst).2] at ha
      rcases hl.threadNext_pte hi enough (h.stack j p hj a ha) with hkeep | ⟨⟨as, has⟩, -⟩
      · exact hkeep
      · rw [has] at hno
        cases hno

theorem growproc (h : Filled s) (hl : Layout s) (hno : ∀ j, (s.slot j).call.mapping = false)
    {n : Int} {addr free : Nat} (hn : -2147483648 ≤ n ∧ n < 2147483648) :
    Filled (s.growproc n addr free) := by
  have hstack : ∀ j p, ((s.growproc n addr free).slot j).call = .create p .mainSz → False := by
    intro j p hj
    have hm := hno j
    rw [← (s.growproc_slot n addr free j).1, hj] at hm
    cases hm
  refine ⟨?_, fun j p hj => (hstack j p hj).elim⟩
  clear hstack
  intro hfree
  rcases Int.lt_trichotomy 0 n with h0 | h0 | h0
  · have hgrow := s.growproc_cases addr free hl.size h0 hn.2
    generalize s.growproc n addr free = u at hgrow hfree ⊢
    cases hgrow with
    | failed pd hpd => cases hfree
    | remap hpd => exact h.whole hfree
    | grown pd hlt hnone hpd =>
      intro a ha
      have hsize : (s.setSz s.main (s.size + n.toNat)).size = s.size + n.toNat := by
        rw [Space.setSz_size, if_pos rfl]
      change a < pgup (s.setSz s.main (s.size + n.toNat)).size at ha
      rw [hsize] at ha
      change pd a ≠ none
      rw [hpd a]
      split_ifs with hin
      · simp
      · apply h.whole hfree
        by_contra hc
        exact hin (mem_pages.mpr ⟨Nat.le_of_not_lt hc, ha⟩)
  · subst h0
    have hzero : (s.growproc 0 addr free).pgdir = s.pgdir ∧
        (s.growproc 0 addr free).size = s.size ∧
          ((s.growproc 0 addr free).lockHeld = false → s.lockHeld = false) := by
      unfold Space.growproc
      split_ifs with hlimit hlt
      · exact ⟨rfl, rfl, fun hc => absurd hc (by simp)⟩
      · omega
      · exact ⟨rfl, rfl, id⟩
    intro a ha
    rw [hzero.2.1] at ha
    rw [hzero.1]
    exact h.whole (hzero.2.2 hfree) a ha
  · have hshrink := s.growproc_neg_cases addr free h0
    generalize s.growproc n addr free = u at hshrink hfree ⊢
    cases hshrink with
    | failed pd hpd => cases hfree
    | shrunk pd hpd =>
      intro a ha
      let sz := min s.size (uint (s.size + n))
      have hsize : (s.setSz s.main sz).size = sz := by
        rw [Space.setSz_size, if_pos rfl]
      change a < pgup (s.setSz s.main sz).size at ha
      rw [hsize] at ha
      have hle : pgup sz ≤ pgup s.size := pgup_mono (Nat.min_le_left _ _)
      have hnew : pgup sz ≤ pgup (uint (s.size + n)) := pgup_mono (Nat.min_le_right _ _)
      change pd a ≠ none
      rw [hpd a, if_neg]
      · exact h.whole hfree a (by omega)
      · intro hin
        have hge := (mem_pages.mp hin).1
        omega

theorem step (h : Filled s) (hl : Layout s) {a : Action} (hok : undisturbed s a)
    (hs : Memory.step s a = some t) : Filled t := by
  unfold Memory.step at hs
  split_ifs at hs
  cases a with
  | sbrk i n =>
    simp only at hs
    split_ifs at hs
    cases hs
    apply h.congr
    · simp
    · simp
    · rfl
    · intro j p hj
      rw [Space.setCall_call] at hj
      split_ifs at hj
      exact hj
  | growproc i free =>
    cases hcall : (s.slot i).call with
    | growproc n addr =>
      simp only [hcall] at hs
      split_ifs at hs
      cases hs
      have hno : ∀ j, (s.slot j).call.mapping = false := of_decide_eq_true hok
      have hbound := hl.calls i
      rw [hcall] at hbound
      have hset : Filled (s.setCall i .user) := by
        apply h.congr
        · simp
        · simp
        · rfl
        · intro j p hj
          rw [Space.setCall_call] at hj
          split_ifs at hj
          exact hj
      refine hset.growproc (hl.endCall hcall) ?_ hbound
      intro j
      rw [Space.setCall_call]
      split_ifs
      · rfl
      · exact hno j
    | user => simp [hcall] at hs
    | create np st => simp [hcall] at hs
  | threadCreate i np =>
    simp only at hs
    split_ifs at hs
    cases hs
    apply h.congr
    · simp
    · simp
    · rfl
    · intro j p hj
      rw [Space.setCall_call, Space.setState_call] at hj
      split_ifs at hj
      · simp at hj
      · exact hj
  | threadNext i enough =>
    cases hcall : (s.slot i).call with
    | create np st =>
      simp only [hcall] at hs
      split_ifs at hs
      cases hs
      exact h.threadNext hl hcall enough
    | user => simp [hcall] at hs
    | growproc n addr => simp [hcall] at hs
  | threadExit i =>
    simp only at hs
    split_ifs at hs
    cases hs
    apply h.congr
    · simp
    · simp
    · rfl
    · intro j p hj
      rwa [Space.setState_call] at hj
  | threadJoin i p =>
    simp only at hs
    split_ifs at hs
    cases hs
    rw [Space.cleanthread_eq]
    apply h.congr
    · simp
    · simp
    · rfl
    · intro j q hj
      rwa [Space.setState_call] at hj

end Filled

end Filled

def ForkOk (s : Space) (a : Action) : Prop := undisturbed s a ∧ keepsMain s a

instance (s : Space) (a : Action) : Decidable (ForkOk s a) :=
  inferInstanceAs (Decidable (_ ∧ _))

/-- In a run in which nothing disturbs a `thread_create` the process stays whole. -/
theorem whole_of_reach {s₀ s : Space} (h0 : Quiet s₀) (hw : s₀.whole)
    (hr : Reach step ForkOk s₀ s) (hlock : s.lockHeld = false) : s.whole := by
  have hfilled : Filled s₀ := by
    refine ⟨fun _ => hw, ?_⟩
    intro i np hi
    rw [h0.user i] at hi
    cases hi
  have hinv : Layout s ∧ Filled s := by
    apply hr.invariant (I := fun u => Layout u ∧ Filled u) ⟨h0.layout, hfilled⟩
    intro u a v hu hok hv
    exact ⟨hu.1.step hok.1 hok.2 hv, hu.2.step hu.1 hok.1 hv⟩
  exact hinv.2.whole hlock

/-- There `fork` copies the process if and only if the slot of the calling thread has its
size. -/
theorem forkLaw_iff_of_reach {s₀ s : Space} (h0 : Quiet s₀) (hw : s₀.whole)
    (hr : Reach step ForkOk s₀ s) (hlock : s.lockHeld = false) (i : Slot) :
    ForkLaw s i ↔ (s.slot i).sz = s.size := by
  constructor
  · intro h
    exact h.exact.1
  · intro hsz
    exact forkLaw_of_whole hsz (whole_of_reach h0 hw hr hlock)

theorem whole_twoThreads : twoThreads.whole := by
  intro a ha
  have hsize : pgup twoThreads.size = 5 := by decide +kernel
  rw [hsize] at ha
  simp [twoThreads, ha]

/-- After the main thread has created one more thread it has the size of the process. -/
def threeThreads : Space :=
  (run (guarded step ForkOk) twoThreads (createSteps 1 3)).getD twoThreads

theorem forkLaw_iff_of_reach_main : ForkLaw threeThreads 1 :=
  (forkLaw_iff_of_reach quiet_twoThreads whole_twoThreads
    (reach_of_guarded_run (eq_some_getD (by decide +kernel))) (by decide +kernel) 1).mpr
    (by decide +kernel)

/-- The thread in slot 2 forks; its child gets the size of before. -/
theorem not_forkLaw : ¬ ∀ s₀ s i, Quiet s₀ → s₀.whole → Reachable step s₀ s →
    s.lockHeld = false → s.atUser i → ForkLaw s i := by
  intro hall
  have hr : Reach step ForkOk twoThreads threeThreads :=
    reach_of_guarded_run (eq_some_getD (by decide +kernel))
  have hlaw := hall _ _ 2 quiet_twoThreads whole_twoThreads (hr.mono fun _ _ _ => trivial)
    (by decide +kernel) (by decide +kernel)
  exact absurd hlaw.exact.1 (by decide +kernel)

end Xv6.Memory
