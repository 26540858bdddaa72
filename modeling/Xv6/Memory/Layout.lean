import Xv6.Memory.Sbrk

/-!
# The pages of a process while its size changes

`Layout` says which pages are mapped: those below the size, and those of the one
stack that a `thread_create` is mapping. It is kept by every step of a run in which
`thread_create` is not disturbed between its reading of `mainthread->sz` and its
writing back.
-/

namespace Xv6.Memory
open Mlfq (Slot)
open Threads (PGSIZE KERNBASE uint)
open Xv6.Transition

namespace Space

/-- Where the threads are after a step of `thread_create`; a panic leaves them where
they are. -/
theorem threadNext_call (s : Space) {i np : Slot} {st : Stage}
    (hi : (s.slot i).call = .create np st) (enough : Bool) :
    ∃ k, (k = .user ∨ ∃ st', k = .create np st') ∧
      ∀ j, ((s.threadNext i np enough st).slot j).call = if j = i then k else (s.slot j).call := by
  have goes : ∀ (u : Space) (k : Call), (∀ j, (u.slot j).call = (s.slot j).call) →
      (k = .user ∨ ∃ st', k = .create np st') →
      ∃ k', (k' = .user ∨ ∃ st', k' = .create np st') ∧
        ∀ j, ((u.setCall i k).slot j).call = if j = i then k' else (s.slot j).call := by
    intro u k hu hk
    refine ⟨k, hk, fun j => ?_⟩
    rw [setCall_call, hu]
  have hsz : ∀ x j, ((s.setSz np x).slot j).call = (s.slot j).call := fun _ _ => setSz_call _ _ _ _
  cases st with
  | sz => exact goes _ _ (hsz _) (Or.inr ⟨_, rfl⟩)
  | limit =>
    simp only [threadNext]
    split_ifs
    · exact goes s _ (fun _ => rfl) (Or.inl rfl)
    · exact goes s _ (fun _ => rfl) (Or.inr ⟨_, rfl⟩)
  | allocuvm =>
    simp only [threadNext]
    split_ifs
    · exact goes _ _ (hsz _) (Or.inl rfl)
    · exact goes s _ (fun _ => rfl) (Or.inr ⟨_, rfl⟩)
    · exact goes s _ (fun _ => rfl) (Or.inr ⟨_, rfl⟩)
  | kalloc oldsz as =>
    cases as with
    | nil => exact goes _ _ (hsz _) (Or.inr ⟨_, rfl⟩)
    | cons a as => exact goes s _ (fun _ => rfl) (Or.inr ⟨_, rfl⟩)
  | check oldsz a as =>
    simp only [threadNext]
    split_ifs
    · refine ⟨.create np (.check oldsz a as), Or.inr ⟨_, rfl⟩, fun j => ?_⟩
      split_ifs with hj
      · rw [hj]
        exact hi
      · rfl
    · exact goes s _ (fun _ => rfl) (Or.inr ⟨_, rfl⟩)
  | set oldsz a as => exact goes s _ (fun _ => rfl) (Or.inr ⟨_, rfl⟩)
  | dealloc as =>
    cases as with
    | nil => exact goes _ _ (hsz _) (Or.inl rfl)
    | cons a as => exact goes s _ (fun _ => rfl) (Or.inr ⟨_, rfl⟩)
  | clearpteu => exact goes s _ (fun _ => rfl) (Or.inr ⟨_, rfl⟩)
  | mainSz => exact goes _ _ (fun _ => setSz_call _ _ _ _) (Or.inr ⟨_, rfl⟩)
  | copyout =>
    simp only [threadNext]
    split_ifs
    · exact goes s _ (fun _ => rfl) (Or.inr ⟨_, rfl⟩)
    · exact goes s _ (fun _ => rfl) (Or.inl rfl)
  | runnable => exact goes _ _ (fun _ => setState_call _ _ _ _) (Or.inl rfl)

theorem growproc_slot (s : Space) (n : Int) (addr free : Nat) (j : Slot) :
    ((s.growproc n addr free).slot j).call = (s.slot j).call ∧
      ((s.growproc n addr free).slot j).state = (s.slot j).state := by
  have hsz : ∀ x, ((s.setSz s.main x).slot j).call = (s.slot j).call ∧
      ((s.setSz s.main x).slot j).state = (s.slot j).state :=
    fun x => ⟨setSz_call _ _ _ _, setSz_state _ _ _ _⟩
  unfold growproc
  split_ifs
  · exact ⟨rfl, rfl⟩
  · cases s.pgdir.allocuvm s.size (uint (s.size + n)) free with
    | none => exact ⟨rfl, rfl⟩
    | some r =>
      dsimp only
      split_ifs
      · exact ⟨rfl, rfl⟩
      · exact hsz _
  · dsimp only
    split_ifs
    · exact ⟨rfl, rfl⟩
    · exact hsz _
  · exact ⟨rfl, rfl⟩

/-- `cleanthread` passes the sizes the wrong way round: it takes no page away. -/
theorem cleanthread_eq (s : Space) (p : Slot) : s.cleanthread p = s.setState p .unused := by
  unfold cleanthread Pgdir.deallocuvm
  rw [if_pos (Nat.le_add_right _ _)]
  rfl

end Space

/-- Only `sys_sbrk` brings a thread to `growproc`. -/
theorem step_pending {s t : Space} {a : Action} (hs : step s a = some t) {j : Slot} {n : Int}
    {addr : Nat} (hj : (t.slot j).call = .growproc n addr) :
    (s.slot j).call = .growproc n addr ∨ a = .sbrk j n := by
  unfold step at hs
  split_ifs at hs
  cases a with
  | sbrk i m =>
    simp only at hs
    split_ifs at hs
    cases hs
    rw [Space.setCall_call] at hj
    split_ifs at hj with hji
    · obtain ⟨rfl, -⟩ := Call.growproc.inj hj
      exact Or.inr (by rw [hji])
    · exact Or.inl hj
  | growproc i free =>
    cases hcall : (s.slot i).call with
    | growproc m a =>
      simp only [hcall] at hs
      split_ifs at hs
      cases hs
      rw [(Space.growproc_slot _ _ _ _ _).1, Space.setCall_call] at hj
      split_ifs at hj
      exact Or.inl hj
    | user => simp [hcall] at hs
    | create np st => simp [hcall] at hs
  | threadCreate i np =>
    simp only at hs
    split_ifs at hs
    cases hs
    rw [Space.setCall_call] at hj
    split_ifs at hj
    rw [Space.setState_call] at hj
    exact Or.inl hj
  | threadNext i enough =>
    cases hcall : (s.slot i).call with
    | create np st =>
      simp only [hcall] at hs
      split_ifs at hs
      cases hs
      obtain ⟨k, hk, hcalls⟩ := s.threadNext_call hcall enough
      rw [hcalls j] at hj
      split_ifs at hj
      · rcases hk with rfl | ⟨st', rfl⟩
        · exact Call.noConfusion hj
        · exact Call.noConfusion hj
      · exact Or.inl hj
    | user => simp [hcall] at hs
    | growproc m a => simp [hcall] at hs
  | threadExit i =>
    simp only at hs
    split_ifs at hs
    cases hs
    rw [Space.setState_call] at hj
    exact Or.inl hj
  | threadJoin i p =>
    simp only at hs
    split_ifs at hs
    cases hs
    refine Or.inl ?_
    rw [← hj]
    exact (Space.setState_call _ _ _ _).symm

/-- The stages from the first `kalloc` for the stack to the write to
`mainthread->sz`. -/
def Stage.mapping : Stage → Bool
  | .kalloc _ _ | .check _ _ _ | .set _ _ _ | .dealloc _ | .clearpteu | .mainSz => true
  | _ => false

def Call.mapping : Call → Bool
  | .create _ st => st.mapping
  | _ => false

namespace Space

-- The pages of a stack that is added at the end of the process.
def newPages (s : Space) : List Nat := pages s.size (s.size + 2 * PGSIZE)

theorem newPages_congr {s t : Space} (h : t.size = s.size) : t.newPages = s.newPages := by
  rw [newPages, newPages, h]

/-- Of the pages of the new stack those in `as` are not mapped yet. -/
structure Mapped (s : Space) (as : List Nat) : Prop where
  room : s.size + 2 * PGSIZE < KERNBASE
  sub : ∀ a ∈ as, a ∈ s.newPages
  nodup : as.Nodup
  pte : ∀ a ∈ s.newPages, s.pgdir a = if a ∈ as then none else some true

def StageOk (s : Space) (np : Slot) : Stage → Prop
  | .kalloc oldsz as => oldsz = s.size ∧ s.Mapped as
  | .check oldsz a as => oldsz = s.size ∧ s.Mapped (a :: as)
  | .set oldsz a as => oldsz = s.size ∧ s.Mapped (a :: as)
  | .dealloc as => (∀ a ∈ as, a ∈ s.newPages) ∧ ∀ a ∈ s.newPages, a ∉ as → s.pgdir a = none
  | .clearpteu => (s.slot np).sz = s.size + 2 * PGSIZE ∧ s.Mapped []
  | .mainSz => (s.slot np).sz = s.size + 2 * PGSIZE ∧ s.size + 2 * PGSIZE < KERNBASE ∧
      ∀ a ∈ s.newPages, a ≠ s.size / PGSIZE → s.pgdir a = some true
  | _ => True

def CallOk (s : Space) : Call → Prop
  | .user => True
  | .growproc n _ => -2147483648 ≤ n ∧ n < 2147483648
  | .create np st => (s.slot np).state = .embryo ∧ s.StageOk np st

end Space

/-- The pages below the size are mapped, and those of at most one stack above it. -/
structure Layout (s : Space) : Prop where
  size : s.size < KERNBASE
  main : (s.slot s.main).state ≠ .unused ∧ (s.slot s.main).state ≠ .embryo
  calls : ∀ i, s.CallOk (s.slot i).call
  own : ∀ i j np st st', (s.slot i).call = .create np st → (s.slot j).call = .create np st' → i = j
  one : ∀ i j, (s.slot i).call.mapping → (s.slot j).call.mapping → i = j
  mapped : ∀ a, s.pgdir a ≠ none →
    a < pgup s.size ∨ a ∈ s.newPages ∧ ∃ i, (s.slot i).call.mapping
  panicked : s.panicked = false
  overwritten : s.overwritten = false

namespace Space

variable {s t : Space}

/-- Outside the stages that map, a call does not depend on the pages or the size. -/
theorem CallOk.of_not_mapping {k : Call} (h : s.CallOk k) (hk : k.mapping = false)
    (hst : ∀ np st, k = .create np st → (t.slot np).state = (s.slot np).state) : t.CallOk k := by
  cases k with
  | user => trivial
  | growproc n addr => exact h
  | create np st =>
    refine ⟨(hst np st rfl).trans h.1, ?_⟩
    cases st with
    | sz | limit | allocuvm | copyout | runnable => trivial
    | kalloc | check | set | dealloc | clearpteu | mainSz => exact absurd hk.symm Bool.false_ne_true

theorem Mapped.congr {as : List Nat} (h : s.Mapped as) (hsize : t.size = s.size)
    (hpte : ∀ a, t.pgdir a = s.pgdir a) : t.Mapped as := by
  have hnew := newPages_congr hsize
  refine ⟨by rw [hsize]; exact h.room, ?_, h.nodup, ?_⟩
  · rw [hnew]
    exact h.sub
  · intro a ha
    rw [hnew] at ha
    rw [hpte]
    exact h.pte a ha

theorem CallOk.congr {k : Call} (h : s.CallOk k) (hsize : t.size = s.size)
    (hpte : ∀ a, t.pgdir a = s.pgdir a)
    (hst : ∀ np st, k = .create np st →
      (t.slot np).state = (s.slot np).state ∧ (t.slot np).sz = (s.slot np).sz) : t.CallOk k := by
  have hnew := newPages_congr hsize
  cases k with
  | user => trivial
  | growproc n addr => exact h
  | create np st =>
    obtain ⟨hstate, hsz⟩ := hst np st rfl
    refine ⟨hstate.trans h.1, ?_⟩
    have hok := h.2
    cases st with
    | sz | limit | allocuvm | copyout | runnable => trivial
    | kalloc | check | set => exact ⟨hok.1.trans hsize.symm, hok.2.congr hsize hpte⟩
    | dealloc as =>
      constructor
      · intro a ha
        rw [hnew]
        exact hok.1 a ha
      · intro a ha hn
        rw [hnew] at ha
        rw [hpte]
        exact hok.2 a ha hn
    | clearpteu =>
      refine ⟨?_, hok.2.congr hsize hpte⟩
      rw [hsz, hsize]
      exact hok.1
    | mainSz =>
      refine ⟨?_, ?_, ?_⟩
      · rw [hsz, hsize]
        exact hok.1
      · rw [hsize]
        exact hok.2.1
      · intro a ha hne
        rw [hnew] at ha
        rw [hsize] at hne
        rw [hpte]
        exact hok.2.2 a ha hne

end Space

/-- `growproc` runs, and `thread_create` enters `allocuvm`, while no thread is mapping
a stack and, for the latter, while the size is still the one it has read. -/
def undisturbed (s : Space) : Action → Bool
  | .growproc _ _ => ∀ j, (s.slot j).call.mapping = false
  | .threadNext i _ =>
    match (s.slot i).call with
    | .create np .allocuvm => (s.slot np).sz = s.size ∧ ∀ j, (s.slot j).call.mapping = false
    | _ => true
  | _ => true

-- thread_join leaves the slot of the main thread alone.
def keepsMain (s : Space) : Action → Bool
  | .threadJoin _ p => p ≠ s.main
  | _ => true

namespace Layout

variable {s t : Space} {i np : Slot} {st : Stage} {k : Call}

theorem ne_main (h : Layout s) (hi : (s.slot i).call = .create np st) : np ≠ s.main := by
  rintro rfl
  have hok := h.calls i
  rw [hi] at hok
  exact h.main.2 hok.1

theorem idle (h : Layout s) (hi : (s.slot i).call.mapping) {j : Slot} (hj : j ≠ i) :
    (s.slot j).call.mapping = false := by
  cases hm : (s.slot j).call.mapping with
  | false => rfl
  | true => exact absurd (h.one j i hm hi) hj

/-- A thread goes on in `thread_create`, or returns from it; only a thread that maps
its stack changes pages. -/
theorem advance (h : Layout s) (hi : (s.slot i).call = .create np st)
    (hk : k = .user ∨ ∃ st', k = .create np st')
    (hmain : t.main = s.main)
    (hcall : ∀ j, (t.slot j).call = if j = i then k else (s.slot j).call)
    (hstate : ∀ p, (t.slot p).state = (s.slot p).state)
    (hsz : ∀ p, p ≠ np → (t.slot p).sz = (s.slot p).sz)
    (hone : k.mapping → st.mapping ∨ ∀ j, (s.slot j).call.mapping = false)
    (hok : t.CallOk k)
    (hpte : (∀ a, t.pgdir a = s.pgdir a) ∨ st.mapping)
    (hnew : ∀ a, t.pgdir a ≠ none → s.pgdir a ≠ none ∨ a ∈ s.newPages)
    (hend : st.mapping → k.mapping = false → ∀ a ∈ s.newPages, t.pgdir a = none)
    (hp : t.panicked = false) (ho : t.overwritten = false) : Layout t := by
  have hsize : t.size = s.size := by
    unfold Space.size
    rw [hmain]
    exact hsz _ (h.ne_main hi).symm
  have hpages := Space.newPages_congr hsize
  have him : (s.slot i).call.mapping = st.mapping := by rw [hi, Call.mapping]
  have hother : ∀ j np' st', j ≠ i → (t.slot j).call = .create np' st' →
      (s.slot j).call = .create np' st' ∧ np' ≠ np := by
    intro j np' st' hj hc
    rw [hcall j, if_neg hj] at hc
    refine ⟨hc, ?_⟩
    rintro rfl
    exact hj (h.own j i _ _ _ hc hi)
  constructor
  · rw [hsize]
    exact h.size
  · rw [hmain, hstate]
    exact h.main
  · intro j
    by_cases hj : j = i
    · rw [hcall j, if_pos hj]
      exact hok
    · have hjc : (t.slot j).call = (s.slot j).call := by rw [hcall j, if_neg hj]
      rw [hjc]
      rcases hpte with hpte | hm
      · refine (h.calls j).congr hsize hpte ?_
        intro np' st' hc
        exact ⟨hstate _, hsz _ (hother j np' st' hj (hjc.trans hc)).2⟩
      · exact (h.calls j).of_not_mapping (h.idle (him.trans hm) hj) fun _ _ _ => hstate _
  · intro a b p st₁ st₂ ha hb
    have key : ∀ c st₃, (t.slot c).call = .create p st₃ → c ≠ i → ∃ st₄,
        (s.slot c).call = .create p st₄ ∧ p ≠ np := by
      intro c st₃ hc hne
      exact ⟨st₃, hother c p st₃ hne hc⟩
    have hself : ∀ st₃, (t.slot i).call = .create p st₃ → p = np := by
      intro st₃ hc
      rw [hcall i, if_pos rfl] at hc
      rcases hk with rfl | ⟨st', rfl⟩
      · exact Call.noConfusion hc
      · exact (Call.create.inj hc).1.symm
    by_cases hai : a = i
    · by_cases hbi : b = i
      · rw [hai, hbi]
      · obtain ⟨-, -, hne⟩ := key b st₂ hb hbi
        rw [hai] at ha
        exact absurd (hself st₁ ha) hne
    · obtain ⟨st₃, ha', hne⟩ := key a st₁ ha hai
      by_cases hbi : b = i
      · rw [hbi] at hb
        exact absurd (hself st₂ hb) hne
      · obtain ⟨st₄, hb', -⟩ := key b st₂ hb hbi
        exact h.own a b p st₃ st₄ ha' hb'
  · intro a b ha hb
    have key : ∀ c, (t.slot c).call.mapping → c ≠ i → k.mapping → False := by
      intro c hc hne hkm
      rw [hcall c, if_neg hne] at hc
      rcases hone hkm with hm | hno
      · rw [h.idle (him.trans hm) hne] at hc
        exact Bool.false_ne_true hc
      · rw [hno c] at hc
        exact Bool.false_ne_true hc
    have hkm : (t.slot i).call.mapping → k.mapping := by
      rw [hcall i, if_pos rfl]
      exact id
    by_cases hai : a = i
    · by_cases hbi : b = i
      · rw [hai, hbi]
      · rw [hai] at ha
        exact (key b hb hbi (hkm ha)).elim
    · by_cases hbi : b = i
      · rw [hbi] at hb
        exact (key a ha hai (hkm hb)).elim
      · rw [hcall a, if_neg hai] at ha
        rw [hcall b, if_neg hbi] at hb
        exact h.one a b ha hb
  · intro a ha
    rw [hsize, hpages]
    have hkeep : a ∈ s.newPages → (t.slot i).call.mapping ∨ ¬ st.mapping := by
      intro hin
      by_cases hm : st.mapping
      · left
        rw [hcall i, if_pos rfl]
        cases hkm : k.mapping with
        | true => rfl
        | false => exact absurd (hend hm hkm a hin) ha
      · exact Or.inr hm
    by_cases hs : s.pgdir a = none
    · have hin : a ∈ s.newPages := (hnew a ha).resolve_left fun hc => hc hs
      have hm : st.mapping := by
        rcases hpte with hpte | hm
        · rw [hpte, hs] at ha
          exact absurd rfl ha
        · exact hm
      exact Or.inr ⟨hin, i, (hkeep hin).resolve_right fun hc => hc hm⟩
    · rcases h.mapped a hs with hlt | ⟨hin, j, hj⟩
      · exact Or.inl hlt
      · right
        refine ⟨hin, ?_⟩
        by_cases hji : j = i
        · rw [hji, him] at hj
          exact ⟨i, (hkeep hin).resolve_right fun hc => hc hj⟩
        · refine ⟨j, ?_⟩
          rw [hcall j, if_neg hji]
          exact hj
  · exact hp
  · exact ho

theorem advance_call (h : Layout s) (hi : (s.slot i).call = .create np st)
    (hk : k = .user ∨ ∃ st', k = .create np st')
    (hone : k.mapping → st.mapping ∨ ∀ j, (s.slot j).call.mapping = false)
    (hend : st.mapping → k.mapping) (hok : s.CallOk k) : Layout (s.setCall i k) := by
  refine h.advance hi hk rfl (s.setCall_call i · k) (s.setCall_state i · k)
    (fun p _ => s.setCall_sz i p k) hone ?_ (Or.inl fun _ => rfl) (fun _ => Or.inl) ?_
    h.panicked h.overwritten
  · refine hok.congr (Space.setCall_size _ _ _) (fun _ => rfl) ?_
    intro np' st' _
    exact ⟨Space.setCall_state _ _ _ _, Space.setCall_sz _ _ _ _⟩
  · intro hm hkm
    rw [hend hm] at hkm
    exact Bool.noConfusion hkm

theorem advance_sz (h : Layout s) (hi : (s.slot i).call = .create np st) {x : Nat}
    (hk : k = .user ∨ ∃ st', k = .create np st') (hone : k.mapping → st.mapping)
    (hok : ((s.setSz np x).setCall i k).CallOk k)
    (hend : st.mapping → k.mapping = false → ∀ a ∈ s.newPages, s.pgdir a = none) :
    Layout ((s.setSz np x).setCall i k) := by
  refine h.advance hi hk rfl ?_ ?_ ?_ (fun hm => Or.inl (hone hm)) hok (Or.inl fun _ => rfl)
    (fun _ => Or.inl) hend h.panicked h.overwritten
  · intro j
    rw [Space.setCall_call, Space.setSz_call]
  · intro p
    rw [Space.setCall_state, Space.setSz_state]
  · intro p hp
    rw [Space.setCall_sz, Space.setSz_sz, if_neg hp]

theorem advance_pte (h : Layout s) (hi : (s.slot i).call = .create np st) {st' : Stage}
    {pd : Pgdir} {o : Bool} (hm : st.mapping) (hm' : st'.mapping) (ho : o = false)
    (hok : ({ s.setCall i (.create np st') with pgdir := pd, overwritten := o } : Space).CallOk
      (.create np st'))
    (hnew : ∀ a, pd a ≠ none → s.pgdir a ≠ none ∨ a ∈ s.newPages) :
    Layout { s.setCall i (.create np st') with pgdir := pd, overwritten := o } := by
  refine h.advance hi (Or.inr ⟨st', rfl⟩) rfl (s.setCall_call i · _) (s.setCall_state i · _)
    (fun p _ => s.setCall_sz i p _) (fun _ => Or.inl hm) hok (Or.inr hm) hnew ?_ h.panicked ho
  intro _ hkm
  rw [show (Call.create np st').mapping = st'.mapping from rfl, hm'] at hkm
  exact Bool.noConfusion hkm

/-- The size of the process changes while no thread maps a stack, apart from one that
ends to. -/
theorem resize (h : Layout s) (hnone : ∀ j, (t.slot j).call.mapping = false)
    (hprev : ∀ j p st, (t.slot j).call = .create p st → ∃ st', (s.slot j).call = .create p st')
    (hok : ∀ j, t.CallOk (t.slot j).call) (hmain : t.main = s.main)
    (hstate : ∀ p, (t.slot p).state = (s.slot p).state)
    (hsize : t.size < KERNBASE) (hmapped : ∀ a, t.pgdir a ≠ none → a < pgup t.size)
    (hp : t.panicked = false) (ho : t.overwritten = false) : Layout t := by
  constructor
  · exact hsize
  · rw [hmain, hstate]
    exact h.main
  · exact hok
  · intro a b p st₁ st₂ ha hb
    obtain ⟨st₃, ha'⟩ := hprev a p st₁ ha
    obtain ⟨st₄, hb'⟩ := hprev b p st₂ hb
    exact h.own a b p st₃ st₄ ha' hb'
  · intro a b ha
    rw [hnone a] at ha
    exact absurd ha Bool.false_ne_true
  · intro a ha
    exact Or.inl (hmapped a ha)
  · exact hp
  · exact ho

/-- A slot that no `thread_create` is filling changes its state. -/
theorem setState (h : Layout s) {p : Slot} {x : Mlfq.Procstate}
    (hp : ∀ j np st, (s.slot j).call = .create np st → np ≠ p)
    (hmain : p = s.main → x ≠ .unused ∧ x ≠ .embryo) : Layout (s.setState p x) := by
  constructor
  · rw [Space.setState_size]
    exact h.size
  · rw [Space.setState_main, Space.setState_state]
    split_ifs with hc
    · exact hmain hc.symm
    · exact h.main
  · intro j
    rw [Space.setState_call]
    refine (h.calls j).congr (Space.setState_size _ _ _) (fun _ => rfl) ?_
    intro np st hc
    rw [Space.setState_state, if_neg (hp j np st hc), Space.setState_sz]
    exact ⟨rfl, rfl⟩
  · intro a b q st₁ st₂ ha hb
    rw [Space.setState_call] at ha hb
    exact h.own a b q st₁ st₂ ha hb
  · intro a b ha hb
    rw [Space.setState_call] at ha hb
    exact h.one a b ha hb
  · intro a ha
    simp only [Space.setState_size, Space.newPages, Space.setState_call]
    exact h.mapped a ha
  · exact h.panicked
  · exact h.overwritten

/-- A thread that maps no stack goes from one system call to another. -/
theorem setCall (h : Layout s) (hi : (s.slot i).call.mapping = false) (hkm : k.mapping = false)
    (hk : ∀ np st, k = .create np st → ∀ j st', (s.slot j).call ≠ .create np st')
    (hok : s.CallOk k) : Layout (s.setCall i k) := by
  have hok' : ∀ k', s.CallOk k' → (s.setCall i k).CallOk k' := by
    intro k' hk'
    refine hk'.congr (Space.setCall_size _ _ _) (fun _ => rfl) ?_
    intro np st _
    rw [Space.setCall_state, Space.setCall_sz]
    exact ⟨rfl, rfl⟩
  have hmap : ∀ j, ((s.setCall i k).slot j).call.mapping = (s.slot j).call.mapping := by
    intro j
    rw [Space.setCall_call]
    split_ifs with hj
    · rw [hj, hi, hkm]
    · rfl
  constructor
  · rw [Space.setCall_size]
    exact h.size
  · rw [Space.setCall_main, Space.setCall_state]
    exact h.main
  · intro j
    rw [Space.setCall_call]
    split_ifs
    · exact hok' k hok
    · exact hok' _ (h.calls j)
  · intro a b q st₁ st₂ ha hb
    rw [Space.setCall_call] at ha hb
    split_ifs at ha hb with hai hbi hbi
    · rw [hai, hbi]
    · exact absurd hb (hk q st₁ ha b st₂)
    · exact absurd ha (hk q st₂ hb a st₁)
    · exact h.own a b q st₁ st₂ ha hb
  · intro a b ha hb
    rw [hmap] at ha hb
    exact h.one a b ha hb
  · intro a ha
    simp only [Space.setCall_size, Space.newPages, hmap]
    exact h.mapped a ha
  · exact h.panicked
  · exact h.overwritten

theorem endCall (h : Layout s) {n : Int} {addr : Nat} (hi : (s.slot i).call = .growproc n addr) :
    Layout (s.setCall i .user) := by
  refine h.setCall ?_ rfl (fun np st hk => Call.noConfusion hk) trivial
  rw [hi]
  rfl

theorem below (h : Layout s) (hno : ∀ j, (s.slot j).call.mapping = false) {a : Nat}
    (ha : s.pgdir a ≠ none) : a < pgup s.size := by
  rcases h.mapped a ha with hlt | ⟨-, j, hj⟩
  · exact hlt
  · rw [hno j] at hj
    exact absurd hj Bool.false_ne_true

/-- `growproc` while no thread maps a stack. -/
theorem growproc (h : Layout s) (hno : ∀ j, (s.slot j).call.mapping = false) {n : Int}
    {addr free : Nat} (hn : -2147483648 ≤ n ∧ n < 2147483648) :
    Layout (s.growproc n addr free) := by
  have keep : ∀ (pd : Pgdir) (l : Bool), (∀ a, pd a ≠ none → s.pgdir a ≠ none) →
      Layout { s with pgdir := pd, lockHeld := l } := by
    intro pd l hpd
    refine h.resize hno (fun j p st hc => ⟨st, hc⟩) ?_ rfl (fun _ => rfl) h.size
      (fun a ha => h.below hno (hpd a ha)) h.panicked h.overwritten
    intro j
    exact (h.calls j).of_not_mapping (hno j) fun _ _ _ => rfl
  have resized : ∀ (pd : Pgdir) (sz : Nat) (hs gs : List Region), sz < KERNBASE →
      (∀ a, pd a ≠ none → a < pgup sz) →
      Layout { s.setSz s.main sz with pgdir := pd, handed := hs, grown := gs } := by
    intro pd sz hs gs hsz hpd
    have hsize : ({ s.setSz s.main sz with pgdir := pd, handed := hs, grown := gs } : Space).size
        = sz := by
      show (s.setSz s.main sz).size = sz
      rw [Space.setSz_size, if_pos rfl]
    have hcall : ∀ j, ((s.setSz s.main sz).slot j).call = (s.slot j).call :=
      fun j => Space.setSz_call _ _ _ _
    refine h.resize ?_ ?_ ?_ rfl (fun p => Space.setSz_state _ _ _ _) ?_ ?_ h.panicked h.overwritten
    · intro j
      show ((s.setSz s.main sz).slot j).call.mapping = false
      rw [hcall]
      exact hno j
    · intro j p st hc
      exact ⟨st, (hcall j).symm.trans hc⟩
    · intro j
      show Space.CallOk _ ((s.setSz s.main sz).slot j).call
      rw [hcall]
      refine (h.calls j).of_not_mapping (hno j) ?_
      intro np st _
      exact Space.setSz_state _ _ _ _
    · rw [hsize]
      exact hsz
    · intro a ha
      rw [hsize]
      exact hpd a ha
  rcases Int.lt_trichotomy 0 n with h0 | h0 | h0
  · have hgrow := s.growproc_cases addr free h.size h0 hn.2
    generalize s.growproc n addr free = u at hgrow ⊢
    cases hgrow with
    | failed pd hpd =>
      refine keep pd true ?_
      intro a ha
      rcases hpd a with heq | ⟨-, heq⟩
      · rwa [heq] at ha
      · exact absurd heq ha
    | remap hpd =>
      obtain ⟨a, hin, ha⟩ := hpd
      have hlt := h.below hno ha
      rw [mem_pages] at hin
      omega
    | grown pd hlt hfree hpd =>
      refine resized pd _ _ _ hlt ?_
      intro a ha
      rw [hpd a] at ha
      split_ifs at ha with hin
      · exact (mem_pages.mp hin).2
      · have hle := pgup_mono (Nat.le_add_right s.size n.toNat)
        have hlt := h.below hno ha
        omega
  · subst h0
    unfold Space.growproc
    by_cases hlim : s.overLimit 0
    · rw [if_pos hlim]
      exact keep s.pgdir true fun _ => id
    · rw [if_neg hlim, if_neg (lt_irrefl _), if_neg (lt_irrefl _)]
      exact h
  · have hshrink := s.growproc_neg_cases addr free h0
    generalize s.growproc n addr free = u at hshrink ⊢
    cases hshrink with
    | failed pd hpd =>
      refine keep pd true ?_
      intro a ha
      rcases hpd a with heq | ⟨-, heq⟩
      · rwa [heq] at ha
      · exact absurd heq ha
    | shrunk pd hpd =>
      refine resized pd _ _ _ (by have := h.size; omega) ?_
      intro a ha
      rw [hpd a] at ha
      split_ifs at ha with hin
      · exact absurd rfl ha
      · have hlt := h.below hno ha
        rw [mem_pages] at hin
        rcases Nat.le_total s.size (uint (s.size + n)) with hle | hle
        · rwa [Nat.min_eq_left hle]
        · rw [Nat.min_eq_right hle]
          omega

theorem embryo (h : Layout s) (hi : (s.slot i).call = .create np st) :
    (s.slot np).state = .embryo ∧ s.StageOk np st := by
  have hok := h.calls i
  rw [hi] at hok
  exact hok

/-- No page is there yet when `allocuvm` is entered undisturbed. -/
theorem mapped_pages (h : Layout s) (hno : ∀ j, (s.slot j).call.mapping = false)
    (hroom : s.size + 2 * PGSIZE < KERNBASE) : s.Mapped s.newPages where
  room := hroom
  sub := fun _ => id
  nodup := nodup_pages _ _
  pte := by
    intro a ha
    rw [if_pos ha]
    by_contra hc
    have hlt := h.below hno hc
    have hge := (mem_pages.mp ha).1
    omega

theorem uint_stack (h : Layout s) : uint (s.size + 2 * PGSIZE) = s.size + 2 * PGSIZE := by
  have hu := uint_add h.size (n := 2 * PGSIZE) (by decide) (by decide)
  exact hu

/-- The stages up to the first page. -/
theorem enter (h : Layout s) (hi : (s.slot i).call = .create np .allocuvm)
    (hsz : (s.slot np).sz = s.size) (hno : ∀ j, (s.slot j).call.mapping = false)
    (enough : Bool) : Layout (s.threadNext i np enough .allocuvm) := by
  have hemb := (h.embryo hi).1
  simp only [Space.threadNext, hsz, h.uint_stack]
  split_ifs with hk hlt
  · refine h.advance_sz hi (Or.inl rfl) (fun hm => absurd hm Bool.false_ne_true) trivial ?_
    intro hm
    exact absurd hm Bool.false_ne_true
  · omega
  · refine h.advance_call hi (Or.inr ⟨_, rfl⟩) (fun _ => Or.inr hno) (fun _ => rfl) ?_
    exact ⟨hemb, rfl, h.mapped_pages hno (by omega)⟩

/-- One page of the new stack. -/
theorem mapPage (h : Layout s) {oldsz a : Nat} {as : List Nat}
    (hi : (s.slot i).call = .create np (.set oldsz a as)) (enough : Bool) :
    Layout (s.threadNext i np enough (.set oldsz a as)) := by
  obtain ⟨hemb, hold, hmap⟩ := h.embryo hi
  have hnd := List.nodup_cons.mp hmap.nodup
  have ha : a ∈ s.newPages := hmap.sub a List.mem_cons_self
  have hnone : s.pgdir a = none := by
    rw [hmap.pte a ha, if_pos List.mem_cons_self]
  have hsize : (s.threadNext i np enough (.set oldsz a as)).size = s.size :=
    Space.setCall_size _ _ _
  refine h.advance_pte hi rfl rfl (by simp [hnone, h.overwritten]) ?_ ?_
  · refine ⟨(Space.setCall_state _ _ _ _).trans hemb, hold.trans hsize.symm, ?_⟩
    have hnew := Space.newPages_congr hsize
    constructor
    · exact hsize.symm ▸ hmap.room
    · intro b hb
      exact hnew.symm ▸ hmap.sub b (List.mem_cons_of_mem _ hb)
    · exact hnd.2
    · intro b hb
      show Function.update s.pgdir a (some true) b = _
      by_cases hba : b = a
      · subst hba
        rw [Function.update_self, if_neg hnd.1]
      · rw [Function.update_of_ne hba, hmap.pte b (hnew ▸ hb)]
        simp only [List.mem_cons, hba, false_or]
  · intro b hb
    by_cases hba : b = a
    · exact Or.inr (hba ▸ ha)
    · rw [Function.update_of_ne hba] at hb
      exact Or.inl hb

theorem stackDone (h : Layout s) {oldsz : Nat} (hi : (s.slot i).call = .create np (.kalloc oldsz []))
    (enough : Bool) : Layout (s.threadNext i np enough (.kalloc oldsz [])) := by
  obtain ⟨hemb, rfl, hmap⟩ := h.embryo hi
  have hsize : (s.threadNext i np enough (.kalloc s.size [])).size = s.size := by
    refine (Space.setCall_size _ _ _).trans ?_
    rw [Space.setSz_size, if_neg (h.ne_main hi).symm]
  refine h.advance_sz hi (Or.inr ⟨_, rfl⟩) id ?_ fun _ hc => Bool.noConfusion hc
  refine ⟨?_, ?_, hmap.congr hsize fun _ => rfl⟩
  · rw [Space.setCall_state, Space.setSz_state]
    exact hemb
  · have hsz : ((s.threadNext i np enough (.kalloc s.size [])).slot np).sz =
        (s.threadNext i np enough (.kalloc s.size [])).size + 2 * PGSIZE := by
      rw [hsize]
      refine (Space.setCall_sz _ _ _ _).trans ?_
      rw [Space.setSz_sz, if_pos rfl, h.uint_stack]
    exact hsz

theorem kallocPage (h : Layout s) {oldsz a : Nat} {as : List Nat}
    (hi : (s.slot i).call = .create np (.kalloc oldsz (a :: as))) (enough : Bool) :
    Layout (s.threadNext i np enough (.kalloc oldsz (a :: as))) := by
  obtain ⟨hemb, rfl, hmap⟩ := h.embryo hi
  cases enough with
  | true =>
    refine h.advance_call hi (Or.inr ⟨_, rfl⟩) (fun _ => Or.inl rfl) (fun _ => rfl) ?_
    exact ⟨hemb, rfl, hmap⟩
  | false =>
    refine h.advance_call hi (Or.inr ⟨_, rfl⟩) (fun _ => Or.inl rfl) (fun _ => rfl) ⟨hemb, ?_⟩
    rw [h.uint_stack]
    exact ⟨fun b hb => hb, fun b hb hnot => absurd hb hnot⟩

theorem checkPage (h : Layout s) {oldsz a : Nat} {as : List Nat}
    (hi : (s.slot i).call = .create np (.check oldsz a as)) (enough : Bool) :
    Layout (s.threadNext i np enough (.check oldsz a as)) := by
  obtain ⟨hemb, hold, hmap⟩ := h.embryo hi
  have hnone : s.pgdir a = none := by
    rw [hmap.pte a (hmap.sub a List.mem_cons_self), if_pos List.mem_cons_self]
  simp only [Space.threadNext, hnone, Option.isSome_none, Bool.false_eq_true, if_false]
  exact h.advance_call hi (Or.inr ⟨_, rfl⟩) (fun _ => Or.inl rfl) (fun _ => rfl) ⟨hemb, hold, hmap⟩

theorem deallocDone (h : Layout s) (hi : (s.slot i).call = .create np (.dealloc []))
    (enough : Bool) : Layout (s.threadNext i np enough (.dealloc [])) := by
  refine h.advance_sz hi (Or.inl rfl) (fun hm => absurd hm Bool.false_ne_true) trivial ?_
  intro _ _ a ha
  exact (h.embryo hi).2.2 a ha List.not_mem_nil

theorem deallocPage (h : Layout s) {a : Nat} {as : List Nat}
    (hi : (s.slot i).call = .create np (.dealloc (a :: as))) (enough : Bool) :
    Layout (s.threadNext i np enough (.dealloc (a :: as))) := by
  obtain ⟨hemb, hsub, hfree⟩ := h.embryo hi
  have hsize : (s.threadNext i np enough (.dealloc (a :: as))).size = s.size :=
    Space.setCall_size _ _ _
  have hnew := Space.newPages_congr hsize
  refine h.advance_pte hi rfl rfl h.overwritten ?_ ?_
  · refine ⟨(Space.setCall_state _ _ _ _).trans hemb, ?_, ?_⟩
    · intro b hb
      exact hnew.symm ▸ hsub b (List.mem_cons_of_mem _ hb)
    · intro b hb hnot
      show Function.update s.pgdir a none b = none
      by_cases hba : b = a
      · rw [hba, Function.update_self]
      · rw [Function.update_of_ne hba]
        refine hfree b (hnew ▸ hb) ?_
        simp only [List.mem_cons, hba, false_or]
        exact hnot
  · intro b hb
    by_cases hba : b = a
    · rw [hba, Pgdir.unmap, Function.update_self] at hb
      exact absurd rfl hb
    · rw [Pgdir.unmap, Function.update_of_ne hba] at hb
      exact Or.inl hb

theorem guardPage (h : Layout s) (hi : (s.slot i).call = .create np .clearpteu)
    (enough : Bool) : Layout (s.threadNext i np enough .clearpteu) := by
  obtain ⟨hemb, hsz, hmap⟩ := h.embryo hi
  have hsize : (s.threadNext i np enough .clearpteu).size = s.size := Space.setCall_size _ _ _
  have huva : uint ((s.slot np).sz - 2 * PGSIZE : Int) = s.size := by
    have hlt := h.size
    unfold KERNBASE at hlt
    rw [hsz]
    unfold uint
    rw [Int.emod_eq_of_lt (by omega) (by omega)]
    omega
  refine h.advance_pte hi rfl rfl h.overwritten ?_ ?_
  · refine ⟨(Space.setCall_state _ _ _ _).trans hemb, ?_, ?_, ?_⟩
    · exact (Space.setCall_sz _ _ _ _).trans (hsz.trans (congrArg (· + 2 * PGSIZE) hsize.symm))
    · exact hsize.symm ▸ hmap.room
    · intro b hb hne
      have hb' : b ∈ s.newPages := Space.newPages_congr hsize ▸ hb
      have hne' : b ≠ s.size / PGSIZE := hsize ▸ hne
      show s.pgdir.clearpteu _ b = some true
      rw [huva, Pgdir.clearpteu, Function.update_of_ne hne', hmap.pte b hb']
      rfl
  · intro b hb
    left
    intro hc
    rw [Pgdir.clearpteu] at hb
    by_cases hba : b = uint ((s.slot np).sz - 2 * PGSIZE : Int) / PGSIZE
    · rw [← hba, Function.update_self, hc] at hb
      exact hb rfl
    · rw [Function.update_of_ne hba] at hb
      exact hb hc

theorem writeSize (h : Layout s) (hi : (s.slot i).call = .create np .mainSz) (enough : Bool) :
    Layout (s.threadNext i np enough .mainSz) := by
  obtain ⟨hemb, hsz, hroom, hmap⟩ := h.embryo hi
  have hsize : (s.threadNext i np enough .mainSz).size = s.size + 2 * PGSIZE := by
    refine (Space.setCall_size _ _ _).trans ?_
    rw [Space.setSz_size, if_pos rfl, hsz]
  have hcall : ∀ j, ((s.threadNext i np enough .mainSz).slot j).call =
      if j = i then .create np .copyout else (s.slot j).call := by
    intro j
    refine (Space.setCall_call _ _ _ _).trans ?_
    rw [Space.setSz_call]
  have hstate : ∀ p, ((s.threadNext i np enough .mainSz).slot p).state = (s.slot p).state := by
    intro p
    exact (Space.setCall_state _ _ _ _).trans (Space.setSz_state _ _ _ _)
  have him : (s.slot i).call.mapping := by
    rw [hi]
    rfl
  have hnone : ∀ j, ((s.threadNext i np enough .mainSz).slot j).call.mapping = false := by
    intro j
    rw [hcall j]
    split_ifs with hj
    · rfl
    · exact h.idle him hj
  refine h.resize hnone ?_ ?_ rfl hstate ?_ ?_ h.panicked h.overwritten
  · intro j p st hc
    rw [hcall j] at hc
    split_ifs at hc with hj
    · have hp := (Call.create.inj hc).1
      subst hp
      rw [hj]
      exact ⟨_, hi⟩
    · exact ⟨st, hc⟩
  · intro j
    by_cases hj : j = i
    · rw [hcall j, if_pos hj]
      exact ⟨(hstate np).trans hemb, trivial⟩
    · rw [hcall j, if_neg hj]
      exact (h.calls j).of_not_mapping (h.idle him hj) fun _ _ _ => hstate _
  · rw [hsize]
    exact hroom
  · intro a ha
    rw [hsize]
    rcases h.mapped a ha with hlt | ⟨hin, -⟩
    · exact lt_of_lt_of_le hlt (pgup_mono (Nat.le_add_right _ _))
    · exact (mem_pages.mp hin).2

theorem startThread (h : Layout s) (hi : (s.slot i).call = .create np .runnable)
    (enough : Bool) : Layout (s.threadNext i np enough .runnable) := by
  have hcall : Layout (s.setCall i .user) := by
    refine h.advance_call hi (Or.inl rfl) ?_ ?_ trivial
    · exact fun hm => absurd hm Bool.false_ne_true
    · exact fun hm => absurd hm Bool.false_ne_true
  have heq : s.threadNext i np enough .runnable = (s.setCall i .user).setState np .runnable :=
    Space.setState_setCall _ _ _ _ _
  rw [heq]
  refine hcall.setState ?_ ?_
  · rintro j np' st hc rfl
    rw [Space.setCall_call] at hc
    split_ifs at hc with hj
    exact hj (h.own j i _ _ _ hc hi)
  · intro hc
    exact absurd hc (h.ne_main hi)

theorem threadNext (h : Layout s) (hi : (s.slot i).call = .create np st) (enough : Bool)
    (hok : undisturbed s (.threadNext i enough)) : Layout (s.threadNext i np enough st) := by
  have hemb := (h.embryo hi).1
  cases st with
  | sz =>
    refine h.advance_sz hi (Or.inr ⟨_, rfl⟩) id ⟨?_, trivial⟩ fun hm => absurd hm Bool.false_ne_true
    rw [Space.setCall_state, Space.setSz_state]
    exact hemb
  | limit =>
    simp only [Space.threadNext]
    split_ifs
    · refine h.advance_call hi (Or.inl rfl) ?_ ?_ trivial
      · exact fun hm => absurd hm Bool.false_ne_true
      · exact fun hm => absurd hm Bool.false_ne_true
    · refine h.advance_call hi (Or.inr ⟨_, rfl⟩) ?_ ?_ ⟨hemb, trivial⟩
      · exact fun hm => absurd hm Bool.false_ne_true
      · exact fun hm => absurd hm Bool.false_ne_true
  | allocuvm =>
    simp only [undisturbed, hi, decide_eq_true_eq] at hok
    exact h.enter hi hok.1 hok.2 enough
  | kalloc oldsz as =>
    cases as with
    | nil => exact h.stackDone hi enough
    | cons a as => exact h.kallocPage hi enough
  | check oldsz a as => exact h.checkPage hi enough
  | set oldsz a as => exact h.mapPage hi enough
  | dealloc as =>
    cases as with
    | nil => exact h.deallocDone hi enough
    | cons a as => exact h.deallocPage hi enough
  | clearpteu => exact h.guardPage hi enough
  | mainSz => exact h.writeSize hi enough
  | copyout =>
    simp only [Space.threadNext]
    split_ifs
    · refine h.advance_call hi (Or.inr ⟨_, rfl⟩) ?_ ?_ ⟨hemb, trivial⟩
      · exact fun hm => absurd hm Bool.false_ne_true
      · exact fun hm => absurd hm Bool.false_ne_true
    · refine h.advance_call hi (Or.inl rfl) ?_ ?_ trivial
      · exact fun hm => absurd hm Bool.false_ne_true
      · exact fun hm => absurd hm Bool.false_ne_true
  | runnable => exact h.startThread hi enough

theorem step (h : Layout s) {a : Action} (hok : undisturbed s a) (hmain : keepsMain s a)
    (hs : Memory.step s a = some t) : Layout t := by
  have hfree : ∀ (p : Slot) (x : Mlfq.Procstate), (s.slot p).state = x → x ≠ .embryo →
      ∀ j np st, (s.slot j).call = .create np st → np ≠ p := by
    rintro p x hp hx j np st hc rfl
    exact hx (hp.symm.trans (h.embryo hc).1)
  unfold Memory.step at hs
  rw [h.panicked] at hs
  simp only [Bool.false_eq_true, if_false] at hs
  cases a with
  | sbrk i n =>
    simp only at hs
    split_ifs at hs with hc
    cases hs
    refine h.setCall ?_ rfl (fun np st hk => Call.noConfusion hk) hc.2
    rw [hc.1.2]
    rfl
  | growproc i free =>
    cases hcall : (s.slot i).call with
    | growproc n addr =>
      simp only [hcall] at hs
      split_ifs at hs
      cases hs
      have hno : ∀ j, (s.slot j).call.mapping = false := of_decide_eq_true hok
      have hbound := h.calls i
      rw [hcall] at hbound
      have hno' : ∀ j, ((s.setCall i .user).slot j).call.mapping = false := by
        intro j
        rw [Space.setCall_call]
        split_ifs
        · rfl
        · exact hno j
      have hset : Layout (s.setCall i .user) := h.endCall hcall
      exact hset.growproc hno' hbound
    | user => simp [hcall] at hs
    | create np st => simp [hcall] at hs
  | threadCreate i np =>
    simp only at hs
    split_ifs at hs with hc
    cases hs
    obtain ⟨⟨hrun, huser⟩, -, hunused⟩ := hc
    have hnew := hfree np .unused hunused (by decide)
    have hne : np ≠ s.main := by
      rintro rfl
      exact h.main.1 hunused
    have hset : Layout (s.setState np .embryo) := h.setState hnew fun hc => absurd hc hne
    refine hset.setCall ?_ rfl ?_ ⟨?_, trivial⟩
    · rw [Space.setState_call, huser]
      rfl
    · intro p st hk j st' hj
      rw [Space.setState_call] at hj
      exact hnew j p st' hj (Call.create.inj hk).1.symm
    · rw [Space.setState_state, if_pos rfl]
  | threadNext i enough =>
    cases hcall : (s.slot i).call with
    | create np st =>
      simp only [hcall] at hs
      split_ifs at hs
      cases hs
      exact h.threadNext hcall enough hok
    | user => simp [hcall] at hs
    | growproc n addr => simp [hcall] at hs
  | threadExit i =>
    simp only at hs
    split_ifs at hs with hc
    cases hs
    exact h.setState (hfree i .runnable hc.1.1 (by decide)) fun _ => by decide
  | threadJoin i p =>
    simp only at hs
    split_ifs at hs with hc
    cases hs
    have hne : p ≠ s.main := of_decide_eq_true hmain
    rw [Space.cleanthread_eq]
    exact h.setState (hfree p .zombie hc.2.2 (by decide)) fun hc => absurd hc hne

end Layout

end Xv6.Memory
