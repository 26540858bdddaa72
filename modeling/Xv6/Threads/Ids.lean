import Mathlib.Logic.Function.Basic
import Mathlib.Logic.Relation
import Xv6.Threads.Effect

/-!
# Slots and their numbers

What a process table is for, without what a thread does with it: a slot is taken
from the free ones, gets its numbers while a thread sets it up, lives, ends as a
zombie and is free again. A number is first taken from its counter and then given to
the slot; every pid and every tid is given once.
-/

namespace Xv6.Threads

open Mlfq (NPROC Slot Procstate)

/-- A slot is set up as a process by `fork`, as a thread by `thread_create`. -/
inductive Kind where
  | process | thread
  deriving DecidableEq, Repr

/-- A slot that is being set up, and which numbers it has already got; `taken` is the one
that was taken from a counter and is not in the slot yet. -/
structure Birth where
  slot : Slot
  kind : Kind
  hasPid : Bool
  hasTid : Bool
  taken : Option Int
  deriving DecidableEq, Repr

/-- The numbers of the slots. `birth i` is what the thread `i` is setting up. -/
@[ext] structure Ids where
  phase : Slot → Phase
  pid : Slot → Int
  tid : Slot → Nat
  birth : Slot → Option Birth
  nextpid : Int
  nexttid : Int
  init : Slot

namespace Ids

open Function (update)

variable {x y : Ids}

/-- The slots that a process of pid `n` leaves when its thread `i` ends it. -/
def mates (x : Ids) (i q : Slot) : Bool := x.pid q = x.pid i ∧ q ≠ i

/-- A thread that may end others or itself. -/
structure MayLeave (x : Ids) (i : Slot) : Prop where
  alive : x.phase i = .alive
  birth : x.birth i = none
  init : i ≠ x.init

/-- One change of the table. -/
inductive Step (x : Ids) : Ids → Prop where
  | stop (f : Slot → Option Birth) (hf : ∀ q, f q = x.birth q ∨ f q = none) :
      Step x { x with birth := f }
  | take (i np : Slot) (kind : Kind) (hi : x.phase i = .alive) (hb : x.birth i = none)
      (hnp : x.phase np = .unused) (hk : kind = .thread → i ≠ x.init) :
      Step x
        { x with
          phase := update x.phase np .embryo
          birth := update x.birth i (some ⟨np, kind, false, false, none⟩) }
  | drop (i : Slot) (b : Birth) (hb : x.birth i = some b) (hp : b.hasPid = false) :
      Step x
        { x with phase := update x.phase b.slot .unused, birth := update x.birth i none }
  | takePid (i : Slot) (b : Birth) (hb : x.birth i = some b) (hk : b.kind = .process)
      (hn : 0 < x.nextpid) :
      Step x
        { x with
          nextpid := nextInt x.nextpid
          birth := update x.birth i (some { b with taken := some x.nextpid }) }
  | forkPid (i : Slot) (b : Birth) (n : Int) (hb : x.birth i = some b) (hk : b.kind = .process)
      (hn : b.taken = some n) :
      Step x
        { x with
          pid := update x.pid b.slot n
          birth := update x.birth i (some { b with hasPid := true, taken := none }) }
  | threadPid (i main : Slot) (b : Birth) (hb : x.birth i = some b) (hk : b.kind = .thread)
      (hm : x.pid main = x.pid i) :
      Step x
        { x with
          pid := update x.pid b.slot (x.pid main)
          birth := update x.birth i (some { b with hasPid := true }) }
  | forkTid (i : Slot) (b : Birth) (hb : x.birth i = some b) (hk : b.kind = .process) :
      Step x
        { x with
          tid := update x.tid b.slot 0
          birth := update x.birth i (some { b with hasTid := true }) }
  | takeTid (i : Slot) (b : Birth) (hb : x.birth i = some b) (hk : b.kind = .thread)
      (hn : 0 < x.nexttid) :
      Step x
        { x with
          nexttid := nextInt x.nexttid
          birth := update x.birth i (some { b with taken := some x.nexttid }) }
  | threadTid (i : Slot) (b : Birth) (n : Int) (hb : x.birth i = some b) (hk : b.kind = .thread)
      (hn : b.taken = some n) :
      Step x
        { x with
          tid := update x.tid b.slot (uint n)
          birth := update x.birth i (some { b with hasTid := true, taken := none }) }
  | live (i : Slot) (b : Birth) (hb : x.birth i = some b) (hp : b.hasPid = true)
      (ht : b.hasTid = true) :
      Step x { x with phase := update x.phase b.slot .alive, birth := update x.birth i none }
  | kill (i : Slot) (hi : x.MayLeave i) :
      Step x
        { x with
          phase := fun q => if x.mates i q then .unused else x.phase q
          pid := fun q => if x.mates i q then 0 else x.pid q
          tid := fun q => if x.mates i q then 0 else x.tid q
          birth := fun q => if x.mates i q then none else x.birth q }
  | die (i : Slot) (hi : x.MayLeave i) : Step x { x with phase := update x.phase i .zombie }
  | bury (p : Slot) (tid : Nat) (hp : x.phase p = .zombie) (ht : tid = 0 ∨ tid = x.tid p) :
      Step x
        { x with
          phase := update x.phase p .unused
          pid := update x.pid p 0
          tid := update x.tid p tid }

/-- RUNNABLE, RUNNING, SLEEPING or ZOMBIE. -/
def started (x : Ids) (q : Slot) : Prop := x.phase q = .alive ∨ x.phase q = .zombie

/-- A thread sets up at most one slot, and no two threads set up the same one. -/
structure Births (x : Ids) : Prop where
  creator : ∀ i b, x.birth i = some b → x.phase i = .alive
  embryo : ∀ i b, x.birth i = some b → x.phase b.slot = .embryo
  unique : ∀ i j b c, x.birth i = some b → x.birth j = some c → b.slot = c.slot → i = j
  threadInit : ∀ i b, x.birth i = some b → b.kind = .thread → i ≠ x.init
  initAlive : x.phase x.init = .alive

/-- A pid belongs to one process. -/
structure Pids (x : Ids) : Prop where
  noPid : ∀ i b, x.birth i = some b → b.hasPid = false → x.pid b.slot = 0
  forkPid : ∀ i b, x.birth i = some b → b.kind = .process → b.hasPid = true →
    0 < x.pid b.slot ∧ ∀ q, x.pid q = x.pid b.slot → q = b.slot
  threadPid : ∀ i b, x.birth i = some b → b.kind = .thread → b.hasPid = true →
    x.pid b.slot = x.pid i
  freePid : ∀ q, x.phase q = .unused → x.pid q = 0
  nonneg : ∀ q, 0 ≤ x.pid q
  lt : 0 < x.nextpid → ∀ q, x.pid q < x.nextpid
  max : x.nextpid < 2147483648
  pos : ∀ q, x.started q → q ≠ x.init → 0 < x.pid q
  init : x.pid x.init = 0

/-- A tid belongs to one slot. -/
structure Tids (x : Ids) : Prop where
  forkTid : ∀ i b, x.birth i = some b → b.kind = .process → b.hasTid = true → x.tid b.slot = 0
  threadTid : ∀ i b, x.birth i = some b → b.kind = .thread → b.hasTid = true → x.tid b.slot ≠ 0
  lt : 0 < x.nexttid → ∀ q, (x.tid q : Int) < x.nexttid
  max : x.nexttid < 2147483648
  inj : ∀ q r, x.tid q ≠ 0 → x.tid q = x.tid r → q = r
  init : x.tid x.init = 0

/-- A number that was taken is on no slot yet, and was taken once. -/
structure Taken (x : Ids) : Prop where
  pid : ∀ i b n, x.birth i = some b → b.kind = .process → b.taken = some n →
    0 < n ∧ (∀ q, x.pid q ≠ n) ∧ (0 < x.nextpid → n < x.nextpid)
  tid : ∀ i b n, x.birth i = some b → b.kind = .thread → b.taken = some n →
    0 < n ∧ n < 2147483648 ∧ (∀ q, (x.tid q : Int) ≠ n) ∧ (0 < x.nexttid → n < x.nexttid)
  once : ∀ i j b c n, x.birth i = some b → x.birth j = some c → b.kind = c.kind →
    b.taken = some n → c.taken = some n → i = j

/-- What holds of the numbers in every run. -/
structure Base (x : Ids) : Prop where
  births : x.Births
  pids : x.Pids
  tids : x.Tids
  taken : x.Taken
  mainInj : ∀ q r, x.started q → x.started r → x.tid q = 0 → x.tid r = 0 → x.pid q = x.pid r →
    q = r

theorem lt_nextInt {n : Int} (h : n < 2147483648) (hn : 0 < nextInt n) : n < nextInt n := by
  unfold nextInt at hn ⊢
  rw [Int.bmod_def] at hn ⊢
  omega

theorem nextInt_lt (n : Int) : nextInt n < 2147483648 := by
  have := Int.bmod_lt (x := n + 1) (m := 4294967296) (by decide)
  unfold nextInt
  omega

theorem Base.pos (hx : x.Base) {i : Slot} (hi : x.MayLeave i) : 0 < x.pid i :=
  hx.pids.pos i (Or.inl hi.alive) hi.init

theorem Base.not_mates_init (hx : x.Base) {i : Slot} (hi : x.MayLeave i) :
    x.mates i x.init = false := by
  have hpos := hx.pos hi
  have hinit := hx.pids.init
  simp only [mates, decide_eq_false_iff_not]
  omega

/-- Whoever sets up a slot of the process belongs to it. -/
theorem Base.mates_of_birth (hx : x.Base) {i j : Slot} {b : Birth} (hi : x.MayLeave i)
    (hb : x.birth j = some b) (hm : x.mates i b.slot = true) : x.mates i j = true := by
  simp only [mates, decide_eq_true_eq] at hm ⊢
  have hpos := hx.pos hi
  cases hp : b.hasPid with
  | false =>
    have h0 := hx.pids.noPid j b hb hp
    omega
  | true =>
    cases hk : b.kind with
    | process =>
      have heq := (hx.pids.forkPid j b hb hk hp).2 i hm.1.symm
      exact absurd heq.symm hm.2
    | thread =>
      refine ⟨(hx.pids.threadPid j b hb hk hp).symm.trans hm.1, ?_⟩
      intro hji
      rw [hji, hi.birth] at hb
      cases hb

theorem Base.mates_slot (hx : x.Base) {i j : Slot} {b : Birth} (hi : x.MayLeave i)
    (hj : x.mates i j = false) (hb : x.birth j = some b) : x.mates i b.slot = false := by
  by_contra hm
  exact absurd (hj.symm.trans (hx.mates_of_birth hi hb ((Bool.not_eq_false _).mp hm))) nofun

theorem Base.pid_of_birth (hx : x.Base) {i : Slot} {b : Birth} (hb : x.birth i = some b)
    (hp : b.hasPid = true) : 0 < x.pid b.slot := by
  cases hk : b.kind with
  | process => exact (hx.pids.forkPid i b hb hk hp).1
  | thread =>
    rw [hx.pids.threadPid i b hb hk hp]
    exact hx.pids.pos i (Or.inl (hx.births.creator i b hb)) (hx.births.threadInit i b hb hk)

/-! ### What a step keeps -/

theorem ne_of_phase {q p : Slot} {v w : Phase} (hq : x.phase q = v) (hp : x.phase p = w)
    (hvw : v ≠ w) : q ≠ p := by
  rintro rfl
  exact hvw (hq.symm.trans hp)

/-- A thread goes on with a slot that has got a number. -/
theorem birth_mark {i j : Slot} {b b' c : Birth} (hb : x.birth i = some b)
    (h : update x.birth i (some b') j = some c) :
    ∃ d, x.birth j = some d ∧ (d = c ∧ j ≠ i ∨ d = b ∧ c = b' ∧ j = i) := by
  by_cases hj : j = i
  · subst hj
    rw [Function.update_self] at h
    exact ⟨b, hb, Or.inr ⟨rfl, (Option.some.inj h).symm, rfl⟩⟩
  · rw [Function.update_of_ne hj] at h
    exact ⟨c, h, Or.inl ⟨rfl, hj⟩⟩

theorem birth_end {i j : Slot} {c : Birth} (h : update x.birth i none j = some c) :
    j ≠ i ∧ x.birth j = some c := by
  by_cases hj : j = i
  · subst hj
    rw [Function.update_self] at h
    cases h
  · rw [Function.update_of_ne hj] at h
    exact ⟨hj, h⟩

theorem birth_kill {i j : Slot} {c : Birth} (h : (if x.mates i j then none else x.birth j) = some c) :
    x.mates i j = false ∧ x.birth j = some c := by
  cases hm : x.mates i j with
  | true =>
    rw [hm] at h
    cases h
  | false =>
    rw [hm] at h
    exact ⟨rfl, h⟩

theorem Births.frame (hx : x.Births) (hinit : y.init = x.init)
    (hbirth : ∀ i c, y.birth i = some c →
      ∃ b, x.birth i = some b ∧ b.slot = c.slot ∧ b.kind = c.kind)
    (hphase : ∀ i c, y.birth i = some c →
      y.phase i = x.phase i ∧ y.phase c.slot = x.phase c.slot)
    (hi : y.phase x.init = x.phase x.init) : y.Births := by
  refine ⟨fun i c h => ?_, fun i c h => ?_, fun i j c d hc hd heq => ?_, fun i c h hk => ?_, ?_⟩
  · obtain ⟨b, hb, -⟩ := hbirth i c h
    exact (hphase i c h).1.trans (hx.creator i b hb)
  · obtain ⟨b, hb, hslot, -⟩ := hbirth i c h
    rw [(hphase i c h).2, ← hslot]
    exact hx.embryo i b hb
  · obtain ⟨b, hb, hslot, -⟩ := hbirth i c hc
    obtain ⟨e, he, hslot', -⟩ := hbirth j d hd
    exact hx.unique i j b e hb he (hslot.trans (heq.trans hslot'.symm))
  · obtain ⟨b, hb, -, hkind⟩ := hbirth i c h
    rw [hinit]
    exact hx.threadInit i b hb (hkind.trans hk)
  · rw [hinit, hi]
    exact hx.initAlive

theorem Births.mark (hx : x.Births) (hinit : y.init = x.init) (hphase : y.phase = x.phase)
    {i : Slot} {b b' : Birth} (hb : x.birth i = some b)
    (hbirth : y.birth = update x.birth i (some b')) (hslot : b'.slot = b.slot)
    (hkind : b'.kind = b.kind) : y.Births := by
  refine hx.frame hinit (fun j c h => ?_) (fun j c _ => ?_) (by rw [hphase])
  · rw [hbirth] at h
    obtain ⟨d, hd, ⟨rfl, -⟩ | ⟨rfl, rfl, -⟩⟩ := birth_mark hb h
    · exact ⟨d, hd, rfl, rfl⟩
    · exact ⟨d, hd, hslot.symm, hkind.symm⟩
  · rw [hphase]
    exact ⟨rfl, rfl⟩

/-- The birth of a slot ends, with the slot in another phase. -/
theorem Births.finish (hx : x.Births) (hinit : y.init = x.init) {i : Slot} {b : Birth} {v : Phase}
    (hb : x.birth i = some b) (hphase : y.phase = update x.phase b.slot v)
    (hbirth : y.birth = update x.birth i none) : y.Births := by
  have hembryo := hx.embryo i b hb
  refine hx.frame hinit (fun j c h => ?_) (fun j c h => ?_) ?_
  · rw [hbirth] at h
    exact ⟨c, (birth_end h).2, rfl, rfl⟩
  · rw [hbirth] at h
    obtain ⟨hji, hc⟩ := birth_end h
    have hj : j ≠ b.slot := ne_of_phase (hx.creator j c hc) hembryo nofun
    have hslot : c.slot ≠ b.slot := fun heq => hji (hx.unique j i c b hc hb heq)
    rw [hphase]
    exact ⟨Function.update_of_ne hj _ _, Function.update_of_ne hslot _ _⟩
  · rw [hphase]
    exact Function.update_of_ne (ne_of_phase hx.initAlive hembryo nofun) _ _

/-- A slot that no thread sets up, and that sets up none, changes its phase. -/
theorem Births.rest (hx : x.Births) (hinit : y.init = x.init) {p : Slot} {v : Phase}
    (hp : x.phase p ≠ .embryo) (hbp : x.birth p = none) (hpi : p ≠ x.init)
    (hphase : y.phase = update x.phase p v) (hbirth : y.birth = x.birth) : y.Births := by
  refine hx.frame hinit (fun j c h => ⟨c, by rw [← hbirth]; exact h, rfl, rfl⟩) (fun j c h => ?_) ?_
  · rw [hbirth] at h
    have hj : j ≠ p := by
      rintro rfl
      exact absurd (hbp.symm.trans h) nofun
    have hslot : c.slot ≠ p := by
      rintro rfl
      exact hp (hx.embryo j c h)
    rw [hphase]
    exact ⟨Function.update_of_ne hj _ _, Function.update_of_ne hslot _ _⟩
  · rw [hphase]
    exact Function.update_of_ne hpi.symm _ _

theorem Births.birth_of_zombie (hx : x.Births) {p : Slot} (hp : x.phase p = .zombie) :
    x.birth p = none := by
  cases hb : x.birth p with
  | none => rfl
  | some b => exact Phase.noConfusion (hp.symm.trans (hx.creator p b hb))

theorem births_take (hx : x.Births) {i np : Slot} {kind : Kind} (hi : x.phase i = .alive)
    (hb : x.birth i = none) (hnp : x.phase np = .unused) (hk : kind = .thread → i ≠ x.init) :
    Births { x with
      phase := update x.phase np .embryo
      birth := update x.birth i (some ⟨np, kind, false, false, none⟩) } := by
  have hold : ∀ {j c}, j ≠ i → update x.birth i (some ⟨np, kind, false, false, none⟩) j = some c →
      x.birth j = some c := by
    intro j c hj h
    rwa [Function.update_of_ne hj] at h
  have hnew : ∀ {c}, update x.birth i (some ⟨np, kind, false, false, none⟩) i = some c →
      c = ⟨np, kind, false, false, none⟩ := by
    intro c h
    rw [Function.update_self] at h
    exact (Option.some.inj h).symm
  have hne : ∀ {q}, x.phase q = .alive → update x.phase np .embryo q = x.phase q :=
    fun hq => Function.update_of_ne (ne_of_phase hq hnp nofun) _ _
  have hslot : ∀ {j c}, x.birth j = some c → c.slot ≠ np :=
    fun h => ne_of_phase (hx.embryo _ _ h) hnp nofun
  refine ⟨fun j c h => ?_, fun j c h => ?_, fun j l c d hc hd heq => ?_, fun j c h hkc => ?_, ?_⟩
  · by_cases hj : j = i
    · rw [hj]
      exact (hne hi).trans hi
    · have halive := hx.creator j c (hold hj h)
      exact (hne halive).trans halive
  · by_cases hj : j = i
    · subst hj
      rw [hnew h]
      exact Function.update_self _ _ _
    · exact (Function.update_of_ne (hslot (hold hj h)) _ _).trans (hx.embryo j c (hold hj h))
  · by_cases hj : j = i
    · by_cases hl : l = i
      · exact hj.trans hl.symm
      · subst hj
        rw [hnew hc] at heq
        exact absurd heq.symm (hslot (hold hl hd))
    · by_cases hl : l = i
      · subst hl
        rw [hnew hd] at heq
        exact absurd heq (hslot (hold hj hc))
      · exact hx.unique j l c d (hold hj hc) (hold hl hd) heq
  · by_cases hj : j = i
    · subst hj
      rw [hnew h] at hkc
      exact hk hkc
    · exact hx.threadInit j c (hold hj h) hkc
  · exact (hne hx.initAlive).trans hx.initAlive

theorem births_step (hx : x.Base) (h : Step x y) : y.Births := by
  have hb := hx.births
  cases h with
  | stop f hf =>
    refine hb.frame rfl (fun i c h => ?_) (fun i c h => ⟨rfl, rfl⟩) rfl
    rcases hf i with hi | hi
    · exact ⟨c, hi.symm.trans h, rfl, rfl⟩
    · exact absurd (hi.symm.trans h) nofun
  | take i np kind hi hbi hnp hk => exact births_take hb hi hbi hnp hk
  | drop i b hbi hp => exact hb.finish rfl hbi rfl rfl
  | takePid i b hbi hk hn => exact hb.mark rfl rfl hbi rfl rfl rfl
  | forkPid i b n hbi hk hn => exact hb.mark rfl rfl hbi rfl rfl rfl
  | threadPid i main b hbi hk hm => exact hb.mark rfl rfl hbi rfl rfl rfl
  | forkTid i b hbi hk => exact hb.mark rfl rfl hbi rfl rfl rfl
  | takeTid i b hbi hk hn => exact hb.mark rfl rfl hbi rfl rfl rfl
  | threadTid i b n hbi hk hn => exact hb.mark rfl rfl hbi rfl rfl rfl
  | live i b hbi hp ht => exact hb.finish rfl hbi rfl rfl
  | kill i hi =>
    refine hb.frame rfl (fun j c h => ⟨c, (birth_kill h).2, rfl, rfl⟩) (fun j c h => ?_) ?_
    · obtain ⟨hj, hc⟩ := birth_kill h
      exact ⟨if_neg (by rw [hj]; exact nofun), if_neg (by rw [hx.mates_slot hi hj hc]; exact nofun)⟩
    · exact if_neg (by rw [hx.not_mates_init hi]; exact nofun)
  | die i hi =>
    exact hb.rest rfl (by rw [hi.alive]; exact nofun) hi.birth hi.init rfl rfl
  | bury p tid hp ht =>
    exact hb.rest rfl (by rw [hp]; exact nofun) (hb.birth_of_zombie hp)
      (ne_of_phase hp hb.initAlive nofun) rfl rfl

/-- A counter goes on from `m` to `n`, or overflows. -/
structure Advances (m n : Int) : Prop where
  max : n < 2147483648
  le : 0 < n → 0 < m ∧ m ≤ n

theorem Advances.rfl {n : Int} (h : n < 2147483648) : Advances n n := ⟨h, fun hn => ⟨hn, le_refl n⟩⟩

theorem advances_nextInt {n : Int} (h : n < 2147483648) (hn : 0 < n) : Advances n (nextInt n) :=
  ⟨nextInt_lt n, fun hpos => ⟨hn, (lt_nextInt h hpos).le⟩⟩

theorem Pids.frame (hx : x.Pids) (g : Slot → Bool)
    (hpid : ∀ q, y.pid q = if g q then 0 else x.pid q) (hnext : Advances x.nextpid y.nextpid)
    (hinit : y.init = x.init)
    (hbirth : ∀ i c, y.birth i = some c → c.hasPid = false ∧ x.pid c.slot = 0 ∨
      g i = false ∧ g c.slot = false ∧ ∃ b, x.birth i = some b ∧ b.slot = c.slot ∧
        b.kind = c.kind ∧ b.hasPid = c.hasPid)
    (hfree : ∀ q, y.phase q = .unused → g q = true ∨ x.pid q = 0)
    (hpos : ∀ q, y.started q → q ≠ x.init → g q = false ∧ 0 < x.pid q) : y.Pids := by
  have hzero : ∀ {q}, g q = true ∨ x.pid q = 0 → y.pid q = 0 := by
    intro q hq
    rw [hpid]
    split_ifs with hg
    · rfl
    · exact hq.resolve_left hg
  have hsame : ∀ {q}, g q = false → y.pid q = x.pid q := by
    intro q hg
    rw [hpid, if_neg (by rw [hg]; exact nofun)]
  refine ⟨fun i c h hp => ?_, fun i c h hk hp => ?_, fun i c h hk hp => ?_, fun q hq => hzero (hfree q hq),
    fun q => ?_, fun hn q => ?_, ?_, fun q hq hqi => ?_, ?_⟩
  · rcases hbirth i c h with ⟨-, h0⟩ | ⟨hgi, hgs, b, hb, hslot, -, hhas⟩
    · exact hzero (Or.inr h0)
    · rw [hsame hgs, ← hslot]
      exact hx.noPid i b hb (hhas.trans hp)
  · rcases hbirth i c h with ⟨hno, -⟩ | ⟨hgi, hgs, b, hb, hslot, hkind, hhas⟩
    · exact absurd (hno.symm.trans hp) nofun
    · obtain ⟨hpos, huniq⟩ := hx.forkPid i b hb (hkind.trans hk) (hhas.trans hp)
      rw [hslot] at hpos huniq
      rw [hsame hgs]
      refine ⟨hpos, fun q hq => ?_⟩
      cases hg : g q with
      | false => exact huniq q ((hsame hg).symm.trans hq)
      | true => exact absurd ((hzero (Or.inl hg)).symm.trans hq) hpos.ne
  · rcases hbirth i c h with ⟨hno, -⟩ | ⟨hgi, hgs, b, hb, hslot, hkind, hhas⟩
    · exact absurd (hno.symm.trans hp) nofun
    · rw [hsame hgs, hsame hgi, ← hslot]
      exact hx.threadPid i b hb (hkind.trans hk) (hhas.trans hp)
  · rw [hpid]
    split_ifs
    · exact le_refl 0
    · exact hx.nonneg q
  · rw [hpid]
    split_ifs
    · exact hn
    · obtain ⟨hm, hle⟩ := hnext.le hn
      exact (hx.lt hm q).trans_le hle
  · exact hnext.max
  · rw [hinit] at hqi
    obtain ⟨hg, h0⟩ := hpos q hq hqi
    rw [hsame hg]
    exact h0
  · rw [hinit]
    exact hzero (Or.inr hx.init)

/-- No pid changes. -/
theorem Pids.keep (hx : x.Pids) (hpid : y.pid = x.pid) (hnext : Advances x.nextpid y.nextpid)
    (hinit : y.init = x.init)
    (hbirth : ∀ i c, y.birth i = some c → c.hasPid = false ∧ x.pid c.slot = 0 ∨
      ∃ b, x.birth i = some b ∧ b.slot = c.slot ∧ b.kind = c.kind ∧ b.hasPid = c.hasPid)
    (hfree : ∀ q, y.phase q = .unused → x.pid q = 0)
    (hpos : ∀ q, y.started q → q ≠ x.init → 0 < x.pid q) : y.Pids := by
  refine hx.frame (fun _ => false) (fun q => by rw [hpid]; rfl) hnext hinit (fun i c h => ?_)
    (fun q hq => Or.inr (hfree q hq)) fun q hq hqi => ⟨rfl, hpos q hq hqi⟩
  exact (hbirth i c h).imp_right fun hb => ⟨rfl, rfl, hb⟩

theorem started_update {p q : Slot} {v : Phase} (hpq : q ≠ p)
    (h : update x.phase p v q = .alive ∨ update x.phase p v q = .zombie) : x.started q := by
  rwa [Function.update_of_ne hpq] at h

/-- A slot that is being set up gets the pid `v`. -/
theorem pids_give (hx : x.Base) {i : Slot} {b : Birth} {v : Int} {n : Option Int}
    (hb : x.birth i = some b) (hv : 0 < v) (hlt : 0 < x.nextpid → v < x.nextpid)
    (hprocess : b.kind = .process → ∀ q, x.pid q ≠ v) (hthread : b.kind = .thread → v = x.pid i)
    (hothers : ∀ j c, x.birth j = some c → c.kind = .process → c.hasPid = true → x.pid c.slot ≠ v) :
    Pids { x with
      pid := update x.pid b.slot v
      birth := update x.birth i (some { b with hasPid := true, taken := n }) } := by
  have hp := hx.pids
  have hembryo := hx.births.embryo i b hb
  have hself : update x.pid b.slot v b.slot = v := Function.update_self _ _ _
  have hother : ∀ {q}, q ≠ b.slot → update x.pid b.slot v q = x.pid q :=
    fun hq => Function.update_of_ne hq _ _
  have hphase : ∀ {q w}, x.phase q = w → w ≠ .embryo → update x.pid b.slot v q = x.pid q :=
    fun hq hw => hother (ne_of_phase hq hembryo hw)
  have hslot : ∀ {j c}, x.birth j = some c → j ≠ i → update x.pid b.slot v c.slot = x.pid c.slot :=
    fun hc hji => hother fun heq => hji (hx.births.unique _ _ _ _ hc hb heq)
  have hcreator : ∀ {j c}, x.birth j = some c → update x.pid b.slot v j = x.pid j :=
    fun hc => hphase (hx.births.creator _ _ hc) nofun
  refine ⟨fun j c h hc => ?_, fun j c h hkc hc => ?_, fun j c h hkc hc => ?_,
    fun q hq => (hphase hq nofun).trans (hp.freePid q hq), fun q => ?_, fun hn q => ?_, hp.max,
    fun q hq hqi => ?_, (hphase hx.births.initAlive nofun).trans hp.init⟩
  · obtain ⟨d, hd, ⟨rfl, hji⟩ | ⟨rfl, rfl, rfl⟩⟩ := birth_mark hb h
    · exact (hslot hd hji).trans (hp.noPid j d hd hc)
    · cases hc
  · obtain ⟨d, hd, ⟨rfl, hji⟩ | ⟨rfl, rfl, rfl⟩⟩ := birth_mark hb h
    · obtain ⟨hpos, huniq⟩ := hp.forkPid j d hd hkc hc
      dsimp only
      rw [hslot hd hji]
      refine ⟨hpos, fun q hq => ?_⟩
      by_cases hqb : q = b.slot
      · rw [hqb, hself] at hq
        exact absurd hq.symm (hothers j d hd hkc hc)
      · exact huniq q ((hother hqb).symm.trans hq)
    · dsimp only
      rw [hself]
      refine ⟨hv, fun q hq => ?_⟩
      by_contra hqd
      exact hprocess hkc q ((hother hqd).symm.trans hq)
  · obtain ⟨d, hd, ⟨rfl, hji⟩ | ⟨rfl, rfl, rfl⟩⟩ := birth_mark hb h
    · dsimp only
      rw [hslot hd hji, hcreator hd]
      exact hp.threadPid j d hd hkc hc
    · dsimp only
      rw [hself, hcreator hd]
      exact hthread hkc
  · dsimp only
    by_cases hq : q = b.slot
    · rw [hq, hself]
      exact hv.le
    · rw [hother hq]
      exact hp.nonneg q
  · dsimp only
    by_cases hq : q = b.slot
    · rw [hq, hself]
      exact hlt hn
    · rw [hother hq]
      exact hp.lt hn q
  · have hsame : update x.pid b.slot v q = x.pid q :=
      hq.elim (fun h => hphase h nofun) fun h => hphase h nofun
    exact lt_of_lt_of_eq (hp.pos q hq hqi) hsame.symm

theorem pids_forkPid (hx : x.Base) {i : Slot} {b : Birth} {n : Int} (hb : x.birth i = some b)
    (hk : b.kind = .process) (hn : b.taken = some n) :
    Pids { x with
      pid := update x.pid b.slot n
      birth := update x.birth i (some { b with hasPid := true, taken := none }) } := by
  obtain ⟨hpos, hfresh, hlt⟩ := hx.taken.pid i b n hb hk hn
  exact pids_give hx hb hpos hlt (fun _ => hfresh) (fun ht => absurd (hk.symm.trans ht) nofun)
    fun j c _ _ _ => hfresh c.slot

theorem pids_threadPid (hx : x.Base) {i main : Slot} {b : Birth} (hb : x.birth i = some b)
    (hk : b.kind = .thread) (hm : x.pid main = x.pid i) :
    Pids { x with
      pid := update x.pid b.slot (x.pid main)
      birth := update x.birth i (some { b with hasPid := true }) } := by
  have halive := hx.births.creator i b hb
  have hpos := hx.pids.pos i (Or.inl halive) (hx.births.threadInit i b hb hk)
  refine pids_give hx hb (by rw [hm]; exact hpos) (fun hn => hx.pids.lt hn main)
    (fun hp => absurd (hk.symm.trans hp) nofun) (fun _ => hm) fun j c hc hkc hpc heq => ?_
  -- the creator would be the slot that `fork` is setting up
  have hslot := (hx.pids.forkPid j c hc hkc hpc).2 i (hm.symm.trans heq.symm)
  exact ne_of_phase halive (hx.births.embryo j c hc) nofun hslot

theorem pids_step (hx : x.Base) (h : Step x y) : y.Pids := by
  have hp := hx.pids
  have hpos := hp.pos
  have hnext := Advances.rfl hp.max
  have hunused : ∀ {p q : Slot} {v : Phase}, (v = .unused → x.pid p = 0) →
      update x.phase p v q = .unused → x.pid q = 0 := by
    intro p q v hv h
    by_cases hq : q = p
    · rw [hq, Function.update_self] at h
      rw [hq]
      exact hv h
    · rw [Function.update_of_ne hq] at h
      exact hp.freePid q h
  have hstarted : ∀ {p q : Slot} {v : Phase}, (v = .alive ∨ v = .zombie → 0 < x.pid p) →
      update x.phase p v q = .alive ∨ update x.phase p v q = .zombie → q ≠ x.init →
        0 < x.pid q := by
    intro p q v hv h hqi
    by_cases hq : q = p
    · rw [hq, Function.update_self] at h
      rw [hq]
      exact hv h
    · rw [Function.update_of_ne hq] at h
      exact hpos q h hqi
  cases h with
  | stop f hf =>
    refine hp.keep rfl hnext rfl (fun i c h => Or.inr ?_) hp.freePid hpos
    rcases hf i with hi | hi
    · exact ⟨c, hi.symm.trans h, rfl, rfl, rfl⟩
    · exact absurd (hi.symm.trans h) nofun
  | take i np kind hi hbi hnp hk =>
    refine hp.keep rfl hnext rfl (fun j c h => ?_) (fun q => hunused nofun) fun q => hstarted nofun
    dsimp only at h
    by_cases hj : j = i
    · rw [hj, Function.update_self] at h
      cases h
      exact Or.inl ⟨rfl, hp.freePid np hnp⟩
    · rw [Function.update_of_ne hj] at h
      exact Or.inr ⟨c, h, rfl, rfl, rfl⟩
  | drop i b hbi hno =>
    exact hp.keep rfl hnext rfl (fun j c h => Or.inr ⟨c, (birth_end h).2, rfl, rfl, rfl⟩)
      (fun q => hunused fun _ => hp.noPid i b hbi hno) fun q => hstarted nofun
  | takePid i b hbi hk hn =>
    refine hp.keep rfl (advances_nextInt hp.max hn) rfl (fun j c h => Or.inr ?_) hp.freePid hpos
    obtain ⟨d, hd, ⟨rfl, -⟩ | ⟨rfl, rfl, -⟩⟩ := birth_mark hbi h <;> exact ⟨d, hd, rfl, rfl, rfl⟩
  | forkPid i b n hb hk hn => exact pids_forkPid hx hb hk hn
  | threadPid i main b hb hk hm => exact pids_threadPid hx hb hk hm
  | forkTid i b hbi hk =>
    refine hp.keep rfl hnext rfl (fun j c h => Or.inr ?_) hp.freePid hpos
    obtain ⟨d, hd, ⟨rfl, -⟩ | ⟨rfl, rfl, -⟩⟩ := birth_mark hbi h <;> exact ⟨d, hd, rfl, rfl, rfl⟩
  | takeTid i b hbi hk hn =>
    refine hp.keep rfl hnext rfl (fun j c h => Or.inr ?_) hp.freePid hpos
    obtain ⟨d, hd, ⟨rfl, -⟩ | ⟨rfl, rfl, -⟩⟩ := birth_mark hbi h <;> exact ⟨d, hd, rfl, rfl, rfl⟩
  | threadTid i b n hbi hk hn =>
    refine hp.keep rfl hnext rfl (fun j c h => Or.inr ?_) hp.freePid hpos
    obtain ⟨d, hd, ⟨rfl, -⟩ | ⟨rfl, rfl, -⟩⟩ := birth_mark hbi h <;> exact ⟨d, hd, rfl, rfl, rfl⟩
  | live i b hbi hhas ht =>
    exact hp.keep rfl hnext rfl (fun j c h => Or.inr ⟨c, (birth_end h).2, rfl, rfl, rfl⟩)
      (fun q => hunused nofun) fun q => hstarted fun _ => hx.pid_of_birth hbi hhas
  | kill i hi =>
    refine hp.frame (x.mates i) (fun q => rfl) hnext rfl (fun j c h => Or.inr ?_) (fun q hq => ?_)
      fun q hq hqi => ?_
    · obtain ⟨hj, hc⟩ := birth_kill h
      exact ⟨hj, hx.mates_slot hi hj hc, c, hc, rfl, rfl, rfl⟩
    · cases hm : x.mates i q with
      | true => exact Or.inl rfl
      | false =>
        dsimp only at hq
        rw [if_neg (by rw [hm]; exact nofun)] at hq
        exact Or.inr (hp.freePid q hq)
    · unfold started at hq
      dsimp only at hq
      cases hm : x.mates i q with
      | true =>
        rw [if_pos hm] at hq
        rcases hq with hq | hq <;> cases hq
      | false =>
        rw [if_neg (by rw [hm]; exact nofun)] at hq
        exact ⟨rfl, hpos q hq hqi⟩
  | die i hi =>
    exact hp.keep rfl hnext rfl (fun j c h => Or.inr ⟨c, h, rfl, rfl, rfl⟩)
      (fun q => hunused nofun) fun q => hstarted fun _ => hx.pos hi
  | bury p tid hz ht =>
    refine hp.frame (fun q => q = p) (fun q => ?_) hnext rfl (fun j c h => Or.inr ?_) (fun q hq => ?_)
      fun q hq hqi => ?_
    · dsimp only
      rw [Function.update_apply]
      simp only [decide_eq_true_eq]
    · have hj : j ≠ p := ne_of_phase (hx.births.creator j c h) hz nofun
      have hslot : c.slot ≠ p := ne_of_phase (hx.births.embryo j c h) hz nofun
      exact ⟨decide_eq_false hj, decide_eq_false hslot, c, h, rfl, rfl, rfl⟩
    · by_cases hqp : q = p
      · exact Or.inl (decide_eq_true hqp)
      · exact Or.inr (hp.freePid q ((Function.update_of_ne hqp _ _).symm.trans hq))
    · have hqp : q ≠ p := by
        rintro rfl
        unfold started at hq
        dsimp only at hq
        rw [Function.update_self] at hq
        rcases hq with hq | hq <;> cases hq
      exact ⟨decide_eq_false hqp, hpos q (started_update hqp hq) hqi⟩

theorem Tids.frame (hx : x.Tids) (g : Slot → Bool)
    (htid : ∀ q, y.tid q = if g q then 0 else x.tid q) (hnext : Advances x.nexttid y.nexttid)
    (hinit : y.init = x.init)
    (hbirth : ∀ i c, y.birth i = some c → c.hasTid = false ∨
      c.kind = .process ∧ g c.slot = true ∨ g c.slot = false ∧ ∃ b, x.birth i = some b ∧
        b.slot = c.slot ∧ b.kind = c.kind ∧ b.hasTid = c.hasTid) : y.Tids := by
  have hzero : ∀ {q}, g q = true → y.tid q = 0 := by
    intro q hg
    rw [htid, if_pos hg]
  have hsame : ∀ {q}, g q = false → y.tid q = x.tid q := by
    intro q hg
    rw [htid, if_neg (by rw [hg]; exact nofun)]
  have hkept : ∀ {q}, y.tid q ≠ 0 → y.tid q = x.tid q := by
    intro q hq
    cases hg : g q with
    | true => exact absurd (hzero hg) hq
    | false => exact hsame hg
  refine ⟨fun i c h hk hc => ?_, fun i c h hk hc => ?_, fun hn q => ?_, ?_, fun q r hq hqr => ?_, ?_⟩
  · rcases hbirth i c h with hno | ⟨-, hg⟩ | ⟨hg, b, hb, hslot, hkind, hhas⟩
    · exact absurd (hno.symm.trans hc) nofun
    · exact hzero hg
    · rw [hsame hg, ← hslot]
      exact hx.forkTid i b hb (hkind.trans hk) (hhas.trans hc)
  · rcases hbirth i c h with hno | ⟨hp, -⟩ | ⟨hg, b, hb, hslot, hkind, hhas⟩
    · exact absurd (hno.symm.trans hc) nofun
    · exact absurd (hp.symm.trans hk) nofun
    · rw [hsame hg, ← hslot]
      exact hx.threadTid i b hb (hkind.trans hk) (hhas.trans hc)
  · rw [htid]
    split_ifs
    · exact hn
    · obtain ⟨hm, hle⟩ := hnext.le hn
      exact (hx.lt hm q).trans_le hle
  · exact hnext.max
  · have hr : y.tid r ≠ 0 := hqr ▸ hq
    rw [hkept hq] at hq
    exact hx.inj q r hq ((hkept (hqr ▸ hr)).symm.trans (hqr.trans (hkept hr)))
  · rw [hinit, htid]
    split_ifs
    · rfl
    · exact hx.init

/-- No tid changes. -/
theorem Tids.keep (hx : x.Tids) (htid : y.tid = x.tid) (hnext : Advances x.nexttid y.nexttid)
    (hinit : y.init = x.init)
    (hbirth : ∀ i c, y.birth i = some c → c.hasTid = false ∨ ∃ b, x.birth i = some b ∧
      b.slot = c.slot ∧ b.kind = c.kind ∧ b.hasTid = c.hasTid) : y.Tids :=
  hx.frame (fun _ => false) (fun q => by rw [htid]; rfl) hnext hinit fun i c h =>
    (hbirth i c h).imp_right fun hb => Or.inr ⟨rfl, hb⟩

theorem uint_of_taken {n : Int} (h0 : 0 < n) (h : n < 2147483648) : (uint n : Int) = n := by
  unfold uint
  omega

theorem tids_threadTid (hx : x.Base) {i : Slot} {b : Birth} {n : Int} (hb : x.birth i = some b)
    (hk : b.kind = .thread) (hn : b.taken = some n) :
    Tids { x with
      tid := update x.tid b.slot (uint n)
      birth := update x.birth i (some { b with hasTid := true, taken := none }) } := by
  have ht := hx.tids
  obtain ⟨hpos, hmax, hfresh, hlt⟩ := hx.taken.tid i b n hb hk hn
  have hu := uint_of_taken hpos hmax
  have hu0 : uint n ≠ 0 := by omega
  have hself : update x.tid b.slot (uint n) b.slot = uint n := Function.update_self _ _ _
  have hother : ∀ {q}, q ≠ b.slot → update x.tid b.slot (uint n) q = x.tid q :=
    fun hq => Function.update_of_ne hq _ _
  have hslot : ∀ {j c}, x.birth j = some c → j ≠ i → c.slot ≠ b.slot :=
    fun hc hji heq => hji (hx.births.unique _ _ _ _ hc hb heq)
  have hnew : ∀ q, x.tid q ≠ uint n := by
    intro q hq
    apply hfresh q
    rw [hq, hu]
  refine ⟨fun j c h hkc hc => ?_, fun j c h hkc hc => ?_, fun hn' q => ?_, ht.max,
    fun q r hq hqr => ?_, ?_⟩
  · obtain ⟨d, hd, ⟨rfl, hji⟩ | ⟨rfl, rfl, rfl⟩⟩ := birth_mark hb h
    · exact (hother (hslot hd hji)).trans (ht.forkTid j d hd hkc hc)
    · exact absurd (hk.symm.trans hkc) nofun
  · obtain ⟨d, hd, ⟨rfl, hji⟩ | ⟨rfl, rfl, rfl⟩⟩ := birth_mark hb h
    · dsimp only
      rw [hother (hslot hd hji)]
      exact ht.threadTid j d hd hkc hc
    · dsimp only
      rw [hself]
      exact hu0
  · dsimp only
    by_cases hq : q = b.slot
    · rw [hq, hself, hu]
      exact hlt hn'
    · rw [hother hq]
      exact ht.lt hn' q
  · dsimp only at hq hqr
    by_cases hqb : q = b.slot
    · by_cases hrb : r = b.slot
      · rw [hqb, hrb]
      · rw [hqb, hself, hother hrb] at hqr
        exact absurd hqr.symm (hnew r)
    · by_cases hrb : r = b.slot
      · rw [hrb, hself, hother hqb] at hqr
        exact absurd hqr (hnew q)
      · rw [hother hqb] at hq hqr
        rw [hother hrb] at hqr
        exact ht.inj q r hq hqr
  · have hne := ne_of_phase hx.births.initAlive (hx.births.embryo i b hb) nofun
    exact (hother hne).trans ht.init

theorem tids_step (hx : x.Base) (h : Step x y) : y.Tids := by
  have ht := hx.tids
  have hnext := Advances.rfl ht.max
  cases h with
  | stop f hf =>
    refine ht.keep rfl hnext rfl fun i c h => Or.inr ?_
    rcases hf i with hi | hi
    · exact ⟨c, hi.symm.trans h, rfl, rfl, rfl⟩
    · exact absurd (hi.symm.trans h) nofun
  | take i np kind hi hbi hnp hk =>
    refine ht.keep rfl hnext rfl fun j c h => ?_
    dsimp only at h
    by_cases hj : j = i
    · rw [hj, Function.update_self] at h
      cases h
      exact Or.inl rfl
    · rw [Function.update_of_ne hj] at h
      exact Or.inr ⟨c, h, rfl, rfl, rfl⟩
  | drop i b hbi hno =>
    exact ht.keep rfl hnext rfl fun j c h => Or.inr ⟨c, (birth_end h).2, rfl, rfl, rfl⟩
  | takePid i b hbi hk hn =>
    refine ht.keep rfl hnext rfl fun j c h => Or.inr ?_
    obtain ⟨d, hd, ⟨rfl, -⟩ | ⟨rfl, rfl, -⟩⟩ := birth_mark hbi h <;> exact ⟨d, hd, rfl, rfl, rfl⟩
  | forkPid i b n hbi hk hn =>
    refine ht.keep rfl hnext rfl fun j c h => Or.inr ?_
    obtain ⟨d, hd, ⟨rfl, -⟩ | ⟨rfl, rfl, -⟩⟩ := birth_mark hbi h <;> exact ⟨d, hd, rfl, rfl, rfl⟩
  | threadPid i main b hbi hk hm =>
    refine ht.keep rfl hnext rfl fun j c h => Or.inr ?_
    obtain ⟨d, hd, ⟨rfl, -⟩ | ⟨rfl, rfl, -⟩⟩ := birth_mark hbi h <;> exact ⟨d, hd, rfl, rfl, rfl⟩
  | forkTid i b hbi hk =>
    refine ht.frame (fun q => q = b.slot) (fun q => ?_) hnext rfl fun j c h => Or.inr ?_
    · dsimp only
      rw [Function.update_apply]
      simp only [decide_eq_true_eq]
    · obtain ⟨d, hd, ⟨rfl, hji⟩ | ⟨rfl, rfl, -⟩⟩ := birth_mark hbi h
      · have hslot : d.slot ≠ b.slot := fun heq => hji (hx.births.unique _ _ _ _ hd hbi heq)
        exact Or.inr ⟨decide_eq_false hslot, d, hd, rfl, rfl, rfl⟩
      · exact Or.inl ⟨hk, decide_eq_true rfl⟩
  | takeTid i b hbi hk hn =>
    refine ht.keep rfl (advances_nextInt ht.max hn) rfl fun j c h => Or.inr ?_
    obtain ⟨d, hd, ⟨rfl, -⟩ | ⟨rfl, rfl, -⟩⟩ := birth_mark hbi h <;> exact ⟨d, hd, rfl, rfl, rfl⟩
  | threadTid i b n hbi hk hn => exact tids_threadTid hx hbi hk hn
  | live i b hbi hhas hht =>
    exact ht.keep rfl hnext rfl fun j c h => Or.inr ⟨c, (birth_end h).2, rfl, rfl, rfl⟩
  | kill i hi =>
    refine ht.frame (x.mates i) (fun q => rfl) hnext rfl fun j c h => Or.inr (Or.inr ?_)
    obtain ⟨hj, hc⟩ := birth_kill h
    exact ⟨hx.mates_slot hi hj hc, c, hc, rfl, rfl, rfl⟩
  | die i hi => exact ht.keep rfl hnext rfl fun j c h => Or.inr ⟨c, h, rfl, rfl, rfl⟩
  | bury p tid hz htid =>
    rcases htid with htid | htid
    · refine ht.frame (fun q => q = p) (fun q => ?_) hnext rfl fun j c h => Or.inr (Or.inr ?_)
      · dsimp only
        rw [Function.update_apply, htid]
        simp only [decide_eq_true_eq]
      · have hslot : c.slot ≠ p := ne_of_phase (hx.births.embryo j c h) hz nofun
        exact ⟨decide_eq_false hslot, c, h, rfl, rfl, rfl⟩
    · refine ht.keep ?_ hnext rfl fun j c h => Or.inr ⟨c, h, rfl, rfl, rfl⟩
      rw [htid]
      exact Function.update_eq_self _ _

/-! ### Numbers that were taken -/

/-- A pid comes from another slot or from the birth that took it. -/
def OldPid (x y : Ids) (n : Int) : Prop :=
  n = 0 ∨ (∃ r, n = x.pid r) ∨ ∃ i b, x.birth i = some b ∧ b.kind = .process ∧
    b.taken = some n ∧ ∀ c, y.birth i = some c → c.taken = none

def OldTid (x y : Ids) (n : Nat) : Prop :=
  n = 0 ∨ (∃ r, n = x.tid r) ∨ ∃ i b v, x.birth i = some b ∧ b.kind = .thread ∧
    b.taken = some v ∧ n = uint v ∧ ∀ c, y.birth i = some c → c.taken = none

theorem Taken.frame (hx : x.Taken) (hpid : ∀ q, OldPid x y (y.pid q))
    (htid : ∀ q, OldTid x y (y.tid q)) (hnp : Advances x.nextpid y.nextpid)
    (hnt : Advances x.nexttid y.nexttid)
    (hbirth : ∀ i c n, y.birth i = some c → c.taken = some n →
      ∃ b, x.birth i = some b ∧ b.kind = c.kind ∧ b.taken = some n) : y.Taken := by
  refine ⟨fun i c n hc hk hn => ?_, fun i c n hc hk hn => ?_, fun i j c d n hc hd hk hn hn' => ?_⟩
  · obtain ⟨b, hb, hkind, htaken⟩ := hbirth i c n hc hn
    obtain ⟨h0, hfresh, hlt⟩ := hx.pid i b n hb (hkind.trans hk) htaken
    refine ⟨h0, fun q hq => ?_, fun hpos => ?_⟩
    · obtain hz | ⟨r, hr⟩ | ⟨j, d, hd, hkd, htd, hnone⟩ := hpid q
      · omega
      · exact hfresh r (hr.symm.trans hq)
      · rw [hq] at htd
        have hij := hx.once i j b d n hb hd ((hkind.trans hk).trans hkd.symm) htaken htd
        subst hij
        exact absurd ((hnone c hc).symm.trans hn) nofun
    · obtain ⟨hm, hle⟩ := hnp.le hpos
      exact (hlt hm).trans_le hle
  · obtain ⟨b, hb, hkind, htaken⟩ := hbirth i c n hc hn
    obtain ⟨h0, hmax, hfresh, hlt⟩ := hx.tid i b n hb (hkind.trans hk) htaken
    refine ⟨h0, hmax, fun q hq => ?_, fun hpos => ?_⟩
    · obtain hz | ⟨r, hr⟩ | ⟨j, d, v, hd, hkd, htd, hv, hnone⟩ := htid q
      · omega
      · exact hfresh r (by rw [← hr]; exact hq)
      · obtain ⟨hv0, hvmax, -⟩ := hx.tid j d v hd hkd htd
        have hvn : v = n := by rw [← uint_of_taken hv0 hvmax, ← hv, hq]
        rw [hvn] at htd
        have hij := hx.once i j b d n hb hd ((hkind.trans hk).trans hkd.symm) htaken htd
        subst hij
        exact absurd ((hnone c hc).symm.trans hn) nofun
    · obtain ⟨hm, hle⟩ := hnt.le hpos
      exact (hlt hm).trans_le hle
  · obtain ⟨b, hb, hkind, htaken⟩ := hbirth i c n hc hn
    obtain ⟨e, he, hkind', htaken'⟩ := hbirth j d n hd hn'
    exact hx.once i j b e n hb he (hkind.trans (hk.trans hkind'.symm)) htaken htaken'

/-- The number that a birth takes is the one of the counter. -/
theorem birth_take {i j : Slot} {b c : Birth} {v n : Int} (hb : x.birth i = some b)
    (h : update x.birth i (some { b with taken := some v }) j = some c) (hn : c.taken = some n) :
    (x.birth j = some c ∧ j ≠ i) ∨ (n = v ∧ c.kind = b.kind ∧ j = i) := by
  obtain ⟨d, hd, ⟨rfl, hji⟩ | ⟨rfl, rfl, rfl⟩⟩ := birth_mark hb h
  · exact Or.inl ⟨hd, hji⟩
  · exact Or.inr ⟨(Option.some.inj hn).symm, rfl, rfl⟩

theorem taken_takePid (hx : x.Base) {i : Slot} {b : Birth} (hb : x.birth i = some b)
    (hk : b.kind = .process) (hn : 0 < x.nextpid) :
    Taken { x with
      nextpid := nextInt x.nextpid
      birth := update x.birth i (some { b with taken := some x.nextpid }) } := by
  have ht := hx.taken
  have hlt := hx.pids.lt hn
  refine ⟨fun j c n h hkc hc => ?_, fun j c n h hkc hc => ?_, fun j l c d n h h' hkind hc hd => ?_⟩
  · obtain ⟨hj, -⟩ | ⟨rfl, -, -⟩ := birth_take hb h hc
    · obtain ⟨h0, hfresh, hn'⟩ := ht.pid j c n hj hkc hc
      exact ⟨h0, hfresh, fun hpos => (hn' hn).trans (lt_nextInt hx.pids.max hpos)⟩
    · exact ⟨hn, fun q => (hlt q).ne, lt_nextInt hx.pids.max⟩
  · obtain ⟨hj, -⟩ | ⟨-, hkb, -⟩ := birth_take hb h hc
    · exact ht.tid j c n hj hkc hc
    · exact absurd (hk.symm.trans (hkb.symm.trans hkc)) nofun
  · obtain ⟨hj, -⟩ | ⟨rfl, hkc, rfl⟩ := birth_take hb h hc
    · obtain ⟨hl, -⟩ | ⟨rfl, hkd, -⟩ := birth_take hb h' hd
      · exact ht.once j l c d n hj hl hkind hc hd
      · have hnlt := (ht.pid j c _ hj (hkind.trans (hkd.trans hk)) hc).2.2 hn
        omega
    · obtain ⟨hl, -⟩ | ⟨-, -, rfl⟩ := birth_take hb h' hd
      · have hnlt := (ht.pid l d _ hl (hkind.symm.trans (hkc.trans hk)) hd).2.2 hn
        omega
      · rfl

theorem taken_takeTid (hx : x.Base) {i : Slot} {b : Birth} (hb : x.birth i = some b)
    (hk : b.kind = .thread) (hn : 0 < x.nexttid) :
    Taken { x with
      nexttid := nextInt x.nexttid
      birth := update x.birth i (some { b with taken := some x.nexttid }) } := by
  have ht := hx.taken
  have hlt := hx.tids.lt hn
  refine ⟨fun j c n h hkc hc => ?_, fun j c n h hkc hc => ?_, fun j l c d n h h' hkind hc hd => ?_⟩
  · obtain ⟨hj, -⟩ | ⟨-, hkb, -⟩ := birth_take hb h hc
    · exact ht.pid j c n hj hkc hc
    · exact absurd (hk.symm.trans (hkb.symm.trans hkc)) nofun
  · obtain ⟨hj, -⟩ | ⟨rfl, -, -⟩ := birth_take hb h hc
    · obtain ⟨h0, hmax, hfresh, hn'⟩ := ht.tid j c n hj hkc hc
      exact ⟨h0, hmax, hfresh, fun hpos => (hn' hn).trans (lt_nextInt hx.tids.max hpos)⟩
    · exact ⟨hn, hx.tids.max, fun q => (hlt q).ne, lt_nextInt hx.tids.max⟩
  · obtain ⟨hj, -⟩ | ⟨rfl, hkc, rfl⟩ := birth_take hb h hc
    · obtain ⟨hl, -⟩ | ⟨rfl, hkd, -⟩ := birth_take hb h' hd
      · exact ht.once j l c d n hj hl hkind hc hd
      · have hnlt := (ht.tid j c _ hj (hkind.trans (hkd.trans hk)) hc).2.2.2 hn
        omega
    · obtain ⟨hl, -⟩ | ⟨-, -, rfl⟩ := birth_take hb h' hd
      · have hnlt := (ht.tid l d _ hl (hkind.symm.trans (hkc.trans hk)) hd).2.2.2 hn
        omega
      · rfl

theorem taken_step (hx : x.Base) (h : Step x y) : y.Taken := by
  have ht := hx.taken
  have hnp := Advances.rfl hx.pids.max
  have hnt := Advances.rfl hx.tids.max
  have hpid : ∀ {z : Ids}, z.pid = x.pid → ∀ q, OldPid x z (z.pid q) :=
    fun hz q => Or.inr (Or.inl ⟨q, congrFun hz q⟩)
  have htid : ∀ {z : Ids}, z.tid = x.tid → ∀ q, OldTid x z (z.tid q) :=
    fun hz q => Or.inr (Or.inl ⟨q, congrFun hz q⟩)
  cases h with
  | stop f hf =>
    refine ht.frame (hpid rfl) (htid rfl) hnp hnt fun i c n hc hn => ?_
    rcases hf i with hi | hi
    · exact ⟨c, hi.symm.trans hc, rfl, hn⟩
    · exact absurd (hi.symm.trans hc) nofun
  | take i np kind hi hbi hunused hk =>
    refine ht.frame (hpid rfl) (htid rfl) hnp hnt fun j c n hc hn => ?_
    dsimp only at hc
    by_cases hj : j = i
    · rw [hj, Function.update_self] at hc
      cases hc
      cases hn
    · rw [Function.update_of_ne hj] at hc
      exact ⟨c, hc, rfl, hn⟩
  | drop i b hbi hno =>
    exact ht.frame (hpid rfl) (htid rfl) hnp hnt fun j c n hc hn =>
      ⟨c, (birth_end hc).2, rfl, hn⟩
  | takePid i b hbi hk hn => exact taken_takePid hx hbi hk hn
  | forkPid i b v hbi hk hv =>
    refine ht.frame (fun q => ?_) (htid rfl) hnp hnt fun j c n hc hn => ?_
    · dsimp only
      rw [Function.update_apply]
      split_ifs
      · refine Or.inr (Or.inr ⟨i, b, hbi, hk, hv, fun c hc => ?_⟩)
        dsimp only at hc
        rw [Function.update_self] at hc
        cases hc
        rfl
      · exact Or.inr (Or.inl ⟨q, rfl⟩)
    · obtain ⟨d, hd, ⟨rfl, -⟩ | ⟨rfl, rfl, -⟩⟩ := birth_mark hbi hc
      · exact ⟨d, hd, rfl, hn⟩
      · cases hn
  | threadPid i main b hbi hk hm =>
    refine ht.frame (fun q => ?_) (htid rfl) hnp hnt fun j c n hc hn => ?_
    · dsimp only
      rw [Function.update_apply]
      split_ifs
      · exact Or.inr (Or.inl ⟨main, rfl⟩)
      · exact Or.inr (Or.inl ⟨q, rfl⟩)
    · obtain ⟨d, hd, ⟨rfl, -⟩ | ⟨rfl, rfl, -⟩⟩ := birth_mark hbi hc <;> exact ⟨d, hd, rfl, hn⟩
  | forkTid i b hbi hk =>
    refine ht.frame (hpid rfl) (fun q => ?_) hnp hnt fun j c n hc hn => ?_
    · dsimp only
      rw [Function.update_apply]
      split_ifs
      · exact Or.inl rfl
      · exact Or.inr (Or.inl ⟨q, rfl⟩)
    · obtain ⟨d, hd, ⟨rfl, -⟩ | ⟨rfl, rfl, -⟩⟩ := birth_mark hbi hc <;> exact ⟨d, hd, rfl, hn⟩
  | takeTid i b hbi hk hn => exact taken_takeTid hx hbi hk hn
  | threadTid i b v hbi hk hv =>
    refine ht.frame (hpid rfl) (fun q => ?_) hnp hnt fun j c n hc hn => ?_
    · dsimp only
      rw [Function.update_apply]
      split_ifs
      · refine Or.inr (Or.inr ⟨i, b, v, hbi, hk, hv, rfl, fun c hc => ?_⟩)
        dsimp only at hc
        rw [Function.update_self] at hc
        cases hc
        rfl
      · exact Or.inr (Or.inl ⟨q, rfl⟩)
    · obtain ⟨d, hd, ⟨rfl, -⟩ | ⟨rfl, rfl, -⟩⟩ := birth_mark hbi hc
      · exact ⟨d, hd, rfl, hn⟩
      · cases hn
  | live i b hbi hhas hht =>
    exact ht.frame (hpid rfl) (htid rfl) hnp hnt fun j c n hc hn =>
      ⟨c, (birth_end hc).2, rfl, hn⟩
  | kill i hi =>
    refine ht.frame (fun q => ?_) (fun q => ?_) hnp hnt fun j c n hc hn =>
      ⟨c, (birth_kill hc).2, rfl, hn⟩
    · dsimp only
      split_ifs
      · exact Or.inl rfl
      · exact Or.inr (Or.inl ⟨q, rfl⟩)
    · dsimp only
      split_ifs
      · exact Or.inl rfl
      · exact Or.inr (Or.inl ⟨q, rfl⟩)
  | die i hi => exact ht.frame (hpid rfl) (htid rfl) hnp hnt fun j c n hc hn => ⟨c, hc, rfl, hn⟩
  | bury p tid hz hp =>
    refine ht.frame (fun q => ?_) (fun q => ?_) hnp hnt fun j c n hc hn => ⟨c, hc, rfl, hn⟩
    · dsimp only
      rw [Function.update_apply]
      split_ifs
      · exact Or.inl rfl
      · exact Or.inr (Or.inl ⟨q, rfl⟩)
    · dsimp only
      rw [Function.update_apply]
      split_ifs
      · rcases hp with hp | hp
        · exact Or.inl hp
        · exact Or.inr (Or.inl ⟨p, hp⟩)
      · exact Or.inr (Or.inl ⟨q, rfl⟩)

/-- One slot per process has tid 0, as long as the slots in use keep their numbers. -/
theorem mainInj_frame (hx : x.Base)
    (h : ∀ q, y.started q → x.started q ∧ y.pid q = x.pid q ∧ y.tid q = x.tid q) (q r : Slot)
    (hq : y.started q) (hr : y.started r) (htq : y.tid q = 0) (htr : y.tid r = 0)
    (hpid : y.pid q = y.pid r) : q = r := by
  obtain ⟨hqs, hqp, hqt⟩ := h q hq
  obtain ⟨hrs, hrp, hrt⟩ := h r hr
  rw [hqt] at htq
  rw [hrt] at htr
  rw [hqp, hrp] at hpid
  exact hx.mainInj q r hqs hrs htq htr hpid

theorem started_cases {p q : Slot} {v : Phase}
    (h : update x.phase p v q = .alive ∨ update x.phase p v q = .zombie) :
    q ≠ p ∧ x.started q ∨ q = p ∧ (v = .alive ∨ v = .zombie) := by
  by_cases hq : q = p
  · rw [hq, Function.update_self] at h
    exact Or.inr ⟨hq, h⟩
  · exact Or.inl ⟨hq, started_update hq h⟩

theorem mainInj_step (hx : x.Base) (h : Step x y) (q r : Slot) (hq : y.started q)
    (hr : y.started r) (htq : y.tid q = 0) (htr : y.tid r = 0) (hpid : y.pid q = y.pid r) :
    q = r := by
  -- a number goes to a slot that is not in use yet
  have hmark : ∀ {i b q}, x.birth i = some b → x.started q → q ≠ b.slot := by
    intro i b q hb hq
    have hembryo := hx.births.embryo i b hb
    exact hq.elim (fun h => ne_of_phase h hembryo nofun) fun h => ne_of_phase h hembryo nofun
  have hgone : ∀ {p q v}, v = .unused ∨ v = .embryo →
      update x.phase p v q = .alive ∨ update x.phase p v q = .zombie → q ≠ p ∧ x.started q := by
    intro p q v hv h
    rcases started_cases h with hq | ⟨-, hlive⟩
    · exact hq
    · rcases hv with rfl | rfl <;> rcases hlive with h | h <;> cases h
  cases h with
  | stop f hf => exact mainInj_frame hx (fun q hq => ⟨hq, rfl, rfl⟩) q r hq hr htq htr hpid
  | take i np kind hi hbi hnp hk =>
    refine mainInj_frame hx (fun q hq => ?_) q r hq hr htq htr hpid
    exact ⟨(hgone (Or.inr rfl) hq).2, rfl, rfl⟩
  | drop i b hbi hno =>
    refine mainInj_frame hx (fun q hq => ?_) q r hq hr htq htr hpid
    exact ⟨(hgone (Or.inl rfl) hq).2, rfl, rfl⟩
  | takePid i b hbi hk hn =>
    exact mainInj_frame hx (fun q hq => ⟨hq, rfl, rfl⟩) q r hq hr htq htr hpid
  | takeTid i b hbi hk hn =>
    exact mainInj_frame hx (fun q hq => ⟨hq, rfl, rfl⟩) q r hq hr htq htr hpid
  | forkPid i b n hbi hk hn =>
    refine mainInj_frame hx (fun q hq => ?_) q r hq hr htq htr hpid
    exact ⟨hq, Function.update_of_ne (hmark hbi hq) _ _, rfl⟩
  | threadPid i main b hbi hk hm =>
    refine mainInj_frame hx (fun q hq => ?_) q r hq hr htq htr hpid
    exact ⟨hq, Function.update_of_ne (hmark hbi hq) _ _, rfl⟩
  | forkTid i b hbi hk =>
    refine mainInj_frame hx (fun q hq => ?_) q r hq hr htq htr hpid
    exact ⟨hq, rfl, Function.update_of_ne (hmark hbi hq) _ _⟩
  | threadTid i b n hbi hk hn =>
    refine mainInj_frame hx (fun q hq => ?_) q r hq hr htq htr hpid
    exact ⟨hq, rfl, Function.update_of_ne (hmark hbi hq) _ _⟩
  | live i b hbi hhas hht =>
    cases hk : b.kind with
    | process =>
      have huniq := (hx.pids.forkPid i b hbi hk hhas).2
      rcases started_cases hq with ⟨hqb, hqs⟩ | ⟨rfl, -⟩
      · rcases started_cases hr with ⟨-, hrs⟩ | ⟨rfl, -⟩
        · exact hx.mainInj q r hqs hrs htq htr hpid
        · exact huniq q hpid
      · exact (huniq r hpid.symm).symm
    | thread =>
      have htid := hx.tids.threadTid i b hbi hk hht
      rcases started_cases hq with ⟨-, hqs⟩ | ⟨rfl, -⟩
      · rcases started_cases hr with ⟨-, hrs⟩ | ⟨rfl, -⟩
        · exact hx.mainInj q r hqs hrs htq htr hpid
        · exact absurd htr htid
      · exact absurd htq htid
  | kill i hi =>
    refine mainInj_frame hx (fun q hq => ?_) q r hq hr htq htr hpid
    unfold started at hq
    dsimp only at hq ⊢
    split_ifs at hq ⊢ with hm
    · rcases hq with hq | hq <;> cases hq
    · exact ⟨hq, rfl, rfl⟩
  | die i hi =>
    refine mainInj_frame hx (fun q hq => ?_) q r hq hr htq htr hpid
    rcases started_cases hq with ⟨-, hqs⟩ | ⟨rfl, -⟩
    · exact ⟨hqs, rfl, rfl⟩
    · exact ⟨Or.inl hi.alive, rfl, rfl⟩
  | bury p tid hz ht =>
    refine mainInj_frame hx (fun q hq => ?_) q r hq hr htq htr hpid
    obtain ⟨hqp, hqs⟩ := hgone (Or.inl rfl) hq
    exact ⟨hqs, Function.update_of_ne hqp _ _, Function.update_of_ne hqp _ _⟩

theorem base_step (hx : x.Base) (h : Step x y) : y.Base :=
  ⟨births_step hx h, pids_step hx h, tids_step hx h, taken_step hx h, mainInj_step hx h⟩

theorem base_steps (hx : x.Base) (h : Relation.ReflTransGen Step x y) : y.Base := by
  induction h with
  | refl => exact hx
  | tail _ hst ih => exact base_step ih hst

/-- The tid `n` was given, no slot has it any more and none is going to get it. -/
structure Forgotten (x : Ids) (n : Nat) : Prop where
  tid : ∀ q, x.tid q ≠ n
  lt : 0 < x.nexttid → (n : Int) < x.nexttid
  taken : ∀ i b, x.birth i = some b → b.kind = .thread → b.taken ≠ some (n : Int)

theorem Forgotten.frame {n : Nat} (hf : x.Forgotten n) (htid : ∀ q, y.tid q ≠ n)
    (hnext : Advances x.nexttid y.nexttid)
    (hbirth : ∀ i c v, y.birth i = some c → c.taken = some v →
      ∃ b, x.birth i = some b ∧ b.kind = c.kind ∧ b.taken = some v) : y.Forgotten n := by
  refine ⟨htid, fun hpos => ?_, fun i c hc hk hn => ?_⟩
  · obtain ⟨hm, hle⟩ := hnext.le hpos
    exact (hf.lt hm).trans_le hle
  · obtain ⟨b, hb, hkind, htaken⟩ := hbirth i c n hc hn
    exact hf.taken i b hb (hkind.trans hk) htaken

/-- A tid does not come back. -/
theorem forgotten_step {n : Nat} (hn : n ≠ 0) (hx : x.Base) (hf : x.Forgotten n) (h : Step x y) :
    y.Forgotten n := by
  have hnt := Advances.rfl hx.tids.max
  cases h with
  | stop f hf' =>
    refine hf.frame hf.tid hnt fun i c v hc hv => ?_
    rcases hf' i with hi | hi
    · exact ⟨c, hi.symm.trans hc, rfl, hv⟩
    · exact absurd (hi.symm.trans hc) nofun
  | take i np kind hi hbi hunused hk =>
    refine hf.frame hf.tid hnt fun j c v hc hv => ?_
    dsimp only at hc
    by_cases hj : j = i
    · rw [hj, Function.update_self] at hc
      cases hc
      cases hv
    · rw [Function.update_of_ne hj] at hc
      exact ⟨c, hc, rfl, hv⟩
  | drop i b hbi hno =>
    exact hf.frame hf.tid hnt fun j c v hc hv => ⟨c, (birth_end hc).2, rfl, hv⟩
  | takePid i b hbi hk hpos =>
    refine ⟨hf.tid, hf.lt, fun j c hc hkc hv => ?_⟩
    obtain ⟨hj, -⟩ | ⟨-, hkb, -⟩ := birth_take hbi hc hv
    · exact hf.taken j c hj hkc hv
    · exact absurd (hk.symm.trans (hkb.symm.trans hkc)) nofun
  | forkPid i b v hbi hk hv =>
    refine hf.frame hf.tid hnt fun j c w hc hw => ?_
    obtain ⟨d, hd, ⟨rfl, -⟩ | ⟨rfl, rfl, -⟩⟩ := birth_mark hbi hc
    · exact ⟨d, hd, rfl, hw⟩
    · cases hw
  | threadPid i main b hbi hk hm =>
    refine hf.frame hf.tid hnt fun j c w hc hw => ?_
    obtain ⟨d, hd, ⟨rfl, -⟩ | ⟨rfl, rfl, -⟩⟩ := birth_mark hbi hc <;> exact ⟨d, hd, rfl, hw⟩
  | forkTid i b hbi hk =>
    refine hf.frame (fun q => ?_) hnt fun j c w hc hw => ?_
    · dsimp only
      rw [Function.update_apply]
      split_ifs
      · exact hn.symm
      · exact hf.tid q
    · obtain ⟨d, hd, ⟨rfl, -⟩ | ⟨rfl, rfl, -⟩⟩ := birth_mark hbi hc <;> exact ⟨d, hd, rfl, hw⟩
  | takeTid i b hbi hk hpos =>
    have hlt := hf.lt hpos
    refine ⟨hf.tid, fun hpos' => hlt.trans (lt_nextInt hx.tids.max hpos'), fun j c hc hkc hv => ?_⟩
    obtain ⟨hj, -⟩ | ⟨hv, -, -⟩ := birth_take hbi hc hv
    · exact hf.taken j c hj hkc hv
    · exact hlt.ne hv
  | threadTid i b v hbi hk hv =>
    obtain ⟨hv0, hvmax, -⟩ := hx.taken.tid i b v hbi hk hv
    refine hf.frame (fun q => ?_) hnt fun j c w hc hw => ?_
    · dsimp only
      rw [Function.update_apply]
      split_ifs
      · intro hvn
        apply hf.taken i b hbi hk
        rw [hv, ← uint_of_taken hv0 hvmax, hvn]
      · exact hf.tid q
    · obtain ⟨d, hd, ⟨rfl, -⟩ | ⟨rfl, rfl, -⟩⟩ := birth_mark hbi hc
      · exact ⟨d, hd, rfl, hw⟩
      · cases hw
  | live i b hbi hhas hht =>
    exact hf.frame hf.tid hnt fun j c v hc hv => ⟨c, (birth_end hc).2, rfl, hv⟩
  | kill i hi =>
    refine hf.frame (fun q => ?_) hnt fun j c v hc hv => ⟨c, (birth_kill hc).2, rfl, hv⟩
    dsimp only
    split_ifs
    · exact hn.symm
    · exact hf.tid q
  | die i hi => exact hf.frame hf.tid hnt fun j c v hc hv => ⟨c, hc, rfl, hv⟩
  | bury p tid hp ht =>
    refine hf.frame (fun q => ?_) hnt fun j c v hc hv => ⟨c, hc, rfl, hv⟩
    dsimp only
    rw [Function.update_apply]
    split_ifs
    · rcases ht with ht | ht
      · rw [ht]
        exact hn.symm
      · rw [ht]
        exact hf.tid p
    · exact hf.tid q

theorem forgotten_steps {n : Nat} (hn : n ≠ 0) (hx : x.Base) (hf : x.Forgotten n)
    (h : Relation.ReflTransGen Step x y) : y.Forgotten n := by
  induction h with
  | refl => exact hf
  | tail hr hst ih => exact forgotten_step hn (base_steps hx hr) ih hst

/-- The pid `n` was given, and no process that is being set up has it or is going to get it. -/
structure Given (x : Ids) (n : Int) : Prop where
  lt : 0 < x.nextpid → n < x.nextpid
  pid : ∀ i b, x.birth i = some b → b.kind = .process → b.hasPid = true → x.pid b.slot ≠ n
  taken : ∀ i b, x.birth i = some b → b.kind = .process → b.taken ≠ some n

theorem Base.given (hx : x.Base) {q : Slot} (hq : x.started q) : x.Given (x.pid q) := by
  refine ⟨fun hpos => hx.pids.lt hpos q, fun i b hb hk hp heq => ?_, fun i b hb hk hn => ?_⟩
  · have hslot := (hx.pids.forkPid i b hb hk hp).2 q heq.symm
    have hembryo := hx.births.embryo i b hb
    rw [← hslot] at hembryo
    rcases hq with hq | hq <;> exact Phase.noConfusion (hq.symm.trans hembryo)
  · exact (hx.taken.pid i b _ hb hk hn).2.1 q rfl

theorem Given.frame {n : Int} (hg : x.Given n) (hnext : Advances x.nextpid y.nextpid)
    (hbirth : ∀ i c, y.birth i = some c → c.hasPid = false ∧ c.taken = none ∨
      ∃ b, x.birth i = some b ∧ b.slot = c.slot ∧ b.kind = c.kind ∧ b.hasPid = c.hasPid ∧
        (c.taken = none ∨ b.taken = c.taken) ∧ y.pid c.slot = x.pid c.slot) : y.Given n := by
  refine ⟨fun hpos => ?_, fun i c h hk hc => ?_, fun i c h hk hc => ?_⟩
  · obtain ⟨hm, hle⟩ := hnext.le hpos
    exact (hg.lt hm).trans_le hle
  · rcases hbirth i c h with ⟨hno, -⟩ | ⟨b, hb, hslot, hkind, hhas, -, hpid⟩
    · exact absurd (hno.symm.trans hc) nofun
    · rw [hpid, ← hslot]
      exact hg.pid i b hb (hkind.trans hk) (hhas.trans hc)
  · rcases hbirth i c h with ⟨-, hno⟩ | ⟨b, hb, -, hkind, -, hno | htaken, -⟩
    · exact absurd (hno.symm.trans hc) nofun
    · exact absurd (hno.symm.trans hc) nofun
    · exact hg.taken i b hb (hkind.trans hk) (htaken.trans hc)

/-- A pid does not come back either. -/
theorem given_step {n : Int} (hx : x.Base) (hg : x.Given n) (h : Step x y) : y.Given n := by
  have hnp := Advances.rfl hx.pids.max
  have hslot : ∀ {i j b c v}, x.birth i = some b → x.birth j = some c → j ≠ i →
      update x.pid b.slot v c.slot = x.pid c.slot := by
    intro i j b c v hb hc hji
    exact Function.update_of_ne (fun heq => hji (hx.births.unique _ _ _ _ hc hb heq)) _ _
  cases h with
  | stop f hf =>
    refine hg.frame hnp fun i c h => Or.inr ?_
    rcases hf i with hi | hi
    · exact ⟨c, hi.symm.trans h, rfl, rfl, rfl, Or.inr rfl, rfl⟩
    · exact absurd (hi.symm.trans h) nofun
  | take i np kind hi hbi hunused hk =>
    refine hg.frame hnp fun j c h => ?_
    dsimp only at h
    by_cases hj : j = i
    · rw [hj, Function.update_self] at h
      cases h
      exact Or.inl ⟨rfl, rfl⟩
    · rw [Function.update_of_ne hj] at h
      exact Or.inr ⟨c, h, rfl, rfl, rfl, Or.inr rfl, rfl⟩
  | drop i b hbi hno =>
    exact hg.frame hnp fun j c h => Or.inr ⟨c, (birth_end h).2, rfl, rfl, rfl, Or.inr rfl, rfl⟩
  | takePid i b hbi hk hpos =>
    have hlt := hg.lt hpos
    refine ⟨fun hpos' => hlt.trans (lt_nextInt hx.pids.max hpos'), fun j c h hkc hc => ?_,
      fun j c h hkc hc => ?_⟩
    · obtain ⟨d, hd, ⟨rfl, -⟩ | ⟨rfl, rfl, -⟩⟩ := birth_mark hbi h
      · exact hg.pid j d hd hkc hc
      · exact hg.pid j d hd hkc hc
    · obtain ⟨hj, -⟩ | ⟨hn, -, -⟩ := birth_take hbi h hc
      · exact hg.taken j c hj hkc hc
      · exact hlt.ne hn
  | forkPid i b v hbi hk hv =>
    refine ⟨hg.lt, fun j c h hkc hc => ?_, fun j c h hkc hc => ?_⟩
    · obtain ⟨d, hd, ⟨rfl, hji⟩ | ⟨rfl, rfl, rfl⟩⟩ := birth_mark hbi h
      · dsimp only
        rw [hslot hbi hd hji]
        exact hg.pid j d hd hkc hc
      · dsimp only
        rw [Function.update_self]
        intro hvn
        exact hg.taken j d hbi hk (by rw [hv, hvn])
    · obtain ⟨d, hd, ⟨rfl, -⟩ | ⟨rfl, rfl, -⟩⟩ := birth_mark hbi h
      · exact hg.taken j d hd hkc hc
      · cases hc
  | threadPid i main b hbi hk hm =>
    refine ⟨hg.lt, fun j c h hkc hc => ?_, fun j c h hkc hc => ?_⟩
    · obtain ⟨d, hd, ⟨rfl, hji⟩ | ⟨rfl, rfl, rfl⟩⟩ := birth_mark hbi h
      · dsimp only
        rw [hslot hbi hd hji]
        exact hg.pid j d hd hkc hc
      · exact absurd (hk.symm.trans hkc) nofun
    · obtain ⟨d, hd, ⟨rfl, -⟩ | ⟨rfl, rfl, -⟩⟩ := birth_mark hbi h <;>
        exact hg.taken j d hd hkc hc
  | forkTid i b hbi hk =>
    refine hg.frame hnp fun j c h => Or.inr ?_
    obtain ⟨d, hd, ⟨rfl, -⟩ | ⟨rfl, rfl, -⟩⟩ := birth_mark hbi h <;>
      exact ⟨d, hd, rfl, rfl, rfl, Or.inr rfl, rfl⟩
  | takeTid i b hbi hk hn =>
    refine ⟨hg.lt, fun j c h hkc hc => ?_, fun j c h hkc hc => ?_⟩
    · obtain ⟨d, hd, ⟨rfl, -⟩ | ⟨rfl, rfl, -⟩⟩ := birth_mark hbi h <;> exact hg.pid j d hd hkc hc
    · obtain ⟨hj, -⟩ | ⟨-, hkb, -⟩ := birth_take hbi h hc
      · exact hg.taken j c hj hkc hc
      · exact absurd (hk.symm.trans (hkb.symm.trans hkc)) nofun
  | threadTid i b v hbi hk hv =>
    refine hg.frame hnp fun j c h => Or.inr ?_
    obtain ⟨d, hd, ⟨rfl, -⟩ | ⟨rfl, rfl, -⟩⟩ := birth_mark hbi h
    · exact ⟨d, hd, rfl, rfl, rfl, Or.inr rfl, rfl⟩
    · exact ⟨d, hd, rfl, rfl, rfl, Or.inl rfl, rfl⟩
  | live i b hbi hhas hht =>
    exact hg.frame hnp fun j c h => Or.inr ⟨c, (birth_end h).2, rfl, rfl, rfl, Or.inr rfl, rfl⟩
  | kill i hi =>
    refine hg.frame hnp fun j c h => Or.inr ?_
    obtain ⟨hj, hc⟩ := birth_kill h
    exact ⟨c, hc, rfl, rfl, rfl, Or.inr rfl, if_neg (by rw [hx.mates_slot hi hj hc]; exact nofun)⟩
  | die i hi => exact hg.frame hnp fun j c h => Or.inr ⟨c, h, rfl, rfl, rfl, Or.inr rfl, rfl⟩
  | bury p tid hz ht =>
    refine hg.frame hnp fun j c h => Or.inr ⟨c, h, rfl, rfl, rfl, Or.inr rfl, ?_⟩
    exact Function.update_of_ne (ne_of_phase (hx.births.embryo j c h) hz nofun) _ _

theorem given_steps {n : Int} (hx : x.Base) (hg : x.Given n) (h : Relation.ReflTransGen Step x y) :
    y.Given n := by
  induction h with
  | refl => exact hg
  | tail hr hst ih => exact given_step (base_steps hx hr) ih hst

end Ids

end Xv6.Threads
