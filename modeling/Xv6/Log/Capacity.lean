import Mathlib.Algebra.Order.BigOperators.Group.Finset
import Mathlib.Data.Finset.Card
import Mathlib.Data.Fintype.EquivFin
import Xv6.Log.Protocol

/-!
# Whether the log has room (project3/log.c:207-227)

`begin_op` (log.c:125-140) reserves `MAXOPBLOCKS` blocks for each operation out of
`LOGSIZE`, and `log_write` (log.c:212) tests `log.lh.n` against `LOGSIZE` and against
`log.size - 1`, one block of the region being the header. With `log.size = LOGSIZE`
the reservations add up to one block more than the region has, and `log_write` panics
one block before that.
-/

namespace Xv6.Protocol
open Xv6.Transition

variable {P : Type*}

/-- The log never overflows: the panic of `log_write` is not reached, and the
entries have log blocks of their own behind the header. -/
structure LogCapacity (s : State P) : Prop where
  noPanic : s.panic ≠ some .tooBig
  nodup : s.log.lh.Nodup
  region : ∀ tail < s.log.lh.length,
    (s.log.start + tail + 1 : Int) < s.log.start + s.log.size

/-- `log_write` is entered, and adds an entry, only while one of the log blocks is
free. -/
def Fits [DecidableEq P] (s : State P) : Action P → Prop
  | .logWrite _ _ => (s.log.lh.length : Int) < s.log.size - 1
  | .run p => ∀ b, s.pc p = .logWrite b → b ∉ s.log.lh → (s.log.lh.length : Int) < s.log.size - 1
  | _ => True

/-! ### One step -/

section Step

variable [DecidableEq P] {s t : State P} {a : Action P}

theorem absorb_region (l : Log) (b : Nat) :
    (l.absorb b).size = l.size ∧ (l.absorb b).start = l.start := by
  simp only [Log.absorb]
  split_ifs <;> exact ⟨rfl, rfl⟩

theorem Effect.region (h : Effect s a t) :
    t.log.size = s.log.size ∧ t.log.start = s.log.start := by
  cases h with
  | absorb p b _ => exact absorb_region s.log b
  | endOp p _ =>
    unfold State.endOp
    dsimp only
    split <;> exact ⟨rfl, rfl⟩
  | _ => exact ⟨rfl, rfl⟩

theorem nodup_absorb {l : Log} (h : l.lh.Nodup) (b : Nat) : (l.absorb b).lh.Nodup := by
  rw [Log.absorb_lh]
  split_ifs with hb
  · exact h
  · rw [List.nodup_append]
    refine ⟨h, List.nodup_singleton b, ?_⟩
    intro x hx y hy hxy
    rw [List.mem_singleton.mp hy] at hxy
    exact hb (hxy ▸ hx)

omit [DecidableEq P] in
theorem writeCheck_iff (hsize : s.log.size = LOGSIZE) :
    s.log.writeCheck = some .tooBig ↔ ¬ (s.log.lh.length : Int) < s.log.size - 1 := by
  have hlog : LOGSIZE = 90 := rfl
  unfold Log.writeCheck
  constructor
  · intro h
    split_ifs at h
    · omega
    · cases h
  · intro h
    rw [if_pos (Or.inr (by omega))]

omit [DecidableEq P] in
theorem LogCapacity.of_eq (h : LogCapacity s) (hlh : t.log.lh = s.log.lh ∨ t.log.lh = [])
    (hsize : t.log.size = s.log.size) (hstart : t.log.start = s.log.start)
    (hpanic : t.panic = s.panic ∨ t.panic = some .committing) : LogCapacity t := by
  refine ⟨?_, ?_, ?_⟩
  · rcases hpanic with he | he
    · rw [he]
      exact h.noPanic
    · rw [he]
      exact fun hc => nomatch hc
  · rcases hlh with he | he
    · rw [he]
      exact h.nodup
    · rw [he]
      exact List.nodup_nil
  · rw [hsize, hstart]
    rcases hlh with he | he
    · rw [he]
      exact h.region
    · rw [he]
      intro tail ht
      exact absurd ht (Nat.not_lt_zero _)

theorem LogCapacity.endOp (h : LogCapacity s) (p : P) : LogCapacity (s.endOp p) := by
  unfold State.endOp
  dsimp only
  split
  · exact h.of_eq (Or.inl rfl) rfl rfl (Or.inr rfl)
  · exact h.of_eq (Or.inl rfl) rfl rfl (Or.inl rfl)
  · exact h.of_eq (Or.inl rfl) rfl rfl (Or.inl rfl)
  · exact h.of_eq (Or.inl rfl) rfl rfl (Or.inl rfl)

theorem LogCapacity.commit (h : LogCapacity s) (p : P) (ret : Option Nat) (st : Stage) :
    LogCapacity (s.commit p ret st) := by
  cases st with
  | enter =>
    simp only [State.commit]
    split_ifs
    · exact h.of_eq (Or.inl rfl) rfl rfl (Or.inl rfl)
    · exact h.of_eq (Or.inl rfl) rfl rfl (Or.inl rfl)
  | writeLog tail =>
    simp only [State.commit]
    split_ifs
    · exact h.of_eq (Or.inl rfl) rfl rfl (Or.inl rfl)
    · exact h.of_eq (Or.inl rfl) rfl rfl (Or.inl rfl)
  | writeHead => exact h.of_eq (Or.inl rfl) rfl rfl (Or.inl rfl)
  | installTrans tail =>
    simp only [State.commit]
    split_ifs
    · exact h.of_eq (Or.inl rfl) rfl rfl (Or.inl rfl)
    · exact h.of_eq (Or.inl rfl) rfl rfl (Or.inl rfl)
  | reset => exact h.of_eq (Or.inr rfl) rfl rfl (Or.inl rfl)
  | clearHead => exact h.of_eq (Or.inl rfl) rfl rfl (Or.inl rfl)

theorem LogCapacity.enterOp (h : LogCapacity s) (p : P) : LogCapacity (s.enterOp p) := by
  unfold State.enterOp
  split_ifs
  · exact h.of_eq (Or.inl rfl) rfl rfl (Or.inl rfl)
  · exact h.of_eq (Or.inl rfl) rfl rfl (Or.inl rfl)

theorem absorb_logCapacity_iff (h : LogCapacity s) (p : P) (b : Nat) :
    LogCapacity ({ s with log := s.log.absorb b }.setPc p .op) ↔
      (b ∉ s.log.lh → (s.log.lh.length : Int) < s.log.size - 1) := by
  have hr := absorb_region s.log b
  have hlh := Log.absorb_lh s.log b
  by_cases hb : b ∈ s.log.lh
  · rw [if_pos hb] at hlh
    exact iff_of_true (h.of_eq (Or.inl hlh) hr.1 hr.2 (Or.inl rfl)) fun hn => absurd hb hn
  · rw [if_neg hb] at hlh
    have hlen : (s.log.absorb b).lh.length = s.log.lh.length + 1 := by
      rw [hlh, List.length_append, List.length_singleton]
    constructor
    · intro ht _
      have := ht.region s.log.lh.length (by
        show _ < (s.log.absorb b).lh.length
        omega)
      rw [State.setPc_log, hr.1, hr.2] at this
      omega
    · intro hfit
      have := hfit hb
      refine ⟨h.noPanic, nodup_absorb h.nodup b, ?_⟩
      intro tail ht
      rw [State.setPc_log] at ht ⊢
      rw [hr.1, hr.2]
      rw [hlen] at ht
      omega

/-- A step keeps the log within its region exactly when it fits. -/
theorem step_logCapacity_iff (h : LogCapacity s) (hsize : s.log.size = LOGSIZE)
    (hs : step s a = some t) : LogCapacity t ↔ Fits s a := by
  unfold step at hs
  split_ifs at hs
  cases a with
  | logWrite p b =>
    dsimp only at hs
    split_ifs at hs with hp
    cases hs
    have hiff := writeCheck_iff hsize
    unfold State.logWrite
    cases hw : s.log.writeCheck with
    | none =>
      rw [hw] at hiff
      have hfits : Fits s (.logWrite p b) := not_not.mp (mt hiff.mpr (fun hc => nomatch hc))
      exact iff_of_true (h.of_eq (Or.inl rfl) rfl rfl (Or.inl rfl)) hfits
    | some e =>
      constructor
      · intro ht
        by_contra hfits
        have htoo := hiff.mpr hfits
        rw [htoo] at hw
        cases hw
        exact ht.noPanic rfl
      · intro hfits
        have hne : e ≠ .tooBig := by
          rintro rfl
          exact hiff.mp hw hfits
        refine ⟨?_, h.nodup, h.region⟩
        intro hc
        exact hne (Option.some.inj hc)
  | run p =>
    have htriv : (∀ b, s.pc p ≠ .logWrite b) → Fits s (.run p) :=
      fun hne b hb => absurd hb (hne b)
    dsimp only [State.run] at hs
    split at hs
    · next hp =>
      cases hs
      exact iff_of_true (h.enterOp p) (htriv fun b => by rw [hp]; exact Pc.noConfusion)
    · next b hp =>
      cases hs
      rw [absorb_logCapacity_iff h p b]
      constructor
      · intro hfit c hc
        rw [hp] at hc
        cases hc
        exact hfit
      · intro hfits
        exact hfits b hp
    · next ret hp =>
      cases hs
      exact iff_of_true (h.of_eq (Or.inl rfl) rfl rfl (Or.inl rfl))
        (htriv fun b => by rw [hp]; exact Pc.noConfusion)
    · next ret st hp =>
      cases hs
      exact iff_of_true (h.commit p ret st) (htriv fun b => by rw [hp]; exact Pc.noConfusion)
    · next ret hp =>
      cases hs
      exact iff_of_true (h.of_eq (Or.inl rfl) rfl rfl (Or.inl rfl))
        (htriv fun b => by rw [hp]; exact Pc.noConfusion)
    · cases hs
  | beginOp p =>
    dsimp only at hs
    split_ifs at hs
    cases hs
    exact iff_of_true (h.of_eq (Or.inl rfl) rfl rfl (Or.inl rfl)) trivial
  | endOp p =>
    dsimp only at hs
    split_ifs at hs
    cases hs
    exact iff_of_true (h.endOp p) trivial
  | sync p =>
    dsimp only at hs
    split_ifs at hs
    cases hs
    exact iff_of_true (h.of_eq (Or.inl rfl) rfl rfl (Or.inl rfl)) trivial
  | kill p =>
    dsimp only at hs
    split_ifs at hs
    cases hs
    exact iff_of_true (h.of_eq (Or.inl rfl) rfl rfl (Or.inl rfl)) trivial

end Step

/-! ### The reservations -/

/-- The state with, for each process, the blocks that it has passed to `log_write`
since its `begin_op`. -/
structure Tracked (P : Type*) where
  sys : State P
  written : P → Finset Nat

namespace Tracked

variable [DecidableEq P]

/-- How a step changes `written`. -/
def track (s : Tracked P) : Action P → P → Finset Nat
  | .logWrite p b => Function.update s.written p (insert b (s.written p))
  | .run p => if s.sys.pc p = .beginOp then Function.update s.written p ∅ else s.written
  | _ => s.written

def step (s : Tracked P) (a : Action P) : Option (Tracked P) :=
  (Protocol.step s.sys a).map fun t => ⟨t, s.track a⟩

def init (P : Type*) (start : Nat) : Tracked P := ⟨Protocol.init P start LOGSIZE, fun _ => ∅⟩

/-- Each operation passes at most `MAXOPBLOCKS` distinct blocks to `log_write`. -/
def Budget (s : Tracked P) : Action P → Prop
  | .logWrite p b => (insert b (s.written p)).card ≤ MAXOPBLOCKS
  | _ => True

/-- The most blocks that the log can have before the operations of the processes `F` end: what
is logged or passed to `log_write`, and what is left of their reservations. -/
def reserved (s : Tracked P) (F : Finset P) : Nat :=
  (s.sys.log.lh.toFinset ∪ F.biUnion s.written).card + ∑ q ∈ F, (MAXOPBLOCKS - (s.written q).card)

/-- The reservations stay within `k` blocks. (The panic of `end_op` leaves `outstanding` one too
low.) -/
structure Reserved (k : Nat) (s : Tracked P) : Prop where
  ops : ∃ F : Finset P, (∀ p, p ∈ F ↔ (s.sys.pc p).inOp) ∧
    (s.sys.panic = none → (F.card : Int) = s.sys.log.outstanding) ∧ s.reserved F ≤ k
  budget : ∀ p, (s.written p).card ≤ MAXOPBLOCKS
  writing : ∀ p b, s.sys.pc p = .logWrite b → b ∈ s.written p
  nodup : s.sys.log.lh.Nodup

omit [DecidableEq P] in
theorem length_le_reserved {s : Tracked P} (hnodup : s.sys.log.lh.Nodup) (F : Finset P) :
    s.sys.log.lh.length ≤ s.reserved F := by
  rw [← List.toFinset_card_of_nodup hnodup]
  exact (Finset.card_le_card Finset.subset_union_left).trans (Nat.le_add_right _ _)

/-- `begin_op` admits an operation only while the reservations and its own stay within `k`. -/
def Admits (k : Nat) (s : Tracked P) : Action P → Prop
  | .run p => s.sys.pc p = .beginOp → ¬ s.sys.log.blocked →
      ∃ F : Finset P, (∀ q, q ∈ F ↔ (s.sys.pc q).inOp) ∧ s.reserved F + MAXOPBLOCKS ≤ k
  | _ => True

omit [DecidableEq P] in
theorem mem_absorb {l : Log} {b x : Nat} : x ∈ (l.absorb b).lh ↔ x ∈ l.lh ∨ x = b := by
  rw [Log.absorb_lh]
  split_ifs with hb
  · constructor
    · exact Or.inl
    · rintro (hx | rfl)
      · exact hx
      · exact hb
  · rw [List.mem_append, List.mem_singleton]

theorem reserved_update (s : Tracked P) {F : Finset P} {p : P} {b : Nat} (hpF : p ∈ F)
    (hold : b ∉ s.written p) (hb : (insert b (s.written p)).card ≤ MAXOPBLOCKS) {u : State P}
    (hlog : u.log = s.sys.log) :
    reserved ⟨u, Function.update s.written p (insert b (s.written p))⟩ F + 1 =
      (insert b (s.sys.log.lh.toFinset ∪ F.biUnion s.written)).card +
        ∑ q ∈ F, (MAXOPBLOCKS - (s.written q).card) := by
  have hcard : (insert b (s.written p)).card = (s.written p).card + 1 :=
    Finset.card_insert_of_notMem hold
  have hunion : u.log.lh.toFinset ∪
      F.biUnion (Function.update s.written p (insert b (s.written p))) =
      insert b (s.sys.log.lh.toFinset ∪ F.biUnion s.written) := by
    rw [hlog]
    ext x
    simp only [Finset.mem_insert, Finset.mem_union, Finset.mem_biUnion, Function.update_apply]
    constructor
    · rintro (hx | ⟨q, hq, hx⟩)
      · exact Or.inr (Or.inl hx)
      · split_ifs at hx with hqp
        · rcases Finset.mem_insert.mp hx with hx | hx
          · exact Or.inl hx
          · exact Or.inr (Or.inr ⟨p, hpF, hx⟩)
        · exact Or.inr (Or.inr ⟨q, hq, hx⟩)
    · rintro (hx | hx | ⟨q, hq, hx⟩)
      · exact Or.inr ⟨p, hpF, by rw [if_pos rfl, hx]; exact Finset.mem_insert_self _ _⟩
      · exact Or.inl hx
      · refine Or.inr ⟨q, hq, ?_⟩
        split_ifs with hqp
        · rw [← hqp]
          exact Finset.mem_insert_of_mem hx
        · exact hx
  have hrest : ∑ q ∈ F.erase p, (MAXOPBLOCKS -
        (Function.update s.written p (insert b (s.written p)) q).card) =
      ∑ q ∈ F.erase p, (MAXOPBLOCKS - (s.written q).card) :=
    Finset.sum_congr rfl fun q hq => by
      rw [Function.update_of_ne (Finset.ne_of_mem_erase hq)]
  have hnew := Finset.add_sum_erase F (fun q => MAXOPBLOCKS -
    (Function.update s.written p (insert b (s.written p)) q).card) hpF
  have hbefore := Finset.add_sum_erase F (fun q => MAXOPBLOCKS - (s.written q).card) hpF
  rw [hrest, Function.update_self, hcard] at hnew
  unfold reserved
  dsimp only
  rw [hunion]
  omega

/-- A block that an operation passes to `log_write` was reserved. -/
theorem reserved_insert (s : Tracked P) {F : Finset P} {p : P} {b : Nat} (hpF : p ∈ F)
    (hb : (insert b (s.written p)).card ≤ MAXOPBLOCKS) {u : State P} (hlog : u.log = s.sys.log) :
    reserved ⟨u, Function.update s.written p (insert b (s.written p))⟩ F ≤ s.reserved F := by
  by_cases hold : b ∈ s.written p
  · rw [Finset.insert_eq_of_mem hold, Function.update_eq_self]
    unfold reserved
    rw [hlog]
  · have heq := reserved_update s hpF hold hb hlog
    have hgrow := Finset.card_insert_le b (s.sys.log.lh.toFinset ∪ F.biUnion s.written)
    unfold reserved at heq ⊢
    omega

/-- A block that nobody has written uses the reservation up. -/
theorem reserved_fresh (s : Tracked P) {F : Finset P} {p : P} {b : Nat} (hpF : p ∈ F)
    (hb : (insert b (s.written p)).card ≤ MAXOPBLOCKS)
    (hfresh : b ∉ s.sys.log.lh.toFinset ∪ F.biUnion s.written) :
    reserved ⟨s.sys.setPc p (.logWrite b), Function.update s.written p (insert b (s.written p))⟩ F =
      s.reserved F := by
  have hold : b ∉ s.written p := fun hc =>
    hfresh (Finset.mem_union_right _ (Finset.mem_biUnion.mpr ⟨p, hpF, hc⟩))
  have heq := reserved_update s hpF hold hb (u := s.sys.setPc p (.logWrite b)) rfl
  rw [Finset.card_insert_of_notMem hfresh] at heq
  unfold reserved at heq ⊢
  omega

theorem reserved_admission (s : Tracked P) {F : Finset P} {p : P} (hpF : p ∉ F) :
    reserved ⟨{ s.sys with log := { s.sys.log with outstanding := s.sys.log.outstanding + 1 } }.setPc
      p .op, Function.update s.written p ∅⟩ (insert p F) = s.reserved F + MAXOPBLOCKS := by
  have hne : ∀ q ∈ F, Function.update s.written p ∅ q = s.written q := by
    intro q hq
    apply Function.update_of_ne
    rintro rfl
    exact hpF hq
  have hunion : F.biUnion (Function.update s.written p ∅) = F.biUnion s.written :=
    Finset.biUnion_congr rfl hne
  have hsum : ∑ q ∈ F, (MAXOPBLOCKS - (Function.update s.written p ∅ q).card) =
      ∑ q ∈ F, (MAXOPBLOCKS - (s.written q).card) :=
    Finset.sum_congr rfl fun q hq => by rw [hne q hq]
  unfold reserved
  dsimp only
  rw [Finset.biUnion_insert, Finset.sum_insert hpF, hunion, hsum, Function.update_self,
    Finset.empty_union, Finset.card_empty, Nat.sub_zero, Nat.add_comm MAXOPBLOCKS, ← Nat.add_assoc]
  rfl

namespace Reserved

variable {k : Nat} {s t : Tracked P} {p : P}

omit [DecidableEq P] in
theorem init (start : Nat) : Reserved k (init P start) := by
  refine ⟨⟨∅, ?_, fun _ => rfl, ?_⟩, fun _ => Nat.zero_le _, ?_, List.nodup_nil⟩
  · intro p
    simp [Tracked.init, Protocol.init, Pc.inOp]
  · simp [reserved, Tracked.init, Protocol.init, initlog]
  · intro p b hp
    cases hp

omit [DecidableEq P] in
/-- The operations and their blocks stay the same, and the log keeps its entries or loses them
all. -/
theorem congr (h : Reserved k s) (hop : ∀ q, (t.sys.pc q).inOp = (s.sys.pc q).inOp)
    (hout : t.sys.log.outstanding = s.sys.log.outstanding)
    (hpanic : t.sys.panic = none → s.sys.panic = none)
    (hlh : t.sys.log.lh = s.sys.log.lh ∨ t.sys.log.lh = [])
    (hw : ∀ q, (s.sys.pc q).inOp → t.written q = s.written q)
    (hb : ∀ q, (t.written q).card ≤ MAXOPBLOCKS)
    (hwr : ∀ q b, t.sys.pc q = .logWrite b → b ∈ t.written q) : Reserved k t := by
  obtain ⟨F, hF, hcard, hle⟩ := h.ops
  have hwF : ∀ q ∈ F, t.written q = s.written q := fun q hq => hw q ((hF q).mp hq)
  refine ⟨⟨F, ?_, ?_, ?_⟩, hb, hwr, ?_⟩
  · intro q
    rw [hF, hop]
  · intro hn
    rw [hcard (hpanic hn), hout]
  · refine le_trans ?_ hle
    have hlog : t.sys.log.lh.toFinset ⊆ s.sys.log.lh.toFinset := by
      rcases hlh with he | he
      · rw [he]
      · rw [he]
        exact Finset.empty_subset _
    have hunion : F.biUnion t.written = F.biUnion s.written := Finset.biUnion_congr rfl hwF
    have hsum : ∑ q ∈ F, (MAXOPBLOCKS - (t.written q).card) =
        ∑ q ∈ F, (MAXOPBLOCKS - (s.written q).card) :=
      Finset.sum_congr rfl fun q hq => by rw [hwF q hq]
    unfold reserved
    rw [hunion, hsum]
    exact Nat.add_le_add_right (Finset.card_le_card (Finset.union_subset_union_left hlog)) _
  · rcases hlh with he | he
    · rw [he]
      exact h.nodup
    · rw [he]
      exact List.nodup_nil

/-- A process moves on, inside or outside its operation as before. -/
theorem moveOf (h : Reserved k s) {u : State P} {k' : Pc}
    (hpc : ∀ q, (u.pc q).inOp = (s.sys.pc q).inOp)
    (hwr : ∀ q b, u.pc q = .logWrite b → s.sys.pc q = .logWrite b)
    (hop : k'.inOp = (s.sys.pc p).inOp) (hk : ∀ b, k' ≠ .logWrite b)
    (hout : u.log.outstanding = s.sys.log.outstanding) (hpanic : u.panic = s.sys.panic)
    (hlh : u.log.lh = s.sys.log.lh ∨ u.log.lh = []) : Reserved k ⟨u.setPc p k', s.written⟩ := by
  refine h.congr ?_ hout ?_ hlh (fun _ _ => rfl) h.budget ?_
  · intro q
    rw [State.setPc_pc]
    split_ifs with hq
    · rw [hq, hop]
    · exact hpc q
  · intro hn
    rw [← hpanic]
    exact hn
  · intro q b hq
    rw [State.setPc_pc] at hq
    split_ifs at hq
    · exact absurd hq (hk b)
    · exact h.writing q b (hwr q b hq)

theorem move (h : Reserved k s) {k' : Pc} (hop : k'.inOp = (s.sys.pc p).inOp)
    (hk : ∀ b, k' ≠ .logWrite b) : Reserved k ⟨s.sys.setPc p k', s.written⟩ :=
  h.moveOf (fun _ => rfl) (fun _ _ hq => hq) hop hk rfl rfl (Or.inl rfl)

theorem sleep (h : Reserved k s) (hp : s.sys.pc p = .beginOp) :
    Reserved k ⟨s.sys.setPc p .sleeping, Function.update s.written p ∅⟩ := by
  refine h.congr ?_ rfl id (Or.inl rfl) ?_ ?_ ?_
  · intro q
    rw [State.setPc_pc]
    split_ifs with hq
    · rw [hq, hp]
      rfl
    · rfl
  · intro q hq
    dsimp only
    rw [Function.update_apply]
    split_ifs with hqp
    · rw [hqp, hp] at hq
      cases hq
    · rfl
  · intro q
    dsimp only
    rw [Function.update_apply]
    split_ifs
    · exact Nat.zero_le _
    · exact h.budget q
  · intro q b hq
    rw [State.setPc_pc] at hq
    split_ifs at hq with hqp
    dsimp only
    rw [Function.update_apply, if_neg hqp]
    exact h.writing q b hq

theorem commit (h : Reserved k s) {ret : Option Nat} {st : Stage} (hp : s.sys.pc p = .commit ret st) :
    Reserved k ⟨s.sys.commit p ret st, s.written⟩ := by
  have hmove : ∀ k', k'.inOp = false → (∀ b, k' ≠ .logWrite b) →
      Reserved k ⟨s.sys.setPc p k', s.written⟩ := by
    intro k' hk' hnw
    refine h.move ?_ hnw
    rw [hk', hp]
    rfl
  cases st with
  | enter =>
    simp only [State.commit]
    split_ifs
    · exact hmove _ rfl (by simp)
    · exact hmove _ rfl (by simp)
  | writeLog tail =>
    simp only [State.commit]
    split_ifs
    · exact hmove _ rfl (by simp)
    · exact hmove _ rfl (by simp)
  | writeHead => exact hmove _ rfl (by simp)
  | installTrans tail =>
    simp only [State.commit]
    split_ifs
    · exact hmove _ rfl (by simp)
    · exact hmove _ rfl (by simp)
  | reset =>
    exact h.moveOf (u := { s.sys with log := { s.sys.log with lh := [] } }) (fun _ => rfl)
      (fun _ _ hq => hq) (by rw [hp]; rfl) (fun _ => Pc.noConfusion) rfl rfl (Or.inr rfl)
  | clearHead => exact hmove _ rfl (by simp)

theorem finish (h : Reserved k s) {ret : Option Nat} (hp : s.sys.pc p = .finish ret) :
    Reserved k ⟨s.sys.finish p, s.written⟩ := by
  refine h.moveOf (u := State.wakeup _) ?_ ?_ (by rw [hp]; rfl) (fun _ => Pc.noConfusion) rfl rfl
    (Or.inl rfl)
  · exact State.wakeup_keeps rfl _
  · intro q b hq
    rw [State.wakeup_pc] at hq
    split_ifs at hq
    exact hq

/-- `log_write` is entered: a block that is new comes out of the reservation. -/
theorem logWrite (h : Reserved k s) {b : Nat} (hp : s.sys.pc p = .op)
    (hb : (insert b (s.written p)).card ≤ MAXOPBLOCKS) :
    Reserved k ⟨s.sys.logWrite p b, Function.update s.written p (insert b (s.written p))⟩ := by
  obtain ⟨F, hF, hcard, hle⟩ := h.ops
  have hpF : p ∈ F := by
    rw [hF, hp]
    rfl
  have hsame : (s.sys.logWrite p b).log = s.sys.log ∧
      ((s.sys.logWrite p b).panic = none → s.sys.panic = none) ∧
      ∀ q, ((s.sys.logWrite p b).pc q).inOp = (s.sys.pc q).inOp := by
    unfold State.logWrite
    split
    · exact ⟨rfl, (fun hn => by cases hn), fun _ => rfl⟩
    · refine ⟨rfl, id, fun q => ?_⟩
      rw [State.setPc_pc]
      split_ifs with hq
      · rw [hq, hp]
        rfl
      · rfl
  refine ⟨⟨F, ?_, ?_, ?_⟩, ?_, ?_, ?_⟩
  · intro q
    rw [hF, hsame.2.2]
  · intro hn
    rw [hcard (hsame.2.1 hn), hsame.1]
  · exact (reserved_insert s hpF hb hsame.1).trans hle
  · intro q
    dsimp only
    rw [Function.update_apply]
    split_ifs
    · exact hb
    · exact h.budget q
  · intro q c hq
    dsimp only at hq ⊢
    rw [Function.update_apply]
    by_cases hqp : q = p
    · rw [if_pos hqp]
      unfold State.logWrite at hq
      split at hq
      · rw [hqp, hp] at hq
        cases hq
      · rw [State.setPc_pc, if_pos hqp] at hq
        cases hq
        exact Finset.mem_insert_self _ _
    · rw [if_neg hqp]
      apply h.writing q c
      unfold State.logWrite at hq
      split at hq
      · exact hq
      · rw [State.setPc_pc, if_neg hqp] at hq
        exact hq
  · dsimp only
    rw [hsame.1]
    exact h.nodup

/-- The block that is added was counted when `log_write` was entered. -/
theorem absorb (h : Reserved k s) {b : Nat} (hp : s.sys.pc p = .logWrite b) :
    Reserved k ⟨{ s.sys with log := s.sys.log.absorb b }.setPc p .op, s.written⟩ := by
  obtain ⟨F, hF, hcard, hle⟩ := h.ops
  have hop : ∀ q, (({ s.sys with log := s.sys.log.absorb b }.setPc p .op).pc q).inOp =
      (s.sys.pc q).inOp := by
    intro q
    rw [State.setPc_pc]
    split_ifs with hq
    · rw [hq, hp]
      rfl
    · rfl
  have hmem : b ∈ F.biUnion s.written := by
    rw [Finset.mem_biUnion]
    exact ⟨p, (hF p).mpr (by rw [hp]; rfl), h.writing p b hp⟩
  refine ⟨⟨F, ?_, ?_, ?_⟩, h.budget, ?_, nodup_absorb h.nodup b⟩
  · intro q
    rw [hF, hop]
  · intro hn
    rw [hcard hn]
    exact (Log.absorb_outstanding s.sys.log b).symm
  · have hsub : (s.sys.log.absorb b).lh.toFinset ∪ F.biUnion s.written ⊆
        s.sys.log.lh.toFinset ∪ F.biUnion s.written := by
      intro x hx
      rw [Finset.mem_union, List.mem_toFinset, mem_absorb] at hx
      rw [Finset.mem_union, List.mem_toFinset]
      rcases hx with (hx | rfl) | hx
      · exact Or.inl hx
      · exact Or.inr hmem
      · exact Or.inr hx
    exact (Nat.add_le_add_right (Finset.card_le_card hsub) _).trans hle
  · intro q c hq
    rw [State.setPc_pc] at hq
    split_ifs at hq
    exact h.writing q c hq

/-- `begin_op` admits an operation within the reservations. -/
theorem admission (h : Reserved k s) (hp : s.sys.pc p = .beginOp) {F : Finset P}
    (hF : ∀ q, q ∈ F ↔ (s.sys.pc q).inOp) {m : Nat} (hk : s.reserved F + MAXOPBLOCKS ≤ m) :
    Reserved m ⟨{ s.sys with log := { s.sys.log with outstanding := s.sys.log.outstanding + 1 } }.setPc
      p .op, Function.update s.written p ∅⟩ := by
  obtain ⟨G, hG, hcard, -⟩ := h.ops
  have hGF : G = F := Finset.ext fun q => by rw [hG, hF]
  rw [hGF] at hcard
  have hpF : p ∉ F := by
    rw [hF, hp]
    exact Bool.noConfusion
  refine ⟨⟨insert p F, ?_, ?_, ?_⟩, ?_, ?_, h.nodup⟩
  · intro q
    rw [Finset.mem_insert, hF, State.setPc_pc]
    split_ifs with hq
    · simp [hq, Pc.inOp]
    · simp [hq]
  · intro hn
    rw [Finset.card_insert_of_notMem hpF]
    show ((F.card + 1 : Nat) : Int) = s.sys.log.outstanding + 1
    have := hcard hn
    omega
  · exact (reserved_admission s hpF).le.trans hk
  · intro q
    dsimp only
    rw [Function.update_apply]
    split_ifs
    · exact Nat.zero_le _
    · exact h.budget q
  · intro q b hq
    rw [State.setPc_pc] at hq
    split_ifs at hq with hqp
    dsimp only
    rw [Function.update_apply, if_neg hqp]
    exact h.writing q b hq

/-- An operation that ends gives back what is left of its reservation. -/
theorem ends (h : Reserved k s) (hp : s.sys.pc p = .op) (hn : s.sys.panic = none) {u : State P}
    (hop : ∀ q, (u.pc q).inOp = if q = p then false else (s.sys.pc q).inOp)
    (hout : u.log.outstanding = s.sys.log.outstanding - 1) (hlh : u.log.lh = s.sys.log.lh)
    (hwr : ∀ q b, u.pc q = .logWrite b → s.sys.pc q = .logWrite b) :
    Reserved k ⟨u, s.written⟩ := by
  obtain ⟨F, hF, hcard, hle⟩ := h.ops
  have hpF : p ∈ F := by
    rw [hF, hp]
    rfl
  have herase := Finset.card_erase_add_one hpF
  refine ⟨⟨F.erase p, ?_, ?_, ?_⟩, h.budget, fun q b hq => h.writing q b (hwr q b hq), ?_⟩
  · intro q
    rw [Finset.mem_erase, hF, hop]
    split_ifs with hq
    · simp [hq]
    · simp [hq]
  · intro _
    have := hcard hn
    rw [hout]
    omega
  · refine le_trans ?_ hle
    have hsub := Finset.erase_subset p F
    have hunion := Finset.biUnion_subset_biUnion_of_subset_left s.written hsub
    unfold reserved
    dsimp only
    rw [hlh]
    exact Nat.add_le_add (Finset.card_le_card (Finset.union_subset_union_right hunion))
      (Finset.sum_le_sum_of_subset hsub)
  · rw [hlh]
    exact h.nodup

theorem endOp (h : Reserved k s) (hp : s.sys.pc p = .op) (hn : s.sys.panic = none) :
    Reserved k ⟨s.sys.endOp p, s.written⟩ := by
  have hset : ∀ {k' : Pc} (u : State P), k'.inOp = false → (∀ b, k' ≠ .logWrite b) →
      (∀ q, (u.pc q).inOp = (s.sys.pc q).inOp) →
      (∀ q b, u.pc q = .logWrite b → s.sys.pc q = .logWrite b) →
      u.log = s.sys.log.ended → Reserved k ⟨u.setPc p k', s.written⟩ := by
    intro k' u hk' hnw hop hwr hlog
    refine h.ends hp hn ?_ ?_ ?_ ?_
    · intro q
      rw [State.setPc_pc]
      split_ifs with hq
      · exact hk'
      · exact hop q
    · rw [State.setPc_log, hlog]
      rfl
    · rw [State.setPc_log, hlog]
      rfl
    · intro q b hq
      rw [State.setPc_pc] at hq
      split_ifs at hq
      · exact absurd hq (hnw b)
      · exact hwr q b hq
  unfold State.endOp
  dsimp only
  split
  · obtain ⟨F, hF, -, hle⟩ := h.ops
    refine ⟨⟨F, hF, ?_, hle⟩, h.budget, h.writing, h.nodup⟩
    intro hn
    cases hn
  · refine hset (State.wakeup _) rfl (fun _ => Pc.noConfusion) ?_ ?_ rfl
    · exact State.wakeup_keeps rfl _
    · intro q b hq
      rw [State.wakeup_pc] at hq
      split_ifs at hq
      exact hq
  · exact hset _ rfl (fun _ => Pc.noConfusion) (fun _ => rfl) (fun _ _ hq => hq) rfl
  · exact hset _ rfl (fun _ => Pc.noConfusion) (fun _ => rfl) (fun _ _ hq => hq) rfl

theorem step (h : Reserved k s) {a : Action P} (hb : s.Budget a) (hk : s.Admits k a)
    (hs : s.step a = some t) : Reserved k t := by
  obtain ⟨u, hu, rfl⟩ := Option.map_eq_some_iff.mp hs
  unfold Protocol.step at hu
  split_ifs at hu with hpanic
  have hn : s.sys.panic = none := by simpa using hpanic
  cases a with
  | beginOp p =>
    dsimp only at hu
    split_ifs at hu with hp
    cases hu
    exact h.move (by rw [hp]; rfl) fun _ => Pc.noConfusion
  | logWrite p b =>
    dsimp only at hu
    split_ifs at hu with hp
    cases hu
    exact h.logWrite hp hb
  | endOp p =>
    dsimp only at hu
    split_ifs at hu with hp
    cases hu
    exact h.endOp hp hn
  | sync p =>
    dsimp only at hu
    split_ifs at hu with hp
    cases hu
    exact h.move (by rw [hp]; rfl) fun _ => Pc.noConfusion
  | kill p =>
    dsimp only at hu
    split_ifs at hu with hp
    cases hu
    exact h.move (by rw [hp]; rfl) fun _ => Pc.noConfusion
  | run p =>
    dsimp only [State.run] at hu
    split at hu
    · next hp =>
      cases hu
      simp only [track, if_pos hp]
      unfold State.enterOp
      split_ifs with hblocked
      · exact h.sleep hp
      · obtain ⟨F, hF, hle⟩ := hk hp hblocked
        exact h.admission hp hF hle
    · next b hp =>
      cases hu
      have ht : s.track (.run p) = s.written := if_neg (by rw [hp]; exact Pc.noConfusion)
      rw [ht]
      exact h.absorb hp
    · next ret hp =>
      cases hu
      have ht : s.track (.run p) = s.written := if_neg (by rw [hp]; exact Pc.noConfusion)
      rw [ht]
      exact h.moveOf (u := { s.sys with log := { s.sys.log with committing := true } }) (fun _ => rfl)
        (fun _ _ hq => hq) (by rw [hp]; rfl) (fun _ => Pc.noConfusion) rfl rfl (Or.inl rfl)
    · next ret st hp =>
      cases hu
      have ht : s.track (.run p) = s.written := if_neg (by rw [hp]; exact Pc.noConfusion)
      rw [ht]
      exact h.commit hp
    · next ret hp =>
      cases hu
      have ht : s.track (.run p) = s.written := if_neg (by rw [hp]; exact Pc.noConfusion)
      rw [ht]
      exact h.finish hp
    · cases hu

omit [DecidableEq P] in
theorem le_length {k : Nat} {s : Tracked P} (h : Reserved k s) (F : Finset P) :
    s.reserved F ≤ s.sys.log.lh.length + F.card * MAXOPBLOCKS := by
  have hunion : (s.sys.log.lh.toFinset ∪ F.biUnion s.written).card ≤
      s.sys.log.lh.length + ∑ q ∈ F, (s.written q).card :=
    (Finset.card_union_le _ _).trans
      (Nat.add_le_add (List.toFinset_card_le _) Finset.card_biUnion_le)
  have hsum : ∑ q ∈ F, (s.written q).card + ∑ q ∈ F, (MAXOPBLOCKS - (s.written q).card) =
      F.card * MAXOPBLOCKS := by
    rw [← Finset.sum_add_distrib]
    exact Finset.sum_const_nat fun q _ => Nat.add_sub_of_le (h.budget q)
  unfold reserved
  omega

omit [DecidableEq P] in
/-- So a test of `begin_op` against `k` keeps them within `k`. -/
theorem admits {k m : Nat} {s : Tracked P} (h : Reserved k s) (hn : s.sys.panic = none)
    (hm : (s.sys.log.lh.length : Int) + (s.sys.log.outstanding + 1) * MAXOPBLOCKS ≤ m)
    (a : Action P) : s.Admits m a := by
  cases a with
  | run p =>
    intro _ _
    obtain ⟨F, hF, hcard, -⟩ := h.ops
    have hle := h.le_length F
    have hmax : MAXOPBLOCKS = 30 := rfl
    refine ⟨F, hF, ?_⟩
    rw [← hcard hn] at hm
    rw [hmax] at hm hle ⊢
    omega
  | _ => trivial

end Reserved

/-- Whatever the operations do within their budget, at most `LOGSIZE` blocks are
logged. -/
theorem reserved_of_reach {s : Tracked P} {start : Nat}
    (hr : Reach step Budget (init P start) s) : Reserved LOGSIZE s := by
  refine hr.invariant (Reserved.init start) ?_
  intro u a v hu hb hs
  cases a with
  | run p =>
    refine hu.step hb ?_ hs
    intro hp hblocked
    obtain ⟨w, hw, -⟩ := Option.map_eq_some_iff.mp hs
    have hroom := not_lt.mp (mt Or.inr hblocked)
    exact hu.admits (step_effect hw).1 hroom (.run p) hp hblocked
  | _ => exact hu.step hb trivial hs

omit [DecidableEq P] in
theorem Reserved.length_le {k : Nat} {s : Tracked P} (h : Reserved k s) :
    s.sys.log.lh.length ≤ k := by
  obtain ⟨F, -, -, hle⟩ := h.ops
  exact (length_le_reserved h.nodup F).trans hle

theorem length_le_of_reach {s : Tracked P} {start : Nat}
    (hr : Reach step Budget (init P start) s) : s.sys.log.lh.length ≤ LOGSIZE :=
  (reserved_of_reach hr).length_le

end Tracked

/-! ### Runs -/

open Tracked

variable [DecidableEq P]

/-- Where the reservations leave one block of the region unused, the log has room. -/
theorem Tracked.Reserved.fits {s : Tracked P} (h : Reserved (LOGSIZE - 2) s)
    (hsize : s.sys.log.size = LOGSIZE) (a : Action P) : Fits s.sys a := by
  have hlen := h.length_le
  have hlog : LOGSIZE = 90 := rfl
  have hfree : (s.sys.log.lh.length : Int) < s.sys.log.size - 1 := by
    rw [hsize]
    omega
  cases a with
  | logWrite p b => exact hfree
  | run p => exact fun _ _ _ => hfree
  | _ => trivial

/-- The log keeps within its region in every run in which `begin_op` admits operations only while
the reservations stay within 88 blocks. -/
theorem logCapacity_of_reach {s : Tracked P} {start : Nat}
    (hr : Reach Tracked.step (fun s a => Budget s a ∧ Admits (LOGSIZE - 2) s a)
      (Tracked.init P start) s) : LogCapacity s.sys := by
  have h : LogCapacity s.sys ∧ Reserved (LOGSIZE - 2) s ∧ s.sys.log.size = (LOGSIZE : Int) := by
    refine hr.invariant (I := fun s => LogCapacity s.sys ∧ Reserved (LOGSIZE - 2) s ∧
      s.sys.log.size = (LOGSIZE : Int)) ?_ ?_
    · refine ⟨⟨?_, List.nodup_nil, ?_⟩, Reserved.init start, rfl⟩
      · intro hc
        cases hc
      · intro tail ht
        exact absurd ht (Nat.not_lt_zero _)
    · intro u a v ⟨hu, hres, hsize⟩ ⟨hb, hk⟩ hs
      obtain ⟨w, hw, hv⟩ := Option.map_eq_some_iff.mp hs
      refine ⟨?_, hres.step hb hk hs, ?_⟩
      · rw [← hv]
        exact (step_logCapacity_iff hu hsize hw).mpr (hres.fits hsize a)
      · rw [← hv, ← hsize]
        exact (step_effect hw).2.region.1
  exact h.1

/-! ### An admission beyond 88 blocks -/

/-- The operations that run have reserved more than there is room for. -/
structure Tracked.Overdrawn (F : Finset P) (s : Tracked P) : Prop where
  reserved : Reserved LOGSIZE s
  ops : ∀ q, q ∈ F ↔ (s.sys.pc q).inOp
  nonempty : F.Nonempty
  beyond : LOGSIZE - 1 ≤ s.reserved F
  panic : s.sys.panic = none
  size : s.sys.log.size = LOGSIZE

namespace Tracked.Overdrawn

variable {F : Finset P} {s : Tracked P} {p : P} {b : Nat}

omit [DecidableEq P] in
theorem outstanding_pos (h : Overdrawn F s) : 1 ≤ s.sys.log.outstanding := by
  obtain ⟨G, hG, hcard, -⟩ := h.reserved.ops
  have hGF : G = F := Finset.ext fun q => by rw [hG, h.ops]
  have hpos := h.nonempty.card_pos
  rw [← hcard h.panic, hGF]
  omega

/-- The end of a `log_write` leaves the reservations as they are. -/
theorem absorb (h : Overdrawn F s) (hp : s.sys.pc p = .logWrite b) :
    ∃ t, Reach Tracked.step Budget s t ∧ Overdrawn F t ∧ t.sys.pc p = .op ∧
      t.written = s.written ∧ t.sys.log.lh = (s.sys.log.absorb b).lh := by
  let t : Tracked P := ⟨{ s.sys with log := s.sys.log.absorb b }.setPc p .op, s.written⟩
  have hstep : s.step (.run p) = some t := by
    have htrack : s.track (.run p) = s.written := if_neg (by rw [hp]; exact Pc.noConfusion)
    unfold Tracked.step
    rw [run_logWrite h.panic hp, htrack]
    rfl
  have hregion := absorb_region s.sys.log b
  refine ⟨t, (Reach.refl s).tail (a := .run p) trivial hstep, ⟨?_, ?_, h.nonempty, ?_, h.panic, ?_⟩,
    ?_, rfl, rfl⟩
  · exact h.reserved.absorb hp
  · intro q
    rw [h.ops, State.setPc_pc]
    split_ifs with hq
    · rw [hq, hp]
      rfl
    · rfl
  · refine h.beyond.trans (Nat.add_le_add_right (Finset.card_le_card ?_) _)
    apply Finset.union_subset_union_left
    intro x hx
    rw [List.mem_toFinset] at hx ⊢
    exact mem_absorb.mpr (Or.inl hx)
  · rw [State.setPc_log, hregion.1, h.size]
  · rw [State.setPc_pc, if_pos rfl]

/-- A block that the operation has written before, or that nobody has. -/
theorem write (h : Overdrawn F s) (hp : s.sys.pc p = .op) (hlen : s.sys.log.lh.length < LOGSIZE - 1)
    (hb : (insert b (s.written p)).card ≤ MAXOPBLOCKS)
    (hnew : b ∈ s.written p ∨ b ∉ s.sys.log.lh.toFinset ∪ F.biUnion s.written) :
    ∃ t, Reach Tracked.step Budget s t ∧ Overdrawn F t ∧
      t.sys.log.lh = (s.sys.log.absorb b).lh := by
  have hpF : p ∈ F := by
    rw [h.ops, hp]
    rfl
  let t : Tracked P :=
    ⟨s.sys.setPc p (.logWrite b), Function.update s.written p (insert b (s.written p))⟩
  have hcheck : s.sys.log.writeCheck = none := by
    have hout := h.outstanding_pos
    have hlog : LOGSIZE = 90 := rfl
    unfold Log.writeCheck
    rw [h.size, if_neg (by omega), if_neg (by omega)]
  have hstep : s.step (.logWrite p b) = some t := by
    unfold Tracked.step
    rw [step_logWrite h.panic hp hcheck]
    rfl
  have hover : s.reserved F ≤ t.reserved F := by
    rcases hnew with hold | hfresh
    · have hsame : t.written = s.written := by
        show Function.update s.written p (insert b (s.written p)) = s.written
        rw [Finset.insert_eq_of_mem hold, Function.update_eq_self]
      unfold Tracked.reserved
      rw [hsame]
      exact le_rfl
    · exact (reserved_fresh s hpF hb hfresh).ge
  have ht : Overdrawn F t := by
    refine ⟨?_, ?_, h.nonempty, h.beyond.trans hover, h.panic, h.size⟩
    · have hres := h.reserved.logWrite hp hb
      unfold State.logWrite at hres
      rw [hcheck] at hres
      exact hres
    · intro q
      rw [h.ops, State.setPc_pc]
      split_ifs with hq
      · rw [hq, hp]
        rfl
      · rfl
  obtain ⟨u, hu, hover', -, -, hlh⟩ := ht.absorb (p := p) (b := b) (by simp [t])
  exact ⟨u, Reach.head (a := .logWrite p b) hb hstep hu, hover', hlh⟩

omit [DecidableEq P] in
/-- While the log has room, some operation can add a block. -/
theorem candidate (h : Overdrawn F s) (hlen : s.sys.log.lh.length < LOGSIZE - 1) :
    ∃ p ∈ F, ∃ b, b ∉ s.sys.log.lh ∧ (insert b (s.written p)).card ≤ MAXOPBLOCKS ∧
      (b ∈ s.written p ∨ b ∉ s.sys.log.lh.toFinset ∪ F.biUnion s.written) := by
  by_cases hsub : F.biUnion s.written ⊆ s.sys.log.lh.toFinset
  · have hover := h.beyond
    unfold Tracked.reserved at hover
    rw [Finset.union_eq_left.mpr hsub, List.toFinset_card_of_nodup h.reserved.nodup] at hover
    obtain ⟨p, hpF, hpos⟩ : ∃ p ∈ F, MAXOPBLOCKS - (s.written p).card ≠ 0 := by
      by_contra hnone
      push Not at hnone
      rw [Finset.sum_eq_zero hnone] at hover
      omega
    obtain ⟨b, hb⟩ := Infinite.exists_notMem_finset (s.sys.log.lh.toFinset ∪ F.biUnion s.written)
    refine ⟨p, hpF, b, ?_, ?_, Or.inr hb⟩
    · intro hc
      exact hb (Finset.mem_union_left _ (List.mem_toFinset.mpr hc))
    · have := Finset.card_insert_le b (s.written p)
      omega
  · obtain ⟨b, hb, hnot⟩ := Finset.not_subset.mp hsub
    obtain ⟨p, hpF, hbp⟩ := Finset.mem_biUnion.mp hb
    refine ⟨p, hpF, b, fun hc => hnot (List.mem_toFinset.mpr hc), ?_, Or.inl hbp⟩
    rw [Finset.insert_eq_of_mem hbp]
    exact h.reserved.budget p

theorem length_absorb_of_notMem {l : Log} (hb : b ∉ l.lh) :
    (l.absorb b).lh.length = l.lh.length + 1 := by
  rw [Log.absorb_lh, if_neg hb, List.length_append, List.length_singleton]

/-- A process inside its operation comes out of `log_write` first. -/
theorem settle (h : Overdrawn F s) (hpF : p ∈ F) :
    ∃ t, Reach Tracked.step Budget s t ∧ Overdrawn F t ∧ t.sys.pc p = .op ∧
      t.written = s.written ∧ (t.sys.log.lh = s.sys.log.lh ∨
        t.sys.log.lh.length = s.sys.log.lh.length + 1) := by
  have hin := (h.ops p).mp hpF
  cases hp : s.sys.pc p with
  | op => exact ⟨s, Reach.refl s, h, hp, rfl, Or.inl rfl⟩
  | logWrite c =>
    obtain ⟨t, hr, ht, hpc, hw, hlh⟩ := h.absorb hp
    refine ⟨t, hr, ht, hpc, hw, ?_⟩
    rw [hlh]
    by_cases hc : c ∈ s.sys.log.lh
    · exact Or.inl (by rw [Log.absorb_lh, if_pos hc])
    · exact Or.inr (length_absorb_of_notMem hc)
  | _ =>
    rw [hp] at hin
    cases hin

theorem grows (h : Overdrawn F s) (hlen : s.sys.log.lh.length < LOGSIZE - 1) :
    ∃ t, Reach Tracked.step Budget s t ∧ Overdrawn F t ∧
      t.sys.log.lh.length = s.sys.log.lh.length + 1 := by
  obtain ⟨p, hpF, b, hb, hcard, hnew⟩ := h.candidate hlen
  obtain ⟨t, hr, ht, hpc, hw, hlh | hlh⟩ := h.settle hpF
  · rw [← hw] at hcard hnew
    rw [← hlh] at hlen hb hnew
    obtain ⟨u, hu, hover, hlast⟩ := ht.write hpc hlen hcard hnew
    refine ⟨u, hr.trans hu, hover, ?_⟩
    rw [hlast, length_absorb_of_notMem hb, hlh]
  · exact ⟨t, hr, ht, hlh⟩

/-- With 89 blocks logged the next `log_write` panics. -/
theorem overflows_full (h : Overdrawn F s) (hlen : LOGSIZE - 1 ≤ s.sys.log.lh.length) :
    ∃ t, Reach Tracked.step Budget s t ∧ ¬ LogCapacity t.sys := by
  obtain ⟨p, hpF⟩ := h.nonempty
  obtain ⟨t, hr, ht, hpc, hw, hlh⟩ := h.settle hpF
  have hlog : LOGSIZE = 90 := rfl
  have hfull : LOGSIZE - 1 ≤ t.sys.log.lh.length := by
    rcases hlh with hlh | hlh
    · rw [hlh]
      exact hlen
    · omega
  have hcheck : t.sys.log.writeCheck = some .tooBig := by
    unfold Log.writeCheck
    rw [ht.size, if_pos (Or.inr (by omega))]
  obtain ⟨b, hb⟩ : ∃ b, (insert b (t.written p)).card ≤ MAXOPBLOCKS := by
    rcases (t.written p).eq_empty_or_nonempty with hempty | ⟨b, hb⟩
    · rw [hempty]
      exact ⟨0, by decide⟩
    · refine ⟨b, ?_⟩
      rw [Finset.insert_eq_of_mem hb]
      exact ht.reserved.budget p
  have hstep : t.step (.logWrite p b) = some ⟨{ t.sys with panic := some .tooBig },
      Function.update t.written p (insert b (t.written p))⟩ := by
    have hno : ¬ t.sys.panic.isSome := by simp [ht.panic]
    unfold Tracked.step Protocol.step
    rw [if_neg hno]
    dsimp only
    rw [if_pos hpc]
    unfold State.logWrite
    rw [hcheck]
    rfl
  exact ⟨_, hr.tail (a := .logWrite p b) hb hstep, fun hc => hc.noPanic rfl⟩

theorem overflows (h : Overdrawn F s) : ∃ t, Reach Tracked.step Budget s t ∧ ¬ LogCapacity t.sys := by
  -- the number of blocks that can still be logged decreases
  induction hn : LOGSIZE - 1 - s.sys.log.lh.length generalizing s with
  | zero => exact h.overflows_full (by omega)
  | succ n ih =>
    obtain ⟨t, hr, ht, hgrown⟩ := h.grows (by omega)
    obtain ⟨u, hu, hbad⟩ := ih ht (by omega)
    exact ⟨u, hr.trans hu, hbad⟩

end Tracked.Overdrawn

/-- The condition is exact: where `begin_op` admits an operation against it, the operations can
overflow the log, each within its reservation. -/
theorem overflows_of_not_admits {s t : Tracked P} {start : Nat} {p : P}
    (hr : Reach Tracked.step Budget (Tracked.init P start) s) (hs : s.step (.run p) = some t)
    (hbad : ¬ s.Admits (LOGSIZE - 2) (.run p)) :
    ∃ u, Reach Tracked.step Budget t u ∧ ¬ LogCapacity u.sys := by
  have hres := reserved_of_reach hr
  have hsize : s.sys.log.size = LOGSIZE := by
    refine hr.invariant (I := fun s => s.sys.log.size = (LOGSIZE : Int)) rfl ?_
    intro u a v hu _ hv
    obtain ⟨w, hw, rfl⟩ := Option.map_eq_some_iff.mp hv
    rw [← hu]
    exact (step_effect hw).2.region.1
  have ht := reserved_of_reach (hr.tail (a := .run p) trivial hs)
  obtain ⟨w, hw, rfl⟩ := Option.map_eq_some_iff.mp hs
  have hpanic := (step_effect hw).1
  simp only [Admits] at hbad
  push Not at hbad
  obtain ⟨hp, hblocked, hover⟩ := hbad
  rw [run_beginOp hpanic hp] at hw
  have henter : w = { s.sys with log := { s.sys.log with
      outstanding := s.sys.log.outstanding + 1 } }.setPc p .op := by
    rw [← Option.some.inj hw]
    exact if_neg hblocked
  have htrack : s.track (.run p) = Function.update s.written p ∅ := if_pos hp
  obtain ⟨F, hF, -, -⟩ := hres.ops
  have hpF : p ∉ F := by
    rw [hF, hp]
    exact Bool.noConfusion
  rw [henter, htrack] at ht ⊢
  have hlog : LOGSIZE = 90 := rfl
  have hbeyond := hover F hF
  apply Tracked.Overdrawn.overflows (F := insert p F)
  refine ⟨ht, ?_, ⟨p, Finset.mem_insert_self p F⟩, ?_, hpanic, hsize⟩
  · intro q
    rw [Finset.mem_insert, hF, State.setPc_pc]
    split_ifs with hq
    · simp [hq, Pc.inOp]
    · simp [hq]
  · rw [reserved_admission s hpF]
    omega

omit [DecidableEq P] in
theorem Tracked.admits_run_iff [DecidableEq P] [Fintype P] (k : Nat) (s : Tracked P) (p : P) :
    Admits k s (.run p) ↔ (s.sys.pc p = .beginOp → ¬ s.sys.log.blocked →
      s.reserved (Finset.univ.filter fun q => (s.sys.pc q).inOp) + MAXOPBLOCKS ≤ k) := by
  have huniq : ∀ F : Finset P, (∀ q, q ∈ F ↔ (s.sys.pc q).inOp) →
      F = Finset.univ.filter fun q => (s.sys.pc q).inOp := by
    intro F hF
    ext q
    rw [hF, Finset.mem_filter]
    exact ⟨fun h => ⟨Finset.mem_univ q, h⟩, fun h => h.2⟩
  constructor
  · intro h hp hblocked
    obtain ⟨F, hF, hle⟩ := h hp hblocked
    rw [← huniq F hF]
    exact hle
  · intro h hp hblocked
    exact ⟨_, fun q => by simp, h hp hblocked⟩

instance (s : Tracked P) (a : Action P) : Decidable (Budget s a) :=
  match a with
  | .logWrite _ _ => inferInstanceAs (Decidable (_ ≤ _))
  | .beginOp _ | .endOp _ | .sync _ | .kill _ | .run _ => .isTrue trivial

instance [Fintype P] (k : Nat) (s : Tracked P) (a : Action P) : Decidable (Admits k s a) :=
  match a with
  | .run p =>
    decidable_of_iff (s.sys.pc p = .beginOp → ¬ s.sys.log.blocked →
      s.reserved (Finset.univ.filter fun q => (s.sys.pc q).inOp) + MAXOPBLOCKS ≤ k)
      (s.admits_run_iff k p).symm
  | .beginOp _ | .logWrite _ _ | .endOp _ | .sync _ | .kill _ => .isTrue trivial

/-- A process runs an operation that writes the given blocks. -/
def operation (p : P) (bs : List Nat) : List (Action P) :=
  [.beginOp p, .run p] ++ (bs.map fun b => [.logWrite p b, .run p]).flatten ++ [.endOp p]

def oneOperation : Tracked Bool :=
  (run (guarded Tracked.step fun s a => Budget s a ∧ Admits (LOGSIZE - 2) s a) (Tracked.init Bool 2)
    (operation true [40, 41])).getD (Tracked.init Bool 2)

theorem logCapacity_of_reach_operation : LogCapacity oneOperation.sys :=
  logCapacity_of_reach (reach_of_guarded_run (eq_some_getD (by decide +kernel)))

/-- Three operations one after the other, of `MAXOPBLOCKS` blocks each: the last
`log_write` finds 89 blocks logged. -/
theorem not_logCapacity_of_reach :
    ¬ ∀ s, Reach Tracked.step Budget (Tracked.init Bool 2) s → LogCapacity s.sys := by
  intro hall
  have hrun : (run (guarded Tracked.step Budget) (Tracked.init Bool 2)
      (operation true (List.range' 100 30) ++ operation true (List.range' 200 30) ++
        ([.beginOp true, .run true] ++
          ((List.range' 300 29).map fun b => [.logWrite true b, .run true]).flatten ++
            [.logWrite true 329]))).any
      (fun s => s.sys.panic == some .tooBig) = true := by decide +kernel
  obtain ⟨s, hs, hpanic⟩ := (Option.any_eq_true _ _).mp hrun
  exact (hall s (reach_of_guarded_run hs)).noPanic (beq_iff_eq.mp hpanic)

end Xv6.Protocol
