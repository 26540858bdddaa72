import Mathlib.Data.Finset.Card
import Xv6.Log.Protocol

/-!
# Who may commit (project3/log.c:145-168, 229-246)

`end_op` decides to commit only when the last operation ends and leaves too little
log space for another one, so nothing can start before its `sync` is over. A
`sync` system call makes no such test; `SyncOk` is what it would have to test.
-/

namespace Xv6.Protocol
open Xv6.Transition

variable {P : Type*}

/-- Commits exclude operations and one another. -/
structure CommitExclusion [DecidableEq P] (s : State P) : Prop where
  idle : ∀ p, (s.pc p).inCommit → s.log.outstanding = 0
  one : ∀ p q, (s.pc p).inCommit → (s.pc q).inCommit → p = q
  admits : ∀ p q t, (s.pc q).inCommit → s.pc p = .beginOp → step s (.run p) = some t →
    (t.pc p).inOp = false
  noPanic : s.panic ≠ some .committing

/-- A `sync` system call takes `log.lock` with no operation outstanding and no
other commit decided or in progress. -/
def SyncOk (s : State P) : Action P → Prop
  | .run p => ∀ n, s.pc p = .sync (some n) →
      s.log.outstanding = 0 ∧ ∀ q, (s.pc q).pending = false
  | _ => True

/-- The invariant behind `CommitExclusion`. -/
structure CommitInv (s : State P) : Prop where
  ops : ∃ F : Finset P, (∀ p, p ∈ F ↔ (s.pc p).inOp) ∧ (F.card : Int) = s.log.outstanding
  one : ∀ p q, (s.pc p).pending → (s.pc q).pending → p = q
  idle : ∀ p, (s.pc p).pending → s.log.outstanding = 0
  flag : s.log.committing = true ↔ ∃ p, (s.pc p).holds
  decided : ∀ p, s.pc p = .sync none → LOGSIZE < s.log.lh.length + MAXOPBLOCKS
  noPanic : s.panic ≠ some .committing

theorem Pc.pending_of_holds {k : Pc} (h : k.holds) : k.pending := by
  cases k <;> first | rfl | cases h

theorem Pc.holds_or_decided {k : Pc} (h : k.pending) : k.holds ∨ k = .sync none := by
  cases k with
  | sync ret =>
    cases ret with
    | none => exact Or.inr rfl
    | some n => cases h
  | commit ret st => exact Or.inl rfl
  | finish ret => exact Or.inl rfl
  | _ => cases h

namespace CommitInv

variable {s t : State P} {p : P}

theorem init (start : Nat) (size : Int) : CommitInv (init P start size) := by
  refine ⟨⟨∅, fun p => ?_, rfl⟩, ?_, ?_, ?_, ?_, by simp [Protocol.init]⟩
  · simp [Protocol.init, Pc.inOp]
  · exact fun p q hp => absurd hp Bool.noConfusion
  · exact fun p hp => absurd hp Bool.noConfusion
  · exact ⟨fun h => absurd h Bool.noConfusion, fun ⟨p, hp⟩ => absurd hp Bool.noConfusion⟩
  · exact fun p hp => Pc.noConfusion hp

/-- The invariant only looks at the kinds of places and at the log. -/
theorem congr (h : CommitInv s) (hop : ∀ q, (t.pc q).inOp = (s.pc q).inOp)
    (hpend : ∀ q, (t.pc q).pending = (s.pc q).pending)
    (hholds : ∀ q, (t.pc q).holds = (s.pc q).holds)
    (hdec : ∀ q, t.pc q = .sync none → s.pc q = .sync none)
    (hout : t.log.outstanding = s.log.outstanding)
    (hcom : t.log.committing = s.log.committing)
    (hlh : s.log.lh.length ≤ t.log.lh.length) (hpanic : t.panic ≠ some .committing) :
    CommitInv t := by
  obtain ⟨F, hF, hcard⟩ := h.ops
  refine ⟨⟨F, fun q => ?_, ?_⟩, ?_, ?_, ?_, ?_, hpanic⟩
  · rw [hF, hop]
  · rw [hcard, hout]
  · intro q r hq hr
    rw [hpend] at hq hr
    exact h.one q r hq hr
  · intro q hq
    rw [hpend] at hq
    rw [hout]
    exact h.idle q hq
  · simp only [hcom, hholds]
    exact h.flag
  · intro q hq
    have := h.decided q (hdec q hq)
    omega

/-- An outstanding operation excludes every pending commit. -/
theorem no_pending (h : CommitInv s) (hp : (s.pc p).inOp) :
    0 < s.log.outstanding ∧ (∀ q, (s.pc q).pending = false) ∧ s.log.committing = false := by
  obtain ⟨F, hF, hcard⟩ := h.ops
  have hpos : 0 < F.card := Finset.card_pos.mpr ⟨p, (hF p).mpr hp⟩
  have hnone : ∀ q, (s.pc q).pending = false := by
    intro q
    by_contra hq
    have := h.idle q (by simpa using hq)
    omega
  refine ⟨by omega, hnone, ?_⟩
  by_contra hc
  obtain ⟨q, hq⟩ := h.flag.mp (by simpa using hc)
  have := Pc.pending_of_holds hq
  rw [hnone q] at this
  cases this

/-- Where `begin_op` admits an operation no commit is pending. -/
theorem admitted (h : CommitInv s) (hb : ¬ s.log.blocked) (q : P) : (s.pc q).pending = false := by
  by_contra hq
  have hq' : (s.pc q).pending := by simpa using hq
  rcases Pc.holds_or_decided hq' with hh | hd
  · exact hb (Or.inl (h.flag.mpr ⟨q, hh⟩))
  · have hdec := h.decided q hd
    have hidle := h.idle q hq'
    refine hb (Or.inr ?_)
    show (LOGSIZE : Int) < s.log.lh.length + (s.log.outstanding + 1) * MAXOPBLOCKS
    rw [hidle]
    omega

/-- No commit is pending in `t`, and the operations are counted right. -/
theorem of_no_pending {F : Finset P} (hF : ∀ q, q ∈ F ↔ (t.pc q).inOp)
    (hcard : (F.card : Int) = t.log.outstanding) (hpend : ∀ q, (t.pc q).pending = false)
    (hcom : t.log.committing = false) (hpanic : t.panic ≠ some .committing) : CommitInv t := by
  have hno : ∀ q, ¬ (t.pc q).pending := by simp [hpend]
  refine ⟨⟨F, hF, hcard⟩, fun q _ hq => absurd hq (hno q), fun q hq => absurd hq (hno q), ?_, ?_,
    hpanic⟩
  · rw [hcom]
    exact ⟨fun hc => absurd hc Bool.noConfusion,
      fun ⟨q, hq⟩ => absurd (Pc.pending_of_holds hq) (hno q)⟩
  · intro q hq
    exact absurd (show (t.pc q).pending by rw [hq]; rfl) (hno q)

variable [DecidableEq P]

theorem move (h : CommitInv s) {k : Pc} (hop : k.inOp = (s.pc p).inOp)
    (hpend : k.pending = (s.pc p).pending) (hholds : k.holds = (s.pc p).holds)
    (hdec : k ≠ .sync none) : CommitInv (s.setPc p k) := by
  have key : ∀ {f : Pc → Bool}, f k = f (s.pc p) → ∀ q, f ((s.setPc p k).pc q) = f (s.pc q) := by
    intro f hf q
    rw [State.setPc_pc]
    split_ifs with hq
    · rw [hq, hf]
    · rfl
  refine h.congr (key hop) (key hpend) (key hholds) ?_ rfl rfl le_rfl h.noPanic
  intro q hq
  rw [State.setPc_pc] at hq
  split_ifs at hq with hqp
  · exact absurd hq hdec
  · exact hq

theorem admission (h : CommitInv s) (hp : s.pc p = .beginOp) (hb : ¬ s.log.blocked) :
    CommitInv ({ s with log := { s.log with outstanding := s.log.outstanding + 1 } }.setPc p .op) := by
  obtain ⟨F, hF, hcard⟩ := h.ops
  have hpF : p ∉ F := by
    rw [hF, hp]
    exact Bool.noConfusion
  refine of_no_pending (F := insert p F) ?_ ?_ ?_ ?_ h.noPanic
  · intro q
    rw [Finset.mem_insert, hF, State.setPc_pc]
    split_ifs with hq
    · simp [hq, Pc.inOp]
    · simp [hq]
  · rw [Finset.card_insert_of_notMem hpF]
    show ((F.card + 1 : Nat) : Int) = s.log.outstanding + 1
    omega
  · intro q
    rw [State.setPc_pc]
    split_ifs
    · rfl
    · exact h.admitted hb q
  · show s.log.committing = false
    by_contra hc
    exact hb (Or.inl (by simpa using hc))

/-- The last operation may decide to commit; the panic of `end_op` is out of reach. -/
theorem endOp (h : CommitInv s) (hp : s.pc p = .op) : CommitInv (s.endOp p) := by
  obtain ⟨hpos, hnone, hcom⟩ := h.no_pending (p := p) (by rw [hp]; rfl)
  obtain ⟨F, hF, hcard⟩ := h.ops
  have hpF : p ∈ F := by
    rw [hF, hp]
    rfl
  have hcard' : ((F.erase p).card : Int) = s.log.outstanding - 1 := by
    have := Finset.card_erase_add_one hpF
    omega
  have hmem : ∀ {k : Pc} (u : State P), k.inOp = false → (∀ q, (u.pc q).inOp = (s.pc q).inOp) →
      ∀ q, q ∈ F.erase p ↔ ((u.setPc p k).pc q).inOp := by
    intro k u hk hu q
    rw [Finset.mem_erase, hF, State.setPc_pc]
    split_ifs with hq
    · simp [hq, hk]
    · simp [hq, hu]
  have hpend : ∀ {k : Pc} (u : State P), k.pending = false →
      (∀ q, (u.pc q).pending = (s.pc q).pending) → ∀ q, ((u.setPc p k).pc q).pending = false := by
    intro k u hk hu q
    rw [State.setPc_pc]
    split_ifs
    · exact hk
    · rw [hu, hnone]
  simp only [State.endOp]
  generalize hl : s.log.ended = l
  have hlcom : l.committing = false := by rw [← hl]; exact hcom
  have hlout : l.outstanding = s.log.outstanding - 1 := by rw [← hl]; rfl
  cases he : l.endOp with
  | panic =>
    exfalso
    simp only [Log.endOp, hlcom, Bool.false_eq_true, if_false] at he
    split_ifs at he
  | wakeup =>
    refine of_no_pending (hmem _ rfl (State.wakeup_keeps rfl _)) ?_
      (hpend _ rfl (State.wakeup_keeps rfl _)) hlcom h.noPanic
    exact hcard'.trans hlout.symm
  | leaveOpen =>
    exact of_no_pending (hmem _ rfl fun _ => rfl) (hcard'.trans hlout.symm)
      (hpend _ rfl fun _ => rfl) hlcom h.noPanic
  | commit =>
    have hzero : l.outstanding = 0 ∧ LOGSIZE < l.lh.length + MAXOPBLOCKS := by
      unfold Log.endOp at he
      split_ifs at he
      exact ⟨by omega, by assumption⟩
    have honly : ∀ q, (({ s with log := l }.setPc p (.sync none)).pc q).pending → q = p := by
      intro q hq
      rw [State.setPc_pc] at hq
      split_ifs at hq with hqp
      · exact hqp
      · have hn := hnone q
        simp only [hn] at hq
        exact absurd hq Bool.noConfusion
    refine ⟨⟨F.erase p, hmem _ rfl fun _ => rfl, hcard'.trans hlout.symm⟩, ?_, ?_, ?_, ?_,
      h.noPanic⟩
    · intro q r hq hr
      rw [honly q hq, honly r hr]
    · exact fun _ _ => hzero.1
    · show l.committing = true ↔ _
      rw [hlcom]
      refine ⟨fun hc => absurd hc Bool.noConfusion, fun ⟨q, hq⟩ => ?_⟩
      have hqp := honly q (Pc.pending_of_holds hq)
      subst hqp
      rw [State.setPc_pc, if_pos rfl] at hq
      exact absurd hq Bool.noConfusion
    · exact fun _ _ => hzero.2

theorem lock (h : CommitInv s) {ret : Option Nat} (hp : s.pc p = .sync ret)
    (hidle : s.log.outstanding = 0) (honly : ∀ q, (s.pc q).pending → q = p) :
    CommitInv ({ s with log := { s.log with committing := true } }.setPc p (.commit ret .enter)) := by
  obtain ⟨F, hF, hcard⟩ := h.ops
  refine ⟨⟨F, fun q => ?_, hcard⟩, ?_, fun _ _ => hidle, ?_, ?_, h.noPanic⟩
  · rw [hF, State.setPc_pc]
    split_ifs with hq
    · simp [hq, hp, Pc.inOp]
    · rfl
  · have hp' : ∀ q, (({ s with log := { s.log with committing := true } }.setPc p
        (.commit ret .enter)).pc q).pending → q = p := by
      intro q hq
      rw [State.setPc_pc] at hq
      split_ifs at hq with hqp
      · exact hqp
      · exact honly q hq
    intro q r hq hr
    rw [hp' q hq, hp' r hr]
  · refine ⟨fun _ => ⟨p, ?_⟩, fun _ => rfl⟩
    rw [State.setPc_pc, if_pos rfl]
    rfl
  · intro q hq
    rw [State.setPc_pc] at hq
    split_ifs at hq with hqp
    exact h.decided q hq

theorem reset (h : CommitInv s) {ret : Option Nat} (hp : s.pc p = .commit ret .reset) :
    CommitInv ({ s with log := { s.log with lh := [] } }.setPc p (.commit ret .clearHead)) := by
  have hm := h.move (p := p) (k := .commit ret .clearHead) (by rw [hp]; rfl) (by rw [hp]; rfl)
    (by rw [hp]; rfl) Pc.noConfusion
  refine ⟨hm.ops, hm.one, hm.idle, hm.flag, ?_, hm.noPanic⟩
  intro q hq
  have hq' : (s.setPc p (.commit ret .clearHead)).pc q = .sync none := hq
  have hqp : q = p := by
    refine hm.one q p ?_ ?_
    · rw [hq']
      rfl
    · rw [State.setPc_pc, if_pos rfl]
      rfl
  rw [State.setPc_pc, if_pos hqp] at hq'
  cases hq'

theorem unlock (h : CommitInv s) {ret : Option Nat} (hp : s.pc p = .finish ret) :
    CommitInv (s.finish p) := by
  obtain ⟨F, hF, hcard⟩ := h.ops
  have hpend : (s.pc p).pending := by
    rw [hp]
    rfl
  refine of_no_pending (F := F) ?_ hcard ?_ rfl h.noPanic
  · intro q
    rw [hF]
    unfold State.finish
    rw [State.setPc_pc]
    split_ifs with hq
    · simp [hq, hp, Pc.inOp]
    · rw [State.wakeup_keeps (f := Pc.inOp) rfl]
  · intro q
    unfold State.finish
    rw [State.setPc_pc]
    split_ifs with hq
    · rfl
    · rw [State.wakeup_keeps (f := Pc.pending) rfl]
      by_contra hc
      exact hq (h.one q p (by simpa using hc) hpend)

theorem step (h : CommitInv s) {a : Action P} (hok : SyncOk s a)
    (hs : Protocol.step s a = some t) : CommitInv t := by
  obtain ⟨hpanic, he⟩ := step_effect hs
  cases he with
  | quiet p k hq =>
    obtain ⟨hop, hpend, hholds, hdec, -⟩ := hq.keeps
    exact h.move hop hpend hholds hdec
  | panicWrite p e hp he =>
    refine h.congr (fun _ => rfl) (fun _ => rfl) (fun _ => rfl) (fun _ hq => hq) rfl rfl le_rfl ?_
    unfold Log.writeCheck at he
    split_ifs at he
    · cases he
      simp
    · cases he
      simp
  | sleep p hp hb => exact h.move (by rw [hp]; rfl) (by rw [hp]; rfl) (by rw [hp]; rfl) (by simp)
  | admission p hp hb => exact h.admission hp hb
  | absorb p b hp =>
    have hm := h.move (p := p) (k := .op) (by rw [hp]; rfl) (by rw [hp]; rfl) (by rw [hp]; rfl)
      (by simp)
    exact hm.congr (fun _ => rfl) (fun _ => rfl) (fun _ => rfl) (fun _ hq => hq)
      (s.log.absorb_outstanding b) (s.log.absorb_committing b) (s.log.length_absorb b) h.noPanic
  | endOp p hp => exact h.endOp hp
  | lock p ret hp =>
    cases ret with
    | some n =>
      obtain ⟨hidle, hnone⟩ := hok n hp
      refine h.lock hp hidle fun q hq => ?_
      rw [hnone q] at hq
      exact absurd hq Bool.noConfusion
    | none =>
      have hpend : (s.pc p).pending := by
        rw [hp]
        rfl
      exact h.lock hp (h.idle p hpend) fun q hq => h.one q p hq hpend
  | reset p ret hp => exact h.reset hp
  | unlock p ret hp => exact h.unlock hp

theorem exclusion (h : CommitInv s) : CommitExclusion s := by
  have hpend : ∀ {q}, (s.pc q).inCommit → (s.pc q).pending := by
    intro q hq
    cases hk : s.pc q <;> rw [hk] at hq <;> first | rfl | cases hq
  refine ⟨fun q hq => h.idle q (hpend hq), fun q r hq hr => h.one q r (hpend hq) (hpend hr), ?_,
    h.noPanic⟩
  intro q r u hr hq hs
  have hnot : s.log.blocked := by
    by_contra hb
    have := h.admitted hb r
    rw [hpend hr] at this
    cases this
  have hu : u = s.setPc q .sleeping := by
    simp only [Protocol.step, State.run, hq, State.enterOp, if_pos hnot] at hs
    split_ifs at hs
    exact (Option.some.inj hs).symm
  rw [hu, State.setPc_pc, if_pos rfl]
  rfl

end CommitInv

variable [DecidableEq P]

/-- Commits stay exclusive in every run in which each `sync` system call finds no
operation outstanding and no other commit decided or in progress. -/
theorem commitExclusion_of_reach {start : Nat} {size : Int} {s : State P}
    (hr : Reach step SyncOk (init P start size) s) : CommitExclusion s := by
  have h : CommitInv s :=
    hr.invariant (CommitInv.init start size) fun _ _ _ h hok hs => h.step hok hs
  exact h.exclusion

/-- Otherwise the system call breaks exclusion as soon as it starts to commit. -/
theorem not_commitExclusion_of_lock {s t : State P} {p : P} {n : Nat}
    (hp : s.pc p = .sync (some n)) (ht : step s (.run p) = some t)
    (hbad : s.log.outstanding ≠ 0 ∨ ∃ q, (s.pc q).inCommit) : ¬ CommitExclusion t := by
  intro h
  have hu : t = { s with log := { s.log with committing := true } }.setPc p
      (.commit (some n) .enter) := by
    simp only [step, State.run, hp] at ht
    split_ifs at ht
    exact (Option.some.inj ht).symm
  have hpc : (t.pc p).inCommit := by
    rw [hu, State.setPc_pc, if_pos rfl]
    rfl
  rcases hbad with hout | ⟨q, hq⟩
  · refine hout ?_
    have := h.idle p hpc
    rw [hu] at this
    exact this
  · have hqp : q ≠ p := by
      rintro rfl
      rw [hp] at hq
      cases hq
    refine hqp (h.one q p ?_ hpc)
    rw [hu, State.setPc_pc, if_neg hqp]
    exact hq

theorem commitExclusion_of_sync : CommitExclusion (P := Bool)
    ({ (init Bool 2 90).setPc false (.sync (some 0)) with
      log := { (initlog 2 90) with committing := true } }.setPc false (.commit (some 0) .enter)) := by
  have h1 : step (init Bool 2 90) (.sync false)
      = some ((init Bool 2 90).setPc false (.sync (some 0))) := rfl
  refine commitExclusion_of_reach
    (((Reach.refl (init Bool 2 90)).tail trivial h1).tail (a := .run false) ?_ rfl)
  intro n _
  exact ⟨rfl, by decide⟩

/-- A `sync` while another process is inside an operation: the commit runs with
`outstanding = 1`, and the operation ends in the panic. -/
def syncDuringOp : List (Action Bool) :=
  [.beginOp false, .run false, .sync true, .run true, .endOp false]

theorem not_commitExclusion_of_reachable :
    ¬ ∀ s, Reachable step (init Bool 2 90) s → CommitExclusion s := by
  intro hall
  have hrun : (run step (init Bool 2 90) syncDuringOp).any
      (fun s => s.panic == some .committing) = true := by decide
  obtain ⟨s, hs, hpanic⟩ := (Option.any_eq_true _ _).mp hrun
  exact (hall s (reachable_of_run hs)).noPanic (beq_iff_eq.mp hpanic)

end Xv6.Protocol
