import Xv6.Io.PipeStream
import Xv6.Lib.Tally

/-!
# The two ends of a pipe

`ref` of the two files counts the descriptors. An end is open as long as somebody has a descriptor
of it or is in `pipeclose`, and the page is freed once, when nobody can use it any more.
-/

namespace Xv6.Pipes
open Buffer Transition Wait

def Pipe.isOpen (p : Pipe) : End → Bool
  | .read => p.readopen
  | .write => p.writeopen

/-- A call is made with a descriptor. -/
def Pc.Held (fds : End → Nat) : Pc → Prop
  | .pipewrite _ _ => 0 < fds .write
  | .piperead _ => 0 < fds .read
  | _ => True

theorem Pc.Held.mono {k : Pc} {f g : End → Nat} (h : k.Held f) (hle : ∀ e, f e ≤ g e) :
    k.Held g := by
  cases k with
  | pipewrite addr i => exact Nat.lt_of_lt_of_le h (hle .write)
  | piperead n => exact Nat.lt_of_lt_of_le h (hle .read)
  | idle => trivial
  | pipeclose e => trivial

variable {P : Type*} {s t : State P} {p q : P} {e : End} {k : Pc}

/-- Beside this `pipeclose` wakes those who wait for the other end. -/
theorem pipeclose_rest (s : State P) (e : End) :
    (s.pipeclose e).pc = s.pc ∧ (s.pipeclose e).ref = s.ref ∧ (s.pipeclose e).fds = s.fds ∧
    (s.pipeclose e).pipe.isOpen = Function.update s.pipe.isOpen e false ∧
    (s.pipeclose e).kfrees = s.kfrees +
      if (s.pipeclose e).pipe.readopen = false ∧ (s.pipeclose e).pipe.writeopen = false then 1
      else 0 := by
  have hisOpen : (s.pipeclose e).pipe.isOpen = Function.update s.pipe.isOpen e false := by
    funext e'
    unfold State.pipeclose
    cases e <;> cases e' <;> dsimp only <;> split_ifs <;> rfl
  refine ⟨pipeclose_pc s e, ?_, ?_, hisOpen, ?_⟩
  all_goals unfold State.pipeclose
  · cases e <;> dsimp only <;> split_ifs <;> rfl
  · cases e <;> dsimp only <;> split_ifs <;> rfl
  · cases e with
    | read => cases hwrite : s.pipe.writeopen <;> simp [hwrite]
    | write => cases hread : s.pipe.readopen <;> simp [hread]

variable [Fintype P]

structure Ends (s : State P) : Prop where
  ref : ∀ e, s.ref e = ∑ p, s.fds p e
  held : ∀ p, (s.pc p).Held (s.fds p)
  closing : ∀ p e, s.pc p = .pipeclose e → s.ref e = 0
  alone : ∀ p q e, s.pc p = .pipeclose e → s.pc q = .pipeclose e → p = q
  isOpen : ∀ e, s.pipe.isOpen e = true ↔ 0 < s.ref e ∨ ∃ p, s.pc p = .pipeclose e
  kfrees : s.kfrees = if s.pipe.readopen = false ∧ s.pipe.writeopen = false then 1 else 0

namespace Ends

theorem fds_le (h : Ends s) (p : P) (e : End) : s.fds p e ≤ s.ref e := by
  rw [h.ref e]
  exact Finset.single_le_sum (fun q _ => Nat.zero_le (s.fds q e)) (Finset.mem_univ p)

/-- A process that is in a call uses an end that is open. -/
theorem open_of_held (h : Ends s) (hfds : 0 < s.fds p e) : s.pipe.isOpen e = true :=
  (h.isOpen e).mpr (.inl (Nat.lt_of_lt_of_le hfds (h.fds_le p e)))

/-- When the page is freed nobody has a descriptor and nobody is in a call. -/
theorem unused (h : Ends s) (hfree : 0 < s.kfrees) :
    s.kfrees = 1 ∧ (∀ p e, s.fds p e = 0) ∧ ∀ p, s.pc p = .idle := by
  have hclosed : s.pipe.readopen = false ∧ s.pipe.writeopen = false := by
    by_contra hno
    rw [h.kfrees, if_neg hno] at hfree
    exact absurd hfree (Nat.lt_irrefl 0)
  have hfalse : ∀ e, s.pipe.isOpen e = false := by
    intro e
    cases e with
    | read => exact hclosed.1
    | write => exact hclosed.2
  have hnone : ∀ p e, s.fds p e = 0 := by
    intro p e
    by_contra hne
    have hopen := h.open_of_held (Nat.pos_of_ne_zero hne)
    rw [hfalse e] at hopen
    cases hopen
  refine ⟨?_, hnone, ?_⟩
  · rw [h.kfrees, if_pos hclosed]
  · intro p
    have hheld := h.held p
    cases hp : s.pc p with
    | idle => rfl
    | pipewrite addr i =>
      rw [hp] at hheld
      have hpos : 0 < s.fds p .write := hheld
      rw [hnone p .write] at hpos
      exact absurd hpos (Nat.lt_irrefl 0)
    | piperead n =>
      rw [hp] at hheld
      have hpos : 0 < s.fds p .read := hheld
      rw [hnone p .read] at hpos
      exact absurd hpos (Nat.lt_irrefl 0)
    | pipeclose e =>
      have hopen := (h.isOpen e).mpr (.inr ⟨p, hp⟩)
      rw [hfalse e] at hopen
      cases hopen

variable [DecidableEq P]

/-- A process goes into a call or comes out of it. -/
theorem call (h : Ends s) (hpc : t.pc = Function.update s.pc p k)
    (hold : ∀ e, s.pc p ≠ .pipeclose e) (hk : ∀ e, k ≠ .pipeclose e) (hheld : k.Held (s.fds p))
    (href : t.ref = s.ref) (hfds : t.fds = s.fds) (hread : t.pipe.readopen = s.pipe.readopen)
    (hwrite : t.pipe.writeopen = s.pipe.writeopen) (hkfrees : t.kfrees = s.kfrees) : Ends t := by
  have hclose : ∀ q e, t.pc q = .pipeclose e ↔ s.pc q = .pipeclose e := by
    intro q e
    rw [hpc]
    by_cases hq : q = p
    · rw [hq, Function.update_self]
      exact ⟨fun hno => absurd hno (hk e), fun hno => absurd hno (hold e)⟩
    · rw [Function.update_of_ne hq]
  have hisOpen : ∀ e, t.pipe.isOpen e = s.pipe.isOpen e := by
    intro e
    cases e with
    | read => exact hread
    | write => exact hwrite
  refine ⟨?_, ?_, ?_, ?_, ?_, ?_⟩
  · rw [href, hfds]
    exact h.ref
  · intro q
    rw [hpc, hfds]
    by_cases hq : q = p
    · rw [hq, Function.update_self]
      exact hheld
    · rw [Function.update_of_ne hq]
      exact h.held q
  · intro q e hq
    rw [href]
    exact h.closing q e ((hclose q e).mp hq)
  · intro q q' e hq hq'
    exact h.alone q q' e ((hclose q e).mp hq) ((hclose q' e).mp hq')
  · intro e
    rw [hisOpen e, h.isOpen e, href]
    exact or_congr Iff.rfl (exists_congr fun q => (hclose q e).symm)
  · rw [hkfrees, hread, hwrite]
    exact h.kfrees

theorem pipewrite {addr : List Byte} {i : Nat} (h : Ends s) (hp : s.pc p = .pipewrite addr i)
    (seen : Bool) : Ends (s.pipewrite p seen addr i) := by
  have hold : ∀ e, s.pc p ≠ .pipeclose e := by
    intro e hno
    rw [hp] at hno
    cases hno
  have hheld := h.held p
  rw [hp] at hheld
  obtain ⟨hpipe, -, -, href, hfds, hkfrees⟩ := pipewrite_rest s p seen addr i
  obtain ⟨hread, hwrite⟩ := Pipe.fill_open s.pipe (addr.drop i)
  rw [← hpipe] at hread hwrite
  cases pipewrite_written s p seen addr i with
  | all _ hpc _ _ _ =>
    exact h.call hpc hold (fun _ => Pc.noConfusion) trivial href hfds hread hwrite hkfrees
  | stop _ _ hpc _ _ _ =>
    exact h.call hpc hold (fun _ => Pc.noConfusion) trivial href hfds hread hwrite hkfrees
  | sleep _ _ _ hpc _ _ =>
    exact h.call hpc hold (fun _ => Pc.noConfusion) hheld href hfds hread hwrite hkfrees

theorem piperead {n : Nat} (h : Ends s) (hp : s.pc p = .piperead n) (seen : Bool) :
    Ends (s.piperead p seen n) := by
  have hold : ∀ e, s.pc p ≠ .pipeclose e := by
    intro e hno
    rw [hp] at hno
    cases hno
  have hdrain := Pipe.drain_spec n s.pipe
  cases piperead_read s p seen n with
  | stop _ _ heq =>
    rw [heq]
    exact h.call (p := p) (k := .idle) rfl hold (fun _ => Pc.noConfusion) trivial rfl rfl rfl rfl
      rfl
  | sleep _ _ _ heq =>
    rw [heq]
    exact ⟨h.ref, h.held, h.closing, h.alone, h.isOpen, h.kfrees⟩
  | all _ heq =>
    rw [heq]
    exact h.call (p := p) (k := .idle) rfl hold (fun _ => Pc.noConfusion) trivial rfl rfl
      hdrain.readopen hdrain.writeopen rfl

theorem fds_update (fds : P → End → Nat) (p : P) (g : End → Nat) (e : End) :
    (∑ q, Function.update fds p g q e) + fds p e = (∑ q, fds q e) + g e := by
  have happ : ∀ q, Function.update fds p g q e = Function.update (fun q => fds q e) p (g e) q := by
    intro q
    by_cases hq : q = p
    · rw [hq, Function.update_self, Function.update_self]
    · rw [Function.update_of_ne hq, Function.update_of_ne hq]
  rw [Finset.sum_congr rfl fun q _ => happ q]
  exact sum_update (fun q => fds q e) p (g e)

theorem filedup (h : Ends s) (hfds : 0 < s.fds p e) : Ends (s.filedup p e) := by
  have hpos : 0 < s.ref e := Nat.lt_of_lt_of_le hfds (h.fds_le p e)
  have hzero : ∀ e', Function.update s.ref e (s.ref e + 1) e' = 0 → s.ref e' = 0 ∧ e' ≠ e := by
    intro e' h0
    by_cases he : e' = e
    · rw [he, Function.update_self] at h0
      cases h0
    · rw [Function.update_of_ne he] at h0
      exact ⟨h0, he⟩
  refine ⟨?_, ?_, ?_, h.alone, ?_, h.kfrees⟩
  · intro e'
    have hsum := fds_update s.fds p (Function.update (s.fds p) e (s.fds p e + 1)) e'
    have hold := h.ref e'
    show Function.update s.ref e (s.ref e + 1) e' = ∑ q, Function.update s.fds p _ q e'
    by_cases he : e' = e
    · rw [he, Function.update_self] at hsum ⊢
      rw [he] at hold
      omega
    · rw [Function.update_of_ne he] at hsum ⊢
      omega
  · intro q
    show (s.pc q).Held (Function.update s.fds p _ q)
    by_cases hq : q = p
    · rw [hq, Function.update_self]
      exact (h.held p).mono fun e' => by
        by_cases he : e' = e
        · rw [he, Function.update_self]
          exact Nat.le_succ _
        · rw [Function.update_of_ne he]
    · rw [Function.update_of_ne hq]
      exact h.held q
  · intro q e' hq
    have h0 := h.closing q e' hq
    have he : e' ≠ e := by
      intro he
      rw [he] at h0
      omega
    show Function.update s.ref e (s.ref e + 1) e' = 0
    rw [Function.update_of_ne he]
    exact h0
  · intro e'
    show s.pipe.isOpen e' = true ↔ 0 < Function.update s.ref e (s.ref e + 1) e' ∨ _
    rw [h.isOpen e']
    by_cases he : e' = e
    · rw [he, Function.update_self]
      exact or_congr ⟨fun _ => Nat.succ_pos _, fun _ => hpos⟩ Iff.rfl
    · rw [Function.update_of_ne he]
      exact Iff.rfl

theorem fork (h : Ends s) {c : P} (hpc : s.pc c = .idle) (hfds : ∀ e, s.fds c e = 0) :
    Ends (s.fork p c) := by
  refine ⟨?_, ?_, ?_, h.alone, ?_, h.kfrees⟩
  · intro e
    have hsum := fds_update s.fds c (s.fds p) e
    have hold := h.ref e
    rw [hfds e] at hsum
    show s.ref e + s.fds p e = ∑ q, Function.update s.fds c (s.fds p) q e
    omega
  · intro q
    show (s.pc q).Held (Function.update s.fds c _ q)
    by_cases hq : q = c
    · rw [hq, hpc]
      trivial
    · rw [Function.update_of_ne hq]
      exact h.held q
  · intro q e hq
    have h0 := h.closing q e hq
    have hle := h.fds_le p e
    show s.ref e + s.fds p e = 0
    omega
  · intro e
    have hle := h.fds_le p e
    show s.pipe.isOpen e = true ↔ 0 < s.ref e + s.fds p e ∨ _
    rw [h.isOpen e]
    exact or_congr ⟨fun hpos => by omega, fun hpos => by omega⟩ Iff.rfl

/-- The books without the descriptor that `p` closes. -/
theorem ref_close (h : Ends s) (hfds : 0 < s.fds p e) (e' : End) :
    Function.update s.ref e (s.ref e - 1) e' =
      ∑ q, Function.update s.fds p (Function.update (s.fds p) e (s.fds p e - 1)) q e' := by
  have hle := h.fds_le p e
  have hsum := fds_update s.fds p (Function.update (s.fds p) e (s.fds p e - 1)) e'
  have hold := h.ref e'
  by_cases he : e' = e
  · rw [he, Function.update_self] at hsum ⊢
    rw [he] at hold
    omega
  · rw [Function.update_of_ne he] at hsum ⊢
    omega

omit [DecidableEq P] in
theorem nobody_closing (h : Ends s) (hfds : 0 < s.fds p e) (q : P) : s.pc q ≠ .pipeclose e := by
  intro hq
  have h0 := h.closing q e hq
  have hle := h.fds_le p e
  omega

theorem fileclose_more (h : Ends s) (hidle : s.pc p = .idle) (hfds : 0 < s.fds p e)
    (hmore : 0 < s.ref e - 1) :
    Ends { s with
      ref := Function.update s.ref e (s.ref e - 1)
      fds := Function.update s.fds p (Function.update (s.fds p) e (s.fds p e - 1)) } := by
  refine ⟨h.ref_close hfds, ?_, ?_, h.alone, ?_, h.kfrees⟩
  · intro q
    show (s.pc q).Held (Function.update s.fds p _ q)
    by_cases hq : q = p
    · rw [hq, hidle]
      trivial
    · rw [Function.update_of_ne hq]
      exact h.held q
  · intro q e' hq
    have h0 := h.closing q e' hq
    show Function.update s.ref e (s.ref e - 1) e' = 0
    by_cases he : e' = e
    · rw [he] at hq
      exact absurd hq (h.nobody_closing hfds q)
    · rw [Function.update_of_ne he]
      exact h0
  · intro e'
    show s.pipe.isOpen e' = true ↔ 0 < Function.update s.ref e (s.ref e - 1) e' ∨ _
    rw [h.isOpen e']
    by_cases he : e' = e
    · rw [he, Function.update_self]
      exact or_congr ⟨fun _ => hmore, fun _ => by omega⟩ Iff.rfl
    · rw [Function.update_of_ne he]

/-- Whoever closes the last descriptor calls `pipeclose` next. -/
theorem fileclose_last (h : Ends s) (hidle : s.pc p = .idle) (hfds : 0 < s.fds p e)
    (hlast : s.ref e = 1) :
    Ends (State.setPc { s with
      ref := Function.update s.ref e (s.ref e - 1)
      fds := Function.update s.fds p (Function.update (s.fds p) e (s.fds p e - 1)) }
      p (.pipeclose e)) := by
  have hpc : ∀ q e', Function.update s.pc p (.pipeclose e) q = .pipeclose e' ↔
      q = p ∧ e' = e ∨ s.pc q = .pipeclose e' := by
    intro q e'
    by_cases hq : q = p
    · rw [hq, Function.update_self]
      constructor
      · intro heq
        cases heq
        exact .inl ⟨rfl, rfl⟩
      · rintro (⟨-, rfl⟩ | hno)
        · rfl
        · rw [hidle] at hno
          cases hno
    · rw [Function.update_of_ne hq]
      exact ⟨.inr, fun hor => hor.elim (fun hno => absurd hno.1 hq) id⟩
  refine ⟨h.ref_close hfds, ?_, ?_, ?_, ?_, h.kfrees⟩
  · intro q
    show (Function.update s.pc p _ q).Held (Function.update s.fds p _ q)
    by_cases hq : q = p
    · rw [hq, Function.update_self (f := s.pc)]
      trivial
    · rw [Function.update_of_ne hq, Function.update_of_ne hq]
      exact h.held q
  · intro q e' hq
    show Function.update s.ref e (s.ref e - 1) e' = 0
    obtain ⟨-, rfl⟩ | hold := (hpc q e').mp hq
    · rw [Function.update_self, hlast]
    · have he : e' ≠ e := by
        intro he
        rw [he] at hold
        exact h.nobody_closing hfds q hold
      rw [Function.update_of_ne he]
      exact h.closing q e' hold
  · intro q q' e' hq hq'
    obtain ⟨rfl, he⟩ | hold := (hpc q e').mp hq
    · obtain ⟨rfl, -⟩ | hold' := (hpc q' e').mp hq'
      · rfl
      · rw [he] at hold'
        exact absurd hold' (h.nobody_closing hfds q')
    · obtain ⟨-, he⟩ | hold' := (hpc q' e').mp hq'
      · rw [he] at hold
        exact absurd hold (h.nobody_closing hfds q)
      · exact h.alone q q' e' hold hold'
  · intro e'
    show s.pipe.isOpen e' = true ↔ 0 < Function.update s.ref e (s.ref e - 1) e' ∨
      ∃ q, Function.update s.pc p (.pipeclose e) q = .pipeclose e'
    rw [h.isOpen e', exists_congr fun q => hpc q e']
    by_cases he : e' = e
    · rw [he, Function.update_self, hlast]
      exact ⟨fun _ => .inr ⟨p, .inl ⟨rfl, rfl⟩⟩, fun _ => .inl Nat.one_pos⟩
    · rw [Function.update_of_ne he]
      refine or_congr Iff.rfl (exists_congr fun q => ?_)
      exact ⟨.inr, fun hor => hor.elim (fun hno => absurd hno.2 he) id⟩

theorem fileclose (h : Ends s) (hidle : s.pc p = .idle) (hfds : 0 < s.fds p e) :
    Ends (s.fileclose p e) := by
  have hle := h.fds_le p e
  have href : Function.update s.ref e (s.ref e - 1) e = s.ref e - 1 := Function.update_self ..
  unfold State.fileclose
  dsimp only
  split_ifs with hpos
  · rw [href] at hpos
    exact h.fileclose_more hidle hfds hpos
  · rw [href] at hpos
    exact h.fileclose_last hidle hfds (by omega)

/-- The end is closed, and the page freed if the other one is closed already. -/
theorem pipeclose (h : Ends s) (hp : s.pc p = .pipeclose e) :
    Ends ((s.pipeclose e).setPc p .idle) := by
  have h0 := h.closing p e hp
  have hopen := (h.isOpen e).mpr (.inr ⟨p, hp⟩)
  obtain ⟨hpc, href, hfds, hisOpen, hkfrees⟩ := pipeclose_rest s e
  have hclose : ∀ q e', Function.update s.pc p .idle q = .pipeclose e' ↔
      s.pc q = .pipeclose e' ∧ e' ≠ e := by
    intro q e'
    by_cases hq : q = p
    · rw [hq, Function.update_self, hp]
      constructor
      · intro hno
        cases hno
      · rintro ⟨heq, hne⟩
        cases heq
        exact absurd rfl hne
    · rw [Function.update_of_ne hq]
      refine ⟨fun hold => ⟨hold, ?_⟩, And.left⟩
      intro he
      rw [he] at hold
      exact hq (h.alone q p e hold hp)
  have hpc' : ((s.pipeclose e).setPc p .idle).pc = Function.update s.pc p .idle := by
    rw [← hpc]
    rfl
  refine ⟨?_, ?_, ?_, ?_, ?_, ?_⟩
  · intro e'
    show (s.pipeclose e).ref e' = ∑ q, (s.pipeclose e).fds q e'
    rw [href, hfds]
    exact h.ref e'
  · intro q
    rw [hpc']
    show (Function.update s.pc p .idle q).Held ((s.pipeclose e).fds q)
    rw [hfds]
    by_cases hq : q = p
    · rw [hq, Function.update_self]
      trivial
    · rw [Function.update_of_ne hq]
      exact h.held q
  · intro q e' hq
    rw [hpc'] at hq
    show (s.pipeclose e).ref e' = 0
    rw [href]
    exact h.closing q e' ((hclose q e').mp hq).1
  · intro q q' e' hq hq'
    rw [hpc'] at hq hq'
    exact h.alone q q' e' ((hclose q e').mp hq).1 ((hclose q' e').mp hq').1
  · intro e'
    show (s.pipeclose e).pipe.isOpen e' = true ↔ 0 < (s.pipeclose e).ref e' ∨ _
    rw [hpc', href, exists_congr fun q => hclose q e', hisOpen]
    by_cases he : e' = e
    · rw [he, Function.update_self, h0]
      constructor
      · intro hno
        cases hno
      · rintro (hno | ⟨q, -, hno⟩)
        · cases hno
        · exact absurd rfl hno
    · rw [Function.update_of_ne he, h.isOpen e']
      refine or_congr Iff.rfl (exists_congr fun q => ?_)
      exact ⟨fun hq => ⟨hq, he⟩, And.left⟩
  · show (s.pipeclose e).kfrees = _
    rw [hkfrees]
    have hold : s.kfrees = 0 := by
      rw [h.kfrees, if_neg]
      rintro ⟨hread, hwrite⟩
      cases e with
      | read => exact absurd (hopen.symm.trans hread) Bool.noConfusion
      | write => exact absurd (hopen.symm.trans hwrite) Bool.noConfusion
    rw [hold, Nat.zero_add]
    rfl

theorem step {a : Action P} (h : Ends s) (hs : Pipes.step s a = some t) : Ends t := by
  cases a with
  | write p addr =>
    obtain ⟨⟨hidle, hfds, -⟩, hs⟩ := Option.ite_none_right_eq_some.mp hs
    cases hs
    refine h.call (p := p) (k := .pipewrite addr 0) rfl ?_ ?_ hfds rfl rfl rfl rfl rfl
    · intro e hno
      rw [hidle] at hno
      cases hno
    · intro e hno
      cases hno
  | read p n =>
    obtain ⟨⟨hidle, hfds, -⟩, hs⟩ := Option.ite_none_right_eq_some.mp hs
    cases hs
    refine h.call (p := p) (k := .piperead n) rfl ?_ ?_ hfds rfl rfl rfl rfl rfl
    · intro e hno
      rw [hidle] at hno
      cases hno
    · intro e hno
      cases hno
  | run p seen =>
    obtain ⟨-, hs⟩ := Option.ite_none_right_eq_some.mp hs
    unfold State.run at hs
    cases hp : s.pc p with
    | idle =>
      rw [hp] at hs
      cases hs
    | pipewrite addr i =>
      rw [hp] at hs
      cases hs
      exact h.pipewrite hp seen
    | piperead n =>
      rw [hp] at hs
      cases hs
      exact h.piperead hp seen
    | pipeclose e =>
      rw [hp] at hs
      cases hs
      exact h.pipeclose hp
  | kill p =>
    cases hs
    exact ⟨h.ref, h.held, h.closing, h.alone, h.isOpen, h.kfrees⟩
  | dup p e =>
    obtain ⟨⟨-, hfds⟩, hs⟩ := Option.ite_none_right_eq_some.mp hs
    cases hs
    exact h.filedup hfds
  | fork p c =>
    obtain ⟨⟨-, hidle, hread, hwrite⟩, hs⟩ := Option.ite_none_right_eq_some.mp hs
    cases hs
    refine h.fork hidle fun e => ?_
    cases e with
    | read => exact hread
    | write => exact hwrite
  | close p e =>
    obtain ⟨⟨hidle, hfds⟩, hs⟩ := Option.ite_none_right_eq_some.mp hs
    cases hs
    exact h.fileclose hidle hfds

theorem pipealloc (p : P) (data : Fin PIPESIZE → Byte) : Ends (Pipes.pipealloc p data) := by
  refine ⟨?_, fun _ => trivial, ?_, ?_, ?_, rfl⟩
  · intro e
    exact (Fintype.sum_ite_eq' p fun _ => 1).symm
  · intro q e hq
    cases hq
  · intro q q' e hq
    cases hq
  · intro e
    refine ⟨fun _ => .inl Nat.one_pos, fun _ => ?_⟩
    cases e <;> rfl

end Ends

/-- In every run the reference counts are those of the descriptors, an end is open exactly as long
as somebody can still use or close it, and the page is freed at most once, and only when nobody
can come to it any more. -/
theorem ends_of_reach [DecidableEq P] {data : Fin PIPESIZE → Byte}
    (hr : Reachable step (pipealloc p data) s) :
    Ends s ∧ (0 < s.kfrees → s.kfrees = 1 ∧ (∀ q e, s.fds q e = 0) ∧ ∀ q, s.pc q = .idle) := by
  have hends : Ends s := hr.invariant (Ends.pipealloc p data) fun _ _ _ h _ hs => h.step hs
  exact ⟨hends, hends.unused⟩

theorem ends_of_reach_parentReads : parentReads.ref .write = 1 ∧ Ends parentReads :=
  ⟨by decide +kernel, (ends_of_reach reachable_parentReads).1⟩

end Xv6.Pipes
