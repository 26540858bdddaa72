import Xv6.Io.PipeEnds

/-!
# Sleeping at a pipe

A reader sleeps at an empty pipe and a writer at a full one. `pipewrite` wakes the readers when it
is done and before it sleeps, but not when it gives up: a writer that is killed leaves a reader
asleep beside the bytes that it has stored.
-/

namespace Xv6.Pipes
open Buffer Transition Wait

/-- Where a process can sleep in its call. -/
def Pc.chan : Pc → Option Chan
  | .pipewrite _ _ => some .nwrite
  | .piperead _ => some .nread
  | _ => none

variable {P : Type*} [DecidableEq P] {s t : State P} {p q : P} {seen : Bool} {a : Action P}
  {addr : List Byte} {i n : Nat}

/-- The writer is killed, has stored something and finds the pipe full, while a reader sleeps. -/
def State.GivesUp (s : State P) (seen : Bool) : Pc → Prop
  | .pipewrite addr i =>
    seen = true ∧ 0 < (s.pipe.fill (addr.drop i)).2 ∧
      i + (s.pipe.fill (addr.drop i)).2 ≠ addr.length ∧ ∃ q, s.chan q = some .nread
  | _ => False

def Abandons (s : State P) : Action P → Prop
  | .run p seen => s.GivesUp seen (s.pc p)
  | _ => False

instance [Fintype P] (s : State P) (seen : Bool) : (k : Pc) → Decidable (s.GivesUp seen k)
  | .pipewrite _ _ => inferInstanceAs (Decidable (_ ∧ _ ∧ _ ∧ ∃ q, s.chan q = some .nread))
  | .idle | .piperead _ | .pipeclose _ => inferInstanceAs (Decidable False)

instance [Fintype P] (s : State P) : (a : Action P) → Decidable (Abandons s a)
  | .run p seen => inferInstanceAs (Decidable (s.GivesUp seen (s.pc p)))
  | .write _ _ | .read _ _ | .kill _ | .dup _ _ | .fork _ _ | .close _ _ =>
    inferInstanceAs (Decidable False)

/-- Whoever sleeps does so in a call, and has something to wait for. -/
structure Sleeps (s : State P) : Prop where
  call : ∀ p c, s.chan p = some c → (s.pc p).chan = some c
  waits : Waits s.pipe.blocked s.chan

/-! ### The loops -/

namespace Pipe

variable {p : Pipe}

theorem fill_full (h : p.full = true) (bs : List Byte) : p.fill bs = (p, 0) := by
  cases bs with
  | nil => rfl
  | cons b bs =>
    unfold fill
    rw [if_pos h]

theorem fill_zero {bs : List Byte} (h : (p.fill bs).2 = 0) : (p.fill bs).1 = p := by
  cases bs with
  | nil => rfl
  | cons b bs =>
    unfold fill at h ⊢
    split at h
    · next hfull => rw [if_pos hfull]
    · cases h

end Pipe

namespace Sleeps

omit [DecidableEq P] in
theorem chan_of_idle (h : Sleeps s) (hidle : (s.pc p).chan = none) : s.chan p = none := by
  cases hc : s.chan p with
  | none => rfl
  | some c =>
    have hcall := h.call p c hc
    rw [hidle] at hcall
    cases hcall

omit [DecidableEq P] in
theorem readopen [Fintype P] (h : Sleeps s) (he : Ends s) (hq : s.chan q = some .nread) :
    s.pipe.readopen = true := by
  have hcall := h.call q _ hq
  have hheld := he.held q
  cases hpc : s.pc q with
  | piperead n =>
    rw [hpc] at hheld
    exact he.open_of_held (e := .read) hheld
  | idle =>
    rw [hpc] at hcall
    cases hcall
  | pipewrite addr i =>
    rw [hpc] at hcall
    cases hcall
  | pipeclose e =>
    rw [hpc] at hcall
    cases hcall

theorem setPc {k : Pc} (h : Sleeps s) (hp : s.chan p = none) : Sleeps (s.setPc p k) := by
  refine ⟨?_, h.waits⟩
  intro q c hq
  have hq' : s.chan q = some c := hq
  have hne : q ≠ p := by
    intro heq
    rw [heq, hp] at hq'
    cases hq'
  show (Function.update s.pc p k q).chan = some c
  rw [Function.update_of_ne hne]
  exact h.call q c hq'

theorem pipewrite [Fintype P] (h : Sleeps s) (hstream : Stream s) (he : Ends s)
    (hp : s.pc p = .pipewrite addr i) (hchan : s.chan p = none)
    (hok : ¬ s.GivesUp seen (s.pc p)) : Sleeps (s.pipewrite p seen addr i) := by
  have hfill := Pipe.fill_spec (addr.drop i) hstream.size
  have hlen : (addr.drop i).length = addr.length - i := List.length_drop
  have hi := hstream.index p addr i hp
  obtain ⟨hpipe, -⟩ := pipewrite_rest s p seen addr i
  obtain ⟨hread, hwrite⟩ := Pipe.fill_open s.pipe (addr.drop i)
  have hcases := pipewrite_written s p seen addr i
  have hle := hfill.le
  -- A full pipe stays as it is, and so the writers may sleep on.
  have hfull : ∀ d, d ≠ .nread → s.pipe.blocked d → (s.pipewrite p seen addr i).pipe.blocked d := by
    intro d hd hb
    cases d with
    | nread => exact absurd rfl hd
    | nwrite =>
      rw [hpipe, Pipe.fill_full hb.1]
      exact hb
  have hcall : ∀ q d, q ≠ p → s.chan q = some d → ∀ {k},
      (s.pipewrite p seen addr i).pc = Function.update s.pc p k →
      ((s.pipewrite p seen addr i).pc q).chan = some d := by
    intro q d hq hd k hpc
    rw [hpc, Function.update_of_ne hq]
    exact h.call q d hd
  have hne : ∀ {q d}, s.chan q = some d → q ≠ p := by
    intro q d hd hq
    rw [hq, hchan] at hd
    cases hd
  cases hcases with
  | all _ hpc hch _ _ =>
    refine ⟨?_, ?_⟩
    · intro q d hq
      rw [hch] at hq
      have hold := (wakeup_eq_some.mp hq).1
      exact hcall q d (hne hold) hold hpc
    · rw [hch]
      exact h.waits.wakeup hfull
  | stop hshort hstop hpc hch _ _ =>
    refine ⟨?_, ?_⟩
    · intro q d hq
      rw [hch] at hq
      exact hcall q d (hne hq) hq hpc
    rw [hch, hpipe]
    by_cases hz : (s.pipe.fill (addr.drop i)).2 = 0
    · rw [Pipe.fill_zero hz]
      exact h.waits
    -- Nobody sleeps: the pipe was not full, and no reader is there.
    intro q d hq
    cases d with
    | nwrite =>
      have hb := h.waits q _ hq
      rw [Pipe.fill_full hb.1] at hz
      exact absurd rfl hz
    | nread =>
      have hopen := h.readopen he hq
      cases hstop with
      | inl hclosed =>
        rw [hread, hopen] at hclosed
        cases hclosed
      | inr hseen =>
        apply absurd _ hok
        rw [hp]
        exact ⟨hseen, Nat.pos_of_ne_zero hz, hshort, q, hq⟩
  | sleep hshort hopen _ hpc hch _ =>
    refine ⟨?_, ?_⟩
    · intro q d hq
      rw [hch] at hq
      by_cases hqp : q = p
      · rw [hqp, sleep_self] at hq
        cases hq
        rw [hqp, hpc, Function.update_self]
        rfl
      · rw [sleep_ne hqp] at hq
        exact hcall q d hqp (wakeup_eq_some.mp hq).1 hpc
    · rw [hch]
      refine (h.waits.wakeup hfull).sleep ?_
      rw [hpipe]
      exact ⟨hfill.full (by omega), hopen⟩

theorem piperead (h : Sleeps s) (hp : s.pc p = .piperead n) (hchan : s.chan p = none) :
    Sleeps (s.piperead p seen n) := by
  have hidle := h.setPc (k := .idle) hchan
  cases piperead_read s p seen n with
  | stop _ _ heq =>
    rw [heq]
    exact ⟨hidle.call, hidle.waits⟩
  | sleep hempty hopen _ heq =>
    rw [heq]
    refine ⟨?_, h.waits.sleep ⟨hempty, hopen⟩⟩
    intro q d hq
    have hq' : sleep s.chan p .nread q = some d := hq
    show (s.pc q).chan = some d
    by_cases hqp : q = p
    · rw [hqp, sleep_self] at hq'
      cases hq'
      rw [hqp, hp]
      rfl
    · rw [sleep_ne hqp] at hq'
      exact h.call q d hq'
  | all hopen heq =>
    rw [heq]
    refine ⟨?_, h.waits.wakeup ?_⟩
    · intro q d hq
      exact hidle.call q d (wakeup_eq_some.mp hq).1
    · intro d hd hb
      cases d with
      | nwrite => exact absurd rfl hd
      | nread =>
        have hclosed := hopen hb.1
        rw [hb.2] at hclosed
        cases hclosed

omit [DecidableEq P] in
theorem pipeclose (h : Sleeps s) (e : End) : Sleeps (s.pipeclose e) := by
  have hpc := (pipeclose_rest s e).1
  have hch : ∃ c, (s.pipeclose e).chan = wakeup s.chan c ∧
      ∀ d, d ≠ c → s.pipe.blocked d → (s.pipeclose e).pipe.blocked d := by
    unfold State.pipeclose
    cases e with
    | read =>
      refine ⟨.nwrite, ?_, ?_⟩
      · dsimp only
        split_ifs <;> rfl
      · intro d hd hb
        cases d with
        | nwrite => exact absurd rfl hd
        | nread =>
          dsimp only
          split_ifs <;> exact hb
    | write =>
      refine ⟨.nread, ?_, ?_⟩
      · dsimp only
        split_ifs <;> rfl
      · intro d hd hb
        cases d with
        | nread => exact absurd rfl hd
        | nwrite =>
          dsimp only
          split_ifs <;> exact hb
  obtain ⟨c, hc, himp⟩ := hch
  refine ⟨?_, ?_⟩
  · intro q d hq
    rw [hpc]
    rw [hc] at hq
    exact h.call q d (wakeup_eq_some.mp hq).1
  · rw [hc]
    exact h.waits.wakeup himp

theorem fileclose {e : End} (h : Sleeps s) (hidle : s.pc p = .idle) : Sleeps (s.fileclose p e) := by
  have hnone : s.chan p = none := by
    apply h.chan_of_idle
    rw [hidle]
    rfl
  have hclose := h.setPc (k := .pipeclose e) hnone
  unfold State.fileclose
  dsimp only
  split_ifs
  · exact ⟨h.call, h.waits⟩
  · exact ⟨hclose.call, hclose.waits⟩

theorem step [Fintype P] (h : Sleeps s) (hstream : Stream s) (he : Ends s)
    (hok : ¬ Abandons s a) (hs : Pipes.step s a = some t) : Sleeps t := by
  cases a with
  | write p addr =>
    obtain ⟨⟨hidle, -, -⟩, hs⟩ := Option.ite_none_right_eq_some.mp hs
    cases hs
    apply h.setPc (h.chan_of_idle _)
    rw [hidle]
    rfl
  | read p n =>
    obtain ⟨⟨hidle, -, -⟩, hs⟩ := Option.ite_none_right_eq_some.mp hs
    cases hs
    apply h.setPc (h.chan_of_idle _)
    rw [hidle]
    rfl
  | run p seen =>
    obtain ⟨⟨hchan, -⟩, hs⟩ := Option.ite_none_right_eq_some.mp hs
    unfold State.run at hs
    cases hp : s.pc p with
    | idle =>
      rw [hp] at hs
      cases hs
    | pipewrite addr i =>
      rw [hp] at hs
      cases hs
      exact h.pipewrite hstream he hp hchan hok
    | piperead n =>
      rw [hp] at hs
      cases hs
      exact h.piperead hp hchan
    | pipeclose e =>
      rw [hp] at hs
      cases hs
      have hnone : (s.pipeclose e).chan p = none := by
        apply (h.pipeclose e).chan_of_idle
        rw [(pipeclose_rest s e).1, hp]
        rfl
      exact (h.pipeclose e).setPc hnone
  | kill p =>
    cases hs
    refine ⟨?_, h.waits.rouse⟩
    intro q d hq
    have hq' : rouse s.chan p q = some d := hq
    unfold rouse at hq'
    by_cases hqp : q = p
    · rw [hqp, Function.update_self] at hq'
      cases hq'
    · rw [Function.update_of_ne hqp] at hq'
      exact h.call q d hq'
  | dup p e =>
    obtain ⟨-, hs⟩ := Option.ite_none_right_eq_some.mp hs
    cases hs
    exact ⟨h.call, h.waits⟩
  | fork p c =>
    obtain ⟨-, hs⟩ := Option.ite_none_right_eq_some.mp hs
    cases hs
    exact ⟨h.call, h.waits⟩
  | close p e =>
    obtain ⟨⟨hidle, -⟩, hs⟩ := Option.ite_none_right_eq_some.mp hs
    cases hs
    exact h.fileclose hidle

end Sleeps

/-- A writer that gives up leaves a reader asleep at a pipe that is not empty. -/
theorem not_waits_of_abandons (hstream : Stream s) (hok : Abandons s a)
    (hs : Pipes.step s a = some t) : ¬ Waits t.pipe.blocked t.chan := by
  cases a with
  | run p seen =>
    obtain ⟨-, hs⟩ := Option.ite_none_right_eq_some.mp hs
    unfold State.run at hs
    have hgives : s.GivesUp seen (s.pc p) := hok
    cases hp : s.pc p with
    | pipewrite addr i =>
      rw [hp] at hs hgives
      cases hs
      obtain ⟨hseen, hpos, hshort, q, hq⟩ := hgives
      have hfill := Pipe.fill_spec (addr.drop i) hstream.size
      obtain ⟨hpipe, -⟩ := pipewrite_rest s p seen addr i
      cases pipewrite_written s p seen addr i with
      | all hall _ _ _ _ => exact absurd hall hshort
      | sleep _ _ hno _ _ _ =>
        rw [hseen] at hno
        cases hno
      | stop _ _ _ hch _ _ =>
        intro hw
        have hempty := (hw q .nread (by rw [hch]; exact hq)).1
        rw [Pipe.empty_iff, hpipe, hfill.contents, List.append_eq_nil_iff] at hempty
        have hlen := congrArg List.length hempty.2
        have hle := hfill.le
        rw [List.length_take, List.length_nil] at hlen
        omega
    | idle =>
      rw [hp] at hgives
      exact hgives.elim
    | piperead n =>
      rw [hp] at hgives
      exact hgives.elim
    | pipeclose e =>
      rw [hp] at hgives
      exact hgives.elim
  | write p addr => exact hok.elim
  | read p n => exact hok.elim
  | kill p => exact hok.elim
  | dup p e => exact hok.elim
  | fork p c => exact hok.elim
  | close p e => exact hok.elim

/-- No wakeup is lost as long as no killed writer gives up a write beside a sleeping reader, and
such a write does lose one: in every run up to it, who sleeps at the pipe has something to wait
for. -/
theorem sleeps_of_reach [Fintype P] {data : Fin PIPESIZE → Byte}
    (hr : Reach step (fun s a => ¬ Abandons s a) (pipealloc p data) s) :
    Waits s.pipe.blocked s.chan ∧
    ∀ a t, step s a = some t → (Abandons s a ↔ ¬ Waits t.pipe.blocked t.chan) := by
  have h : Stream s ∧ Ends s ∧ Sleeps s := by
    refine hr.invariant (I := fun s => Stream s ∧ Ends s ∧ Sleeps s) ?_ ?_
    · refine ⟨Stream.pipealloc p data, Ends.pipealloc p data, ?_, Waits.nobody⟩
      intro q c hq
      cases hq
    · intro u a v hu hok hs
      exact ⟨hu.1.step hs, hu.2.1.step hs, hu.2.2.step hu.1 hu.2.1 hok hs⟩
  refine ⟨h.2.2.waits, ?_⟩
  intro a t hs
  constructor
  · intro hab
    exact not_waits_of_abandons h.1 hab hs
  · intro hno
    by_contra hab
    exact hno (h.2.2.step h.1 h.2.1 hab hs).waits

/-- A parent that waits for what its child writes. -/
def readerWaits : State Bool :=
  (run (guarded step fun s a => ¬ Abandons s a) (pipealloc true fun _ => 0) [.fork true false,
    .close true .write, .close false .read, .read true 4, .run true false]).getD (pipealloc true fun _ => 0)

theorem sleeps_of_reach_readerWaits :
    readerWaits.chan true = some .nread ∧ Waits readerWaits.pipe.blocked readerWaits.chan :=
  ⟨by decide +kernel,
    (sleeps_of_reach (reach_of_guarded_run (eq_some_getD (by decide +kernel)))).1⟩

end Xv6.Pipes
