import Xv6.Io.Pipe

/-!
# The bytes in a pipe

What `pipewrite` stores comes out of `piperead` once and in order, whoever writes and reads, and
however often the indices wrap.
-/

namespace Xv6.Pipes
open Buffer Transition Wait

namespace Pipe

variable {p : Pipe}

/-- How many bytes were written and not read. -/
def size (p : Pipe) : Nat := (p.nwrite - p.nread).toNat

theorem length_contents (p : Pipe) : p.contents.length = p.size := Ring.length_window ..

theorem full_iff : p.full = true ↔ p.size = PIPESIZE := by
  unfold full size
  rw [beq_iff_eq]
  constructor
  · intro h
    have hsub : p.nread + BitVec.ofNat 32 PIPESIZE - p.nread = BitVec.ofNat 32 PIPESIZE := by ring
    rw [h, hsub]
    rfl
  · intro h
    have hsub : p.nwrite - p.nread = BitVec.ofNat 32 PIPESIZE := BitVec.eq_of_toNat_eq h
    rw [← hsub]
    ring

theorem empty_iff : p.empty = true ↔ p.contents = [] := by
  unfold empty contents
  rw [beq_iff_eq, Ring.window_eq_nil]

theorem contents_put (h : p.size < PIPESIZE) (b : Byte) :
    (p.put b).contents = p.contents ++ [b] :=
  Ring.window_push (by decide) h (by decide)

theorem size_put (h : p.size < PIPESIZE) (b : Byte) : (p.put b).size = p.size + 1 := by
  rw [← length_contents, contents_put h, List.length_append, length_contents]
  rfl

/-- What the loop of `pipewrite` leaves. -/
structure Filled (p : Pipe) (bs : List Byte) (q : Pipe) (n : Nat) : Prop where
  le : n ≤ bs.length
  contents : q.contents = p.contents ++ bs.take n
  size : q.size ≤ PIPESIZE
  full : n < bs.length → q.full = true

theorem fill_spec (bs : List Byte) (h : p.size ≤ PIPESIZE) :
    Filled p bs (p.fill bs).1 (p.fill bs).2 := by
  induction bs generalizing p with
  | nil =>
    refine ⟨Nat.le_refl _, (List.append_nil _).symm, h, ?_⟩
    intro hlt
    cases hlt
  | cons b bs ih =>
    unfold fill
    by_cases hfull : p.full = true
    · rw [if_pos hfull]
      exact ⟨Nat.zero_le _, (List.append_nil _).symm, h, fun _ => hfull⟩
    · rw [if_neg hfull]
      have hlt : p.size < PIPESIZE := by
        rw [full_iff] at hfull
        omega
      have hput := size_put hlt b
      have hrest := ih (p := p.put b) (by omega)
      refine ⟨Nat.succ_le_succ hrest.le, ?_, hrest.size, ?_⟩
      · rw [List.take_succ_cons, hrest.contents, contents_put hlt, List.append_assoc]
        rfl
      · intro hn
        exact hrest.full (Nat.lt_of_succ_lt_succ hn)

theorem fill_open (p : Pipe) (bs : List Byte) :
    (p.fill bs).1.readopen = p.readopen ∧ (p.fill bs).1.writeopen = p.writeopen := by
  induction bs generalizing p with
  | nil => exact ⟨rfl, rfl⟩
  | cons b bs ih =>
    unfold fill
    split
    · exact ⟨rfl, rfl⟩
    · exact ih (p.put b)

/-- What the loop of `piperead` leaves. -/
structure Drained (p : Pipe) (n : Nat) (q : Pipe) (bs : List Byte) : Prop where
  contents : p.contents = bs ++ q.contents
  le : bs.length ≤ n
  empty : bs.length < n → q.empty = true
  readopen : q.readopen = p.readopen
  writeopen : q.writeopen = p.writeopen

theorem drain_spec (n : Nat) (p : Pipe) : Drained p n (p.drain n).1 (p.drain n).2 := by
  induction n generalizing p with
  | zero =>
    refine ⟨rfl, Nat.le_refl _, ?_, rfl, rfl⟩
    intro hlt
    cases hlt
  | succ n ih =>
    unfold drain
    by_cases hempty : p.empty = true
    · rw [if_pos hempty]
      exact ⟨rfl, Nat.zero_le _, fun _ => hempty, rfl, rfl⟩
    · rw [if_neg hempty]
      have hne : p.nread ≠ p.nwrite := by
        intro heq
        unfold empty at hempty
        rw [beq_iff_eq] at hempty
        exact hempty heq
      have hrest := ih { p with nread := p.nread + 1 }
      refine ⟨?_, Nat.succ_le_succ hrest.le, ?_, hrest.readopen, hrest.writeopen⟩
      · rw [List.cons_append, ← hrest.contents]
        exact Ring.window_pop hne
      · intro hlt
        exact hrest.empty (Nat.lt_of_succ_lt_succ hlt)

theorem Drained.size_le {n : Nat} {q : Pipe} {bs : List Byte} (h : Drained p n q bs) :
    q.size ≤ p.size := by
  rw [← length_contents, ← length_contents, h.contents, List.length_append]
  omega

end Pipe

variable {P : Type*} [DecidableEq P] {s t : State P} {p : P} {seen : Bool} {addr : List Byte}
  {i n : Nat}

/-- What a call of `pipewrite` has stored so far. -/
def Pc.begun : Pc → List Byte
  | .pipewrite addr i => addr.take i
  | _ => []

/-- What came from a process, in order. -/
def State.sentBy (s : State P) (p : P) : List Byte :=
  (s.sent.filter fun x => x.1 = p).map Prod.snd

/-- The pipe has what was sent and not received, and what a process sends is what it gives to
`pipewrite`. -/
structure Stream (s : State P) : Prop where
  size : s.pipe.size ≤ PIPESIZE
  contents : s.sent.map Prod.snd = s.received ++ s.pipe.contents
  sentBy : ∀ p, s.sentBy p = s.stored p ++ (s.pc p).begun
  index : ∀ p addr i, s.pc p = .pipewrite addr i → i ≤ addr.length

/-- What a run of `p` that ends its call returns. A write is cut short when the pipe is full and
nobody can read it or the writer is killed; a read is shorter than it could be only when the pipe
is empty, and returns 0 only when the last writer is gone. -/
def Returned (s t : State P) (p : P) (seen : Bool) : Pc → Prop
  | .idle | .pipeclose _ => True
  | .pipewrite addr i =>
    (t.ret p = addr.length ∧ t.stored p = s.stored p ++ addr) ∨
    (t.ret p = -1 ∧ t.pipe.full = true ∧ (t.pipe.readopen = false ∨ seen = true) ∧
      ∃ k, i ≤ k ∧ k < addr.length ∧ t.stored p = s.stored p ++ addr.take k)
  | .piperead n =>
    (t.ret p = -1 ∧ seen = true ∧ t.received = s.received) ∨
    (t.ret p = (t.copied p).length ∧ t.received = s.received ++ t.copied p ∧
      (t.copied p).length ≤ n ∧ ((t.copied p).length < n → t.pipe.empty = true) ∧
      (t.copied p = [] → 0 < n → s.pipe.empty = true ∧ s.pipe.writeopen = false))

/-! ### One step -/

theorem sentBy_append (s : State P) (p q : P) (bs : List Byte) :
    ((s.sent ++ bs.map fun b => (p, b)).filter fun x => x.1 = q).map Prod.snd =
      s.sentBy q ++ if q = p then bs else [] := by
  rw [List.filter_append, List.map_append]
  congr 1
  by_cases hq : q = p
  · subst hq
    rw [if_pos rfl, List.filter_eq_self.mpr, List.map_map]
    · exact List.map_id bs
    · intro x hx
      obtain ⟨b, -, rfl⟩ := List.mem_map.mp hx
      exact decide_eq_true rfl
  · rw [if_neg hq, List.filter_eq_nil_iff.mpr]
    · rfl
    · intro x hx
      obtain ⟨b, -, rfl⟩ := List.mem_map.mp hx
      rw [decide_eq_true_eq]
      exact Ne.symm hq

/-- The three ends of a run of `pipewrite`: everything is stored, it gives up, or it sleeps. -/
inductive Written (s : State P) (p : P) (seen : Bool) (addr : List Byte) (i : Nat)
    (r : Pipe × Nat) (t : State P) : Prop where
  | all : i + r.2 = addr.length → t.pc = Function.update s.pc p .idle →
      t.chan = wakeup s.chan .nread → t.ret p = addr.length →
      t.stored = Function.update s.stored p (s.stored p ++ addr) → Written s p seen addr i r t
  | stop : i + r.2 ≠ addr.length → r.1.readopen = false ∨ seen = true →
      t.pc = Function.update s.pc p .idle → t.chan = s.chan → t.ret p = -1 →
      t.stored = Function.update s.stored p (s.stored p ++ addr.take (i + r.2)) →
      Written s p seen addr i r t
  | sleep : i + r.2 ≠ addr.length → r.1.readopen = true → seen = false →
      t.pc = Function.update s.pc p (.pipewrite addr (i + r.2)) →
      t.chan = sleep (wakeup s.chan .nread) p .nwrite → t.stored = s.stored →
      Written s p seen addr i r t

theorem pipewrite_written (s : State P) (p : P) (seen : Bool) (addr : List Byte) (i : Nat) :
    Written s p seen addr i (s.pipe.fill (addr.drop i)) (s.pipewrite p seen addr i) := by
  unfold State.pipewrite
  dsimp only
  by_cases hall : i + (s.pipe.fill (addr.drop i)).2 = addr.length
  · rw [if_pos hall]
    exact .all hall rfl rfl (Function.update_self ..) rfl
  rw [if_neg hall]
  by_cases hstop : (s.pipe.fill (addr.drop i)).1.readopen = false ∨ seen = true
  · rw [if_pos hstop]
    exact .stop hall hstop rfl rfl (Function.update_self ..) rfl
  · rw [if_neg hstop]
    rw [not_or, Bool.not_eq_false, Bool.not_eq_true] at hstop
    exact .sleep hall hstop.1 hstop.2 rfl rfl rfl

/-- Beside this `pipewrite` changes the pipe and what was sent. -/
theorem pipewrite_rest (s : State P) (p : P) (seen : Bool) (addr : List Byte) (i : Nat) :
    (s.pipewrite p seen addr i).pipe = (s.pipe.fill (addr.drop i)).1 ∧
    (s.pipewrite p seen addr i).sent = s.sent ++
      ((addr.drop i).take (s.pipe.fill (addr.drop i)).2).map (fun b => (p, b)) ∧
    (s.pipewrite p seen addr i).received = s.received ∧
    (s.pipewrite p seen addr i).ref = s.ref ∧ (s.pipewrite p seen addr i).fds = s.fds ∧
    (s.pipewrite p seen addr i).kfrees = s.kfrees := by
  unfold State.pipewrite
  dsimp only
  split_ifs <;> exact ⟨rfl, rfl, rfl, rfl, rfl, rfl⟩

/-- The three ends of a run of `piperead`. -/
inductive Read (s : State P) (p : P) (seen : Bool) (n : Nat) (r : Pipe × List Byte)
    (t : State P) : Prop where
  | stop : s.pipe.empty = true → seen = true → t = s.done p (-1) [] → Read s p seen n r t
  | sleep : s.pipe.empty = true → s.pipe.writeopen = true → seen = false →
      t = { s with chan := sleep s.chan p .nread } → Read s p seen n r t
  | all : (s.pipe.empty = true → s.pipe.writeopen = false) →
      t = { s with
        pipe := r.1
        received := s.received ++ r.2
        chan := wakeup s.chan .nwrite }.done p r.2.length r.2 → Read s p seen n r t

theorem piperead_read (s : State P) (p : P) (seen : Bool) (n : Nat) :
    Read s p seen n (s.pipe.drain n) (s.piperead p seen n) := by
  unfold State.piperead
  by_cases hwait : s.pipe.empty = true ∧ s.pipe.writeopen = true
  · rw [if_pos hwait]
    cases seen with
    | true => exact .stop hwait.1 rfl rfl
    | false => exact .sleep hwait.1 hwait.2 rfl rfl
  · rw [if_neg hwait]
    apply Read.all _ rfl
    intro hempty
    rw [not_and, Bool.not_eq_true] at hwait
    exact hwait hempty

omit [DecidableEq P] in
@[simp] theorem pipeclose_pc (s : State P) (e : End) : (s.pipeclose e).pc = s.pc := by
  unfold State.pipeclose
  cases e <;> dsimp only <;> split_ifs <;> rfl

namespace Stream

theorem setPc (h : Stream s) {k : Pc} (hold : (s.pc p).begun = []) (hnew : k.begun = [])
    (hk : ∀ addr i, k = .pipewrite addr i → i ≤ addr.length) : Stream (s.setPc p k) := by
  refine ⟨h.size, h.contents, ?_, ?_⟩
  · intro q
    have hq := h.sentBy q
    show s.sentBy q = s.stored q ++ (Function.update s.pc p k q).begun
    by_cases hqp : q = p
    · subst hqp
      rw [Function.update_self, hnew]
      rw [hold] at hq
      exact hq
    · rw [Function.update_of_ne hqp]
      exact hq
  · intro q addr i hq
    have hq' : Function.update s.pc p k q = .pipewrite addr i := hq
    by_cases hqp : q = p
    · rw [hqp, Function.update_self] at hq'
      exact hk addr i hq'
    · rw [Function.update_of_ne hqp] at hq'
      exact h.index q addr i hq'

theorem pipewrite (h : Stream s) (hp : s.pc p = .pipewrite addr i) (seen : Bool) :
    Stream (s.pipewrite p seen addr i) := by
  have hi := h.index p addr i hp
  have hfill := Pipe.fill_spec (addr.drop i) h.size
  have hlen : (addr.drop i).length = addr.length - i := List.length_drop
  obtain ⟨hpipe, hsent, hreceived, -, -, -⟩ := pipewrite_rest s p seen addr i
  have hcases := pipewrite_written s p seen addr i
  generalize hr : s.pipe.fill (addr.drop i) = r at *
  have htake : addr.take i ++ (addr.drop i).take r.2 = addr.take (i + r.2) := List.take_add.symm
  have hbefore : s.sentBy p = s.stored p ++ addr.take i := by
    have hsent := h.sentBy p
    rw [hp] at hsent
    exact hsent
  have hother : ∀ {q}, q ≠ p → ∀ {k}, (s.pipewrite p seen addr i).pc = Function.update s.pc p k →
      (s.pipewrite p seen addr i).pc q = s.pc q := by
    intro q hq k hpc
    rw [hpc, Function.update_of_ne hq]
  refine ⟨?_, ?_, ?_, ?_⟩
  · rw [hpipe]
    exact hfill.size
  · rw [hpipe, hsent, hreceived, hfill.contents, List.map_append, h.contents, List.map_map,
      List.append_assoc]
    congr 2
    exact List.map_id _
  · intro q
    have hnew : (s.pipewrite p seen addr i).sentBy q =
        s.sentBy q ++ if q = p then (addr.drop i).take r.2 else [] := by
      unfold State.sentBy
      rw [hsent]
      exact sentBy_append s p q _
    rw [hnew]
    by_cases hq : q = p
    · rw [hq, if_pos rfl, hbefore, List.append_assoc, htake]
      cases hcases with
      | all hall hpc _ _ hst =>
        rw [hst, hpc, Function.update_self, Function.update_self, hall, List.take_length]
        exact (List.append_nil _).symm
      | stop _ _ hpc _ _ hst =>
        rw [hst, hpc, Function.update_self, Function.update_self]
        exact (List.append_nil _).symm
      | sleep _ _ _ hpc _ hst =>
        rw [hst, hpc, Function.update_self]
        rfl
    · rw [if_neg hq, List.append_nil, h.sentBy q]
      cases hcases with
      | all _ hpc _ _ hst => rw [hst, hother hq hpc, Function.update_of_ne hq]
      | stop _ _ hpc _ _ hst => rw [hst, hother hq hpc, Function.update_of_ne hq]
      | sleep _ _ _ hpc _ hst => rw [hst, hother hq hpc]
  · intro q addr' i' hq'
    by_cases hq : q = p
    · subst hq
      cases hcases with
      | all _ hpc _ _ _ =>
        rw [hpc, Function.update_self] at hq'
        cases hq'
      | stop _ _ hpc _ _ _ =>
        rw [hpc, Function.update_self] at hq'
        cases hq'
      | sleep _ _ _ hpc _ _ =>
        rw [hpc, Function.update_self] at hq'
        cases hq'
        have hle := hfill.le
        omega
    · cases hcases with
      | all _ hpc _ _ _ => exact h.index q addr' i' ((hother hq hpc).symm.trans hq')
      | stop _ _ hpc _ _ _ => exact h.index q addr' i' ((hother hq hpc).symm.trans hq')
      | sleep _ _ _ hpc _ _ => exact h.index q addr' i' ((hother hq hpc).symm.trans hq')

theorem piperead (h : Stream s) (hp : s.pc p = .piperead n) (seen : Bool) :
    Stream (s.piperead p seen n) := by
  have hnone : (s.pc p).begun = [] := by
    rw [hp]
    rfl
  have hidle := h.setPc (k := .idle) hnone rfl fun _ _ => Pc.noConfusion
  have hdrain := Pipe.drain_spec n s.pipe
  cases piperead_read s p seen n with
  | stop _ _ heq =>
    rw [heq]
    exact ⟨hidle.size, hidle.contents, hidle.sentBy, hidle.index⟩
  | sleep _ _ _ heq =>
    rw [heq]
    exact ⟨h.size, h.contents, h.sentBy, h.index⟩
  | all _ heq =>
    rw [heq]
    refine ⟨?_, ?_, hidle.sentBy, hidle.index⟩
    · exact Nat.le_trans hdrain.size_le h.size
    · show s.sent.map Prod.snd = s.received ++ _ ++ _
      rw [h.contents, hdrain.contents, List.append_assoc]
      rfl

theorem pipeclose (h : Stream s) (e : End) : Stream (s.pipeclose e) := by
  unfold State.pipeclose
  cases e <;> dsimp only <;> split_ifs <;> exact ⟨h.size, h.contents, h.sentBy, h.index⟩

theorem fileclose (h : Stream s) (hidle : s.pc p = .idle) (e : End) : Stream (s.fileclose p e) := by
  have hnone : (s.pc p).begun = [] := by
    rw [hidle]
    rfl
  have hclose := h.setPc (k := .pipeclose e) hnone rfl fun _ _ => Pc.noConfusion
  unfold State.fileclose
  dsimp only
  split_ifs
  · exact ⟨h.size, h.contents, h.sentBy, h.index⟩
  · exact ⟨hclose.size, hclose.contents, hclose.sentBy, hclose.index⟩

theorem step {a : Action P} (h : Stream s) (hs : Pipes.step s a = some t) : Stream t := by
  cases a with
  | write p addr =>
    obtain ⟨⟨hidle, -, -⟩, hs⟩ := Option.ite_none_right_eq_some.mp hs
    cases hs
    apply h.setPc _ rfl
    · intro addr' i' heq
      cases heq
      exact Nat.zero_le _
    · rw [hidle]
      rfl
  | read p n =>
    obtain ⟨⟨hidle, -, -⟩, hs⟩ := Option.ite_none_right_eq_some.mp hs
    cases hs
    apply h.setPc _ rfl
    · intro addr' i' heq
      cases heq
    · rw [hidle]
      rfl
  | run p seen =>
    obtain ⟨-, hs⟩ := Option.ite_none_right_eq_some.mp hs
    unfold State.run at hs
    cases hp : s.pc p with
    | idle =>
      rw [hp] at hs
      cases hs
    | pipewrite addr i =>
      rw [hp] at hs
      cases hs
      exact h.pipewrite hp seen
    | piperead n =>
      rw [hp] at hs
      cases hs
      exact h.piperead hp seen
    | pipeclose e =>
      rw [hp] at hs
      cases hs
      have hpc : (s.pipeclose e).pc p = .pipeclose e := by
        rw [pipeclose_pc, hp]
      refine (h.pipeclose e).setPc ?_ rfl fun _ _ => Pc.noConfusion
      rw [hpc]
      rfl
  | kill p =>
    cases hs
    exact ⟨h.size, h.contents, h.sentBy, h.index⟩
  | dup p e =>
    obtain ⟨-, hs⟩ := Option.ite_none_right_eq_some.mp hs
    cases hs
    exact ⟨h.size, h.contents, h.sentBy, h.index⟩
  | fork p c =>
    obtain ⟨-, hs⟩ := Option.ite_none_right_eq_some.mp hs
    cases hs
    exact ⟨h.size, h.contents, h.sentBy, h.index⟩
  | close p e =>
    obtain ⟨⟨hidle, -⟩, hs⟩ := Option.ite_none_right_eq_some.mp hs
    cases hs
    exact h.fileclose hidle e

theorem returned (h : Stream s) (hs : Pipes.step s (.run p seen) = some t)
    (hidle : t.pc p = .idle) : Returned s t p seen (s.pc p) := by
  obtain ⟨-, hs⟩ := Option.ite_none_right_eq_some.mp hs
  unfold State.run at hs
  cases hp : s.pc p with
  | idle => trivial
  | pipeclose e => trivial
  | pipewrite addr i =>
    rw [hp] at hs
    cases hs
    have hi := h.index p addr i hp
    have hfill := Pipe.fill_spec (addr.drop i) h.size
    have hlen : (addr.drop i).length = addr.length - i := List.length_drop
    obtain ⟨hpipe, -⟩ := pipewrite_rest s p seen addr i
    have hle := hfill.le
    cases pipewrite_written s p seen addr i with
    | all hall hpc _ hret hst =>
      left
      rw [hst, Function.update_self]
      exact ⟨hret, rfl⟩
    | stop hall hstop hpc _ hret hst =>
      right
      have hlt : (s.pipe.fill (addr.drop i)).2 < (addr.drop i).length := by omega
      rw [hst, Function.update_self, hpipe]
      refine ⟨hret, hfill.full hlt, hstop, _, Nat.le_add_right _ _, ?_, rfl⟩
      omega
    | sleep _ _ _ hpc _ _ =>
      rw [hpc, Function.update_self] at hidle
      cases hidle
  | piperead n =>
    rw [hp] at hs
    cases hs
    have hdrain := Pipe.drain_spec n s.pipe
    cases piperead_read s p seen n with
    | stop _ hseen heq =>
      left
      rw [heq]
      exact ⟨Function.update_self .., hseen, rfl⟩
    | sleep _ _ _ heq =>
      rw [heq] at hidle
      exact absurd (hp.symm.trans hidle) Pc.noConfusion
    | all hopen heq =>
      right
      have hcopied : (s.piperead p seen n).copied p = (s.pipe.drain n).2 := by
        rw [heq]
        exact Function.update_self ..
      have hpipe : (s.piperead p seen n).pipe = (s.pipe.drain n).1 := by
        rw [heq]
        rfl
      rw [hcopied, hpipe]
      refine ⟨?_, ?_, hdrain.le, hdrain.empty, ?_⟩
      · rw [heq]
        exact Function.update_self ..
      · rw [heq]
        rfl
      · intro hnil hn
        have hempty := hdrain.empty (by rw [hnil]; exact hn)
        have hcontents := hdrain.contents
        rw [hnil, List.nil_append, Pipe.empty_iff.mp hempty] at hcontents
        have hbefore := Pipe.empty_iff.mpr hcontents
        exact ⟨hbefore, hopen hbefore⟩

theorem pipealloc (p : P) (data : Fin PIPESIZE → Byte) : Stream (pipealloc p data) := by
  have hnil : (Pipes.pipealloc p data).pipe.contents = [] := Pipe.empty_iff.mp rfl
  refine ⟨?_, ?_, fun _ => rfl, ?_⟩
  · rw [← Pipe.length_contents, hnil]
    exact Nat.zero_le _
  · rw [hnil]
    rfl
  · intro q addr i hq
    cases hq

end Stream

/-- In every run of processes that write, read, fork, close and are killed, the pipe neither loses
nor repeats a byte, and each call returns what it has stored or copied. -/
theorem stream_of_reach {data : Fin PIPESIZE → Byte} (hr : Reachable step (pipealloc p data) s) :
    Stream s ∧ ∀ q seen t, step s (.run q seen) = some t → t.pc q = .idle →
      Returned s t q seen (s.pc q) := by
  have hstream : Stream s := hr.invariant (Stream.pipealloc p data) fun _ _ _ h _ hs => h.step hs
  exact ⟨hstream, fun _ _ _ hs hidle => hstream.returned hs hidle⟩

/-- A parent that reads, and a child that writes two bytes. -/
def parentReads : State Bool :=
  (run step (pipealloc true fun _ => 0) [.fork true false, .close true .write,
    .close false .read, .read true 4, .run true false, .write false [7, 8], .run false false,
    .run true false]).getD (pipealloc true fun _ => 0)

theorem reachable_parentReads : Reachable step (pipealloc true fun _ => 0) parentReads :=
  reachable_of_run (eq_some_getD (by decide +kernel))

theorem stream_of_reach_parentReads :
    parentReads.copied true = [7, 8] ∧ parentReads.ret true = 2 ∧ Stream parentReads :=
  ⟨by decide +kernel, by decide +kernel, (stream_of_reach reachable_parentReads).1⟩

end Xv6.Pipes
