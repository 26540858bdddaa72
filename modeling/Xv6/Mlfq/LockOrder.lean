import Xv6.Mlfq.LockOwner

/-!
# The order in which the scheduler meets the processes

`mlfqscheduler` does not look at `ptable.lockproc`: a holder that sleeps and is
woken goes to the end of the queue of its level like any other process. Here
`Ahead` says that the holder is the next one the scan meets, and `StaysFirst`
which steps leave it there.
-/

namespace Xv6.Mlfq

open Transition

/-- The scan of `L[2]` prefers `q` with priority `x` to `p` with priority `y`. -/
def Beats (s : State) (q p : Slot) (x y : Int) : Prop :=
  x < y ∨ x = y ∧ (s.queued 2).idxOf q < (s.queued 2).idxOf p

/-- `mlfqscheduler` meets `q` before every other process that is RUNNABLE. -/
def Ahead (s : State) (q : Slot) : Prop :=
  ∀ p, p ≠ q → (s.proc p).state = .runnable →
    (s.proc q).level < (s.proc p).level ∨
    (s.proc q).level = (s.proc p).level ∧
      if (s.proc q).level = 2 then Beats s q p (s.proc q).priority (s.proc p).priority
      else (s.queued (s.proc q).level).idxOf q < (s.queued (s.proc q).level).idxOf p

/-- `p` comes behind `q` when it is put at the end of its queue. -/
def Behind (s : State) (q p : Slot) : Prop :=
  (s.proc q).level < (s.proc p).level ∨
    (s.proc q).level = (s.proc p).level ∧
      ((s.proc q).level = 2 → (s.proc q).priority ≤ (s.proc p).priority)

/-- `q` comes before `p` even when it is put at the end of its queue. -/
def Outranks (s : State) (q p : Slot) : Prop :=
  (s.proc q).level < (s.proc p).level ∨
    (s.proc q).level = 2 ∧ (s.proc p).level = 2 ∧ (s.proc q).priority < (s.proc p).priority

instance (s : State) (q p : Slot) : Decidable (Behind s q p) :=
  inferInstanceAs (Decidable (_ ∨ _ ∧ _))

instance (s : State) (q p : Slot) : Decidable (Outranks s q p) :=
  inferInstanceAs (Decidable (_ ∨ _ ∧ _))

instance (s : State) (q p : Slot) (x y : Int) : Decidable (Beats s q p x y) :=
  inferInstanceAs (Decidable (_ ∨ _ ∧ _))

namespace State

/-- The slots that `wakeup1(chan)` wakes, in table order. -/
def sleepers (s : State) (chan : Option Chan) : List Slot :=
  (List.finRange NPROC).filter fun p => (s.proc p).state = .sleeping ∧ (s.proc p).chan = chan

/-- The processes that an action other than an exit or an unlock makes RUNNABLE. -/
def readied (s : State) : Action → List Slot
  | .fork i =>
    match s.pc i with
    | .fork np => [np]
    | _ => []
  | .yield i =>
    match s.lockproc with
    | some q => if (s.proc q).pid = (s.proc i).pid then [] else [i]
    | none => [i]
  | .wakeup chan => s.sleepers (some chan)
  | .kill pid =>
    match (List.finRange NPROC).find? fun p => (s.proc p).pid = pid with
    | some p => if (s.proc p).state = .sleeping then [p] else []
    | none => []
  | _ => []

end State

/-- One CPU: the scheduler's loop goes round only while no process is RUNNING. -/
def OneCpu (s : State) (a : Action) : Prop :=
  a = .mlfqscheduler → ∀ p, (s.proc p).state ≠ .running

/-- A valid `setPriority` leaves `q` before the others in `L[2]`. -/
def KeepsPlace (s : State) (q : Slot) : Action → Prop
  | .setPriority pid x =>
    0 ≤ x → x ≤ 3 → (s.proc q).level = 2 →
      ∀ p, (List.finRange NPROC).find? (fun p => (s.proc p).pid = pid) = some p →
      ∀ r, r ≠ q → (s.proc r).state = .runnable → (s.proc r).level = 2 →
        Beats s q r (if q = p then x else (s.proc q).priority)
          (if r = p then x else (s.proc r).priority)
  | _ => True

/-- `q`, when it is made RUNNABLE, outranks the processes that already are and
those that are made so before it. -/
def JoinsFirst (s : State) (q : Slot) (a : Action) : Prop :=
  (∀ p, (s.proc p).state = .runnable → Outranks s q p) ∧
    ∀ p ∈ s.readied a, (p < q → Outranks s q p) ∧ (q < p → Behind s q p)

/-- While the holder `q` is RUNNABLE, the processes that are made RUNNABLE come
behind it and no priority moves one before it; when `q` itself is made RUNNABLE, it joins
first. -/
structure KeepsFirst (s : State) (q : Slot) (a : Action) : Prop where
  behind : (s.proc q).state = .runnable → ∀ p ∈ s.readied a, Behind s q p
  joins : (s.proc q).state ≠ .runnable → q ∈ s.readied a → JoinsFirst s q a
  place : (s.proc q).state = .runnable → KeepsPlace s q a

def StaysFirst (s : State) (a : Action) : Prop := ∀ q, s.lockproc = some q → KeepsFirst s q a

instance (s : State) (a : Action) : Decidable (OneCpu s a) :=
  inferInstanceAs (Decidable (_ → ∀ _, _))

instance (s : State) (q : Slot) (a : Action) : Decidable (KeepsPlace s q a) :=
  match a with
  | .setPriority _ _ => inferInstanceAs (Decidable (_ → _ → _ → ∀ _, _ → ∀ _, _ → _ → _ → _))
  | .allocproc _ | .forkFail _ | .fork _ | .exit _ | .wait _ | .yield _ | .sleep _ _ | .wakeup _
  | .kill _ | .schedulerLock _ _ | .resetTicks _ | .schedulerUnlock _ _ | .tick | .mlfqscheduler =>
    .isTrue trivial

instance (s : State) (q : Slot) (a : Action) : Decidable (JoinsFirst s q a) :=
  inferInstanceAs (Decidable (_ ∧ _))

instance (s : State) (q : Slot) (a : Action) : Decidable (KeepsFirst s q a) :=
  decidable_of_iff (_ ∧ _ ∧ _)
    ⟨fun ⟨hb, ho, hp⟩ => ⟨hb, ho, hp⟩, fun h => ⟨h.behind, h.joins, h.place⟩⟩

instance (s : State) (a : Action) : Decidable (StaysFirst s a) :=
  inferInstanceAs (Decidable (∀ _, _ → _))

instance (s : State) (a : Action) : Decidable (StepOk s a) :=
  match a with
  | .allocproc _ => inferInstanceAs (Decidable (∀ _, _ → _))
  | .tick => inferInstanceAs (Decidable (_ → ¬ ∃ _, _))
  | .forkFail _ | .fork _ | .exit _ | .wait _ | .yield _ | .sleep _ _ | .wakeup _ | .kill _
  | .setPriority _ _ | .schedulerLock _ _ | .resetTicks _ | .schedulerUnlock _ _
  | .mlfqscheduler => .isTrue trivial

/-! ### The choice of the scheduler -/

theorem foldl_least_self (prio : Slot → Int) {q : Slot} {ys : List Slot}
    (hys : ∀ r ∈ ys, prio q ≤ prio r) :
    ys.foldl (fun p r => if prio r < prio p then r else p) q = q := by
  induction ys with
  | nil => rfl
  | cons r ys ih =>
    rw [List.foldl_cons, if_neg (not_lt.mpr (hys r List.mem_cons_self))]
    exact ih fun r hr => hys r (List.mem_cons_of_mem _ hr)

/-- The scan ends at `q` when every entry before it has a larger value and no
entry after it a smaller one. -/
theorem foldl_least (prio : Slot → Int) {q : Slot} {xs ys : List Slot}
    (hxs : ∀ r ∈ xs, prio q < prio r) (hys : ∀ r ∈ ys, prio q ≤ prio r) (p : Slot)
    (hp : prio q < prio p) :
    (xs ++ q :: ys).foldl (fun p r => if prio r < prio p then r else p) p = q := by
  induction xs generalizing p with
  | nil =>
    rw [List.nil_append, List.foldl_cons, if_pos hp]
    exact foldl_least_self prio hys
  | cons r xs ih =>
    rw [List.cons_append, List.foldl_cons]
    refine ih (fun r hr => hxs r (List.mem_cons_of_mem _ hr)) _ ?_
    split_ifs
    · exact hxs r List.mem_cons_self
    · exact hp

/-- A list without repetitions around one of its entries. -/
theorem exists_around {l : List Slot} (hn : l.Nodup) {q : Slot} (hq : q ∈ l) :
    ∃ xs ys, l = xs ++ q :: ys ∧ (∀ r ∈ xs, r ≠ q ∧ l.idxOf r < l.idxOf q) ∧
      ∀ r ∈ ys, r ≠ q := by
  obtain ⟨xs, ys, rfl⟩ := List.append_of_mem hq
  have hd := List.nodup_append.mp hn
  have hqx : q ∉ xs := fun hx => hd.2.2 q hx q List.mem_cons_self rfl
  have hqy : q ∉ ys := (List.nodup_cons.mp hd.2.1).1
  refine ⟨xs, ys, rfl, ?_, fun r hr he => hqy (he ▸ hr)⟩
  intro r hr
  refine ⟨fun he => hqx (he ▸ hr), ?_⟩
  rw [List.idxOf_append_of_mem hr, List.idxOf_append_of_notMem hqx, List.idxOf_cons_self]
  have := List.idxOf_lt_length_of_mem hr
  omega

theorem head_of_ahead {l : List Slot} (hn : l.Nodup) {q : Slot} (hq : q ∈ l)
    (h : ∀ p ∈ l, p ≠ q → l.idxOf q < l.idxOf p) : l.head? = some q := by
  obtain ⟨xs, ys, hl, hxs, -⟩ := exists_around hn hq
  cases xs with
  | nil =>
    rw [hl]
    rfl
  | cons r xs =>
    have hr := hxs r List.mem_cons_self
    have := h r (by rw [hl]; simp) hr.1
    omega

theorem Inv.choose_of_ahead {s : State} (h : Inv s) {q : Slot}
    (hq : (s.proc q).state = .runnable) (ha : Ahead s q) : s.choose = some q := by
  have hlv := h.level q
  have hmem : q ∈ s.queued (s.proc q).level := (h.mem_queued hlv.1 hlv.2).mpr ⟨hq, rfl⟩
  have hnodup := h.nodup hlv.1 hlv.2
  have hlow : ∀ l, 0 ≤ l → l < (s.proc q).level → ¬ 0 < (s.L l).size := by
    intro l h0 hl hsize
    rw [State.size_eq] at hsize
    obtain ⟨p, hp⟩ := List.exists_mem_of_length_pos hsize
    have hpm := (h.mem_queued h0 (by omega)).mp hp
    have hpq : p ≠ q := by
      rintro rfl
      omega
    rcases ha p hpq hpm.1 with hlt | ⟨heq, -⟩
    · omega
    · omega
  have hpos : 0 < (s.L (s.proc q).level).size := by
    rw [State.size_eq]
    exact List.length_pos_of_mem hmem
  -- the first non-empty queue is the one of q's level
  have hfirst : s.firstReady = some (s.L (s.proc q).level).front := by
    have hcase : (s.proc q).level = 0 ∨ (s.proc q).level = 1 ∨ (s.proc q).level = 2 := by omega
    unfold State.firstReady
    rcases hcase with hl | hl | hl
    · rw [hl] at hpos ⊢
      simp [hpos]
    · have h0 := hlow 0 le_rfl (by omega)
      rw [hl] at hpos ⊢
      simp only [List.findSome?_cons, h0, hpos, if_true, if_false]
    · have h0 := hlow 0 le_rfl (by omega)
      have h1 := hlow 1 (by omega) (by omega)
      rw [hl] at hpos ⊢
      simp only [List.findSome?_cons, h0, h1, hpos, if_true, if_false]
  have hhead := State.head_queued hpos
  unfold State.choose
  rw [hfirst, Option.map_some]
  have hfront := (h.mem_queued hlv.1 hlv.2).mp (List.mem_of_head? hhead)
  rw [hfront.2]
  by_cases h2 : (s.proc q).level = 2
  · rw [if_pos h2]
    rw [h2] at hmem hnodup hhead hfront ⊢
    have hbeats : ∀ p ∈ s.queued 2, p ≠ q →
        Beats s q p (s.proc q).priority (s.proc p).priority := by
      intro p hp hpq
      have hpm := (h.mem_queued (by omega) le_rfl).mp hp
      rcases ha p hpq hpm.1 with hlt | ⟨-, hb⟩
      · omega
      · rw [if_pos h2] at hb
        exact hb
    obtain ⟨xs, ys, hl, hxs, hys⟩ := exists_around hnodup hmem
    have hxs' : ∀ r ∈ xs, (s.proc q).priority < (s.proc r).priority := by
      intro r hr
      rcases hbeats r (by rw [hl]; simp [hr]) (hxs r hr).1 with hlt | ⟨-, hidx⟩
      · exact hlt
      · have := (hxs r hr).2
        omega
    have hys' : ∀ r ∈ ys, (s.proc q).priority ≤ (s.proc r).priority := by
      intro r hr
      rcases hbeats r (by rw [hl]; simp [hr]) (hys r hr) with hlt | ⟨heq, -⟩
      · exact hlt.le
      · exact heq.le
    generalize (s.L 2).front = p at hhead ⊢
    rw [hl] at hhead ⊢
    cases xs with
    | nil =>
      cases hhead
      rw [List.nil_append, List.tail_cons,
        foldl_least_self (fun r => (s.proc r).priority) hys']
    | cons r xs =>
      cases hhead
      rw [List.cons_append, List.tail_cons,
        foldl_least (fun r => (s.proc r).priority) (fun r hr => hxs' r (List.mem_cons_of_mem _ hr))
          hys' p (hxs' p List.mem_cons_self)]
  · rw [if_neg h2]
    have hq1 := head_of_ahead hnodup hmem ?_
    · rw [hq1] at hhead
      exact hhead.symm
    · intro p hp hpq
      have hpm := (h.mem_queued hlv.1 hlv.2).mp hp
      rcases ha p hpq hpm.1 with hlt | ⟨-, hb⟩
      · omega
      · rw [if_neg h2] at hb
        exact hb

/-! ### Making processes RUNNABLE -/

section Order

variable {s t : State} {q p : Slot}

/-- The order depends on the queues and, for each process, on these fields. -/
structure SameOrder (s t : State) : Prop where
  queued : ∀ l, t.queued l = s.queued l
  level : ∀ p, (t.proc p).level = (s.proc p).level
  priority : ∀ p, (t.proc p).priority = (s.proc p).priority

theorem SameOrder.setProc {f : Proc → Proc} (hl : (f (s.proc p)).level = (s.proc p).level)
    (hp : (f (s.proc p)).priority = (s.proc p).priority) : SameOrder s (s.setProc p f) := by
  refine ⟨fun _ => rfl, ?_, ?_⟩
  · intro r
    by_cases hr : r = p
    · subst hr
      rw [State.setProc_proc_self, hl]
    · rw [State.setProc_proc_ne _ _ _ _ hr]
  · intro r
    by_cases hr : r = p
    · subst hr
      rw [State.setProc_proc_self, hp]
    · rw [State.setProc_proc_ne _ _ _ _ hr]

theorem SameOrder.ahead (h : SameOrder s t)
    (hr : ∀ p, (t.proc p).state = .runnable → (s.proc p).state = .runnable) (ha : Ahead s q) :
    Ahead t q := by
  intro p hpq hp
  have := ha p hpq (hr p hp)
  simp only [Beats, h.queued, h.level, h.priority] at this ⊢
  exact this

theorem SameOrder.behind (h : SameOrder s t) : Behind t q p ↔ Behind s q p := by
  simp only [Behind, h.level, h.priority]

theorem SameOrder.outranks (h : SameOrder s t) : Outranks t q p ↔ Outranks s q p := by
  simp only [Outranks, h.level, h.priority]

theorem ready_proc_ne (s : State) (h : q ≠ p) : (s.ready p).proc q = s.proc q := by
  rw [State.ready, State.enqueue_proc, State.setProc_proc_ne _ _ _ _ h]

theorem ready_proc_self (s : State) (p : Slot) :
    (s.ready p).proc p = { s.proc p with state := .runnable } := by
  rw [State.ready, State.enqueue_proc, State.setProc_proc_self]

theorem ready_level (s : State) (p q : Slot) : ((s.ready p).proc q).level = (s.proc q).level := by
  by_cases h : q = p
  · rw [h, ready_proc_self]
  · rw [ready_proc_ne s h]

theorem ready_priority (s : State) (p q : Slot) :
    ((s.ready p).proc q).priority = (s.proc q).priority := by
  by_cases h : q = p
  · rw [h, ready_proc_self]
  · rw [ready_proc_ne s h]

theorem ready_queued (h : Inv s) (hs : (s.proc p).state ≠ .runnable) (l : Int) :
    (s.ready p).queued l =
      if l = (s.proc p).level then s.queued (s.proc p).level ++ [p] else s.queued l := by
  have hr := h.level p
  exact State.enqueue_queued _ _ _ _
    (h.room hr.1 hr.2 (h.not_mem_of_state hr.1 hr.2 hs))

/-- Appending `p` to its queue does not change the order of the others, and `p` is last. -/
theorem idxOf_ready (h : Inv s) (hs : (s.proc p).state ≠ .runnable) {l : Int} (h0 : 0 ≤ l)
    (h2 : l ≤ 2) {q r : Slot} (hq : q ∈ s.queued l)
    (hr : r ∈ s.queued l ∧ (s.queued l).idxOf q < (s.queued l).idxOf r ∨
      r = p ∧ (s.proc p).level = l) :
    ((s.ready p).queued l).idxOf q < ((s.ready p).queued l).idxOf r := by
  rw [ready_queued h hs]
  rcases hr with ⟨hrl, hlt⟩ | ⟨rfl, rfl⟩
  · split_ifs with hl
    · rw [hl] at hq hrl hlt
      rw [List.idxOf_append_of_mem hq, List.idxOf_append_of_mem hrl]
      exact hlt
    · exact hlt
  · have hnot := h.not_mem_of_state h0 h2 hs
    rw [if_pos rfl, List.idxOf_append_of_mem hq, List.idxOf_append_of_notMem hnot]
    have := List.idxOf_lt_length_of_mem hq
    omega

theorem Ahead.ready (ha : Ahead s q) (h : Inv s) (hq : (s.proc q).state = .runnable)
    (hs : (s.proc p).state ≠ .runnable) (hb : Behind s q p) : Ahead (s.ready p) q := by
  have hlv := h.level q
  have hmem : q ∈ s.queued (s.proc q).level := (h.mem_queued hlv.1 hlv.2).mpr ⟨hq, rfl⟩
  intro r hrq hr
  simp only [Beats, ready_level, ready_priority]
  by_cases hrp : r = p
  · subst hrp
    rcases hb with hlt | ⟨heq, hprio⟩
    · exact Or.inl hlt
    · refine Or.inr ⟨heq, ?_⟩
      have hidx := idxOf_ready h hs hlv.1 hlv.2 hmem (Or.inr ⟨rfl, heq.symm⟩)
      split_ifs with h2
      · rw [h2] at hidx
        rcases (hprio h2).lt_or_eq with hlt | hpeq
        · exact Or.inl hlt
        · exact Or.inr ⟨hpeq, hidx⟩
      · exact hidx
  · rw [ready_proc_ne s hrp] at hr
    rcases ha r hrq hr with hlt | ⟨heq, hrest⟩
    · exact Or.inl hlt
    · refine Or.inr ⟨heq, ?_⟩
      have hrmem : r ∈ s.queued (s.proc q).level :=
        (h.mem_queued hlv.1 hlv.2).mpr ⟨hr, heq.symm⟩
      split_ifs at hrest ⊢ with h2
      · rcases hrest with hlt | ⟨hpeq, hidx⟩
        · exact Or.inl hlt
        · rw [h2] at hmem hrmem
          exact Or.inr ⟨hpeq, idxOf_ready h hs (by omega) le_rfl hmem (Or.inl ⟨hrmem, hidx⟩)⟩
      · exact idxOf_ready h hs hlv.1 hlv.2 hmem (Or.inl ⟨hrmem, hrest⟩)

/-- A holder that outranks every queued process is ahead as soon as it is queued. -/
theorem Ahead.ready_self (ho : ∀ p, p ≠ q → (s.proc p).state = .runnable → Outranks s q p) :
    Ahead (s.ready q) q := by
  intro r hrq hr
  rw [ready_proc_ne s hrq] at hr
  simp only [ready_level, ready_priority]
  rcases ho r hrq hr with hlt | ⟨hq2, hr2, hlt⟩
  · exact Or.inl hlt
  · refine Or.inr ⟨by rw [hq2, hr2], ?_⟩
    rw [if_pos hq2]
    exact Or.inl hlt

theorem Behind.ready (r : Slot) (h : Behind s q p) : Behind (s.ready r) q p := by
  simp only [Behind, ready_level, ready_priority] at h ⊢
  exact h

theorem Outranks.ready (r : Slot) (h : Outranks s q p) : Outranks (s.ready r) q p := by
  simp only [Outranks, ready_level, ready_priority] at h ⊢
  exact h

/-- Processes are made RUNNABLE one after the other. -/
theorem Ahead.readyAll {ps : List Slot} (h : Inv s) (hps : ps.Pairwise (· < ·))
    (hs : ∀ p ∈ ps, (s.proc p).state ≠ .runnable ∧ (s.proc p).state ≠ .unused)
    (hin : (s.proc q).state = .runnable → Ahead s q ∧ ∀ p ∈ ps, Behind s q p)
    (hout : q ∈ ps → (∀ p, (s.proc p).state = .runnable → Outranks s q p) ∧
      ∀ p ∈ ps, (p < q → Outranks s q p) ∧ (q < p → Behind s q p))
    (hq : ((ps.foldl State.ready s).proc q).state = .runnable) : Ahead (ps.foldl State.ready s) q := by
  induction ps generalizing s with
  | nil => exact (hin hq).1
  | cons p ps ih =>
    obtain ⟨hp, hps⟩ := List.pairwise_cons.mp hps
    have hsp := hs p List.mem_cons_self
    have hother : ∀ r ∈ ps, (s.ready p).proc r = s.proc r := by
      intro r hr
      exact ready_proc_ne s (hp r hr).ne'
    refine ih (h.ready hsp.1 hsp.2) hps ?_ ?_ ?_ hq
    · intro r hr
      rw [hother r hr]
      exact hs r (List.mem_cons_of_mem _ hr)
    · intro hqs
      by_cases hqp : q = p
      · subst hqp
        obtain ⟨ho, hb⟩ := hout List.mem_cons_self
        refine ⟨Ahead.ready_self fun r _ hr => ho r hr, ?_⟩
        intro r hr
        exact ((hb r (List.mem_cons_of_mem _ hr)).2 (hp r hr)).ready _
      · rw [ready_proc_ne s hqp] at hqs
        obtain ⟨ha, hb⟩ := hin hqs
        refine ⟨ha.ready h hqs hsp.1 (hb p List.mem_cons_self), ?_⟩
        intro r hr
        exact (hb r (List.mem_cons_of_mem _ hr)).ready _
    · intro hqps
      obtain ⟨ho, hb⟩ := hout (List.mem_cons_of_mem _ hqps)
      constructor
      · intro r hr
        by_cases hrp : r = p
        · subst hrp
          exact ((hb r List.mem_cons_self).1 (hp q hqps)).ready _
        · rw [ready_proc_ne s hrp] at hr
          exact (ho r hr).ready _
      · intro r hr
        have hbr := hb r (List.mem_cons_of_mem _ hr)
        exact ⟨fun hlt => (hbr.1 hlt).ready _, fun hlt => (hbr.2 hlt).ready _⟩

end Order

/-- Waking a process leaves the others asleep, so the loop of `wakeup1` wakes the
slots that slept on the channel before it. -/
theorem wakeup1_eq (s : State) (chan : Option Chan) :
    s.wakeup1 chan = (s.sleepers chan).foldl State.ready s := by
  have key : ∀ (ps : List Slot) (s : State), ps.Nodup →
      ps.foldl (fun s p =>
        if (s.proc p).state = .sleeping ∧ (s.proc p).chan = chan then s.ready p else s) s =
      (ps.filter fun p => (s.proc p).state = .sleeping ∧ (s.proc p).chan = chan).foldl
        State.ready s := by
    intro ps
    induction ps with
    | nil =>
      intro s _
      rfl
    | cons p ps ih =>
      intro s hn
      obtain ⟨hp, hn⟩ := List.nodup_cons.mp hn
      rw [List.foldl_cons, List.filter_cons, ih _ hn]
      by_cases hc : (s.proc p).state = .sleeping ∧ (s.proc p).chan = chan
      · simp only [hc, and_self, if_true, decide_true, List.foldl_cons]
        congr 1
        refine List.filter_congr fun r hr => ?_
        have hrp : r ≠ p := by
          rintro rfl
          exact hp hr
        rw [ready_proc_ne s hrp]
      · simp only [hc, if_false, decide_false, Bool.false_eq_true]
  exact key _ s (List.nodup_finRange _)

theorem sleepers_sorted (s : State) (chan : Option Chan) :
    (s.sleepers chan).Pairwise (· < ·) :=
  (List.pairwise_lt_finRange NPROC).filter _

theorem sleeping_of_mem_sleepers {s : State} {chan : Option Chan} {p : Slot}
    (h : p ∈ s.sleepers chan) : (s.proc p).state = .sleeping := by
  have := (List.mem_filter.mp h).2
  simp only [decide_eq_true_eq] at this
  exact this.1

end Xv6.Mlfq
