import Xv6.Io.BioCache

/-!
# The queue of the disk

The buffers in `idequeue` are those whose processes wait for a request, the disk works on the
first of them, and whoever sleeps in `acquiresleep` or `iderw` waits for something to come.
-/

namespace Xv6.Bio
open Disk Transition Wait

/-- Where a process sleeps on the channel. -/
def Chan.pc : Chan → Pc
  | .lock i => .acquiresleep i
  | .buf i => .waiting i

variable {P : Type*} {s t : State P} {p q : P} {i j : Fin NBUF} {k : Pc} {a : Action P} {r : Buf}

def State.blocked (s : State P) : Chan → Prop
  | .lock i => s.holder i ≠ none
  | .buf i => i ∈ s.idequeue

/-- The disk has the command for the first buffer in the queue, or is done with it. -/
inductive Serving (s : State P) : Prop where
  | idle : s.idequeue = [] → s.drive = .idle → Serving s
  | busy (i : Fin NBUF) (q : List (Fin NBUF)) (b : Nat) : s.idequeue = i :: q →
      (s.buf i).blockno = some b → b < FSSIZE →
      s.drive = .busy b (if (s.buf i).dirty then some (s.buf i).data else none) → Serving s
  | ready (i : Fin NBUF) (q : List (Fin NBUF)) (r : Option Block) : s.idequeue = i :: q →
      s.drive = .ready r → Serving s

structure Queue (s : State P) : Prop where
  nodup : s.idequeue.Nodup
  mem : ∀ i, i ∈ s.idequeue ↔ synced (s.buf i) = false ∧ ∃ p, s.pc p = .waiting i
  serving : Serving s
  call : ∀ p c, s.chan p = some c → s.pc p = c.pc
  waits : Waits s.blocked s.chan

namespace Queue

theorem chan_of_idle (h : Queue s) (hp : s.pc p = .idle) : s.chan p = none := by
  cases hc : s.chan p with
  | none => rfl
  | some c =>
    have hcall := h.call p c hc
    rw [hp] at hcall
    cases c <;> cases hcall

/-- The counts of the buffers and the calls change, but no request. -/
theorem frame (h : Queue s) (hqueue : t.idequeue = s.idequeue) (hdrive : t.drive = s.drive)
    (hwaiting : ∀ q i, t.pc q = .waiting i ↔ s.pc q = .waiting i)
    (hbuf : ∀ q i, s.pc q = .waiting i → ∃ n, t.buf i = { s.buf i with refcnt := n })
    (hcall : ∀ p c, t.chan p = some c → t.pc p = c.pc) (hwaits : Waits t.blocked t.chan) :
    Queue t := by
  have hsame : ∀ i, i ∈ s.idequeue → ∃ n, t.buf i = { s.buf i with refcnt := n } := by
    intro i hi
    obtain ⟨-, q, hq⟩ := (h.mem i).mp hi
    exact hbuf q i hq
  refine ⟨?_, ?_, ?_, hcall, hwaits⟩
  · rw [hqueue]
    exact h.nodup
  · intro i
    rw [hqueue, h.mem i, exists_congr fun q => hwaiting q i]
    refine and_congr_left fun ⟨q, hq⟩ => ?_
    obtain ⟨n, hn⟩ := hbuf q i hq
    rw [hn]
    exact Iff.rfl
  · cases h.serving with
    | idle hnil hidle => exact .idle (hqueue.trans hnil) (hdrive.trans hidle)
    | busy i q b hcons hb hlt hbusy =>
      obtain ⟨n, hn⟩ := hsame i (by rw [hcons]; exact List.mem_cons_self)
      refine .busy i q b (hqueue.trans hcons) ?_ hlt ?_
      · rw [hn]
        exact hb
      · rw [hn]
        exact hdrive.trans hbusy
    | ready i q r hcons hready => exact .ready i q r (hqueue.trans hcons) (hdrive.trans hready)

/-- A process that neither sleeps nor waits for the disk goes on. -/
theorem move [DecidableEq P] (h : Queue s) (hpc : t.pc = Function.update s.pc p k)
    (hold : ∀ i, s.pc p ≠ .waiting i) (hnew : ∀ i, k ≠ .waiting i) (hchan : s.chan p = none)
    (hqueue : t.idequeue = s.idequeue) (hdrive : t.drive = s.drive)
    (hbuf : ∀ q i, s.pc q = .waiting i → ∃ n, t.buf i = { s.buf i with refcnt := n })
    (hch : ∀ q c, t.chan q = some c → s.chan q = some c) (hwaits : Waits t.blocked t.chan) :
    Queue t := by
  refine h.frame hqueue hdrive ?_ hbuf ?_ hwaits
  · intro q i
    rw [hpc]
    by_cases hqp : q = p
    · rw [hqp, Function.update_self]
      exact ⟨fun hno => absurd hno (hnew i), fun hno => absurd hno (hold i)⟩
    · rw [Function.update_of_ne hqp]
  · intro q c hq
    have hs := hch q c hq
    have hqp : q ≠ p := by
      intro hqp
      rw [hqp, hchan] at hs
      cases hs
    rw [hpc, Function.update_of_ne hqp]
    exact h.call q c hs

variable [DecidableEq P]

theorem acquiresleep (h : Queue s) (hp : s.pc p = .acquiresleep i) (hchan : s.chan p = none) :
    Queue (s.acquiresleep p i) := by
  have hold : ∀ i, s.pc p ≠ .waiting i := by
    intro i hno
    rw [hp] at hno
    cases hno
  unfold State.acquiresleep
  by_cases hfree : s.holder i = none
  · rw [if_pos hfree]
    refine h.move (p := p) (k := .bread i) rfl hold (fun _ => Pc.noConfusion) hchan rfl rfl ?_
      (fun _ _ hq => hq) ?_
    · intro q j _
      exact ⟨(s.buf j).refcnt, rfl⟩
    · refine Waits.mono h.waits fun c hb => ?_
      cases c with
      | buf j => exact hb
      | lock j =>
        show Function.update s.holder i (some p) j ≠ none
        by_cases hji : j = i
        · rw [hji, Function.update_self]
          exact Option.some_ne_none p
        · rw [Function.update_of_ne hji]
          exact hb
  · rw [if_neg hfree]
    refine h.frame rfl rfl (fun _ _ => Iff.rfl) (fun q j _ => ⟨(s.buf j).refcnt, rfl⟩) ?_ ?_
    · intro q c hq
      have hq' : sleep s.chan p (.lock i) q = some c := hq
      show s.pc q = c.pc
      by_cases hqp : q = p
      · rw [hqp, sleep_self] at hq'
        cases hq'
        rw [hqp]
        exact hp
      · rw [sleep_ne hqp] at hq'
        exact h.call q c hq'
    · exact h.waits.sleep hfree

theorem releasesleep (h : Queue s) (hp : s.pc p = .idle) (i : Fin NBUF) :
    Queue (State.setPc { s with
      holder := Function.update s.holder i none
      chan := wakeup s.chan (.lock i) } p (.brelse i)) := by
  have hold : ∀ i, s.pc p ≠ .waiting i := by
    intro i hno
    rw [hp] at hno
    cases hno
  refine h.move (p := p) (k := .brelse i) rfl hold (fun _ => Pc.noConfusion) (h.chan_of_idle hp)
    rfl rfl ?_ ?_ ?_
  · intro q j _
    exact ⟨(s.buf j).refcnt, rfl⟩
  · intro q c hq
    exact (wakeup_eq_some.mp hq).1
  · refine h.waits.wakeup fun c hne hb => ?_
    cases c with
    | buf j => exact hb
    | lock j =>
      show Function.update s.holder i none j ≠ none
      have hji : j ≠ i := by
        intro hji
        rw [hji] at hne
        exact hne rfl
      rw [Function.update_of_ne hji]
      exact hb

theorem release (h : Queue s) (hp : s.pc p = .brelse i) (hchan : s.chan p = none) :
    Queue (s.release p i) := by
  have hold : ∀ i, s.pc p ≠ .waiting i := by
    intro i hno
    rw [hp] at hno
    cases hno
  have hbuf : ∀ j, ∃ n, Function.update s.buf i { s.buf i with refcnt := (s.buf i).refcnt - 1 } j =
      { s.buf j with refcnt := n } := by
    intro j
    by_cases hji : j = i
    · rw [hji]
      exact ⟨_, Function.update_self ..⟩
    · exact ⟨_, Function.update_of_ne hji ..⟩
  unfold State.release
  dsimp only
  split_ifs
  · exact h.move (p := p) (k := .idle) rfl hold (fun _ => Pc.noConfusion) hchan rfl rfl
      (fun _ j _ => hbuf j) (fun _ _ hq => hq) h.waits
  · exact h.move (p := p) (k := .idle) rfl hold (fun _ => Pc.noConfusion) hchan rfl rfl
      (fun _ j _ => hbuf j) (fun _ _ hq => hq) h.waits

theorem wait (h : Queue s) (hp : s.pc p = .waiting i) (hchan : s.chan p = none) :
    Queue (s.wait p i) := by
  unfold State.wait
  by_cases hsync : synced (s.buf i) = true
  · rw [if_pos hsync]
    refine ⟨h.nodup, ?_, ?_, ?_, h.waits⟩
    · intro j
      show j ∈ s.idequeue ↔ synced (s.buf j) = false ∧
        ∃ q, Function.update s.pc p .idle q = .waiting j
      rw [h.mem j]
      refine and_congr_right fun hj => exists_congr fun q => ?_
      by_cases hqp : q = p
      · rw [hqp, Function.update_self, hp]
        constructor
        · intro heq
          cases heq
          rw [hsync] at hj
          cases hj
        · intro hno
          cases hno
      · rw [Function.update_of_ne hqp]
    · cases h.serving with
      | idle hnil hidle => exact .idle hnil hidle
      | busy j q b hcons hb hlt hbusy => exact .busy j q b hcons hb hlt hbusy
      | ready j q r hcons hready => exact .ready j q r hcons hready
    · intro q c hq
      have hq' : s.chan q = some c := hq
      have hqp : q ≠ p := by
        intro hqp
        rw [hqp, hchan] at hq'
        cases hq'
      show Function.update s.pc p .idle q = c.pc
      rw [Function.update_of_ne hqp]
      exact h.call q c hq'
  · rw [if_neg hsync]
    rw [Bool.not_eq_true] at hsync
    have hpc : Function.update s.pc p (.waiting i) = s.pc := by
      rw [← hp]
      exact Function.update_eq_self p s.pc
    refine h.frame rfl rfl ?_ (fun q j _ => ⟨(s.buf j).refcnt, rfl⟩) ?_ ?_
    · intro q j
      show Function.update s.pc p (.waiting i) q = .waiting j ↔ _
      rw [hpc]
    · intro q c hq
      have hq' : sleep s.chan p (.buf i) q = some c := hq
      show Function.update s.pc p (.waiting i) q = c.pc
      rw [hpc]
      by_cases hqp : q = p
      · rw [hqp, sleep_self] at hq'
        cases hq'
        rw [hqp]
        exact hp
      · rw [sleep_ne hqp] at hq'
        exact h.call q c hq'
    · exact h.waits.sleep ((h.mem i).mpr ⟨hsync, p, hp⟩)

omit [DecidableEq P] in
/-- The disk gets its command, unless the block is out of its range. -/
theorem idestart_busy {b : Nat} (hb : (s.buf i).blockno = some b)
    (hpanic : (s.idestart i).panic = none) : b < FSSIZE ∧
    (s.idestart i).drive = .busy b (if (s.buf i).dirty then some (s.buf i).data else none) := by
  unfold State.idestart at hpanic ⊢
  rw [hb] at hpanic ⊢
  dsimp only at hpanic ⊢
  by_cases hlt : FSSIZE ≤ b
  · rw [if_pos hlt] at hpanic
    cases hpanic
  · rw [if_neg hlt]
    exact ⟨Nat.lt_of_not_le hlt, rfl⟩

omit [DecidableEq P] in
theorem complete {ok : Bool} (h : Queue s) (hs : s.complete ok = some t) : Queue t := by
  unfold State.complete at hs
  cases h.serving with
  | idle _ hidle =>
    rw [hidle] at hs
    cases hs
  | ready i q r _ hready =>
    rw [hready] at hs
    cases hs
  | busy i q b hcons _ _ hbusy =>
    rw [hbusy] at hs
    by_cases hd : (s.buf i).dirty = true
    · rw [if_pos hd] at hs
      cases hs
      exact ⟨h.nodup, h.mem, .ready i q _ hcons rfl, h.call, h.waits⟩
    · rw [if_neg hd] at hs
      cases hs
      exact ⟨h.nodup, h.mem, .ready i q _ hcons rfl, h.call, h.waits⟩

theorem kill (h : Queue s) (p : P) : Queue { s with chan := rouse s.chan p } := by
  refine h.frame rfl rfl (fun _ _ => Iff.rfl) (fun q j _ => ⟨(s.buf j).refcnt, rfl⟩) ?_
    h.waits.rouse
  intro q c hq
  have hq' : rouse s.chan p q = some c := hq
  unfold rouse at hq'
  by_cases hqp : q = p
  · rw [hqp, Function.update_self] at hq'
    cases hq'
  · rw [Function.update_of_ne hqp] at hq'
    exact h.call q c hq'

variable [Fintype P]

theorem bget (h : Queue s) (hc : Cache s) (hp : s.pc p = .idle) (b : Nat)
    (hpanic : (s.bget p b).panic = none) : Queue (s.bget p b) := by
  have hchan := h.chan_of_idle hp
  have hold : ∀ i, s.pc p ≠ .waiting i := by
    intro i hno
    rw [hp] at hno
    cases hno
  have hwaits : Waits s.blocked s.chan := h.waits
  unfold State.bget at hpanic ⊢
  cases hcached : s.cached b with
  | some i =>
    refine h.move (p := p) (k := .acquiresleep i) rfl hold (fun _ => Pc.noConfusion) hchan rfl rfl ?_
      (fun _ _ hq => hq) hwaits
    intro q j _
    by_cases hji : j = i
    · rw [hji]
      exact ⟨_, Function.update_self ..⟩
    · exact ⟨_, Function.update_of_ne hji ..⟩
  | none =>
    cases hu : s.unused with
    | none =>
      rw [hcached, hu] at hpanic
      cases hpanic
    | some i =>
      obtain ⟨hz, -⟩ := Cache.unused_some hu
      refine h.move (p := p) (k := .acquiresleep i) rfl hold (fun _ => Pc.noConfusion) hchan rfl
        rfl ?_ (fun _ _ hq => hq) hwaits
      intro q j hq
      have hji : j ≠ i := by
        intro hji
        apply ((hc.unlocked hz).2 q).1
        rw [hq, hji]
        rfl
      exact ⟨_, Function.update_of_ne hji ..⟩

/-- The holder changes a buffer. -/
theorem setBuf (h : Queue s) (hc : Cache s) (hp : s.pc p = .idle) (hi : s.holder i = some p)
    (hk : ∀ j, k ≠ .waiting j) (hbuf : t.buf = Function.update s.buf i r)
    (hpc : t.pc = Function.update s.pc p k) (hqueue : t.idequeue = s.idequeue)
    (hdrive : t.drive = s.drive) (hholder : t.holder = s.holder) (hchan : t.chan = s.chan) :
    Queue t := by
  refine h.move hpc ?_ hk (h.chan_of_idle hp) hqueue hdrive ?_ ?_ ?_
  · intro j hno
    rw [hp] at hno
    cases hno
  · intro q j hq
    have hji : j ≠ i := by
      intro hji
      rw [hji] at hq
      exact hc.not_locks hp hi q (by rw [hq]; rfl)
    rw [hbuf]
    exact ⟨_, Function.update_of_ne hji ..⟩
  · intro q c hq
    rw [hchan] at hq
    exact hq
  · rw [hchan]
    refine Waits.mono h.waits fun c hb => ?_
    cases c with
    | lock j =>
      show t.holder j ≠ none
      rw [hholder]
      exact hb
    | buf j =>
      show j ∈ t.idequeue
      rw [hqueue]
      exact hb

omit [DecidableEq P] in
theorem blockno_of_waiting (hc : Cache s) (hp : s.pc p = .waiting i) :
    ∃ b, (s.buf i).blockno = some b := by
  exact hc.blockno_of_holder (hc.mine p i (by rw [hp]; rfl))

theorem iderw_eq (hc : Cache s) (hp : s.pc p = .iderw i) : s.iderw p i =
    let u := if s.idequeue = [] then { s with idequeue := s.idequeue ++ [i] }.idestart i
      else { s with idequeue := s.idequeue ++ [i] }
    { u with
      chan := sleep s.chan p (.buf i)
      pc := Function.update s.pc p (.waiting i) } := by
  have hlocks : (s.pc p).locks = some i := by
    rw [hp]
    rfl
  have hmine := hc.mine p i hlocks
  have hlate := hc.late p i hp
  unfold State.iderw
  rw [if_neg fun hno => hno hmine, hlate, if_neg Bool.false_ne_true]
  unfold State.wait State.setPc
  dsimp only
  split_ifs with hnil hsync hsync
  · rw [(Cache.idestart_rest _ i).1] at hsync
    rw [hlate] at hsync
    cases hsync
  · rw [(Cache.idestart_rest _ i).2.2.2.1, (Cache.idestart_rest _ i).2.2.2.2.2.1]
  · rw [hlate] at hsync
    cases hsync
  · rfl

theorem iderw (h : Queue s) (hc : Cache s) (hp : s.pc p = .iderw i)
    (hpanic : (s.iderw p i).panic = none) : Queue (s.iderw p i) := by
  have hlocks : (s.pc p).locks = some i := by
    rw [hp]
    rfl
  have hmine := hc.mine p i hlocks
  have hlate := hc.late p i hp
  have hnotin : i ∉ s.idequeue := by
    intro hi
    obtain ⟨-, q, hq⟩ := (h.mem i).mp hi
    have hmine' := hc.mine q i (by rw [hq]; rfl)
    rw [hmine] at hmine'
    rw [← Option.some.inj hmine', hp] at hq
    cases hq
  have hused := hc.blockno_of_holder hmine
  rw [iderw_eq hc hp] at hpanic ⊢
  dsimp only at hpanic ⊢
  generalize hu : (if s.idequeue = [] then { s with idequeue := s.idequeue ++ [i] }.idestart i
      else { s with idequeue := s.idequeue ++ [i] } : State P) = u at hpanic ⊢
  have hrest : u.buf = s.buf ∧ u.idequeue = s.idequeue ++ [i] ∧ u.holder = s.holder := by
    rw [← hu]
    split_ifs
    · obtain ⟨hbuf, -, hholder, -, hqueue, -⟩ :=
        Cache.idestart_rest { s with idequeue := s.idequeue ++ [i] } i
      exact ⟨hbuf, hqueue, hholder⟩
    · exact ⟨rfl, rfl, rfl⟩
  obtain ⟨hbuf, hqueue, hholder⟩ := hrest
  refine ⟨?_, ?_, ?_, ?_, ?_⟩
  · show u.idequeue.Nodup
    rw [hqueue]
    rw [← List.concat_eq_append]
    exact List.Nodup.concat hnotin h.nodup
  · intro j
    show j ∈ u.idequeue ↔ synced (u.buf j) = false ∧
      ∃ q, Function.update s.pc p (.waiting i) q = .waiting j
    rw [hqueue, hbuf, List.mem_append, List.mem_singleton, h.mem j]
    constructor
    · rintro (⟨hj, q, hq⟩ | rfl)
      · have hqp : q ≠ p := by
          intro hqp
          rw [hqp, hp] at hq
          cases hq
        refine ⟨hj, q, ?_⟩
        rw [Function.update_of_ne hqp]
        exact hq
      · exact ⟨hlate, p, Function.update_self ..⟩
    · rintro ⟨hj, q, hq⟩
      by_cases hqp : q = p
      · rw [hqp, Function.update_self] at hq
        cases hq
        exact .inr rfl
      · rw [Function.update_of_ne hqp] at hq
        exact .inl ⟨hj, q, hq⟩
  · by_cases hnil : s.idequeue = []
    · rw [if_pos hnil] at hu
      obtain ⟨b, hb⟩ := hused
      have hpanic' : ({ s with idequeue := s.idequeue ++ [i] }.idestart i : State P).panic = none := by
        rw [hu]
        exact hpanic
      obtain ⟨hlt, hbusy⟩ := idestart_busy (s := { s with idequeue := s.idequeue ++ [i] }) hb hpanic'
      rw [hu] at hbusy
      refine .busy i [] b ?_ ?_ hlt ?_
      · show u.idequeue = [i]
        rw [hqueue, hnil]
        rfl
      · show (u.buf i).blockno = some b
        rw [hbuf]
        exact hb
      · show u.drive = .busy b (if (u.buf i).dirty then some (u.buf i).data else none)
        rw [hbuf]
        exact hbusy
    · rw [if_neg hnil] at hu
      have hdrive : u.drive = s.drive := by
        rw [← hu]
      cases h.serving with
      | idle hno => exact absurd hno hnil
      | busy j q b hcons hb hlt hbusy =>
        refine .busy j (q ++ [i]) b ?_ ?_ hlt ?_
        · show u.idequeue = _
          rw [hqueue, hcons]
          rfl
        · show (u.buf j).blockno = some b
          rw [hbuf]
          exact hb
        · show u.drive = .busy b (if (u.buf j).dirty then some (u.buf j).data else none)
          rw [hbuf, hdrive]
          exact hbusy
      | ready j q r hcons hready =>
        refine .ready j (q ++ [i]) r ?_ (hdrive.trans hready)
        show u.idequeue = _
        rw [hqueue, hcons]
        rfl
  · intro q c hq
    have hq' : sleep s.chan p (.buf i) q = some c := hq
    show Function.update s.pc p (.waiting i) q = c.pc
    by_cases hqp : q = p
    · rw [hqp, sleep_self] at hq'
      cases hq'
      rw [hqp, Function.update_self]
      rfl
    · rw [sleep_ne hqp] at hq'
      rw [Function.update_of_ne hqp]
      exact h.call q c hq'
  · have hmem : i ∈ u.idequeue := by
      rw [hqueue]
      exact List.mem_append_right _ (List.mem_singleton_self i)
    refine Waits.sleep (Waits.mono h.waits fun c hb => ?_) hmem
    cases c with
    | lock j =>
      show u.holder j ≠ none
      rw [hholder]
      exact hb
    | buf j =>
      show j ∈ u.idequeue
      rw [hqueue]
      exact List.mem_append_left _ hb

omit [Fintype P] [DecidableEq P] in
theorem ideintr_cases (hs : s.ideintr = some t) :
    s.idequeue = [] ∧ t = s ∨ ∃ i q r, s.idequeue = i :: q ∧ s.drive = .ready r ∧
      (q = [] ∧ t = s.finish i q r ∨ ∃ j q', q = j :: q' ∧ t = (s.finish i q r).idestart j) := by
  unfold State.ideintr at hs
  split at hs
  · next hq =>
    cases hs
    exact .inl ⟨hq, rfl⟩
  · next i r hq hd =>
    cases hs
    exact .inr ⟨i, [], r, hq, hd, .inl ⟨rfl, rfl⟩⟩
  · next i j q r hq hd =>
    cases hs
    exact .inr ⟨i, j :: q, r, hq, hd, .inr ⟨j, q, rfl, rfl⟩⟩
  · cases hs

omit [Fintype P] [DecidableEq P] in
@[simp] theorem finish_buf_self (s : State P) (i : Fin NBUF) (q : List (Fin NBUF))
    (r : Option Block) : (s.finish i q r).buf i = { s.buf i with
      data := if (s.buf i).dirty then (s.buf i).data else r.getD (s.buf i).data
      valid := true
      dirty := false } := Function.update_self ..

omit [Fintype P] [DecidableEq P] in
theorem finish_buf_ne (s : State P) (q : List (Fin NBUF)) (r : Option Block) (hj : j ≠ i) :
    (s.finish i q r).buf j = s.buf j := Function.update_of_ne hj ..

omit [Fintype P] [DecidableEq P] in
/-- The first request is done. -/
theorem finish_mem (h : Queue s) {q : List (Fin NBUF)} (hcons : s.idequeue = i :: q)
    (r : Option Block) (j : Fin NBUF) :
    j ∈ q ↔ synced ((s.finish i q r).buf j) = false ∧ ∃ p, s.pc p = .waiting j := by
  have hnodup := h.nodup
  rw [hcons, List.nodup_cons] at hnodup
  by_cases hji : j = i
  · rw [hji, finish_buf_self]
    constructor
    · intro hno
      exact absurd hno hnodup.1
    · rintro ⟨hno, -⟩
      cases hno
  · rw [finish_buf_ne s q r hji, ← h.mem j, hcons, List.mem_cons]
    exact ⟨.inr, fun hor => hor.resolve_left hji⟩

omit [DecidableEq P] in
theorem cache_ideintr (h : Queue s) (hc : Cache s) (hs : s.ideintr = some t) : Cache t := by
  obtain ⟨-, rfl⟩ | ⟨i, q, r, hcons, -, hcases⟩ := ideintr_cases hs
  · exact hc
  have hfinish : Cache (s.finish i q r) := by
    obtain ⟨-, p, hp⟩ := (h.mem i).mp (by rw [hcons]; exact List.mem_cons_self)
    have hmine := hc.mine p i (by rw [hp]; rfl)
    have hset := hc.setBuf (i := i) (r := { s.buf i with
      data := if (s.buf i).dirty then (s.buf i).data else r.getD (s.buf i).data
      valid := true
      dirty := false }) rfl rfl (fun _ => rfl) (fun _ => rfl) fun q' hq' => by
        have hmine' := hc.mine q' i (by rw [hq']; rfl)
        rw [hmine] at hmine'
        rw [← Option.some.inj hmine', hp] at hq'
        cases hq'
    exact hset.congr rfl rfl rfl rfl
  obtain ⟨-, rfl⟩ | ⟨j, q', -, rfl⟩ := hcases
  · exact hfinish
  · exact hfinish.idestart j

omit [DecidableEq P] in
theorem ideintr (h : Queue s) (hc : Cache s) (hs : s.ideintr = some t) (hpanic : t.panic = none) :
    Queue t := by
  obtain ⟨-, rfl⟩ | ⟨i, q, r, hcons, -, hcases⟩ := ideintr_cases hs
  · exact h
  have hnodup := h.nodup
  rw [hcons, List.nodup_cons] at hnodup
  have hcall : ∀ p c, wakeup s.chan (.buf i) p = some c → s.pc p = c.pc := by
    intro p c hp
    exact h.call p c (wakeup_eq_some.mp hp).1
  have hwaits : Waits (s.finish i q r).blocked (wakeup s.chan (.buf i)) := by
    refine h.waits.wakeup fun c hne hb => ?_
    cases c with
    | lock j => exact hb
    | buf j =>
      have hmem : j ∈ s.idequeue := hb
      have hji : j ≠ i := by
        intro hji
        rw [hji] at hne
        exact hne rfl
      rw [hcons, List.mem_cons] at hmem
      exact hmem.resolve_left hji
  obtain ⟨hnil, rfl⟩ | ⟨j, q', hcons', rfl⟩ := hcases
  · exact ⟨hnodup.2, h.finish_mem hcons r, .idle hnil rfl, hcall, hwaits⟩
  · obtain ⟨hbuf, -, hholder, hpc, hqueue, hchan, -, -⟩ :=
      Cache.idestart_rest (s.finish i q r) j
    have hmem : j ∈ q := by
      rw [hcons']
      exact List.mem_cons_self
    have hji : j ≠ i := by
      intro hji
      rw [hji] at hmem
      exact hnodup.1 hmem
    obtain ⟨-, p, hp⟩ := (h.mem j).mp (by rw [hcons]; exact List.mem_cons_of_mem i hmem)
    obtain ⟨b, hb⟩ := blockno_of_waiting hc hp
    have hb' : ((s.finish i q r).buf j).blockno = some b := by
      rw [finish_buf_ne s q r hji]
      exact hb
    obtain ⟨hlt, hbusy⟩ := idestart_busy hb' hpanic
    refine ⟨?_, ?_, .busy j q' b ?_ ?_ hlt ?_, ?_, ?_⟩
    · rw [hqueue]
      exact hnodup.2
    · intro j'
      rw [hqueue, hbuf, hpc]
      exact h.finish_mem hcons r j'
    · rw [hqueue]
      exact hcons'
    · rw [hbuf]
      exact hb'
    · rw [hbuf]
      exact hbusy
    · intro p c hp
      rw [hchan] at hp
      rw [hpc]
      exact hcall p c hp
    · have hblocked : ((s.finish i q r).idestart j).blocked = (s.finish i q r).blocked := by
        funext c
        cases c with
        | lock j' =>
          show (((s.finish i q r).idestart j).holder j' ≠ none) = _
          rw [hholder]
          rfl
        | buf j' =>
          show (j' ∈ ((s.finish i q r).idestart j).idequeue) = _
          rw [hqueue]
          rfl
      rw [hchan, hblocked]
      exact hwaits

end Queue

/-! ### Runs -/

variable [Fintype P] [DecidableEq P]

/-- The two invariants, and the panics that do not happen. -/
structure Inv (s : State P) : Prop where
  cache : Cache s
  queue : s.panic = none → Queue s
  panic : s.panic = none ∨ s.panic = some .noBuffers ∨ s.panic = some .incorrectBlockno

omit [Fintype P] in
theorem update_idle (hp : s.pc p = .idle) : s.pc = Function.update s.pc p .idle := by
  rw [← hp, Function.update_eq_self]

theorem Cache.next (h : Cache s) (hq : Queue s) (hs : Bio.next s a = some t) : Cache t := by
  cases a with
  | bread p b =>
    obtain ⟨hp, hs⟩ := Option.ite_none_right_eq_some.mp hs
    cases hs
    exact h.bget hp b
  | run p =>
    obtain ⟨-, hs⟩ := Option.ite_none_right_eq_some.mp hs
    unfold State.run at hs
    cases hp : s.pc p with
    | idle =>
      rw [hp] at hs
      cases hs
    | acquiresleep i =>
      rw [hp] at hs
      cases hs
      exact h.acquiresleep hp
    | bread i =>
      rw [hp] at hs
      cases hs
      refine h.call (i := i) (by rw [hp]; rfl) ?_
      cases hv : (s.buf i).valid with
      | true => exact .inr ⟨rfl, rfl⟩
      | false =>
        refine .inl ⟨rfl, fun _ => ?_⟩
        unfold synced
        rw [hv]
        rfl
    | iderw i =>
      rw [hp] at hs
      cases hs
      exact h.iderw hp
    | waiting i =>
      rw [hp] at hs
      cases hs
      exact h.wait (by rw [hp]; rfl)
    | brelse i =>
      rw [hp] at hs
      cases hs
      exact h.release hp
  | setData p i v =>
    obtain ⟨⟨hp, hi⟩, hs⟩ := Option.ite_none_right_eq_some.mp hs
    cases hb : (s.buf i).blockno with
    | none =>
      rw [hb] at hs
      cases hs
    | some b =>
      rw [hb] at hs
      cases hs
      have hset := h.setBuf (i := i) (r := { s.buf i with data := v }) rfl rfl id (h.dirty i)
        fun q hq => absurd (by rw [hq]; rfl) (h.not_locks hp hi q)
      exact hset.congr rfl rfl rfl rfl
  | pin p i =>
    obtain ⟨⟨hp, hi⟩, hs⟩ := Option.ite_none_right_eq_some.mp hs
    cases hs
    exact h.setBuf rfl rfl id (fun _ => h.valid_of_idle hp hi) fun q hq => absurd (by rw [hq]; rfl) (h.not_locks hp hi q)
  | bwrite p i =>
    obtain ⟨⟨hp, hi⟩, hs⟩ := Option.ite_none_right_eq_some.mp hs
    cases hs
    exact h.bwrite hp hi
  | brelse p i =>
    obtain ⟨⟨hp, hi⟩, hs⟩ := Option.ite_none_right_eq_some.mp hs
    cases hs
    exact h.releasesleep hp hi
  | kill p =>
    cases hs
    exact h.congr rfl rfl rfl rfl
  | complete ok => exact h.complete hs
  | ideintr => exact hq.cache_ideintr h hs

theorem Queue.next (h : Queue s) (hc : Cache s) (hs : Bio.next s a = some t)
    (hpanic : t.panic = none) : Queue t := by
  cases a with
  | bread p b =>
    obtain ⟨hp, hs⟩ := Option.ite_none_right_eq_some.mp hs
    cases hs
    exact h.bget hc hp b hpanic
  | run p =>
    obtain ⟨hchan, hs⟩ := Option.ite_none_right_eq_some.mp hs
    unfold State.run at hs
    cases hp : s.pc p with
    | idle =>
      rw [hp] at hs
      cases hs
    | acquiresleep i =>
      rw [hp] at hs
      cases hs
      exact h.acquiresleep hp hchan
    | bread i =>
      rw [hp] at hs
      cases hs
      refine h.move (p := p) rfl ?_ ?_ hchan rfl rfl (fun q j _ => ⟨(s.buf j).refcnt, rfl⟩)
        (fun _ _ hq => hq) h.waits
      · intro j hno
        rw [hp] at hno
        cases hno
      · intro j hno
        split_ifs at hno
    | iderw i =>
      rw [hp] at hs
      cases hs
      exact h.iderw hc hp hpanic
    | waiting i =>
      rw [hp] at hs
      cases hs
      exact h.wait hp hchan
    | brelse i =>
      rw [hp] at hs
      cases hs
      exact h.release hp hchan
  | setData p i v =>
    obtain ⟨⟨hp, hi⟩, hs⟩ := Option.ite_none_right_eq_some.mp hs
    cases hb : (s.buf i).blockno with
    | none =>
      rw [hb] at hs
      cases hs
    | some b =>
      rw [hb] at hs
      cases hs
      exact h.setBuf (k := .idle) hc hp hi (fun _ => Pc.noConfusion) rfl (update_idle hp) rfl rfl
        rfl rfl
  | pin p i =>
    obtain ⟨⟨hp, hi⟩, hs⟩ := Option.ite_none_right_eq_some.mp hs
    cases hs
    exact h.setBuf (k := .idle) hc hp hi (fun _ => Pc.noConfusion) rfl (update_idle hp) rfl rfl rfl
      rfl
  | bwrite p i =>
    obtain ⟨⟨hp, hi⟩, hs⟩ := Option.ite_none_right_eq_some.mp hs
    cases hs
    exact h.setBuf (k := .iderw i) hc hp hi (fun _ => Pc.noConfusion) rfl rfl rfl rfl rfl rfl
  | brelse p i =>
    obtain ⟨⟨hp, hi⟩, hs⟩ := Option.ite_none_right_eq_some.mp hs
    cases hs
    exact h.releasesleep hp i
  | kill p =>
    cases hs
    exact h.kill p
  | complete ok => exact h.complete hs
  | ideintr => exact h.ideintr hc hs hpanic

/-- `iderw` finds the buffer locked and with something to do. -/
theorem next_panic (hc : Cache s) (hs : Bio.next s a = some t) (h0 : s.panic = none) :
    t.panic = none ∨ t.panic = some .noBuffers ∨ t.panic = some .incorrectBlockno := by
  have hstart : ∀ (u : State P) i, u.panic = none → (u.idestart i).panic = none ∨
      (u.idestart i).panic = some .noBuffers ∨
      (u.idestart i).panic = some .incorrectBlockno := by
    intro u i hu
    unfold State.idestart
    split
    · exact .inl hu
    · split
      · exact .inr (.inr rfl)
      · exact .inl hu
  cases a with
  | bread p b =>
    obtain ⟨-, hs⟩ := Option.ite_none_right_eq_some.mp hs
    cases hs
    unfold State.bget
    split
    · exact .inl h0
    · split
      · exact .inl h0
      · exact .inr (.inl rfl)
  | run p =>
    obtain ⟨-, hs⟩ := Option.ite_none_right_eq_some.mp hs
    unfold State.run at hs
    cases hp : s.pc p with
    | idle =>
      rw [hp] at hs
      cases hs
    | acquiresleep i =>
      rw [hp] at hs
      cases hs
      unfold State.acquiresleep
      split_ifs <;> exact .inl h0
    | bread i =>
      rw [hp] at hs
      cases hs
      exact .inl h0
    | iderw i =>
      rw [hp] at hs
      cases hs
      rw [Queue.iderw_eq hc hp]
      dsimp only
      split_ifs
      · exact hstart _ i h0
      · exact .inl h0
    | waiting i =>
      rw [hp] at hs
      cases hs
      unfold State.wait
      split_ifs <;> exact .inl h0
    | brelse i =>
      rw [hp] at hs
      cases hs
      unfold State.release
      dsimp only
      split_ifs <;> exact .inl h0
  | setData p i v =>
    obtain ⟨-, hs⟩ := Option.ite_none_right_eq_some.mp hs
    split at hs
    · cases hs
    · cases hs
      exact .inl h0
  | pin p i =>
    obtain ⟨-, hs⟩ := Option.ite_none_right_eq_some.mp hs
    cases hs
    exact .inl h0
  | bwrite p i =>
    obtain ⟨-, hs⟩ := Option.ite_none_right_eq_some.mp hs
    cases hs
    exact .inl h0
  | brelse p i =>
    obtain ⟨-, hs⟩ := Option.ite_none_right_eq_some.mp hs
    cases hs
    exact .inl h0
  | kill p =>
    cases hs
    exact .inl h0
  | complete ok =>
    have hs' : s.complete ok = some t := hs
    unfold State.complete at hs'
    split at hs'
    · cases hs'
      exact .inl h0
    · cases hs'
      exact .inl h0
    · cases hs'
  | ideintr =>
    obtain ⟨-, rfl⟩ | ⟨i, q, r, -, -, hcases⟩ := Queue.ideintr_cases hs
    · exact .inl h0
    obtain ⟨-, rfl⟩ | ⟨j, q', -, rfl⟩ := hcases
    · exact .inl h0
    · exact hstart _ j h0

theorem next_blockno (hc : Cache s) (hs : Bio.next s a = some t) (i : Fin NBUF) :
    (t.buf i).blockno = (s.buf i).blockno ∨ (s.buf i).refcnt = 0 := by
  have hset : ∀ (r : Buf) j, r.blockno = (s.buf j).blockno ∨ (s.buf j).refcnt = 0 →
      (Function.update s.buf j r i).blockno = (s.buf i).blockno ∨ (s.buf i).refcnt = 0 := by
    intro r j hr
    by_cases hij : i = j
    · rw [hij, Function.update_self]
      exact hr
    · rw [Function.update_of_ne hij]
      exact .inl rfl
  cases a with
  | bread p b =>
    obtain ⟨-, hs⟩ := Option.ite_none_right_eq_some.mp hs
    cases hs
    unfold State.bget
    split
    · exact hset _ _ (.inl rfl)
    · split
      · next j hj => exact hset _ j (.inr (Cache.unused_some hj).1)
      · exact .inl rfl
  | run p =>
    obtain ⟨-, hs⟩ := Option.ite_none_right_eq_some.mp hs
    unfold State.run at hs
    cases hp : s.pc p with
    | idle =>
      rw [hp] at hs
      cases hs
    | acquiresleep j =>
      rw [hp] at hs
      cases hs
      unfold State.acquiresleep
      split_ifs <;> exact .inl rfl
    | bread j =>
      rw [hp] at hs
      cases hs
      exact .inl rfl
    | iderw j =>
      rw [hp] at hs
      cases hs
      rw [Queue.iderw_eq hc hp]
      dsimp only
      split_ifs
      · rw [(Cache.idestart_rest _ j).1]
        exact .inl rfl
      · exact .inl rfl
    | waiting j =>
      rw [hp] at hs
      cases hs
      unfold State.wait
      split_ifs <;> exact .inl rfl
    | brelse j =>
      rw [hp] at hs
      cases hs
      unfold State.release
      dsimp only
      split_ifs <;> exact hset _ j (.inl rfl)
  | setData p j v =>
    obtain ⟨-, hs⟩ := Option.ite_none_right_eq_some.mp hs
    split at hs
    · cases hs
    · cases hs
      exact hset _ j (.inl rfl)
  | pin p j =>
    obtain ⟨-, hs⟩ := Option.ite_none_right_eq_some.mp hs
    cases hs
    exact hset _ j (.inl rfl)
  | bwrite p j =>
    obtain ⟨-, hs⟩ := Option.ite_none_right_eq_some.mp hs
    cases hs
    exact hset _ j (.inl rfl)
  | brelse p j =>
    obtain ⟨-, hs⟩ := Option.ite_none_right_eq_some.mp hs
    cases hs
    exact .inl rfl
  | kill p =>
    cases hs
    exact .inl rfl
  | complete ok =>
    have hs' : s.complete ok = some t := hs
    unfold State.complete at hs'
    split at hs'
    · cases hs'
      exact .inl rfl
    · cases hs'
      exact .inl rfl
    · cases hs'
  | ideintr =>
    obtain ⟨-, rfl⟩ | ⟨j, q, r, -, -, hcases⟩ := Queue.ideintr_cases hs
    · exact .inl rfl
    obtain ⟨-, rfl⟩ | ⟨j', q', -, rfl⟩ := hcases
    · exact hset _ j (.inl rfl)
    · rw [(Cache.idestart_rest _ j').1]
      exact hset _ j (.inl rfl)

theorem Inv.step (h : Inv s) (hs : Bio.step s a = some t) : Inv t := by
  obtain ⟨h0, hs⟩ := Option.ite_none_right_eq_some.mp hs
  have hq := h.queue h0
  exact ⟨h.cache.next hq hs, fun hpanic => hq.next h.cache hs hpanic, next_panic h.cache hs h0⟩

omit [DecidableEq P] in
theorem Inv.binit (disk : Nat → Block) (blank : Block) : Inv (binit disk blank : State P) := by
  refine ⟨⟨?_, ?_, ?_, ?_, ?_, ?_, ?_, ?_, ?_⟩, fun _ => ⟨List.nodup_nil, ?_, .idle rfl rfl, ?_,
    Waits.nobody⟩, .inl rfl⟩
  · intro i
    exact List.mem_reverse.mpr (List.mem_finRange i)
  · exact List.nodup_reverse.mpr (List.nodup_finRange NBUF)
  · intro i j b hi
    cases hi
  · intro i
    show 0 = 0 + ∑ _ : P, 0
    rw [Finset.sum_const_zero]
    rfl
  · intro i hi
    cases hi
  · intro p i hp
    cases hp
  · intro i hi
    cases hi
  · intro p i hi
    cases hi
  · intro p i hp
    cases hp
  · intro i
    constructor
    · intro hno
      cases hno
    · rintro ⟨-, p, hp⟩
      cases hp
  · intro p c hp
    cases hp

theorem inv_of_reach {disk : Nat → Block} {blank : Block}
    (hr : Reachable step (binit disk blank) s) : Inv s :=
  hr.invariant (Inv.binit disk blank) fun _ _ _ hu _ hs => hu.step hs

/-- In every run there is at most one buffer for a block, `refcnt` counts those who use it, one
process holds it, and the only panics are for want of a buffer and for a block that does not
exist. -/
theorem cache_of_reach {disk : Nat → Block} {blank : Block}
    (hr : Reachable step (binit disk blank) s) :
    Cache s ∧ (s.panic = none ∨ s.panic = some .noBuffers ∨ s.panic = some .incorrectBlockno) ∧
    ∀ a t i b, step s a = some t → (s.buf i).blockno = some b → 0 < (s.buf i).refcnt →
      (t.buf i).blockno = some b := by
  have h := inv_of_reach hr
  refine ⟨h.cache, h.panic, ?_⟩
  intro a t i b hs hb hpos
  obtain ⟨-, hs⟩ := Option.ite_none_right_eq_some.mp hs
  obtain hsame | hzero := next_blockno h.cache hs i
  · rw [hsame, hb]
  · omega

/-- Two processes ask for a block, and the disk is at work for the first of them. -/
def twoReaders : State Bool :=
  (run step (binit (fun _ _ => 0) fun _ => 0) [.bread true 7, .run true, .run true, .run true,
    .bread false 7, .run false]).getD (binit (fun _ _ => 0) fun _ => 0)

theorem reachable_twoReaders : Reachable step (binit (fun _ _ => 0) fun _ => 0) twoReaders :=
  reachable_of_run (eq_some_getD (by decide +kernel))

theorem cache_of_reach_twoReaders : (twoReaders.buf 0).refcnt = 2 ∧ Cache twoReaders :=
  ⟨by decide +kernel, (cache_of_reach reachable_twoReaders).1⟩

/-- In every run the disk serves the requests in their order and no wakeup is lost: who sleeps
waits for a lock that is held or for a request in the queue, and the first request gets done and
wakes its process. -/
theorem queue_of_reach {disk : Nat → Block} {blank : Block}
    (hr : Reachable step (binit disk blank) s) (h0 : s.panic = none) :
    Queue s ∧ ∀ i q, s.idequeue = i :: q →
      (∃ t r, step s (.complete true) = some t ∧ t.drive = .ready r) ∨
      ∃ t, step s .ideintr = some t ∧ t.idequeue = q ∧ synced (t.buf i) = true ∧
        ∀ p, t.chan p ≠ some (.buf i) := by
  have hq := (inv_of_reach hr).queue h0
  refine ⟨hq, ?_⟩
  intro i q hcons
  have hnodup := hq.nodup
  rw [hcons, List.nodup_cons] at hnodup
  have hstep : ∀ a, step s a = next s a := fun a => if_pos h0
  cases hq.serving with
  | idle hnil _ =>
    rw [hcons] at hnil
    cases hnil
  | busy j q' b _ _ _ hbusy =>
    left
    rw [hstep]
    show ∃ t r, s.complete true = some t ∧ t.drive = .ready r
    unfold State.complete
    rw [hbusy]
    cases (s.buf j).dirty with
    | true => exact ⟨_, _, rfl, rfl⟩
    | false => exact ⟨_, _, rfl, rfl⟩
  | ready j q' r hcons' hready =>
    right
    rw [hcons] at hcons'
    cases hcons'
    have hsynced : synced ((s.finish i q r).buf i) = true := by
      rw [Queue.finish_buf_self]
      rfl
    have hwoken : ∀ p, (s.finish i q r).chan p ≠ some (.buf i) := fun p => not_wakeup_self
    rw [hstep]
    show ∃ t, s.ideintr = some t ∧ _
    unfold State.ideintr
    rw [hcons, hready]
    cases q with
    | nil => exact ⟨_, rfl, rfl, hsynced, hwoken⟩
    | cons j q =>
      obtain ⟨hbuf, -, -, -, hqueue, hchan, -, -⟩ :=
        Cache.idestart_rest (s.finish i (j :: q) r) j
      refine ⟨_, rfl, hqueue, ?_, ?_⟩
      · rw [hbuf]
        exact hsynced
      · rw [hchan]
        exact hwoken

theorem queue_of_reach_twoReaders : twoReaders.idequeue = [0] ∧
    twoReaders.chan true = some (.buf 0) ∧ twoReaders.chan false = some (.lock 0) ∧ Queue twoReaders :=
  ⟨by decide +kernel, by decide +kernel, by decide +kernel,
    (queue_of_reach reachable_twoReaders (by decide +kernel)).1⟩

end Xv6.Bio
