import Xv6.Io.BioQueue

/-!
# Buffers as one store

As long as the disk does not fail and nobody gives back a buffer that he changed and neither wrote
nor pinned, whoever has a block sees what was last put into it, and a block that was written is on
the disk.
-/

namespace Xv6.Bio
open Disk Transition Wait

variable {P : Type*} {s t : State P} {p q : P} {i j : Fin NBUF} {k : Pc} {a : Action P} {r : Buf}
  {b : Nat}

/-- The disk has the data of the buffer. -/
def Written (s : State P) (i : Fin NBUF) : Prop :=
  ∀ b, (s.buf i).blockno = some b → s.disk b = (s.buf i).data

/-- The disk works, and "after changing buffer data, call bwrite to write it to disk". -/
def Ok (s : State P) : Action P → Prop
  | .brelse _ i => (s.buf i).dirty = false → Written s i
  | .complete ok => ok = true
  | _ => True

/-- A buffer is not being changed: it is not locked, or its holder waits for the disk. -/
def Quiet (s : State P) (i : Fin NBUF) : Prop := s.holder i = none ∨ ∃ p, s.pc p = .waiting i

structure Store (s : State P) : Prop where
  data : ∀ i b, (s.buf i).blockno = some b → (s.buf i).valid = true →
    (s.buf i).data = s.contents b
  stored : ∀ b, (∀ i, (s.buf i).blockno = some b → (s.buf i).valid = false) →
    s.disk b = s.contents b
  clean : ∀ i, synced (s.buf i) = true → Quiet s i → Written s i
  ready : ∀ i q r, s.idequeue = i :: q → s.drive = .ready r →
    ((s.buf i).dirty = true → Written s i) ∧
    ((s.buf i).dirty = false → ∀ b, (s.buf i).blockno = some b → r = some (s.disk b))

theorem synced_iff : synced r = true ↔ r.valid = true ∧ r.dirty = false := by
  unfold synced
  rw [Bool.and_eq_true, Bool.not_eq_true']

namespace Store

/-- Counts, locks and calls change, and no request gets done. -/
theorem frame (h : Store s) (hbuf : ∀ i, ∃ n, t.buf i = { s.buf i with refcnt := n })
    (hdisk : t.disk = s.disk) (hcontents : t.contents = s.contents)
    (hquiet : ∀ i, synced (s.buf i) = true → Quiet t i → Quiet s i ∨ Written s i)
    (hready : ∀ i q r, t.idequeue = i :: q → t.drive = .ready r →
      ∃ q', s.idequeue = i :: q' ∧ s.drive = .ready r) : Store t := by
  have hwritten : ∀ i, Written s i → Written t i := by
    intro i hi b hb
    obtain ⟨n, hn⟩ := hbuf i
    rw [hn] at hb ⊢
    rw [hdisk]
    exact hi b hb
  refine ⟨?_, ?_, ?_, ?_⟩
  · intro i b hb hv
    obtain ⟨n, hn⟩ := hbuf i
    rw [hn] at hb hv ⊢
    rw [hcontents]
    exact h.data i b hb hv
  · intro b hb
    rw [hdisk, hcontents]
    apply h.stored
    intro i hi
    obtain ⟨n, hn⟩ := hbuf i
    have hv := hb i (by rw [hn]; exact hi)
    rw [hn] at hv
    exact hv
  · intro i hs hq
    obtain ⟨n, hn⟩ := hbuf i
    rw [hn] at hs
    have hsync : synced (s.buf i) = true := hs
    apply hwritten
    exact (hquiet i hsync hq).elim (h.clean i hsync) id
  · intro i q r hqueue hdrive
    obtain ⟨q', hqueue', hdrive'⟩ := hready i q r hqueue hdrive
    obtain ⟨hd, hr⟩ := h.ready i q' r hqueue' hdrive'
    obtain ⟨n, hn⟩ := hbuf i
    refine ⟨?_, ?_⟩
    · intro hdirty
      rw [hn] at hdirty
      exact hwritten i (hd hdirty)
    · intro hdirty b hb
      rw [hn] at hdirty hb
      rw [hdisk]
      exact hr hdirty b hb

theorem idestart_drive (hidle : s.drive = .idle) (i : Fin NBUF) (d : Option Block) :
    (s.idestart i).drive ≠ .ready d := by
  intro hready
  unfold State.idestart at hready
  split at hready
  · rw [hidle] at hready
    cases hready
  · split at hready
    · have hno : s.drive = .ready d := hready
      rw [hidle] at hno
      cases hno
    · cases hready

theorem same (s : State P) (i : Fin NBUF) : ∃ n, s.buf i = { s.buf i with refcnt := n } :=
  ⟨(s.buf i).refcnt, rfl⟩

/-- Nobody is between two calls and waits for the disk. -/
theorem quiet_of_pc [DecidableEq P] (hq : Quiet t i) (hpc : t.pc = Function.update s.pc p k)
    (hk : ∀ i, k ≠ .waiting i) (hholder : t.holder i = none → s.holder i = none) : Quiet s i := by
  obtain hnone | ⟨q, hwait⟩ := hq
  · exact .inl (hholder hnone)
  · refine .inr ⟨q, ?_⟩
    rw [hpc] at hwait
    by_cases hqp : q = p
    · rw [hqp, Function.update_self] at hwait
      exact absurd hwait (hk i)
    · rw [Function.update_of_ne hqp] at hwait
      exact hwait

theorem idestart (h : Store s) (hidle : s.drive = .idle) (i : Fin NBUF) :
    Store (s.idestart i) := by
  obtain ⟨hbuf, -, hholder, hpc, hqueue, -, hdisk, hcontents⟩ := Cache.idestart_rest s i
  refine h.frame ?_ hdisk hcontents ?_ ?_
  · intro j
    exact ⟨(s.buf j).refcnt, congrFun hbuf j⟩
  · intro j _ hquiet
    unfold Quiet at hquiet ⊢
    rw [hholder, hpc] at hquiet
    exact .inl hquiet
  · intro j l r _ hready
    exact absurd hready (idestart_drive hidle i r)

variable [Fintype P]

/-- The holder changes the data of a buffer or marks it. -/
theorem change (h : Store s) (hc : Cache s) (hq : Queue s) (hp : s.pc p = .idle)
    (hi : s.holder i = some p) (hb : (s.buf i).blockno = some b)
    (hbuf : t.buf = Function.update s.buf i r) (hr : r.blockno = some b) (hv : r.valid = true)
    (hdata : r.data = t.contents b) (hcontents : ∀ b', b' ≠ b → t.contents b' = s.contents b')
    (hdirty : r.dirty = true ∨ ∀ q, t.pc q ≠ .waiting i) (hdisk : t.disk = s.disk)
    (hholder : t.holder = s.holder) (hquiet : ∀ j, j ≠ i → Quiet t j → Quiet s j)
    (hqueue : t.idequeue = s.idequeue) (hdrive : t.drive = s.drive) : Store t := by
  have hself : t.buf i = r := by
    rw [hbuf, Function.update_self]
  have hne : ∀ {j}, j ≠ i → t.buf j = s.buf j := by
    intro j hj
    rw [hbuf, Function.update_of_ne hj]
  have hvalid := hc.valid_of_idle hp hi
  have hother : ∀ {j b'}, j ≠ i → (s.buf j).blockno = some b' → b' ≠ b := by
    intro j b' hj hb' heq
    rw [heq] at hb'
    exact hj (hc.unique j i b hb' hb)
  have hwritten : ∀ {j}, j ≠ i → Written s j → Written t j := by
    intro j hj hw b' hb'
    rw [hne hj] at hb' ⊢
    rw [hdisk]
    exact hw b' hb'
  refine ⟨?_, ?_, ?_, ?_⟩
  · intro j b' hb' hv'
    by_cases hj : j = i
    · rw [hj, hself] at hb' ⊢
      rw [hr] at hb'
      cases hb'
      exact hdata
    · rw [hne hj] at hb' hv' ⊢
      rw [hcontents b' (hother hj hb')]
      exact h.data j b' hb' hv'
  · intro b' hb'
    have hbb : b' ≠ b := by
      intro heq
      have hno := hb' i (by rw [hself, hr, heq])
      rw [hself, hv] at hno
      cases hno
    rw [hdisk, hcontents b' hbb]
    apply h.stored
    intro j hj
    have hji : j ≠ i := by
      intro hji
      rw [hji, hb] at hj
      exact hbb (Option.some.inj hj).symm
    have hno := hb' j (by rw [hne hji]; exact hj)
    rw [hne hji] at hno
    exact hno
  · intro j hs hquiet'
    by_cases hj : j = i
    · rw [hj] at hs hquiet'
      rw [hself, synced_iff] at hs
      obtain hnone | ⟨q, hwait⟩ := hquiet'
      · rw [hholder, hi] at hnone
        cases hnone
      · obtain hd | hno := hdirty
        · rw [hd] at hs
          cases hs.2
        · exact absurd hwait (hno q)
    · rw [hne hj] at hs
      exact hwritten hj (h.clean j hs (hquiet j hj hquiet'))
  · intro j q r' hcons hready
    rw [hqueue] at hcons
    rw [hdrive] at hready
    have hji : j ≠ i := by
      intro hji
      obtain ⟨-, q', hq'⟩ := (hq.mem j).mp (by rw [hcons]; exact List.mem_cons_self)
      rw [hji] at hq'
      exact hc.not_locks hp hi q' (by rw [hq']; rfl)
    obtain ⟨hd, hr'⟩ := h.ready j q r' hcons hready
    refine ⟨?_, ?_⟩
    · intro hdirty'
      rw [hne hji] at hdirty'
      exact hwritten hji (hd hdirty')
    · intro hdirty' b' hb'
      rw [hne hji] at hdirty' hb'
      rw [hdisk]
      exact hr' hdirty' b' hb'

theorem complete (h : Store s) (hc : Cache s) (hq : Queue s) (hs : s.complete true = some t) :
    Store t := by
  unfold State.complete at hs
  cases hq.serving with
  | idle _ hidle =>
    rw [hidle] at hs
    cases hs
  | ready i q r _ hready =>
    rw [hready] at hs
    cases hs
  | busy i q b hcons hb _ hbusy =>
    rw [hbusy] at hs
    by_cases hd : (s.buf i).dirty = true
    · rw [if_pos hd] at hs
      cases hs
      have hvalid := hc.dirty i hd
      have hwritten : ∀ j, Written s j ∨ j = i → Written
          { s with disk := Function.update s.disk b (s.buf i).data, drive := .ready none } j := by
        intro j hj b' hb'
        show Function.update s.disk b (s.buf i).data b' = (s.buf j).data
        by_cases hbb : b' = b
        · rw [hbb] at hb' ⊢
          rw [hc.unique j i b hb' hb, Function.update_self]
        · rw [Function.update_of_ne hbb]
          apply hj.resolve_right _ b' hb'
          intro hji
          have hb'' : (s.buf j).blockno = some b' := hb'
          rw [hji, hb] at hb''
          exact hbb (Option.some.inj hb'').symm
      refine ⟨h.data, ?_, fun j hs hquiet => hwritten j (.inl (h.clean j hs hquiet)), ?_⟩
      · intro b' hb'
        have hbb : b' ≠ b := by
          intro hbb
          have hno := hb' i (by rw [hbb]; exact hb)
          rw [hvalid] at hno
          cases hno
        show Function.update s.disk b (s.buf i).data b' = s.contents b'
        rw [Function.update_of_ne hbb]
        exact h.stored b' hb'
      · intro j q' r hcons' hready
        have hji : j = i := by
          have hcons'' : s.idequeue = j :: q' := hcons'
          rw [hcons] at hcons''
          cases hcons''
          rfl
        refine ⟨fun _ => hwritten j (.inr hji), ?_⟩
        intro hno
        have hno' : (s.buf j).dirty = false := hno
        rw [hji, hd] at hno'
        cases hno'
    · rw [if_neg hd] at hs
      cases hs
      refine ⟨h.data, h.stored, h.clean, ?_⟩
      intro j q' r hcons' hready
      have hcons'' : s.idequeue = j :: q' := hcons'
      rw [hcons] at hcons''
      cases hcons''
      cases hready
      refine ⟨fun hno => absurd hno hd, ?_⟩
      intro _ b' hb'
      have hb'' : (s.buf i).blockno = some b' := hb'
      rw [hb] at hb''
      cases hb''
      rfl

/-- The first buffer is as its block on the disk when its request is done. -/
theorem finish (h : Store s) (hc : Cache s) (hq : Queue s) {l : List (Fin NBUF)} {d : Option Block}
    (hcons : s.idequeue = i :: l) (hready : s.drive = .ready d) : Store (s.finish i l d) := by
  obtain ⟨hsync, p, hp⟩ := (hq.mem i).mp (by rw [hcons]; exact List.mem_cons_self)
  obtain ⟨b, hb⟩ := Queue.blockno_of_waiting hc hp
  obtain ⟨hdirty, hclean⟩ := h.ready i l d hcons hready
  have hself := Queue.finish_buf_self s i l d
  have hne : ∀ {j}, j ≠ i → (s.finish i l d).buf j = s.buf j := Queue.finish_buf_ne s l d
  have hdata : s.disk b = ((s.finish i l d).buf i).data ∧
      ((s.finish i l d).buf i).data = s.contents b := by
    rw [hself]
    dsimp only
    by_cases hd : (s.buf i).dirty = true
    · rw [if_pos hd]
      exact ⟨hdirty hd b hb, h.data i b hb (hc.dirty i hd)⟩
    · rw [Bool.not_eq_true] at hd
      rw [hd, if_neg Bool.false_ne_true, hclean hd b hb]
      refine ⟨rfl, h.stored b ?_⟩
      intro j hj
      rw [hc.unique j i b hj hb]
      by_contra hv
      rw [Bool.not_eq_false] at hv
      rw [synced_iff.mpr ⟨hv, hd⟩] at hsync
      cases hsync
  refine ⟨?_, ?_, ?_, ?_⟩
  · intro j b' hb' hv
    by_cases hj : j = i
    · rw [hj] at hb' ⊢
      have hb'' : (s.buf i).blockno = some b' := by
        rw [hself] at hb'
        exact hb'
      rw [hb] at hb''
      cases hb''
      exact hdata.2
    · rw [hne hj] at hb' hv ⊢
      exact h.data j b' hb' hv
  · intro b' hb'
    apply h.stored
    intro j hj
    have hji : j ≠ i := by
      intro hji
      have hno := hb' i (by rw [hself, ← hji]; exact hj)
      rw [hself] at hno
      cases hno
    have hno := hb' j (by rw [hne hji]; exact hj)
    rw [hne hji] at hno
    exact hno
  · intro j hs hquiet b' hb'
    by_cases hj : j = i
    · rw [hj] at hb' ⊢
      have hb'' : (s.buf i).blockno = some b' := by
        rw [hself] at hb'
        exact hb'
      rw [hb] at hb''
      cases hb''
      exact hdata.1
    · rw [hne hj] at hs hb' ⊢
      exact h.clean j hs hquiet b' hb'
  · intro j q' r' _ hno
    cases hno

variable [DecidableEq P]

theorem bget (h : Store s) (hc : Cache s) (hq : Queue s) (p : P) (b : Nat) :
    Store (s.bget p b) := by
  unfold State.bget
  cases hcached : s.cached b with
  | some i =>
    refine h.frame ?_ rfl rfl ?_ fun _ q _ hcons hready => ⟨q, hcons, hready⟩
    · intro j
      by_cases hj : j = i
      · rw [hj]
        exact ⟨_, Function.update_self ..⟩
      · exact ⟨_, Function.update_of_ne hj ..⟩
    · intro j _ hquiet
      exact .inl (quiet_of_pc hquiet rfl (fun _ => Pc.noConfusion) id)
  | none =>
    cases hu : s.unused with
    | none => exact ⟨h.data, h.stored, h.clean, h.ready⟩
    | some i =>
      obtain ⟨hz, hd⟩ := Cache.unused_some hu
      obtain ⟨hnone, hfree⟩ := hc.unlocked hz
      dsimp only
      generalize ht : (s.setBuf i { s.buf i with
        blockno := some b, valid := false, dirty := false, refcnt := 1 }).setPc p
          (.acquiresleep i) = t
      have hself : t.buf i = { s.buf i with
          blockno := some b, valid := false, dirty := false, refcnt := 1 } := by
        rw [← ht]
        exact Function.update_self ..
      have hne : ∀ {j}, j ≠ i → t.buf j = s.buf j := by
        intro j hj
        rw [← ht]
        exact Function.update_of_ne hj ..
      have hrest : t.disk = s.disk ∧ t.contents = s.contents ∧ t.holder = s.holder ∧
          t.idequeue = s.idequeue ∧ t.drive = s.drive ∧
          t.pc = Function.update s.pc p (.acquiresleep i) := by
        rw [← ht]
        exact ⟨rfl, rfl, rfl, rfl, rfl, rfl⟩
      obtain ⟨hdisk, hcontents, hholder, hqueue, hdrive, hpc⟩ := hrest
      have hwritten : ∀ {j}, j ≠ i → Written s j → Written t j := by
        intro j hj hw b' hb'
        rw [hne hj] at hb' ⊢
        rw [hdisk]
        exact hw b' hb'
      refine ⟨?_, ?_, ?_, ?_⟩
      · intro j b' hb' hv
        have hj : j ≠ i := by
          intro hj
          rw [hj, hself] at hv
          cases hv
        rw [hne hj] at hb' hv ⊢
        rw [hcontents]
        exact h.data j b' hb' hv
      · -- What was in the buffer is on the disk.
        intro b' hb'
        rw [hdisk, hcontents]
        by_cases hi : (s.buf i).blockno = some b' ∧ (s.buf i).valid = true
        · rw [h.clean i (synced_iff.mpr ⟨hi.2, hd⟩) (.inl hnone) b' hi.1]
          exact h.data i b' hi.1 hi.2
        · apply h.stored
          intro j hj
          by_cases hji : j = i
          · rw [hji] at hj ⊢
            by_contra hv
            rw [Bool.not_eq_false] at hv
            exact hi ⟨hj, hv⟩
          · have hno := hb' j (by rw [hne hji]; exact hj)
            rw [hne hji] at hno
            exact hno
      · intro j hs hquiet
        have hj : j ≠ i := by
          intro hj
          rw [hj, hself] at hs
          cases hs
        rw [hne hj] at hs
        apply hwritten hj
        apply h.clean j hs
        exact quiet_of_pc hquiet hpc (fun _ => Pc.noConfusion) (by rw [hholder]; exact id)
      · intro j q r' hcons hready
        rw [hqueue] at hcons
        rw [hdrive] at hready
        have hj : j ≠ i := by
          intro hj
          obtain ⟨-, q', hq'⟩ := (hq.mem j).mp (by rw [hcons]; exact List.mem_cons_self)
          apply (hfree q').1
          rw [hq', hj]
          rfl
        obtain ⟨hdirty, hr'⟩ := h.ready j q r' hcons hready
        refine ⟨?_, ?_⟩
        · intro hd'
          rw [hne hj] at hd'
          exact hwritten hj (hdirty hd')
        · intro hd' b' hb'
          rw [hne hj] at hd' hb'
          rw [hdisk]
          exact hr' hd' b' hb'

theorem run (h : Store s) (hc : Cache s) (hq : Queue s) (hs : s.run p = some t) : Store t := by
  have hcall : ∀ {u k}, u.pc = Function.update s.pc p k → (∀ i, k ≠ .waiting i) →
      (∀ i, u.holder i = none → s.holder i = none) →
      (∀ i, ∃ n, u.buf i = { s.buf i with refcnt := n }) → u.disk = s.disk →
      u.contents = s.contents → u.idequeue = s.idequeue → u.drive = s.drive → Store u := by
    intro u k hpc hk hholder hbuf hdisk hcontents hqueue hdrive
    refine h.frame hbuf hdisk hcontents ?_ ?_
    · intro j _ hquiet
      exact .inl (quiet_of_pc hquiet hpc hk (hholder j))
    · intro j l r hcons hready
      rw [hqueue] at hcons
      rw [hdrive] at hready
      exact ⟨l, hcons, hready⟩
  unfold State.run at hs
  cases hp : s.pc p with
  | idle =>
    rw [hp] at hs
    cases hs
  | acquiresleep i =>
    rw [hp] at hs
    cases hs
    unfold State.acquiresleep
    split_ifs with hfree
    · refine hcall (k := .bread i) rfl (fun _ => Pc.noConfusion) ?_ (same s) rfl rfl rfl rfl
      intro j hj
      have hj' : Function.update s.holder i (some p) j = none := hj
      by_cases hji : j = i
      · rw [hji]
        exact hfree
      · rw [Function.update_of_ne hji] at hj'
        exact hj'
    · exact ⟨h.data, h.stored, h.clean, h.ready⟩
  | bread i =>
    rw [hp] at hs
    cases hs
    refine hcall rfl ?_ (fun _ => id) (same s) rfl rfl rfl rfl
    intro j hno
    split_ifs at hno
  | iderw i =>
    rw [hp] at hs
    cases hs
    have hlate := hc.late p i hp
    rw [Queue.iderw_eq hc hp]
    dsimp only
    generalize hu : (if s.idequeue = [] then { s with idequeue := s.idequeue ++ [i] }.idestart i
      else { s with idequeue := s.idequeue ++ [i] } : State P) = u
    have hrest : u.buf = s.buf ∧ u.idequeue = s.idequeue ++ [i] ∧ u.holder = s.holder ∧
        u.disk = s.disk ∧ u.contents = s.contents := by
      rw [← hu]
      split_ifs
      · obtain ⟨hbuf, -, hholder, -, hqueue, -, hdisk, hcontents⟩ :=
          Cache.idestart_rest { s with idequeue := s.idequeue ++ [i] } i
        exact ⟨hbuf, hqueue, hholder, hdisk, hcontents⟩
      · exact ⟨rfl, rfl, rfl, rfl, rfl⟩
    obtain ⟨hbuf, hqueue, hholder, hdisk, hcontents⟩ := hrest
    refine h.frame ?_ hdisk hcontents ?_ ?_
    · intro j
      exact ⟨(s.buf j).refcnt, congrFun hbuf j⟩
    · intro j hsync hquiet
      obtain hnone | ⟨q, hwait⟩ := hquiet
      · have hnone' : u.holder j = none := hnone
        rw [hholder] at hnone'
        exact .inl (.inl hnone')
      · have hwait' : Function.update s.pc p (.waiting i) q = .waiting j := hwait
        by_cases hqp : q = p
        · rw [hqp, Function.update_self] at hwait'
          cases hwait'
          rw [hlate] at hsync
          cases hsync
        · rw [Function.update_of_ne hqp] at hwait'
          exact .inl (.inr ⟨q, hwait'⟩)
    · intro j l r hcons hready
      have hcons' : s.idequeue ++ [i] = j :: l := hqueue.symm.trans hcons
      have hready' : u.drive = .ready r := hready
      by_cases hnil : s.idequeue = []
      · rw [if_pos hnil] at hu
        -- The disk has just got its command.
        have hidle : s.drive = .idle := by
          cases hq.serving with
          | idle _ hidle => exact hidle
          | busy i' q' b' hcons'' =>
            rw [hnil] at hcons''
            cases hcons''
          | ready i' q' r' hcons'' =>
            rw [hnil] at hcons''
            cases hcons''
        rw [← hu] at hready'
        exact absurd hready'
          (idestart_drive (s := { s with idequeue := s.idequeue ++ [i] }) hidle i r)
      · rw [if_neg hnil] at hu
        obtain ⟨j', l', hs'⟩ := List.exists_cons_of_ne_nil hnil
        rw [hs'] at hcons'
        cases hcons'
        rw [← hu] at hready'
        exact ⟨l', hs', hready'⟩
  | waiting i =>
    rw [hp] at hs
    cases hs
    unfold State.wait
    split_ifs
    · exact hcall (k := .idle) rfl (fun _ => Pc.noConfusion) (fun _ => id) (same s) rfl rfl rfl rfl
    · have hpc : Function.update s.pc p (.waiting i) = s.pc := by
        rw [← hp]
        exact Function.update_eq_self p s.pc
      refine h.frame (same s) rfl rfl ?_ fun _ q _ hcons hready => ⟨q, hcons, hready⟩
      intro j _ hquiet
      obtain hnone | ⟨q, hwait⟩ := hquiet
      · exact .inl (.inl hnone)
      · have hwait' : Function.update s.pc p (.waiting i) q = .waiting j := hwait
        rw [hpc] at hwait'
        exact .inl (.inr ⟨q, hwait'⟩)
  | brelse i =>
    rw [hp] at hs
    cases hs
    have hbuf : ∀ j, ∃ n, Function.update s.buf i { s.buf i with
        refcnt := (s.buf i).refcnt - 1 } j = { s.buf j with refcnt := n } := by
      intro j
      by_cases hj : j = i
      · rw [hj]
        exact ⟨_, Function.update_self ..⟩
      · exact ⟨_, Function.update_of_ne hj ..⟩
    unfold State.release
    dsimp only
    split_ifs
    · exact hcall (k := .idle) rfl (fun _ => Pc.noConfusion) (fun _ => id) hbuf rfl rfl rfl rfl
    · exact hcall (k := .idle) rfl (fun _ => Pc.noConfusion) (fun _ => id) hbuf rfl rfl rfl rfl

omit [Fintype P] in
/-- A buffer that was changed has been written or is pinned when it is given back. -/
theorem releasesleep (h : Store s) (p : P) (hok : (s.buf i).dirty = false → Written s i) :
    Store (State.setPc { s with
      holder := Function.update s.holder i none
      chan := wakeup s.chan (.lock i) } p (.brelse i)) := by
  refine h.frame (same s) rfl rfl ?_ fun _ q _ hcons hready => ⟨q, hcons, hready⟩
  intro j hsync hquiet
  by_cases hji : j = i
  · rw [hji] at hsync ⊢
    exact .inr (hok (synced_iff.mp hsync).2)
  · refine .inl (quiet_of_pc hquiet rfl (fun _ => Pc.noConfusion) ?_)
    intro hnone
    have hnone' : Function.update s.holder i none j = none := hnone
    rw [Function.update_of_ne hji] at hnone'
    exact hnone'

theorem next (h : Store s) (hc : Cache s) (hq : Queue s) (hok : Ok s a)
    (hs : Bio.next s a = some t) : Store t := by
  cases a with
  | bread p b =>
    obtain ⟨-, hs⟩ := Option.ite_none_right_eq_some.mp hs
    cases hs
    exact h.bget hc hq p b
  | run p =>
    obtain ⟨-, hs⟩ := Option.ite_none_right_eq_some.mp hs
    exact h.run hc hq hs
  | setData p i v =>
    obtain ⟨⟨hp, hi⟩, hs⟩ := Option.ite_none_right_eq_some.mp hs
    cases hb : (s.buf i).blockno with
    | none =>
      rw [hb] at hs
      cases hs
    | some b =>
      rw [hb] at hs
      cases hs
      refine h.change hc hq hp hi hb rfl hb (hc.valid_of_idle hp hi)
        (Function.update_self b v s.contents).symm ?_ (.inr ?_) rfl rfl (fun _ _ hq => hq) rfl rfl
      · intro b' hb'
        exact Function.update_of_ne hb' ..
      intro q hno
      have hno' : s.pc q = .waiting i := hno
      exact hc.not_locks hp hi q (by rw [hno']; rfl)
  | pin p i =>
    obtain ⟨⟨hp, hi⟩, hs⟩ := Option.ite_none_right_eq_some.mp hs
    cases hs
    obtain ⟨b, hb⟩ := hc.blockno_of_holder hi
    have hv := hc.valid_of_idle hp hi
    exact h.change hc hq hp hi hb rfl hb hv (h.data i b hb hv) (fun _ _ => rfl) (.inl rfl) rfl rfl
      (fun _ _ hq => hq) rfl rfl
  | bwrite p i =>
    obtain ⟨⟨hp, hi⟩, hs⟩ := Option.ite_none_right_eq_some.mp hs
    cases hs
    obtain ⟨b, hb⟩ := hc.blockno_of_holder hi
    have hv := hc.valid_of_idle hp hi
    exact h.change hc hq hp hi hb rfl hb hv (h.data i b hb hv) (fun _ _ => rfl) (.inl rfl) rfl rfl
      (fun j _ hquiet => quiet_of_pc hquiet rfl (fun _ => Pc.noConfusion) id) rfl rfl
  | brelse p i =>
    obtain ⟨-, hs⟩ := Option.ite_none_right_eq_some.mp hs
    cases hs
    exact h.releasesleep p hok
  | kill p =>
    cases hs
    exact ⟨h.data, h.stored, h.clean, h.ready⟩
  | complete ok =>
    have hok' : ok = true := hok
    rw [hok'] at hs
    exact h.complete hc hq hs
  | ideintr =>
    obtain ⟨-, rfl⟩ | ⟨i, l, r, hcons, hready, hcases⟩ := Queue.ideintr_cases hs
    · exact h
    have hfinish := h.finish hc hq hcons hready
    obtain ⟨-, rfl⟩ | ⟨j, l', -, rfl⟩ := hcases
    · exact hfinish
    · exact hfinish.idestart rfl j

end Store

variable [Fintype P] [DecidableEq P]

theorem storeInv_of_reach {disk : Nat → Block} {blank : Block}
    (hr : Reach step Ok (binit disk blank) s) : Inv s ∧ Store s := by
  refine hr.invariant (I := fun s : State P => Inv s ∧ Store s) ?_ ?_
  · refine ⟨Inv.binit disk blank, ?_, fun _ _ => rfl, ?_, ?_⟩
    · intro i b hb
      cases hb
    · intro i hs
      cases hs
    · intro i q r hq
      cases hq
  · intro u a v ⟨hinv, hstore⟩ hok hs
    refine ⟨hinv.step hs, ?_⟩
    obtain ⟨h0, hs⟩ := Option.ite_none_right_eq_some.mp hs
    exact hstore.next hinv.cache (hinv.queue h0) hok hs

/-- In every run with a disk that works, whose processes write or pin what they change, whoever
has a buffer sees what was last put into its block, `iderw` returns when the disk has it, and a
block that nobody holds or has pinned is on the disk. -/
theorem store_of_reach {disk : Nat → Block} {blank : Block}
    (hr : Reach step Ok (binit disk blank) s) :
    (∀ p i b, s.holder i = some p → (s.pc p).locks ≠ some i → (s.buf i).blockno = some b →
      (s.buf i).valid = true ∧ (s.buf i).data = s.contents b) ∧
    (∀ p i b t, s.pc p = .waiting i → (s.buf i).blockno = some b → step s (.run p) = some t →
      t.pc p = .idle → t.disk b = t.contents b) ∧
    ∀ b, (∀ i, (s.buf i).blockno = some b → s.holder i = none ∧ (s.buf i).dirty = false) →
      s.disk b = s.contents b := by
  obtain ⟨hinv, hstore⟩ := storeInv_of_reach hr
  refine ⟨?_, ?_, ?_⟩
  · intro p i b hi hlocks hb
    have hv := hinv.cache.held p i hi hlocks
    exact ⟨hv, hstore.data i b hb hv⟩
  · intro p i b t hp hb hs hidle
    obtain ⟨-, hs⟩ := Option.ite_none_right_eq_some.mp hs
    obtain ⟨-, hs⟩ := Option.ite_none_right_eq_some.mp hs
    unfold State.run at hs
    rw [hp] at hs
    cases hs
    unfold State.wait at hidle ⊢
    by_cases hsync : synced (s.buf i) = true
    · rw [if_pos hsync]
      show s.disk b = s.contents b
      rw [hstore.clean i hsync (.inr ⟨p, hp⟩) b hb]
      exact hstore.data i b hb (synced_iff.mp hsync).1
    · rw [if_neg hsync] at hidle
      have hno : Function.update s.pc p (.waiting i) p = .idle := hidle
      rw [Function.update_self] at hno
      cases hno
  · intro b hb
    by_cases hcached : ∃ i, (s.buf i).blockno = some b ∧ (s.buf i).valid = true
    · obtain ⟨i, hi, hv⟩ := hcached
      obtain ⟨hnone, hd⟩ := hb i hi
      rw [hstore.clean i (synced_iff.mpr ⟨hv, hd⟩) (.inl hnone) b hi]
      exact hstore.data i b hi hv
    · apply hstore.stored
      intro i hi
      by_contra hv
      rw [Bool.not_eq_false] at hv
      exact hcached ⟨i, hi, hv⟩

/-- A block is read, changed and written. -/
def readWritten : State Unit :=
  (run step (binit (fun _ _ => 0) fun _ => 0) [.bread () 7, .run (), .run (), .run (), .complete true,
    .ideintr, .run (), .setData () 0 fun _ => 5, .bwrite () 0, .run (), .complete true, .ideintr,
    .run ()]).getD (binit (fun _ _ => 0) fun _ => 0)

theorem store_of_reach_readWritten :
    readWritten.contents 7 ⟨0, Nat.succ_pos 511⟩ = 5 ∧ (readWritten.buf 0).data = readWritten.contents 7 := by
  have hr : Reach step Ok (binit (fun _ _ => 0) fun _ => 0) readWritten := by
    refine reach_of_run ?_ (eq_some_getD (by decide +kernel))
    simp [Ok]
  have hheld := (store_of_reach hr).1 () 0 7 (by decide +kernel) (by decide +kernel)
    (by decide +kernel)
  exact ⟨by decide +kernel, hheld.2⟩

end Xv6.Bio
