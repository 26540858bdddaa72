import Xv6.Io.BioStore

/-!
# Who changes a buffer

`Ok` asks that the disk has the data of a buffer that is given back and is not pinned. Here it
follows from what the processes do: after each change of a buffer its holder calls `bwrite` or
pins it before he gives it back.
-/

namespace Xv6.Bio
open Disk Transition Wait

variable {P : Type*}

/-- The system, and the buffers changed since they were last written or pinned. -/
structure Tracked (P : Type*) where
  sys : State P
  changed : Fin NBUF → Bool

namespace Tracked

variable [DecidableEq P]

def mark (changed : Fin NBUF → Bool) : Action P → Fin NBUF → Bool
  | .setData _ i _ => Function.update changed i true
  | .pin _ i | .bwrite _ i => Function.update changed i false
  | _ => changed

def step (s : Tracked P) (a : Action P) : Option (Tracked P) :=
  (Bio.step s.sys a).map fun t => ⟨t, mark s.changed a⟩

end Tracked

/-- A changed buffer is not given back, and the disk works. -/
def Saves (s : Tracked P) : Action P → Prop
  | .brelse _ i => s.changed i = false
  | .complete ok => ok = true
  | _ => True

/-- The disk has the data of the buffers without changes. -/
def Saved (s : State P) (changed : Fin NBUF → Bool) : Prop :=
  ∀ i, synced (s.buf i) = true → changed i = false → Written s i

variable {s t : State P} {p : P} {i : Fin NBUF} {changed : Fin NBUF → Bool} {a : Action P}

/-- Counts change, and the disk stays. -/
structure Rest (s t : State P) : Prop where
  buf : ∀ i, ∃ n, t.buf i = { s.buf i with refcnt := n }
  disk : t.disk = s.disk

theorem Rest.of_buf (hbuf : t.buf = s.buf) (hdisk : t.disk = s.disk) : Rest s t :=
  ⟨fun i => ⟨(s.buf i).refcnt, congrFun hbuf i⟩, hdisk⟩

theorem Rest.of_refcnt {n : Nat}
    (hbuf : t.buf = Function.update s.buf i { s.buf i with refcnt := n })
    (hdisk : t.disk = s.disk) : Rest s t := by
  refine ⟨fun j => ?_, hdisk⟩
  rw [hbuf]
  by_cases hj : j = i
  · rw [hj]
    exact ⟨n, Function.update_self ..⟩
  · exact ⟨_, Function.update_of_ne hj ..⟩

theorem Rest.idestart (s : State P) (i : Fin NBUF) : Rest s (s.idestart i) := by
  obtain ⟨hbuf, -, -, -, -, -, hdisk, -⟩ := Cache.idestart_rest s i
  exact .of_buf hbuf hdisk

section Run

variable [DecidableEq P]

theorem Rest.iderw (s : State P) (p : P) (i : Fin NBUF) : Rest s (s.iderw p i) := by
  have hwait : ∀ u : State P, Rest s u → Rest s (u.wait p i) := by
    intro u hu
    unfold State.wait
    split_ifs
    · exact ⟨hu.buf, hu.disk⟩
    · exact ⟨hu.buf, hu.disk⟩
  unfold State.iderw
  split_ifs
  · exact .of_buf rfl rfl
  · exact .of_buf rfl rfl
  · have hstart := Rest.idestart { s with idequeue := s.idequeue ++ [i] } i
    exact hwait _ ⟨hstart.buf, hstart.disk⟩
  · exact hwait _ (.of_buf rfl rfl)

/-- What a process does inside a call leaves the buffers and the disk alone. -/
theorem Rest.run (hs : s.run p = some t) : Rest s t := by
  unfold State.run at hs
  cases hp : s.pc p with
  | idle =>
    rw [hp] at hs
    cases hs
  | acquiresleep i =>
    rw [hp] at hs
    cases hs
    unfold State.acquiresleep
    split_ifs
    · exact .of_buf rfl rfl
    · exact .of_buf rfl rfl
  | bread i =>
    rw [hp] at hs
    cases hs
    exact .of_buf rfl rfl
  | iderw i =>
    rw [hp] at hs
    cases hs
    exact .iderw s p i
  | waiting i =>
    rw [hp] at hs
    cases hs
    unfold State.wait
    split_ifs
    · exact .of_buf rfl rfl
    · exact .of_buf rfl rfl
  | brelse i =>
    rw [hp] at hs
    cases hs
    unfold State.release
    dsimp only
    split_ifs
    · exact .of_refcnt rfl rfl
    · exact .of_refcnt rfl rfl

end Run

namespace Saved

theorem rest (h : Saved s changed) (hrest : Rest s t) : Saved t changed := by
  intro i hs hc b hb
  obtain ⟨n, hn⟩ := hrest.buf i
  rw [hn] at hs hb ⊢
  rw [hrest.disk]
  exact h i hs hc b hb

/-- The buffer `i` is changed, or is not what the disk has. -/
theorem update {c : Fin NBUF → Bool} (h : Saved s changed)
    (hi : synced (t.buf i) = true → c i = true) (hbuf : ∀ j, j ≠ i → t.buf j = s.buf j)
    (hc : ∀ j, j ≠ i → c j = changed j) (hdisk : t.disk = s.disk) : Saved t c := by
  intro j hs hcj b hb
  have hj : j ≠ i := by
    rintro rfl
    rw [hi hs] at hcj
    cases hcj
  rw [hbuf j hj] at hs hb ⊢
  rw [hdisk]
  exact h j hs (by rw [← hc j hj]; exact hcj) b hb

theorem dirty (h : Saved s changed) (i : Fin NBUF)
    (hbuf : t.buf = Function.update s.buf i { s.buf i with dirty := true })
    (hdisk : t.disk = s.disk) : Saved t (Function.update changed i false) := by
  refine h.update (i := i) ?_ ?_ (fun j hj => Function.update_of_ne hj ..) hdisk
  · intro hs
    rw [hbuf, Function.update_self] at hs
    have hclean := (synced_iff.mp hs).2
    cases hclean
  · intro j hj
    rw [hbuf, Function.update_of_ne hj]

variable [Fintype P]

/-- A write changes the block of a buffer that is dirty. -/
theorem complete (h : Saved s changed) (hc : Cache s) (hq : Queue s)
    (hs : s.complete true = some t) : Saved t changed := by
  unfold State.complete at hs
  cases hq.serving with
  | idle _ hidle =>
    rw [hidle] at hs
    cases hs
  | ready i q r _ hready =>
    rw [hready] at hs
    cases hs
  | busy i q b hcons hb _ hbusy =>
    rw [hbusy] at hs
    by_cases hd : (s.buf i).dirty = true
    · rw [if_pos hd] at hs
      cases hs
      intro j hsync hcj b' hb'
      have hsync' : synced (s.buf j) = true := hsync
      have hb'' : (s.buf j).blockno = some b' := hb'
      have hbb : b' ≠ b := by
        rintro rfl
        rw [hc.unique j i b' hb'' hb] at hsync'
        rw [(synced_iff.mp hsync').2] at hd
        cases hd
      show Function.update s.disk b (s.buf i).data b' = (s.buf j).data
      rw [Function.update_of_ne hbb]
      exact h j hsync hcj b' hb'
    · rw [if_neg hd] at hs
      cases hs
      exact h.rest (.of_buf rfl rfl)

theorem finish (h : Saved s changed) (hstore : Store s) (hc : Cache s) (hq : Queue s)
    {l : List (Fin NBUF)} {d : Option Block} (hcons : s.idequeue = i :: l)
    (hready : s.drive = .ready d) : Saved (s.finish i l d) changed := by
  obtain ⟨-, p, hp⟩ := (hq.mem i).mp (by rw [hcons]; exact List.mem_cons_self)
  have hfinish := hstore.finish hc hq hcons hready
  intro j hs hcj
  by_cases hj : j = i
  · -- Its holder still waits.
    rw [hj] at hs ⊢
    exact hfinish.clean i hs (.inr ⟨p, hp⟩)
  · have hbuf := Queue.finish_buf_ne s l d hj
    intro b hb
    rw [hbuf] at hs hb ⊢
    exact h j hs hcj b hb

variable [DecidableEq P]

omit [Fintype P] in
theorem bget (h : Saved s changed) (p : P) (b : Nat) : Saved (s.bget p b) changed := by
  unfold State.bget
  cases s.cached b with
  | some i => exact h.rest (.of_refcnt rfl rfl)
  | none =>
    cases s.unused with
    | none => exact h.rest (.of_buf rfl rfl)
    | some i =>
      refine h.update (i := i) ?_ (fun j hj => Function.update_of_ne hj ..) (fun _ _ => rfl) rfl
      -- The buffer is not valid.
      intro hs
      have hself : synced (Function.update s.buf i { s.buf i with
          blockno := some b, valid := false, dirty := false, refcnt := 1 } i) = true := hs
      rw [Function.update_self] at hself
      cases hself

theorem next (h : Saved s changed) (hstore : Store s) (hc : Cache s) (hq : Queue s)
    (hok : a = .complete false → False) (hs : Bio.next s a = some t) :
    Saved t (Tracked.mark changed a) := by
  cases a with
  | bread p b =>
    obtain ⟨-, hs⟩ := Option.ite_none_right_eq_some.mp hs
    cases hs
    exact h.bget p b
  | run p =>
    obtain ⟨-, hs⟩ := Option.ite_none_right_eq_some.mp hs
    exact h.rest (.run hs)
  | setData p i v =>
    obtain ⟨-, hs⟩ := Option.ite_none_right_eq_some.mp hs
    cases hb : (s.buf i).blockno with
    | none =>
      rw [hb] at hs
      cases hs
    | some b =>
      rw [hb] at hs
      cases hs
      exact h.update (i := i) (fun _ => Function.update_self ..)
        (fun j hj => Function.update_of_ne hj ..) (fun j hj => Function.update_of_ne hj ..) rfl
  | pin p i =>
    obtain ⟨-, hs⟩ := Option.ite_none_right_eq_some.mp hs
    cases hs
    exact h.dirty i rfl rfl
  | bwrite p i =>
    obtain ⟨-, hs⟩ := Option.ite_none_right_eq_some.mp hs
    cases hs
    exact h.dirty i rfl rfl
  | brelse p i =>
    obtain ⟨-, hs⟩ := Option.ite_none_right_eq_some.mp hs
    cases hs
    exact h.rest (.of_buf rfl rfl)
  | kill p =>
    cases hs
    exact h.rest (.of_buf rfl rfl)
  | complete ok =>
    cases ok with
    | false => exact (hok rfl).elim
    | true => exact h.complete hc hq hs
  | ideintr =>
    obtain ⟨-, rfl⟩ | ⟨i, l, r, hcons, hready, hcases⟩ := Queue.ideintr_cases hs
    · exact h
    have hfinish := h.finish hstore hc hq hcons hready
    obtain ⟨-, rfl⟩ | ⟨j, l', -, rfl⟩ := hcases
    · exact hfinish
    · exact hfinish.rest (.idestart _ j)

end Saved

variable [Fintype P] [DecidableEq P]

/-- Processes that write or pin what they change keep to `Ok`. -/
theorem reach_of_saves {disk : Nat → Block} {blank : Block} {s : Tracked P}
    (hr : Reach Tracked.step Saves ⟨binit disk blank, fun _ => false⟩ s) :
    Reach step Ok (binit disk blank) s.sys := by
  have h : Reach step Ok (binit disk blank) s.sys ∧ Saved s.sys s.changed := by
    refine hr.invariant
      (I := fun s : Tracked P => Reach step Ok (binit disk blank) s.sys ∧ Saved s.sys s.changed)
      ⟨.refl _, ?_⟩ ?_
    · intro i hs
      cases hs
    · intro u a v ⟨hu, hsaved⟩ hok hs
      obtain ⟨t, ht, rfl⟩ := Option.map_eq_some_iff.mp hs
      obtain ⟨hinv, hstore⟩ := storeInv_of_reach hu
      obtain ⟨h0, hnext⟩ := Option.ite_none_right_eq_some.mp ht
      refine ⟨hu.tail ?_ ht, hsaved.next hstore hinv.cache (hinv.queue h0) ?_ hnext⟩
      · cases a with
        | brelse p i =>
          obtain ⟨⟨hp, hi⟩, -⟩ := Option.ite_none_right_eq_some.mp hnext
          have hvalid := hinv.cache.valid_of_idle hp hi
          exact fun hdirty => hsaved i (synced_iff.mpr ⟨hvalid, hdirty⟩) hok
        | complete ok => exact hok
        | _ => trivial
      · rintro rfl
        cases hok
  exact h.1

end Xv6.Bio
