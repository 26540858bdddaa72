import Xv6.Disk.Commit

/-!
# Crash safety of the delayed commit (project3/log.c:115-122, 186-196)

Between commits the home blocks on disk are those of the last commit, and the
changes since then are pinned in the cache and listed in `log.lh`. `CrashSafe`
says what recovery would find: the last commit that returned, or the one in
progress. It holds at every write of a session, so recovery, also when it is
itself cut off again and again, ends in one of the two.
-/

namespace Xv6.Disk
open Crash Buffer RedoLog

/-- Recovery would produce the contents at the last commit that returned, or at
the commit in progress. -/
def CrashSafe (A : Area) (s : Machine) : Prop :=
  A.Recovers s.disk s.durable ∨ ∃ c, s.committing = some c ∧ A.Recovers s.disk c

/-- The machine outside `commit`, seeing the contents `σ`. -/
structure LogInv (A : Area) (s : Machine) (σ : Nat → Block) : Prop where
  sees : Sees s σ
  start : s.log.start = A.start
  size : s.log.size = A.size
  lh : A.LogOk s.log.lh
  pinned : ∀ b, s.Pinned b ↔ b ∈ s.log.lh
  empty : decodeHead (s.disk A.start) = []
  home : ∀ b, A.Home b → s.disk b = s.durable b
  quiet : s.committing = none

variable {A : Area} {s t : Machine} {σ τ : Nat → Block}

theorem Area.recovers_of_empty {d : Nat → Block} (h : decodeHead (d A.start) = [])
    (hd : ∀ b, A.Home b → d b = τ b) : A.Recovers d τ := by
  refine ⟨?_, fun b hb => ?_⟩
  · rw [h]
    exact A.logOk_nil
  · rw [h, replay_nil, hd b hb]

theorem LogInv.crashSafe (h : LogInv A s σ) : CrashSafe A s :=
  Or.inl (Area.recovers_of_empty h.empty h.home)

theorem LogInv.not_home_pinned (h : LogInv A s σ) {b : Nat} (hb : s.Pinned b) : A.Home b :=
  h.lh.home b ((h.pinned b).mp hb)

theorem LogInv.start_not_pinned (h : LogInv A s σ) : ¬ s.Pinned A.start :=
  fun hp => A.not_home_start (h.not_home_pinned hp)

/-- A change of the log record and the ghosts leaves the view of the cache alone. -/
theorem Sees.congr (h : Sees s σ) (hd : t.disk = s.disk) (hb : t.buf = s.buf)
    (ho : t.order = s.order) : Sees t σ := by
  have hp : ∀ b, t.Pinned b ↔ s.Pinned b := by
    intro b
    unfold Machine.Pinned
    rw [hb]
  refine ⟨?_, ?_, ?_, ?_, ?_, ?_⟩
  · rw [hb]
    exact h.uniq
  · rw [ho]
    exact h.order
  · rw [hb]
    exact h.range
  · rw [hb]
    exact h.dirty
  · rw [hb]
    exact h.buf
  · intro b
    rw [hp, hd]
    exact h.disk b

/-- With nothing pinned the disk has what the cache shows. -/
theorem Sees.of_not_pinned (h : Sees s σ) (hp : ∀ b, ¬ s.Pinned b) : Sees s s.disk := by
  have hd : s.disk = σ := funext fun b => h.disk b (hp b)
  rw [hd]
  exact h

/-! ### commit and sync -/

/-- After `commit` the log is empty and the home blocks of `τ` are on the disk. -/
structure Committed (A : Area) (s : Machine) (τ : Nat → Block) (t : Machine) : Prop where
  same : Same { s with log := { s.log with lh := [] } } t
  sees : Sees t t.disk
  pinned : ∀ b, ¬ t.Pinned b
  head : decodeHead (t.disk A.start) = []
  home : ∀ b, A.Home b → t.disk b = τ b

/-- The state in which `sync` calls `commit`. -/
structure Committing (A : Area) (s : Machine) (σ τ : Nat → Block) : Prop where
  sees : Sees s σ
  start : s.log.start = A.start
  lh : A.LogOk s.log.lh
  pinned : ∀ b, s.Pinned b ↔ b ∈ s.log.lh
  empty : decodeHead (s.disk A.start) = []
  home : ∀ b, A.Home b → s.disk b = s.durable b
  goal : s.committing = some τ
  cache : ∀ b, A.Home b → σ b = τ b

namespace Committing

theorem start_not_pinned (h : Committing A s σ τ) : ¬ s.Pinned A.start :=
  fun hp => A.not_home_start (h.lh.home _ ((h.pinned _).mp hp))

theorem crashSafe (h : Committing A s σ τ) (hst : t.committing = s.committing)
    (hr : A.Recovers t.disk τ) : CrashSafe A t := by
  refine Or.inr ⟨τ, ?_, hr⟩
  rw [hst, h.goal]

/-- `write_log` does not touch what recovery looks at. -/
theorem writeLog (h : Committing A s σ τ) :
    wp True (CrashSafe A) (writeLog A.start 0 s.log.lh)
      (fun _ t => LogWritten A s.log.lh s σ t) s := by
  refine writeLog_spec h.lh [] _ rfl h.sees (fun b hp => h.lh.home b ((h.pinned b).mp hp))
    (fun i b hi => absurd hi (Nat.not_lt_zero i)) ?_
  intro t hst hhead hhome
  refine Or.inl (Area.recovers_of_empty ?_ ?_)
  · rw [hhead]
    exact h.empty
  · intro b hb
    rw [hhome b hb, h.home b hb, hst.durable]

/-- Once the header is on the disk, recovery yields the new contents. -/
theorem replay_goal (h : Committing A s σ τ) (hw : LogWritten A s.log.lh s σ t)
    {d : Nat → Block} (hd : ∀ b, b ≠ A.start → d b = t.disk b) {b : Nat} (hb : A.Home b) :
    replay (A.copies d) s.log.lh d b = τ b := by
  obtain ⟨σ', hs', -, hcopies⟩ := hw.sees
  have hfits := h.lh.fits
  refine replay_eq ?_ ?_
  · intro i c hi
    have hlt : i < s.log.lh.length := (List.getElem?_eq_some_iff.mp hi).1
    have hnh := A.not_home_log (i := i) (by omega)
    rw [← h.cache c (h.lh.home c (List.mem_of_getElem? hi)), ← hcopies i c hi]
    unfold Area.copies
    rw [hd _ (by omega), hs'.disk]
    rw [hw.pinned, h.pinned]
    exact fun hc => hnh (h.lh.home _ hc)
  · intro hbl
    have hne : b ≠ A.start := by
      rintro rfl
      exact A.not_home_start hb
    rw [hd b hne, hw.home b hb, ← h.cache b hb]
    refine h.sees.disk b ?_
    rw [h.pinned]
    exact hbl

theorem writeHead (h : Committing A s σ τ) (hw : LogWritten A s.log.lh s σ t) {σ' : Nat → Block}
    (hs' : Sees t σ') :
    wp True (CrashSafe A) writeHead (fun _ u => HeadWritten A t σ' u ∧ (True ∨ Clean u)) t := by
  have hlog := hw.same.log
  refine writeHead_spec hs' (by rw [hlog, h.start]) (by rw [hlog]; exact h.lh) ?_
    (Or.inl trivial) ?_
  · rw [hw.pinned]
    exact h.start_not_pinned
  · intro u hsu hhead hdisk
    refine h.crashSafe (by rw [hsu.committing, hw.same.committing]) ⟨?_, fun b hb => ?_⟩
    · rw [hhead, hlog]
      exact h.lh
    · rw [hhead, hlog]
      exact h.replay_goal hw hdisk hb

end Committing

theorem commit_spec (h : Committing A s σ τ) :
    wp True (CrashSafe A) commit (fun _ t => Committed A s τ t) s := by
  refine wp_bind (wp_get ?_)
  by_cases hn : 0 < s.log.lh.length
  · rw [if_pos hn, h.start]
    refine wp_seq h.writeLog fun _ t hw => ?_
    obtain ⟨σ1, hs1, -, -⟩ := hw.sees
    refine wp_seq (h.writeHead hw hs1) fun _ u ⟨hu, _⟩ => ?_
    obtain ⟨σ2, hs2, hσ2⟩ := hu.sees
    have hsu : Same s u := hw.same.trans hu.same
    have hpu : ∀ b, u.Pinned b ↔ b ∈ s.log.lh := by
      intro b
      rw [hu.pinned, hw.pinned, h.pinned]
    have hhead : decodeHead (u.disk A.start) = s.log.lh := by rw [hu.head, hw.same.log]
    have hrep : ∀ b, A.Home b → replay (A.copies σ2) s.log.lh σ2 b = τ b := by
      intro b hb
      have hfits := h.lh.fits
      rw [← h.replay_goal hw hu.disk hb]
      refine replay_congr ?_ ?_
      · intro i hi
        refine (hs2.disk _ ?_).symm
        rw [hpu]
        exact fun hc => A.not_home_log (by omega) (h.lh.home _ hc)
      · intro c hc
        refine (hs2.disk c ?_).symm
        rw [hpu]
        exact hc
    refine wp_seq (installTrans_spec h.lh [] _ rfl hs2 (fun b hp => (hpu b).mp hp) hrep
      (fun i b hi => absurd hi (Nat.not_lt_zero i)) (Or.inl trivial) ?_) fun _ v ⟨hv, _⟩ => ?_
    · intro v hsv hvhead hvrep
      refine h.crashSafe (by rw [hsv.committing, hsu.committing]) ⟨?_, ?_⟩
      · rw [hvhead, hhead]
        exact h.lh
      · rw [hvhead, hhead]
        exact hvrep
    have hsv : Same s v := hsu.trans hv.same
    obtain ⟨σ3, hs3⟩ := hv.sees
    refine wp_bind (wp_modify ?_)
    refine wp_mono (writeHead_spec (A := A) (H := True) (σ := σ3)
      (s := { v with log := { v.log with lh := [] } }) (hs3.congr rfl rfl rfl) ?_ A.logOk_nil
      (hv.pinned A.start) (Or.inl trivial) ?_) ?_
    · show v.log.start = A.start
      rw [hsv.log, h.start]
    · intro w hsw hwhead hwdisk
      refine h.crashSafe (by rw [hsw.committing]; exact hsv.committing)
        (Area.recovers_of_empty hwhead ?_)
      intro b hb
      rw [hwdisk b ?_]
      · exact hv.home b hb
      · rintro rfl
        exact A.not_home_start hb
    · rintro _ w ⟨hw', -⟩
      obtain ⟨σ4, hs4, -⟩ := hw'.sees
      have hnp : ∀ b, ¬ w.Pinned b := by
        intro b hp
        exact hv.pinned b ((hw'.pinned b).mp hp)
      refine ⟨?_, hs4.of_not_pinned hnp, hnp, hw'.head, fun b hb => ?_⟩
      · refine Same.trans (t := { v with log := { v.log with lh := [] } }) ?_ hw'.same
        refine ⟨?_, hsv.logical, hsv.durable, hsv.committing⟩
        show ({ v.log with lh := [] } : Log) = { s.log with lh := [] }
        rw [hsv.log]
      · rw [hw'.disk b ?_]
        · exact hv.home b hb
        · rintro rfl
          exact A.not_home_start hb
  · rw [if_neg hn]
    have hnil : s.log.lh = [] := List.eq_nil_of_length_eq_zero (by omega)
    have hnp : ∀ b, ¬ s.Pinned b := by
      intro b
      rw [h.pinned, hnil]
      exact List.not_mem_nil
    refine wp_pure ⟨⟨?_, rfl, rfl, rfl⟩, h.sees.of_not_pinned hnp, hnp, h.empty, fun b hb => ?_⟩
    · show s.log = { s.log with lh := [] }
      rw [← hnil]
    · rw [h.sees.disk b (hnp b), h.cache b hb]

/-- Between calls: the contents seen through the cache are those after the
completed operations. -/
def Idle (A : Area) (s : Machine) : Prop :=
  ∃ σ, LogInv A s σ ∧ ∀ b, A.Home b → σ b = s.logical b

theorem Idle.crashSafe (h : Idle A s) : CrashSafe A s := by
  obtain ⟨σ, hi, -⟩ := h
  exact hi.crashSafe

theorem sync_spec (h : Idle A s) : wp True (CrashSafe A) sync (fun _ t => Idle A t) s := by
  obtain ⟨σ, hi, hlog⟩ := h
  refine wp_bind (wp_get (wp_bind (wp_modify (wp_bind (wp_modify ?_)))))
  have hc : Committing A { s with
      log := { s.log with committing := true }, committing := some s.logical } σ s.logical :=
    ⟨hi.sees.congr rfl rfl rfl, hi.start, hi.lh, hi.pinned, hi.empty, hi.home, rfl, hlog⟩
  refine wp_seq (commit_spec hc) fun _ t ht => ?_
  refine wp_bind (wp_modify (wp_bind (wp_modify (wp_pure ?_))))
  have htl := ht.same.log
  refine ⟨t.disk, ⟨ht.sees.congr rfl rfl rfl, ?_, ?_, ?_, ?_, ht.head, ?_, rfl⟩, ?_⟩
  · show t.log.start = A.start
    rw [htl]
    exact hi.start
  · show t.log.size = A.size
    rw [htl]
    exact hi.size
  · show A.LogOk t.log.lh
    rw [htl]
    exact A.logOk_nil
  · intro b
    show t.Pinned b ↔ b ∈ t.log.lh
    rw [htl]
    exact ⟨fun hp => absurd hp (ht.pinned b), fun hm => absurd hm List.not_mem_nil⟩
  · intro b hb
    show t.disk b = t.logical b
    rw [ht.home b hb, ht.same.logical]
  · intro b hb
    show t.disk b = t.logical b
    rw [ht.home b hb, ht.same.logical]

/-! ### Operations -/

theorem beginOp_spec {C : Machine → Prop} (h : LogInv A s σ) :
    wp True C beginOp (fun _ t => LogInv A t σ ∧ t.logical = s.logical) s := by
  refine wp_bind (wp_get ?_)
  split_ifs
  · exact wp_halt trivial
  · exact wp_modify ⟨⟨h.sees.congr rfl rfl rfl, h.start, h.size, h.lh, h.pinned, h.empty, h.home,
      h.quiet⟩, rfl⟩

theorem endOp_spec (h : Idle A s) : wp True (CrashSafe A) endOp (fun _ t => Idle A t) s := by
  obtain ⟨σ, hi, hlog⟩ := h
  have hended : Idle A { s with log := s.log.ended } :=
    ⟨σ, ⟨hi.sees.congr rfl rfl rfl, hi.start, hi.size, hi.lh, hi.pinned, hi.empty, hi.home,
      hi.quiet⟩, hlog⟩
  refine wp_bind (wp_modify (wp_bind (wp_get ?_)))
  cases s.log.ended.endOp with
  | panic => exact wp_halt trivial
  | commit => exact wp_seq (sync_spec hended) fun _ t ht => wp_pure ht
  | wakeup => exact wp_pure hended
  | leaveOpen => exact wp_pure hended

/-- `bread` and `brelse` are invisible to the log. -/
theorem LogInv.read (h : LogInv A s σ) {b : Nat} {i : Fin NBUF} (hr : Read s σ b i t) :
    LogInv A t σ := by
  have hsame := hr.same
  refine ⟨hr.sees, ?_, ?_, ?_, ?_, ?_, ?_, ?_⟩
  · rw [hsame.log, h.start]
  · rw [hsame.log, h.size]
  · rw [hsame.log]
    exact h.lh
  · intro b'
    rw [hr.pinned, hsame.log, h.pinned]
  · rw [hr.disk, h.empty]
  · intro b' hb'
    rw [hr.disk, hsame.durable, h.home b' hb']
  · rw [hsame.committing, h.quiet]

theorem LogInv.released (h : LogInv A s σ) (i : Fin NBUF) : LogInv A (s.released i) σ := by
  have hsame := Same.released s i
  refine ⟨h.sees.released i, ?_, ?_, ?_, ?_, ?_, ?_, ?_⟩
  · rw [hsame.log, h.start]
  · rw [hsame.log, h.size]
  · rw [hsame.log]
    exact h.lh
  · intro b'
    rw [Machine.pinned_released, hsame.log, h.pinned]
  · rw [Machine.released_disk, h.empty]
  · intro b' hb'
    rw [Machine.released_disk, hsame.durable, h.home b' hb']
  · rw [hsame.committing, h.quiet]

theorem Area.LogOk.absorb {l : Log} (h : A.LogOk l.lh) {b : Nat} (hb : A.Home b)
    (hr : b < FSSIZE) (hsize : l.size = A.size) (hw : l.writeCheck = none) :
    A.LogOk (l.absorb b).lh := by
  rw [Log.absorb_lh]
  split_ifs with hm
  · exact h
  · have hroom : l.lh.length + 1 ≤ LOGSIZE ∧ l.lh.length + 2 ≤ A.size := by
      unfold Log.writeCheck at hw
      split_ifs at hw with h1
      rw [hsize] at h1
      omega
    refine ⟨List.nodup_append.mpr ⟨h.nodup, List.nodup_singleton b, ?_⟩, ?_, ?_, ?_, ?_⟩
    · intro c hc d hd
      rw [List.mem_singleton.mp hd]
      rintro rfl
      exact hm hc
    · intro c hc
      rcases List.mem_append.mp hc with hc | hc
      · exact h.home c hc
      · rw [List.mem_singleton.mp hc]
        exact hb
    · intro c hc
      rcases List.mem_append.mp hc with hc | hc
      · exact h.range c hc
      · rw [List.mem_singleton.mp hc]
        exact hr
    · rw [List.length_append, List.length_singleton]
      exact hroom.1
    · rw [List.length_append, List.length_singleton]
      omega

/-- The machine after a held buffer has been overwritten and logged. -/
def Machine.logged (s : Machine) (i : Fin NBUF) (b : Nat) (v : Block) : Machine :=
  { s with log := s.log.absorb b }.setBuf i { s.buf i with data := v, dirty := true }

/-- A logged block is pinned with its new contents. -/
theorem LogInv.logged (h : LogInv A s σ) {i : Fin NBUF} {b : Nat} {v : Block}
    (hb : A.Home b) (hi : (s.buf i).blockno = some b) (hv : (s.buf i).valid = true)
    (hw : s.log.writeCheck = none) : LogInv A (s.logged i b v) (Function.update σ b v) := by
  have hlh : (s.log.absorb b).lh = if b ∈ s.log.lh then s.log.lh else s.log.lh ++ [b] :=
    s.log.absorb_lh b
  have hpin : ∀ b', (s.setBuf i { s.buf i with data := v, dirty := true }).Pinned b' ↔
      s.Pinned b' ∨ b' = b := by
    intro b'
    constructor
    · rintro ⟨j, hj, hd⟩
      by_cases hji : j = i
      · subst hji
        rw [Machine.setBuf_self] at hj
        right
        exact (Option.some.inj (hi.symm.trans hj)).symm
      · rw [Machine.setBuf_ne _ _ _ _ hji] at hj hd
        exact Or.inl ⟨j, hj, hd⟩
    · rintro (⟨j, hj, hd⟩ | rfl)
      · refine ⟨j, ?_⟩
        by_cases hji : j = i
        · subst hji
          rw [Machine.setBuf_self]
          exact ⟨hj, rfl⟩
        · rw [Machine.setBuf_ne _ _ _ _ hji]
          exact ⟨hj, hd⟩
      · refine ⟨i, ?_⟩
        rw [Machine.setBuf_self]
        exact ⟨hi, rfl⟩
  have hsees : Sees (s.setBuf i { s.buf i with data := v, dirty := true })
      (Function.update σ b v) := by
    refine h.sees.update (d := s.disk) ?_ (h.sees.range i) (fun _ => hv) ?_ ?_ ?_
    · rw [hi]
      exact h.sees.other hi
    · intro b' hb' _
      rw [hi] at hb'
      cases hb'
      rw [Function.update_self]
    · intro j b' hji hj
      refine Function.update_of_ne ?_ _ _
      rintro rfl
      exact hji (h.sees.uniq j i b' hj hi)
    · intro b' hp
      rw [hpin] at hp
      rw [Function.update_of_ne fun hc => hp (Or.inr hc)]
      exact h.sees.disk b' fun hc => hp (Or.inl hc)
  have hlog : ∀ {P : Log → Prop}, P { s.log with lh := (s.log.absorb b).lh } →
      P (s.log.absorb b) := by
    intro P hP
    have : s.log.absorb b = { s.log with lh := (s.log.absorb b).lh } := by
      simp only [Log.absorb]
      split_ifs <;> rfl
    rw [this]
    exact hP
  refine ⟨hsees.congr rfl rfl rfl, ?_, ?_, ?_, ?_, h.empty, h.home, h.quiet⟩
  · exact hlog (P := fun l => l.start = A.start) h.start
  · exact hlog (P := fun l => l.size = A.size) h.size
  · exact h.lh.absorb hb (h.sees.range i b hi hv) h.size hw
  · intro b'
    show (s.setBuf i { s.buf i with data := v, dirty := true }).Pinned b' ↔
      b' ∈ (s.log.absorb b).lh
    rw [hpin, h.pinned, hlh]
    split_ifs with hm
    · refine ⟨fun hc => hc.elim id fun he => he ▸ hm, Or.inl⟩
    · simp

theorem Machine.held_spec {i : Fin NBUF} {b : Nat} (h : s.held b = some i) :
    (s.buf i).blockno = some b ∧ (s.buf i).valid = true := by
  obtain ⟨hc, hp⟩ := Option.filter_eq_some_iff.mp h
  have hb : (s.buf i).blockno = some b := by simpa using List.find?_some hc
  exact ⟨hb, (of_decide_eq_true hp).2⟩

/-- A held buffer is overwritten and logged, unless the log is full. -/
theorem overwriteLog_spec {α : Type} {H : Prop} {C : Machine → Prop} {i : Fin NBUF} {b : Nat}
    {v : Block} {k : Prog Machine α} {post : α → Machine → Prop} (h : LogInv A s σ) (hb : A.Home b)
    (hi : (s.buf i).blockno = some b) (hv : (s.buf i).valid = true)
    (hcheck : H ∨ s.log.writeCheck = none)
    (hk : LogInv A (s.logged i b v) (Function.update σ b v) → wp H C k post (s.logged i b v)) :
    wp H C (do setData i v; logWrite i b; k) post s := by
  refine wp_bind (wp_modify (wp_bind (wp_bind (wp_get ?_))))
  rw [Machine.setBuf_log]
  cases hw : s.log.writeCheck with
  | some e =>
    refine wp_halt ?_
    rcases hcheck with hH | hnone
    · exact hH
    · rw [hw] at hnone
      cases hnone
  | none =>
    refine wp_modify ?_
    have heq : { s.setBuf i { s.buf i with data := v } with
        log := (s.setBuf i { s.buf i with data := v }).log.absorb b }.setBuf i
          { (s.setBuf i { s.buf i with data := v }).buf i with dirty := true }
        = s.logged i b v := by
      rw [Machine.setBuf_self]
      simp [Machine.logged, Machine.setBuf]
    rw [heq]
    exact hk (h.logged hb hi hv hw)

/-- The body of an operation does to the cache what `exec` does to the contents, and
writes nothing to the disk. -/
theorem runBody_spec {C : Machine → Prop} (op : Body A) {s : Machine} {σ : Nat → Block}
    (h : LogInv A s σ) :
    wp True C (runBody op) (fun _ t => LogInv A t (op.exec σ) ∧ t.logical = s.logical) s := by
  induction op generalizing s σ with
  | done => exact wp_pure ⟨h, rfl⟩
  | bread b hb k ih =>
    refine wp_seq (bread_spec h.sees (Or.inl trivial)) fun i t hr => ?_
    refine wp_bind (wp_get ?_)
    rw [hr.data]
    refine wp_mono (ih (σ b) (h.read hr)) fun _ u hu => ⟨hu.1, ?_⟩
    rw [hu.2, hr.same.logical]
  | logWrite b hb v k ih =>
    refine wp_bind (wp_get ?_)
    cases hheld : s.held b with
    | none => exact wp_halt trivial
    | some i =>
      obtain ⟨hi, hv⟩ := Machine.held_spec hheld
      exact overwriteLog_spec h hb hi hv (Or.inl trivial) ih
  | brelse b k ih =>
    refine wp_bind (wp_get ?_)
    cases hheld : s.held b with
    | none => exact wp_halt trivial
    | some i =>
      refine wp_bind (brelse_spec ?_)
      refine wp_mono (ih (h.released i)) fun _ u hu => ⟨hu.1, ?_⟩
      rw [hu.2, (Same.released s i).logical]

/-- An operation depends on home blocks only. -/
theorem Body.exec_congr (op : Body A) {σ σ' : Nat → Block} (h : ∀ b, A.Home b → σ b = σ' b)
    {b : Nat} (hb : A.Home b) : op.exec σ b = op.exec σ' b := by
  induction op generalizing σ σ' with
  | done => exact h b hb
  | bread c hc k ih =>
    simp only [Body.exec]
    rw [h c hc]
    exact ih _ h
  | logWrite c hc v k ih =>
    refine ih fun d hd => ?_
    by_cases hdc : d = c
    · rw [hdc, Function.update_self, Function.update_self]
    · rw [Function.update_of_ne hdc, Function.update_of_ne hdc, h d hd]
  | brelse c k ih => exact ih h

theorem fsOp_spec (op : Body A) (h : Idle A s) :
    wp True (CrashSafe A) (fsOp op) (fun _ t => Idle A t) s := by
  obtain ⟨σ, hi, hlog⟩ := h
  refine wp_seq (beginOp_spec hi) fun _ t ⟨ht, htl⟩ => ?_
  refine wp_seq (runBody_spec op ht) fun _ u ⟨hu, hul⟩ => ?_
  refine wp_bind (wp_modify (endOp_spec ⟨op.exec σ, ?_, fun b hb => ?_⟩))
  · exact ⟨hu.sees.congr rfl rfl rfl, hu.start, hu.size, hu.lh, hu.pinned, hu.empty, hu.home,
      hu.quiet⟩
  · show op.exec σ b = op.exec u.logical b
    rw [hul, htl]
    exact op.exec_congr hlog hb

theorem runCalls_spec (calls : List (Call A)) {s : Machine} (h : Idle A s) :
    wp True (CrashSafe A) (runCalls calls) (fun _ t => Idle A t) s := by
  induction calls generalizing s with
  | nil => exact wp_pure h
  | cons call calls ih =>
    cases call with
    | op body => exact wp_seq (fsOp_spec body h) fun _ t ht => ih ht
    | sync => exact wp_seq (sync_spec h) fun _ t ht => ih ht

/-! ### Recovery -/

theorem Machine.clean_powerOn (A : Area) (s : Machine) : Clean (s.powerOn A) :=
  fun _ => ⟨rfl, rfl⟩

theorem Sees.powerOn (A : Area) (s : Machine) : Sees (s.powerOn A) s.disk := by
  refine ⟨?_, fun i => ?_, fun _ _ _ h => Bool.noConfusion h, fun _ h => Bool.noConfusion h,
    fun _ _ _ h => Bool.noConfusion h, fun _ _ => rfl⟩
  · intro i j b hi
    have hnone : (none : Option Nat) = some b := hi
    cases hnone
  · exact List.mem_reverse.mpr (List.mem_finRange i)

/-- Recovery always comes to an end, on a disk with the home blocks of `τ` and an
empty log, and can be cut anywhere. -/
theorem recoverFromLog_spec (hr : A.Recovers s.disk τ)
    (hτ : s.durable = τ ∨ s.committing = some τ) :
    wp False (CrashSafe A) recoverFromLog (fun _ t => Same (s.powerOn A) t ∧ Sees t t.disk ∧
      (∀ b, ¬ t.Pinned b) ∧ decodeHead (t.disk A.start) = [] ∧ ∀ b, A.Home b → t.disk b = τ b)
      (s.powerOn A) := by
  have hsafe : ∀ t, t.durable = s.durable → t.committing = s.committing →
      A.Recovers t.disk τ → CrashSafe A t := by
    intro t hd hc ht
    rcases hτ with h | h
    · left
      rw [hd, h]
      exact ht
    · exact Or.inr ⟨τ, by rw [hc, h], ht⟩
  have hclean := Machine.clean_powerOn A s
  have hfits := A.fits
  have hpos := A.pos
  refine wp_seq (m := fun _ t => Sees t s.disk ∧ Clean t ∧ t.disk = s.disk ∧
    Same { s.powerOn A with log := { (s.powerOn A).log with
      lh := decodeHead (s.disk A.start) } } t) ?_ ?_
  · refine wp_bind (wp_get ?_)
    refine wp_seq (bread_spec (Sees.powerOn A s)
      (Or.inr (hclean.ready (by show A.start < FSSIZE; omega)))) fun i t hi => ?_
    refine wp_bind (wp_get (wp_bind (wp_modify (brelse_spec ?_))))
    have hdata : (t.buf i).data = s.disk A.start := hi.data
    rw [hdata]
    refine ⟨?_, ?_, ?_, ?_⟩
    · exact (hi.sees.congr (t := { t with log := { t.log with
        lh := decodeHead (s.disk A.start) } }) rfl rfl rfl).released i
    · intro j
      rw [Machine.released_buf]
      by_cases hji : j = i
      · subst hji
        rw [Machine.setBuf_self]
        have hd := hi.not_dirty hclean.not_pinned
        simp [hi.refcnt, hd]
      · rw [Machine.setBuf_ne _ _ _ _ hji]
        show (t.buf j).refcnt = 0 ∧ (t.buf j).dirty = false
        rw [hi.keep_ne hji]
        exact hclean j
    · rw [Machine.released_disk]
      exact hi.disk
    · refine Same.trans (t := { t with log := { t.log with lh := decodeHead (s.disk A.start) } })
        ?_ (Same.released _ i)
      refine ⟨?_, hi.same.logical, hi.same.durable, hi.same.committing⟩
      show ({ t.log with lh := decodeHead (s.disk A.start) } : Log) = _
      rw [hi.same.log]
  · rintro _ t ⟨hst, hct, hdt, hsame⟩
    refine wp_bind (wp_get ?_)
    have hlog : t.log = { (s.powerOn A).log with lh := decodeHead (s.disk A.start) } := hsame.log
    rw [hlog]
    show wp False (CrashSafe A) (installTrans A.start 0 (decodeHead (s.disk A.start)) >>= _) _ t
    refine wp_seq (installTrans_spec hr.ok [] _ rfl hst (fun b hp => absurd hp hct.not_pinned)
      hr.home (fun i b hi => absurd hi (Nat.not_lt_zero i)) (Or.inr hct) ?_) ?_
    · intro u hsu hhead hrep
      refine hsafe u ?_ ?_ ⟨?_, ?_⟩
      · rw [hsu.durable]
        exact hsame.durable
      · rw [hsu.committing]
        exact hsame.committing
      · rw [hhead, hdt]
        exact hr.ok
      · rw [hhead, hdt]
        exact hrep
    · rintro _ u ⟨hu, huc⟩
      obtain ⟨σ1, hs1⟩ := hu.sees
      have hsu : Same _ u := hsame.trans hu.same
      refine wp_bind (wp_modify ?_)
      refine wp_mono (writeHead_spec (A := A) (H := False) (σ := σ1)
        (s := { u with log := { u.log with lh := [] } }) (hs1.congr rfl rfl rfl) ?_ A.logOk_nil
        (hu.pinned A.start) (huc.imp_right fun hc => hc) ?_) ?_
      · show u.log.start = A.start
        rw [hsu.log]
        rfl
      · intro w hsw hwhead hwdisk
        refine hsafe w (by rw [hsw.durable]; exact hsu.durable)
          (by rw [hsw.committing]; exact hsu.committing) (Area.recovers_of_empty hwhead ?_)
        intro b hb
        rw [hwdisk b ?_]
        · exact hu.home b hb
        · rintro rfl
          exact A.not_home_start hb
      · rintro _ w ⟨hw, -⟩
        obtain ⟨σ2, hs2, -⟩ := hw.sees
        have hnp : ∀ b, ¬ w.Pinned b := fun b hp => hu.pinned b ((hw.pinned b).mp hp)
        refine ⟨?_, hs2.of_not_pinned hnp, hnp, hw.head, fun b hb => ?_⟩
        · refine Same.trans (t := { u with log := { u.log with lh := [] } }) ?_ hw.same
          refine ⟨?_, hsu.logical, hsu.durable, hsu.committing⟩
          show ({ u.log with lh := [] } : Log) = _
          rw [hsu.log]
          rfl
        · rw [hw.disk b ?_]
          · exact hu.home b hb
          · rintro rfl
            exact A.not_home_start hb

theorem session_spec (calls : List (Call A)) (h : CrashSafe A s) :
    wp True (CrashSafe A) (session calls) (fun _ t => CrashSafe A t) (s.powerOn A) := by
  obtain ⟨τ, hτ, hr⟩ : ∃ τ, (s.durable = τ ∨ s.committing = some τ) ∧ A.Recovers s.disk τ := by
    rcases h with hr | ⟨c, hc, hr⟩
    · exact ⟨s.durable, Or.inl rfl, hr⟩
    · exact ⟨c, Or.inr hc, hr⟩
  have hrec := recoverFromLog_spec hr hτ
  refine wp_seq (m := fun _ t => Same (s.powerOn A) t ∧ Sees t t.disk ∧
    (∀ b, ¬ t.Pinned b) ∧ decodeHead (t.disk A.start) = []) ?_ ?_
  · obtain ⟨_, t, ht, hpost⟩ := wp_total hrec
    refine ⟨hrec.1, ?_⟩
    rw [ht]
    exact ⟨hpost.1, hpost.2.1, hpost.2.2.1, hpost.2.2.2.1⟩
  · rintro _ t ⟨hsame, hst, hnp, hhead⟩
    refine wp_bind (wp_modify ?_)
    refine wp_mono (runCalls_spec calls ⟨t.disk, ?_, fun _ _ => rfl⟩) fun _ u hu => hu.crashSafe
    have hlog : t.log = initlog A.start A.size := hsame.log
    refine ⟨hst.congr rfl rfl rfl, ?_, ?_, ?_, ?_, hhead, fun _ _ => rfl, rfl⟩
    · show t.log.start = A.start
      rw [hlog]
      rfl
    · show t.log.size = A.size
      rw [hlog]
      rfl
    · show A.LogOk t.log.lh
      rw [hlog]
      exact A.logOk_nil
    · intro b
      show t.Pinned b ↔ b ∈ t.log.lh
      rw [hlog]
      exact ⟨fun hp => absurd hp (hnp b), fun hm => absurd hm List.not_mem_nil⟩

/-! ### Crashes -/

/-- The machines that a power cut can leave: after any write of a session, or
between its calls, any number of sessions after an image with an empty log. -/
inductive Crashed (A : Area) : Machine → Prop where
  | image (s : Machine) (hempty : decodeHead (s.disk A.start) = [])
      (hdurable : s.durable = s.disk) : Crashed A s
  | cut (s d : Machine) (calls : List (Call A)) (h : Crashed A s)
      (hd : d ∈ (session calls (s.powerOn A)).1) : Crashed A d
  | stop (s t : Machine) (calls : List (Call A)) (h : Crashed A s)
      (ht : (session calls (s.powerOn A)).2 = some ((), t)) : Crashed A t

theorem Crashed.crashSafe (h : Crashed A s) : CrashSafe A s := by
  induction h with
  | image s hempty hdurable =>
    exact Or.inl (Area.recovers_of_empty hempty fun b _ => by rw [hdurable])
  | cut s d calls _ hd ih => exact (session_spec calls ih).1 d hd
  | stop s t calls _ ht ih => exact wp_result (session_spec calls ih) ht

/-- Whenever the power was cut, recovery comes to an end and the home blocks on
disk are all those of the last commit that returned, or all those of the commit
that was in progress. -/
theorem recoverFromLog_of_crashed (h : Crashed A s) :
    ∃ t, (recoverFromLog (s.powerOn A)).2 = some ((), t) ∧
      ((∀ b, A.Home b → t.disk b = s.durable b) ∨
        ∃ c, s.committing = some c ∧ ∀ b, A.Home b → t.disk b = c b) := by
  rcases h.crashSafe with hr | ⟨c, hc, hr⟩
  · obtain ⟨_, t, ht, hpost⟩ := wp_total (recoverFromLog_spec hr (Or.inl rfl))
    exact ⟨t, ht, Or.inl hpost.2.2.2.2⟩
  · obtain ⟨_, t, ht, hpost⟩ := wp_total (recoverFromLog_spec hr (Or.inr hc))
    exact ⟨t, ht, Or.inr ⟨c, hc, hpost.2.2.2.2⟩⟩

/-- The log of a disk made by mkfs.c. -/
def mkfsArea : Area := ⟨2, 90, by decide, by decide⟩

def blank : Machine where
  disk := fun _ _ => 0
  buf := fun _ => ⟨none, false, false, 0, fun _ => 0⟩
  order := []
  log := initlog 2 90
  logical := fun _ _ => 0
  durable := fun _ _ => 0
  committing := none

def incrementBlock : Body mkfsArea :=
  .bread 200 (Or.inr (by decide)) fun old =>
    .logWrite 200 (Or.inr (by decide)) (fun i => old i + 1) (.brelse 200 .done)

/-- The five writes of a session with one operation and a `sync`. -/
def incrementCuts : List Machine := (session [.op incrementBlock, .sync] (blank.powerOn mkfsArea)).1

-- The cut right after the header of the log is on the disk.
theorem recoverFromLog_of_crashed_increment :
    ∃ t, (recoverFromLog ((incrementCuts.getD 2 blank).powerOn mkfsArea)).2 = some ((), t) ∧
      ((∀ b, mkfsArea.Home b → t.disk b = (incrementCuts.getD 2 blank).durable b) ∨
        ∃ c, (incrementCuts.getD 2 blank).committing = some c ∧
          ∀ b, mkfsArea.Home b → t.disk b = c b) := by
  have hlen : 2 < incrementCuts.length := by decide +kernel
  refine recoverFromLog_of_crashed (.cut blank _ [.op incrementBlock, .sync]
    (.image blank (by decide +kernel) rfl) ?_)
  rw [List.getD_eq_getElem _ _ hlen]
  exact List.getElem_mem hlen

end Xv6.Disk
