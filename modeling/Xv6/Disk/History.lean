import Xv6.Disk.CrashSafe

/-!
# The commits of a session (project3/log.c:145-168, 229-246)

What `durable` and `committing` are, in terms of the calls made: the contents after a
prefix of them, in which every call up to the last `sync` that returned is. So
recovery brings back the contents after a prefix of the calls.
-/

namespace Xv6.Disk
open Crash

variable {A : Area} {s t d : Machine} {σ : Nat → Block} {made calls : List (Call A)}

/-! ### Only the commits move the ghosts -/

def Machine.ghosts (s : Machine) : (Nat → Block) × (Nat → Block) × Option (Nat → Block) :=
  (s.logical, s.durable, s.committing)

theorem keeps_iderw (i : Fin NBUF) : Keeps Machine.ghosts (iderw i) := by
  refine Keeps.get fun s => ?_
  cases (s.buf i).blockno with
  | none => exact Keeps.halt
  | some b =>
    dsimp only
    split_ifs
    · exact Keeps.persist fun _ => rfl
    · exact Keeps.halt
    · exact Keeps.modify fun _ => rfl
    · exact Keeps.halt

theorem keeps_bget (b : Nat) : Keeps Machine.ghosts (bget b) := by
  refine Keeps.get fun s => ?_
  cases s.cached b with
  | some i =>
    dsimp only
    split_ifs
    · exact Keeps.seq (Keeps.modify fun _ => rfl) fun _ => Keeps.pure i
    · exact Keeps.halt
  | none =>
    cases s.unused with
    | some i => exact Keeps.seq (Keeps.modify fun _ => rfl) fun _ => Keeps.pure i
    | none => exact Keeps.halt

theorem keeps_bread (b : Nat) : Keeps Machine.ghosts (bread b) := by
  refine Keeps.seq (keeps_bget b) fun i => Keeps.get fun s => ?_
  split_ifs
  · exact Keeps.pure i
  · exact Keeps.seq (keeps_iderw i) fun _ => Keeps.pure i

theorem keeps_setData (i : Fin NBUF) (v : Block) : Keeps Machine.ghosts (setData i v) :=
  Keeps.modify fun _ => rfl

theorem keeps_bwrite (i : Fin NBUF) : Keeps Machine.ghosts (bwrite i) :=
  Keeps.seq (Keeps.modify fun _ => rfl) fun _ => keeps_iderw i

theorem keeps_brelse (i : Fin NBUF) : Keeps Machine.ghosts (brelse i) := by
  refine Keeps.modify fun s => ?_
  dsimp only
  split_ifs
  · rfl
  · rfl

theorem keeps_setLh (lh : List Nat) : Keeps Machine.ghosts (setLh lh) :=
  Keeps.modify fun _ => rfl

theorem keeps_writeLog (start tail : Nat) (bs : List Nat) :
    Keeps Machine.ghosts (writeLog start tail bs) := by
  induction bs generalizing tail with
  | nil => exact Keeps.pure ()
  | cons b bs ih =>
    refine Keeps.seq (keeps_bread _) fun dst => Keeps.seq (keeps_bread b) fun src => ?_
    refine Keeps.get fun s => Keeps.seq (keeps_setData dst _) fun _ => ?_
    refine Keeps.seq (keeps_bwrite dst) fun _ => Keeps.seq (keeps_brelse src) fun _ => ?_
    exact Keeps.seq (keeps_brelse dst) fun _ => ih (tail + 1)

theorem keeps_installTrans (start tail : Nat) (bs : List Nat) :
    Keeps Machine.ghosts (installTrans start tail bs) := by
  induction bs generalizing tail with
  | nil => exact Keeps.pure ()
  | cons b bs ih =>
    refine Keeps.seq (keeps_bread _) fun lbuf => Keeps.seq (keeps_bread b) fun dbuf => ?_
    refine Keeps.get fun s => Keeps.seq (keeps_setData dbuf _) fun _ => ?_
    refine Keeps.seq (keeps_bwrite dbuf) fun _ => Keeps.seq (keeps_brelse lbuf) fun _ => ?_
    exact Keeps.seq (keeps_brelse dbuf) fun _ => ih (tail + 1)

theorem keeps_readHead : Keeps Machine.ghosts readHead := by
  refine Keeps.get fun s => Keeps.seq (keeps_bread _) fun buf => Keeps.get fun t => ?_
  exact Keeps.seq (keeps_setLh _) fun _ => keeps_brelse buf

theorem keeps_writeHead : Keeps Machine.ghosts writeHead := by
  refine Keeps.get fun s => Keeps.seq (keeps_bread _) fun buf => Keeps.get fun t => ?_
  refine Keeps.seq (keeps_setData buf _) fun _ => ?_
  exact Keeps.seq (keeps_bwrite buf) fun _ => keeps_brelse buf

theorem keeps_recoverFromLog : Keeps Machine.ghosts recoverFromLog := by
  refine Keeps.seq keeps_readHead fun _ => Keeps.get fun s => ?_
  refine Keeps.seq (keeps_installTrans _ 0 _) fun _ => ?_
  exact Keeps.seq (keeps_setLh []) fun _ => keeps_writeHead

theorem keeps_commit : Keeps Machine.ghosts commit := by
  refine Keeps.get fun s => ?_
  split_ifs
  · refine Keeps.seq (keeps_writeLog _ 0 _) fun _ => Keeps.seq keeps_writeHead fun _ => ?_
    refine Keeps.seq (keeps_installTrans _ 0 _) fun _ => ?_
    exact Keeps.seq (keeps_setLh []) fun _ => keeps_writeHead
  · exact Keeps.pure ()

theorem keeps_beginOp : Keeps Machine.ghosts beginOp := by
  refine Keeps.get fun s => ?_
  split_ifs
  · exact Keeps.halt
  · exact Keeps.modify fun _ => rfl

theorem keeps_logWrite (i : Fin NBUF) (b : Nat) : Keeps Machine.ghosts (logWrite i b) := by
  refine Keeps.get fun s => ?_
  cases s.log.writeCheck with
  | some p => exact Keeps.halt
  | none => exact Keeps.modify fun _ => rfl

theorem keeps_runBody (op : Body A) : Keeps Machine.ghosts (runBody op) := by
  induction op with
  | done => exact Keeps.pure ()
  | bread b hb k ih =>
    exact Keeps.seq (keeps_bread b) fun i => Keeps.get fun s => ih _
  | logWrite b hb v k ih =>
    refine Keeps.get fun s => ?_
    cases s.held b with
    | none => exact Keeps.halt
    | some i =>
      exact Keeps.seq (keeps_setData i v) fun _ => Keeps.seq (keeps_logWrite i b) fun _ => ih
  | brelse b k ih =>
    refine Keeps.get fun s => ?_
    cases s.held b with
    | none => exact Keeps.halt
    | some i => exact Keeps.seq (keeps_brelse i) fun _ => ih

theorem sync_ghosts (s : Machine) :
    wp True (fun d => d.ghosts = (s.logical, s.durable, some s.logical)) sync
      (fun _ t => t.ghosts = (s.logical, s.logical, none)) s := by
  refine wp_bind (wp_get (wp_bind (wp_modify (wp_bind (wp_modify ?_)))))
  refine wp_seq (keeps_commit _) fun _ t ht => ?_
  have hlogical : t.logical = s.logical := congrArg Prod.fst ht
  refine wp_bind (wp_modify (wp_bind (wp_modify (wp_pure ?_))))
  show (t.logical, t.logical, none) = _
  rw [hlogical]

/-! ### Calls one after another -/

/-- The contents after a call on `σ`. -/
def Call.exec : Call A → (Nat → Block) → Nat → Block
  | .op body, σ => body.exec σ
  | .sync, σ => σ

def contents (calls : List (Call A)) (σ : Nat → Block) : Nat → Block :=
  calls.foldl (fun σ c => c.exec σ) σ

theorem contents_append (calls : List (Call A)) (c : Call A) (σ : Nat → Block) :
    contents (calls ++ [c]) σ = c.exec (contents calls σ) := by
  unfold contents
  rw [List.foldl_append]
  rfl

/-- `τ` are the contents after a prefix of the calls made, with no `sync` behind it. -/
def Boundary (σ : Nat → Block) (made : List (Call A)) (τ : Nat → Block) : Prop :=
  ∃ pre rest, made = pre ++ rest ∧ Call.sync ∉ rest ∧ τ = contents pre σ

theorem Boundary.here (σ : Nat → Block) (made : List (Call A)) :
    Boundary σ made (contents made σ) :=
  ⟨made, [], (List.append_nil made).symm, List.not_mem_nil, rfl⟩

theorem Boundary.op {τ : Nat → Block} (h : Boundary σ made τ) (body : Body A) :
    Boundary σ (made ++ [.op body]) τ := by
  obtain ⟨pre, rest, rfl, hrest, rfl⟩ := h
  refine ⟨pre, rest ++ [.op body], List.append_assoc pre rest _, ?_, rfl⟩
  intro hmem
  rcases List.mem_append.mp hmem with hmem | hmem
  · exact hrest hmem
  · cases List.mem_singleton.mp hmem

/-- Between two calls. -/
structure Recorded (σ : Nat → Block) (made : List (Call A)) (s : Machine) : Prop where
  logical : s.logical = contents made σ
  durable : Boundary σ made s.durable
  quiet : s.committing = none

/-- Inside the call `c`. -/
structure Cut (σ : Nat → Block) (made : List (Call A)) (c : Call A) (d : Machine) : Prop where
  durable : Boundary σ made d.durable
  committing : ∀ τ, d.committing = some τ → τ = contents (made ++ [c]) σ

/-- The call `c` ends with a commit. -/
theorem Recorded.commit {c : Call A} (hlogical : s.logical = contents (made ++ [c]) σ)
    (hdurable : Boundary σ made s.durable) :
    wp True (Cut σ made c) sync (fun _ t => Recorded σ (made ++ [c]) t) s := by
  refine wp_cut (fun d hd => ?_) (wp_mono (sync_ghosts s) fun _ t ht => ?_)
  · have hpair := congrArg Prod.snd hd
    constructor
    · rw [show d.durable = s.durable from congrArg Prod.fst hpair]
      exact hdurable
    · intro τ hτ
      rw [show d.committing = some s.logical from congrArg Prod.snd hpair] at hτ
      rw [← Option.some.inj hτ, hlogical]
  · have hpair := congrArg Prod.snd ht
    constructor
    · rw [← hlogical]
      exact congrArg Prod.fst ht
    · rw [show t.durable = s.logical from congrArg Prod.fst hpair, hlogical]
      exact Boundary.here σ _
    · exact congrArg Prod.snd hpair

theorem Recorded.sync (h : Recorded σ made s) :
    wp True (Cut σ made .sync) sync (fun _ t => Recorded σ (made ++ [.sync]) t) s := by
  refine Recorded.commit ?_ h.durable
  rw [contents_append, h.logical]
  rfl

theorem Recorded.endOp {body : Body A} (hlogical : s.logical = contents (made ++ [.op body]) σ)
    (hdurable : Boundary σ made s.durable) (hquiet : s.committing = none) :
    wp True (Cut σ made (.op body)) endOp (fun _ t => Recorded σ (made ++ [.op body]) t) s := by
  have hopen : Recorded σ (made ++ [.op body]) { s with log := s.log.ended } :=
    ⟨hlogical, hdurable.op body, hquiet⟩
  refine wp_bind (wp_modify (wp_bind (wp_get ?_)))
  cases s.log.ended.endOp with
  | panic => exact wp_halt trivial
  | commit => exact wp_seq (Recorded.commit hlogical hdurable) fun _ t ht => wp_pure ht
  | wakeup => exact wp_pure hopen
  | leaveOpen => exact wp_pure hopen

theorem Recorded.fsOp (h : Recorded σ made s) (body : Body A) :
    wp True (Cut σ made (.op body)) (fsOp body)
      (fun _ t => Recorded σ (made ++ [.op body]) t) s := by
  have hkept : ∀ d, d.ghosts = s.ghosts → Recorded σ made d := by
    intro d hd
    have hpair := congrArg Prod.snd hd
    refine ⟨(congrArg Prod.fst hd).trans h.logical, ?_, (congrArg Prod.snd hpair).trans h.quiet⟩
    rw [show d.durable = s.durable from congrArg Prod.fst hpair]
    exact h.durable
  have hcut : ∀ d, d.ghosts = s.ghosts → Cut σ made (.op body) d := by
    intro d hd
    refine ⟨(hkept d hd).durable, fun τ hτ => ?_⟩
    rw [(hkept d hd).quiet] at hτ
    cases hτ
  refine wp_seq (wp_cut hcut (keeps_beginOp s)) fun _ t ht => ?_
  refine wp_seq (wp_cut (fun d hd => hcut d (hd.trans ht)) (keeps_runBody body t)) fun _ u hu => ?_
  have hu := hkept u (hu.trans ht)
  refine wp_bind (wp_modify (Recorded.endOp ?_ hu.durable hu.quiet))
  show body.exec u.logical = _
  rw [contents_append, hu.logical]
  rfl

theorem Recorded.runCalls (calls : List (Call A)) {s : Machine} (h : Recorded σ made s) :
    wp True (fun d => ∃ pre c rest, calls = pre ++ c :: rest ∧ Cut σ (made ++ pre) c d)
      (runCalls calls) (fun _ t => Recorded σ (made ++ calls) t) s := by
  induction calls generalizing made s with
  | nil =>
    rw [List.append_nil]
    exact wp_pure h
  | cons c calls ih =>
    have hhere : ∀ d, Cut σ made c d → ∃ pre c' rest, c :: calls = pre ++ c' :: rest ∧
        Cut σ (made ++ pre) c' d := fun d hd => ⟨[], c, calls, rfl, by rwa [List.append_nil]⟩
    have hrest : ∀ t, Recorded σ (made ++ [c]) t →
        wp True (fun d => ∃ pre c' rest, c :: calls = pre ++ c' :: rest ∧
          Cut σ (made ++ pre) c' d) (Disk.runCalls calls)
          (fun _ u => Recorded σ (made ++ c :: calls) u) t := by
      intro t ht
      have hcalls := ih ht
      rw [List.append_assoc] at hcalls
      refine wp_cut ?_ hcalls
      rintro d ⟨pre, c', rest, rfl, hd⟩
      rw [List.append_assoc] at hd
      exact ⟨c :: pre, c', rest, rfl, hd⟩
    cases c with
    | op body => exact wp_seq (wp_cut hhere (h.fsOp body)) fun _ t ht => hrest t ht
    | sync => exact wp_seq (wp_cut hhere h.sync) fun _ t ht => hrest t ht

/-! ### Sessions -/

/-- A session on the contents that recovery has brought back. -/
theorem session_recorded (calls : List (Call A)) (s : Machine) :
    wp True (fun d => (d.durable = s.durable ∧ d.committing = s.committing) ∨
        ∃ t, (recoverFromLog (s.powerOn A)).2 = some ((), t) ∧
          ∃ pre c rest, calls = pre ++ c :: rest ∧ Cut t.disk pre c d)
      (session calls)
      (fun _ u => ∃ t, (recoverFromLog (s.powerOn A)).2 = some ((), t) ∧
        Recorded t.disk calls u) (s.powerOn A) := by
  have hkept := keeps_recoverFromLog (s.powerOn A)
  refine wp_seq (wp_cut (fun d hd => Or.inl ?_) (wp_run hkept)) fun _ t ht => ?_
  · have hpair := congrArg Prod.snd hd
    exact ⟨congrArg Prod.fst hpair, congrArg Prod.snd hpair⟩
  have hstart : Recorded t.disk ([] : List (Call A))
      { t with logical := t.disk, durable := t.disk, committing := none } :=
    ⟨rfl, Boundary.here t.disk [], rfl⟩
  refine wp_bind (wp_modify (wp_cut (fun d hd => Or.inr ⟨t, ht, hd⟩) ?_))
  exact wp_mono (hstart.runCalls calls) fun _ u hu => ⟨t, ht, hu⟩

/-- Where a session is cut, the next recovery brings back the contents after a prefix of its
calls, with no completed `sync` behind it, unless the cut was in recovery itself. -/
theorem recovered_of_cut (h : Crashed A s) (hd : d ∈ (session calls (s.powerOn A)).1) :
    ∃ u, (recoverFromLog (d.powerOn A)).2 = some ((), u) ∧
      ((d.durable = s.durable ∧ d.committing = s.committing) ∨
        ∃ t, (recoverFromLog (s.powerOn A)).2 = some ((), t) ∧
          ∃ pre c rest, calls = pre ++ c :: rest ∧
            ∃ τ, (Boundary t.disk pre τ ∨ τ = contents (pre ++ [c]) t.disk) ∧
              ∀ b, A.Home b → u.disk b = τ b) := by
  obtain ⟨u, hu, hdisk⟩ := recoverFromLog_of_crashed (Crashed.cut s d calls h hd)
  refine ⟨u, hu, ?_⟩
  rcases (session_recorded calls s).1 d hd with hsame | ⟨t, ht, pre, c, rest, hcalls, hcut⟩
  · exact Or.inl hsame
  right
  refine ⟨t, ht, pre, c, rest, hcalls, ?_⟩
  rcases hdisk with hdisk | ⟨τ, hτ, hdisk⟩
  · exact ⟨d.durable, Or.inl hcut.durable, hdisk⟩
  · exact ⟨τ, Or.inr (hcut.committing τ hτ), hdisk⟩

/-- The same where the power is cut behind its last call. -/
theorem recovered_of_stop (h : Crashed A s) (hs : (session calls (s.powerOn A)).2 = some ((), d)) :
    ∃ t u, (recoverFromLog (s.powerOn A)).2 = some ((), t) ∧
      (recoverFromLog (d.powerOn A)).2 = some ((), u) ∧
        ∃ τ, Boundary t.disk calls τ ∧ ∀ b, A.Home b → u.disk b = τ b := by
  obtain ⟨u, hu, hdisk⟩ := recoverFromLog_of_crashed (Crashed.stop s d calls h hs)
  obtain ⟨t, ht, hrecorded⟩ := wp_result (session_recorded calls s) hs
  refine ⟨t, u, ht, hu, d.durable, hrecorded.durable, ?_⟩
  rcases hdisk with hdisk | ⟨τ, hτ, -⟩
  · exact hdisk
  · rw [hrecorded.quiet] at hτ
    cases hτ

end Xv6.Disk
