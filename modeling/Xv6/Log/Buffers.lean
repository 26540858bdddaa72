import Xv6.Disk.Bcache
import Xv6.Log.Capacity
import Xv6.Log.Exclusion

/-!
# Whether the buffer cache has room (project3/bio.c)

The processes of the log protocol take buffers while they run. `bget` needs a buffer that is
neither in use nor dirty, and the buffer of a logged block is dirty until the block is
installed. As NBUF is LOGSIZE, the log alone can take all buffers but one.
-/

namespace Xv6.Protocol
open Xv6.Transition
open Disk (NBUF)

variable {P : Type*}

/-- `struct buf` without its data; `holder` is the process that has the sleep-lock. -/
structure Buf (P : Type*) where
  blockno : Option Nat
  dirty : Bool
  refcnt : Nat
  holder : Option P

/-- The processes and the cache. A process that is in `bget` waits for the lock of a buffer. -/
structure Buffers (P : Type*) where
  ops : Tracked P
  buf : Fin NBUF → Buf P
  order : List (Fin NBUF)
  wait : P → Option (Fin NBUF)

inductive BufAction (P : Type*) where
  | call (a : Action P)
  | bget (p : P) (b : Nat)
  | acquire (p : P)
  | brelse (p : P) (i : Fin NBUF)

/-- The process that takes the step. -/
def Action.proc : Action P → P
  | .beginOp p | .logWrite p _ | .endOp p | .sync p | .kill p | .run p => p

/-- The code outside of `begin_op`, `end_op` and `log_write` reads blocks. -/
def Pc.reads : Pc → Bool
  | .user | .op | .commit _ _ => true
  | _ => false

/-- The blocks that a stage of `commit` reads. -/
def needs (l : Log) : Stage → List Nat
  | .writeLog tail | .installTrans tail =>
    match l.lh[tail]? with
    | some b => [l.start + tail + 1, b]
    | none => []
  | .writeHead | .clearHead => [l.start]
  | _ => []

/-- The one of them that it passes to `bwrite`. -/
def written (l : Log) : Stage → Option Nat
  | .writeLog tail => if tail < l.lh.length then some (l.start + tail + 1) else none
  | .installTrans tail => l.lh[tail]?
  | .writeHead | .clearHead => some l.start
  | _ => none

namespace Buffers

def log (s : Buffers P) : Log := s.ops.sys.log

def pc (s : Buffers P) (p : P) : Pc := s.ops.sys.pc p

def panic (s : Buffers P) : Option LogPanic := s.ops.sys.panic

def setBuf (s : Buffers P) (i : Fin NBUF) (r : Buf P) : Buffers P :=
  { s with buf := Function.update s.buf i r }

theorem setBuf_buf (s : Buffers P) (i j : Fin NBUF) (r : Buf P) :
    (s.setBuf i r).buf j = if j = i then r else s.buf j := Function.update_apply ..

def cached (s : Buffers P) (b : Nat) : Option (Fin NBUF) :=
  s.order.find? fun i => (s.buf i).blockno = some b

/-- From the least recently used one on. -/
def unused (s : Buffers P) : Option (Fin NBUF) :=
  s.order.reverse.find? fun i => (s.buf i).refcnt = 0 ∧ (s.buf i).dirty = false

variable [DecidableEq P]

-- up to acquiresleep(&b->lock)
def bget (s : Buffers P) (p : P) (b : Nat) : Buffers P :=
  match s.cached b with
  | some i =>
    { s.setBuf i { s.buf i with refcnt := (s.buf i).refcnt + 1 } with
      wait := Function.update s.wait p (some i) }
  | none =>
    match s.unused with
    | some i =>
      { s.setBuf i { s.buf i with blockno := some b, dirty := false, refcnt := 1 } with
        wait := Function.update s.wait p (some i) }
    | none => { s with ops := { s.ops with sys := { s.ops.sys with panic := some .noBuffers } } }

def acquire (s : Buffers P) (p : P) (i : Fin NBUF) : Buffers P :=
  { s.setBuf i { s.buf i with holder := some p } with wait := Function.update s.wait p none }

def brelse (s : Buffers P) (i : Fin NBUF) : Buffers P :=
  let s := s.setBuf i { s.buf i with holder := none, refcnt := (s.buf i).refcnt - 1 }
  if (s.buf i).refcnt = 0 then { s with order := i :: s.order.erase i } else s

/-- The buffer of block `b` that process `p` has locked. -/
def heldBuf (s : Buffers P) (p : P) (b : Nat) : Option (Fin NBUF) :=
  (List.finRange NBUF).find? fun i => (s.buf i).holder = some p ∧ (s.buf i).blockno = some b

/-- `iderw` clears `B_DIRTY` at the end of a `bwrite`. -/
def setDirty (s : Buffers P) (i : Fin NBUF) (d : Bool) : Buffers P :=
  s.setBuf i { s.buf i with dirty := d }

/-- The steps of the log protocol, with what they need and do to the buffers. -/
def call (s : Buffers P) (a : Action P) : Option (Buffers P) :=
  let t := (s.ops.step a).map fun ops => { s with ops := ops }
  match a with
  | .logWrite p b => if (s.heldBuf p b).isSome then t else none
  | .run p =>
    match s.pc p with
    | .logWrite b => (s.heldBuf p b).bind fun i => t.map (·.setDirty i true)
    | .commit _ st =>
      if ∀ b ∈ needs s.log st, (s.heldBuf p b).isSome then
        match (written s.log st).bind (s.heldBuf p) with
        | some i => t.map (·.setDirty i false)
        | none => t
      else none
    | _ => t
  | _ => t

def step (s : Buffers P) (a : BufAction P) : Option (Buffers P) :=
  if s.panic.isSome then none
  else
    match a with
    | .call a => if (s.wait a.proc).isSome then none else s.call a
    | .bget p b => if (s.wait p).isSome ∨ (s.pc p).reads = false then none else some (s.bget p b)
    | .acquire p =>
      (s.wait p).bind fun i => if (s.buf i).holder.isSome then none else some (s.acquire p i)
    | .brelse p i =>
      if (s.wait p).isSome ∨ (s.buf i).holder ≠ some p then none else some (s.brelse i)

end Buffers

/-- After `binit` and `initlog`: no buffer is in use or dirty. -/
structure Clean (s : Buffers P) : Prop where
  ops : ∃ start, s.ops = Tracked.init P start
  order : ∀ i, i ∈ s.order
  uniq : ∀ i j b, (s.buf i).blockno = some b → (s.buf j).blockno = some b → i = j
  unused : ∀ i, (s.buf i).refcnt = 0 ∧ (s.buf i).dirty = false

/-- What `bget` relies on. -/
def Finds (s : Buffers P) : BufAction P → Prop
  | .bget _ b => (s.cached b).isSome ∨ ∃ i, (s.buf i).refcnt = 0 ∧ (s.buf i).dirty = false
  | _ => True

/-- The buffers in use for blocks that are not logged. -/
def Buffers.inUse (s : Buffers P) : Nat :=
  (Finset.univ.filter fun i =>
    (s.buf i).refcnt ≠ 0 ∧ ∀ b ∈ s.log.lh, (s.buf i).blockno ≠ some b).card

/-- A block that is not cached is read only while the log and the buffers in use leave a
buffer over, and a `sync` system call does not run into operations or other commits. -/
def BufOk (s : Buffers P) : BufAction P → Prop
  | .call a => SyncOk s.ops.sys a
  | .bget _ b => s.cached b = none → s.log.lh.length + s.inUse < NBUF
  | _ => True

/-! ### Dirty buffers -/

/-- The blocks that a commit has not installed yet. -/
def toInstall (lh : List Nat) : Stage → List Nat
  | .installTrans tail => lh.drop tail
  | .reset => []
  | _ => lh

/-- Dirty buffers belong to logged blocks, and during a commit to those that are not yet
installed. -/
structure Pins (s : Buffers P) : Prop where
  commit : CommitInv s.ops.sys
  order : ∀ i, i ∈ s.order
  uniq : ∀ i j b, (s.buf i).blockno = some b → (s.buf j).blockno = some b → i = j
  dirty : ∀ i, (s.buf i).dirty = true → ∃ b ∈ s.log.lh, (s.buf i).blockno = some b
  pinned : ∀ p ret st, s.pc p = .commit ret st → ∀ i, (s.buf i).dirty = true →
    ∃ b ∈ toInstall s.log.lh st, (s.buf i).blockno = some b

/-- The dirty buffers and those in use do not fill the cache. -/
theorem Pins.unused {s : Buffers P} (h : Pins s) (hroom : s.log.lh.length + s.inUse < NBUF) :
    ∃ i, (s.buf i).refcnt = 0 ∧ (s.buf i).dirty = false := by
  by_contra hno
  have hall : ∀ i, (s.buf i).dirty = false → (s.buf i).refcnt ≠ 0 := by
    intro i hd hr
    exact hno ⟨i, hr, hd⟩
  let logged := Finset.univ.filter fun i => ∃ b ∈ s.log.lh, (s.buf i).blockno = some b
  have hlogged : logged.card ≤ s.log.lh.toFinset.card := by
    apply Finset.card_le_card_of_injOn fun i => ((s.buf i).blockno).getD 0
    · intro i hi
      obtain ⟨b, hb, hi⟩ := (Finset.mem_filter.mp hi).2
      simp [hi, hb]
    · intro i hi j hj hij
      obtain ⟨b, -, hi⟩ := (Finset.mem_filter.mp hi).2
      obtain ⟨c, -, hj⟩ := (Finset.mem_filter.mp hj).2
      dsimp only at hij
      rw [hi, hj] at hij
      cases hij
      exact h.uniq i j b hi hj
  have hrest : (Finset.univ \ logged).card ≤ s.inUse := by
    apply Finset.card_le_card
    intro i hi
    rw [Finset.mem_sdiff, Finset.mem_filter] at hi
    have hnot : ∀ b ∈ s.log.lh, (s.buf i).blockno ≠ some b := fun b hb hc =>
      hi.2 ⟨Finset.mem_univ i, b, hb, hc⟩
    have hclean : (s.buf i).dirty = false := by
      by_contra hd
      obtain ⟨b, hb, hc⟩ := h.dirty i (by simpa using hd)
      exact hnot b hb hc
    exact Finset.mem_filter.mpr ⟨Finset.mem_univ i, hall i hclean, hnot⟩
  have hcard : (Finset.univ \ logged).card + logged.card = NBUF := by
    rw [Finset.card_sdiff_add_card_eq_card (Finset.subset_univ _), Finset.card_univ,
      Fintype.card_fin]
  have hle := List.toFinset_card_le s.log.lh
  omega

section Step

variable [DecidableEq P] {s t : Buffers P} {p q : P} {i : Fin NBUF} {b : Nat}

omit [DecidableEq P] in
theorem Pins.of_buf (h : Pins s) (hops : t.ops = s.ops) (horder : ∀ i, i ∈ t.order)
    (huniq : ∀ i j b, (t.buf i).blockno = some b → (t.buf j).blockno = some b → i = j)
    (hdirty : ∀ i, (t.buf i).dirty = true →
      (s.buf i).dirty = true ∧ (t.buf i).blockno = (s.buf i).blockno) : Pins t := by
  constructor
  · rw [hops]
    exact h.commit
  · exact horder
  · exact huniq
  · intro i hi
    obtain ⟨hd, hb⟩ := hdirty i hi
    rw [Buffers.log, hops, hb]
    exact h.dirty i hd
  · intro p ret st hp i hi
    obtain ⟨hd, hb⟩ := hdirty i hi
    rw [Buffers.pc, hops] at hp
    rw [Buffers.log, hops, hb]
    exact h.pinned p ret st hp i hd

omit [DecidableEq P] in
theorem Pins.setBuf (h : Pins s) {r : Buf P} (hb : r.blockno = (s.buf i).blockno)
    (hd : r.dirty = true → (s.buf i).dirty = true) : Pins (s.setBuf i r) := by
  have hblock : ∀ j, ((s.setBuf i r).buf j).blockno = (s.buf j).blockno := by
    intro j
    rw [Buffers.setBuf_buf]
    split_ifs with hj
    · rw [hj, hb]
    · rfl
  apply h.of_buf
  · rfl
  · exact h.order
  · intro j k b hj hk
    rw [hblock] at hj hk
    exact h.uniq j k b hj hk
  · intro j hj
    refine ⟨?_, hblock j⟩
    rw [Buffers.setBuf_buf] at hj
    split_ifs at hj with hji
    · rw [hji]
      exact hd hj
    · exact hj

omit [DecidableEq P] in
theorem not_cached (h : Pins s) (hc : s.cached b = none) (j : Fin NBUF) :
    (s.buf j).blockno ≠ some b := by
  have hnone := List.find?_eq_none.mp hc j (h.order j)
  simpa using hnone

omit [DecidableEq P] in
theorem Pins.recycle (h : Pins s) (hc : s.cached b = none) {r : Buf P}
    (hb : r.blockno = some b) (hd : r.dirty = false) : Pins (s.setBuf i r) := by
  have hself : (s.setBuf i r).buf i = r := Function.update_self ..
  have hne : ∀ j, j ≠ i → (s.setBuf i r).buf j = s.buf j := fun j hj =>
    Function.update_of_ne hj _ _
  apply h.of_buf
  · rfl
  · exact h.order
  · intro j k c hj hk
    by_cases hji : j = i
    · by_cases hki : k = i
      · rw [hji, hki]
      · rw [hji, hself, hb] at hj
        rw [hne k hki] at hk
        exact absurd (hk.trans hj.symm) (not_cached h hc k)
    · rw [hne j hji] at hj
      by_cases hki : k = i
      · rw [hki, hself, hb] at hk
        exact absurd (hj.trans hk.symm) (not_cached h hc j)
      · rw [hne k hki] at hk
        exact h.uniq j k c hj hk
  · intro j hj
    have hji : j ≠ i := by
      intro hc
      rw [hc, hself, hd] at hj
      cases hj
    rw [hne j hji] at hj ⊢
    exact ⟨hj, rfl⟩

theorem Pins.bget (h : Pins s) (hfind : (s.cached b).isSome ∨
    ∃ i, (s.buf i).refcnt = 0 ∧ (s.buf i).dirty = false) :
    Pins (s.bget p b) ∧ (s.bget p b).panic = s.panic := by
  unfold Buffers.bget
  cases hc : s.cached b with
  | some i =>
    refine ⟨?_, rfl⟩
    have hset := h.setBuf (i := i) (r := { s.buf i with refcnt := (s.buf i).refcnt + 1 }) rfl id
    exact hset.of_buf rfl hset.order hset.uniq fun j hj => ⟨hj, rfl⟩
  | none =>
    cases hu : s.unused with
    | some i =>
      refine ⟨?_, rfl⟩
      have hset := h.recycle (i := i) hc
        (r := { s.buf i with blockno := some b, dirty := false, refcnt := 1 }) rfl rfl
      exact hset.of_buf rfl hset.order hset.uniq fun j hj => ⟨hj, rfl⟩
    | none =>
      rw [hc] at hfind
      rcases hfind with hf | ⟨i, hr, hd⟩
      · cases hf
      · have hnone := List.find?_eq_none.mp hu i (List.mem_reverse.mpr (h.order i))
        simp [hr, hd] at hnone

theorem Pins.acquire (h : Pins s) : Pins (s.acquire p i) := by
  have hset := h.setBuf (i := i) (r := { s.buf i with holder := some p }) rfl id
  exact hset.of_buf rfl hset.order hset.uniq fun j hj => ⟨hj, rfl⟩

omit [DecidableEq P] in
theorem Pins.brelse (h : Pins s) : Pins (s.brelse i) := by
  have hset := h.setBuf (i := i)
    (r := { s.buf i with holder := none, refcnt := (s.buf i).refcnt - 1 }) rfl id
  have horder : ∀ j, j ∈ i :: s.order.erase i := by
    intro j
    by_cases hj : j = i
    · simp [hj]
    · exact List.mem_cons_of_mem _ ((List.mem_erase_of_ne hj).mpr (h.order j))
  unfold Buffers.brelse
  dsimp only
  split_ifs
  · exact hset.of_buf rfl horder hset.uniq fun j hj => ⟨hj, rfl⟩
  · exact hset

end Step

/-! ### Steps of the protocol -/

section Call

variable [DecidableEq P] {s t : State P} {a : Action P} {p q : P} {ret : Option Nat} {st : Stage}

theorem setPc_commit {k : Pc} (hk : k.inCommit = false)
    (hq : (s.setPc p k).pc q = .commit ret st) : s.pc q = .commit ret st := by
  rw [State.setPc_pc] at hq
  split_ifs at hq
  · rw [hq] at hk
    cases hk
  · exact hq

/-- The steps outside of `commit` and `log_write` leave the log's entries alone. -/
theorem step_other (hs : Protocol.step s a = some t)
    (hrun : ∀ p, a = .run p →
      (∀ b, s.pc p ≠ .logWrite b) ∧ ∀ ret st, s.pc p ≠ .commit ret st) :
    t.log.lh = s.log.lh ∧
      ∀ q ret st, t.pc q = .commit ret st → s.pc q = .commit ret st ∨ st = .enter := by
  unfold step at hs
  split_ifs at hs
  cases a with
  | beginOp p =>
    dsimp only at hs
    split_ifs at hs
    cases hs
    exact ⟨rfl, fun q ret st hq => Or.inl (setPc_commit rfl hq)⟩
  | logWrite p b =>
    dsimp only at hs
    split_ifs at hs
    cases hs
    unfold State.logWrite
    split
    · exact ⟨rfl, fun q ret st hq => Or.inl hq⟩
    · exact ⟨rfl, fun q ret st hq => Or.inl (setPc_commit rfl hq)⟩
  | endOp p =>
    dsimp only at hs
    split_ifs at hs
    cases hs
    unfold State.endOp
    dsimp only
    split
    · exact ⟨rfl, fun q ret st hq => Or.inl hq⟩
    · refine ⟨rfl, fun q ret st hq => Or.inl ?_⟩
      have hw := setPc_commit rfl hq
      rw [State.wakeup_pc] at hw
      split_ifs at hw
      exact hw
    · exact ⟨rfl, fun q ret st hq => Or.inl (setPc_commit rfl hq)⟩
    · exact ⟨rfl, fun q ret st hq => Or.inl (setPc_commit rfl hq)⟩
  | sync p =>
    dsimp only at hs
    split_ifs at hs
    cases hs
    exact ⟨rfl, fun q ret st hq => Or.inl (setPc_commit rfl hq)⟩
  | kill p =>
    dsimp only at hs
    split_ifs at hs
    cases hs
    exact ⟨rfl, fun q ret st hq => Or.inl (setPc_commit rfl hq)⟩
  | run p =>
    obtain ⟨hlog, hcommit⟩ := hrun p rfl
    unfold State.run at hs
    dsimp only at hs
    split at hs
    · cases hs
      unfold State.enterOp
      split_ifs
      · exact ⟨rfl, fun q ret st hq => Or.inl (setPc_commit rfl hq)⟩
      · exact ⟨rfl, fun q ret st hq => Or.inl (setPc_commit rfl hq)⟩
    · next b hp => exact absurd hp (hlog b)
    · cases hs
      refine ⟨rfl, fun q ret st hq => ?_⟩
      rw [State.setPc_pc] at hq
      split_ifs at hq
      · cases hq
        exact Or.inr rfl
      · exact Or.inl hq
    · next ret st hp => exact absurd hp (hcommit ret st)
    · cases hs
      refine ⟨rfl, fun q ret st hq => Or.inl ?_⟩
      unfold State.finish at hq
      have hw := setPc_commit rfl hq
      rw [State.wakeup_pc] at hw
      split_ifs at hw
      exact hw
    · cases hs

/-- A stage of `commit` writes the block that it takes off the list. -/
theorem commit_toInstall {st' : Stage} {ret' : Option Nat} {b : Nat}
    (hq : (s.commit p ret st).pc p = .commit ret' st') (hb : b ∈ toInstall s.log.lh st) :
    b ∈ toInstall (s.commit p ret st).log.lh st' ∨ written s.log st = some b := by
  cases st with
  | enter =>
    simp only [State.commit] at hq ⊢
    split_ifs at hq ⊢
    · rw [State.setPc_pc, if_pos rfl] at hq
      cases hq
      exact Or.inl hb
    · rw [State.setPc_pc, if_pos rfl] at hq
      cases hq
  | writeLog tail =>
    simp only [State.commit] at hq ⊢
    split_ifs at hq ⊢
    · rw [State.setPc_pc, if_pos rfl] at hq
      cases hq
      exact Or.inl hb
    · rw [State.setPc_pc, if_pos rfl] at hq
      cases hq
      exact Or.inl hb
  | writeHead =>
    simp only [State.commit] at hq ⊢
    rw [State.setPc_pc, if_pos rfl] at hq
    cases hq
    exact Or.inl hb
  | installTrans tail =>
    have hb : b ∈ s.log.lh.drop tail := hb
    simp only [State.commit] at hq ⊢
    split_ifs at hq ⊢ with htail
    · rw [State.setPc_pc, if_pos rfl] at hq
      cases hq
      rw [List.drop_eq_getElem_cons htail] at hb
      have hw : written s.log (.installTrans tail) = some s.log.lh[tail] :=
        List.getElem?_eq_getElem htail
      rw [hw]
      rcases List.mem_cons.mp hb with heq | hmem
      · exact Or.inr (congrArg some heq.symm)
      · exact Or.inl hmem
    · rw [List.drop_eq_nil_of_le (Nat.le_of_not_lt htail)] at hb
      cases hb
  | reset => cases hb
  | clearHead =>
    simp only [State.commit] at hq
    rw [State.setPc_pc, if_pos rfl] at hq
    cases hq

theorem commit_lh (hst : st ≠ .reset) : (s.commit p ret st).log.lh = s.log.lh := by
  cases st with
  | reset => exact absurd rfl hst
  | enter | writeLog | installTrans =>
    simp only [State.commit]
    split_ifs
    · rfl
    · rfl
  | _ => rfl

theorem commit_other (hq : q ≠ p) : (s.commit p ret st).pc q = s.pc q := by
  cases st with
  | enter | writeLog | installTrans =>
    simp only [State.commit]
    split_ifs
    · rw [State.setPc_pc, if_neg hq]
    · rw [State.setPc_pc, if_neg hq]
  | _ =>
    simp only [State.commit]
    rw [State.setPc_pc, if_neg hq]

theorem writeCheck_ne_noBuffers (l : Log) : l.writeCheck ≠ some .noBuffers := by
  unfold Log.writeCheck
  split_ifs
  · simp
  · simp
  · simp

theorem step_panic (hs : Protocol.step s a = some t) : t.panic ≠ some .noBuffers := by
  obtain ⟨hpanic, he⟩ := step_effect hs
  cases he with
  | panicWrite p e hp he =>
    intro hc
    cases hc
    exact writeCheck_ne_noBuffers _ he
  | endOp p hp =>
    unfold State.endOp
    dsimp only
    split
    · simp
    · simp [hpanic]
    · simp [hpanic]
    · simp [hpanic]
  | unlock p ret hp => simp [State.finish, hpanic]
  | _ => simp [hpanic]

end Call

section Pins

variable [DecidableEq P] {s t : Buffers P} {a : Action P} {ops : Tracked P} {p : P}
  {i : Fin NBUF} {b : Nat}

theorem Tracked.step_sys {u v : Tracked P} (h : u.step a = some v) :
    Protocol.step u.sys a = some v.sys := by
  obtain ⟨t, ht, heq⟩ := Option.map_eq_some_iff.mp h
  rw [← heq]
  exact ht

theorem heldBuf_block (h : s.heldBuf p b = some i) : (s.buf i).blockno = some b := by
  have hfind := List.find?_some h
  rw [decide_eq_true_eq] at hfind
  exact hfind.2

/-- Outside of `commit` and `log_write` the buffers stay as they are. -/
theorem Pins.other (h : Pins s) (hok : SyncOk s.ops.sys a) (hs : s.ops.step a = some ops)
    (hrun : ∀ p, a = .run p →
      (∀ b, s.pc p ≠ .logWrite b) ∧ ∀ ret st, s.pc p ≠ .commit ret st) :
    Pins { s with ops := ops } := by
  have hsys := Tracked.step_sys hs
  obtain ⟨hlh, hpc⟩ := step_other hsys hrun
  constructor
  · exact h.commit.step hok hsys
  · exact h.order
  · exact h.uniq
  · intro i hi
    unfold Buffers.log
    rw [hlh]
    exact h.dirty i hi
  · intro p ret st hp i hi
    unfold Buffers.log
    rw [hlh]
    rcases hpc p ret st hp with hold | henter
    · exact h.pinned p ret st hold i hi
    · rw [henter]
      exact h.dirty i hi

/-- `log_write` makes the buffer of a block dirty that it puts into the log. -/
theorem Pins.logWrite (h : Pins s) (hok : SyncOk s.ops.sys (.run p))
    (hp : s.pc p = .logWrite b) (hs : s.ops.step (.run p) = some ops)
    (hi : s.heldBuf p b = some i) :
    Pins (({ s with ops := ops } : Buffers P).setDirty i true) := by
  have hsys := Tracked.step_sys hs
  have hcommit := h.commit.step hok hsys
  have hblock := heldBuf_block hi
  have hstep : ops.sys = { s.ops.sys with log := s.log.absorb b }.setPc p .op := by
    rw [run_logWrite (step_effect hsys).1 hp] at hsys
    exact (Option.some.inj hsys).symm
  have hlh : ops.sys.log.lh = if b ∈ s.log.lh then s.log.lh else s.log.lh ++ [b] := by
    rw [hstep]
    exact Log.absorb_lh s.log b
  have hmem : b ∈ ops.sys.log.lh := by
    rw [hlh]
    split_ifs with hb
    · exact hb
    · simp
  have hold : ∀ c ∈ s.log.lh, c ∈ ops.sys.log.lh := by
    intro c hc
    rw [hlh]
    split_ifs
    · exact hc
    · exact List.mem_append_left _ hc
  have hbuf : ∀ j, ((({ s with ops := ops } : Buffers P).setDirty i true).buf j).blockno =
      (s.buf j).blockno := by
    intro j
    rw [Buffers.setDirty, Buffers.setBuf_buf]
    split_ifs with hj
    · rw [hj]
    · rfl
  constructor
  · exact hcommit
  · exact h.order
  · intro j k c hj hk
    rw [hbuf] at hj hk
    exact h.uniq j k c hj hk
  · intro j hj
    rw [hbuf]
    by_cases hji : j = i
    · exact ⟨b, hmem, hji ▸ hblock⟩
    · rw [Buffers.setDirty, Buffers.setBuf_buf, if_neg hji] at hj
      obtain ⟨c, hc, hcj⟩ := h.dirty j hj
      exact ⟨c, hold c hc, hcj⟩
  · intro q ret st hq
    -- no commit runs beside an operation
    have hop : (s.ops.sys.pc p).inOp := by
      rw [show s.ops.sys.pc p = .logWrite b from hp]
      rfl
    have hnone := (h.commit.no_pending hop).2.1 q
    have hq' : ops.sys.pc q = .commit ret st := hq
    rw [hstep] at hq'
    have hold := setPc_commit rfl hq'
    rw [show s.ops.sys.pc q = .commit ret st from hold] at hnone
    cases hnone

/-- Buffers that a stage of `commit` leaves dirty are still to be installed. -/
theorem Pins.commit_stage (h : Pins s) {ret : Option Nat} {st : Stage}
    (hok : SyncOk s.ops.sys (.run p)) (hp : s.pc p = .commit ret st)
    (hs : s.ops.step (.run p) = some ops) (ht : t.ops = ops) (horder : t.order = s.order)
    (hblock : ∀ j, (t.buf j).blockno = (s.buf j).blockno)
    (hdirty : ∀ j, (t.buf j).dirty = true →
      (s.buf j).dirty = true ∧ (s.buf j).blockno ≠ written s.log st) : Pins t := by
  have hsys := Tracked.step_sys hs
  have hpc : s.ops.sys.pc p = .commit ret st := hp
  have hstep : ops.sys = s.ops.sys.commit p ret st := by
    rw [run_commit (step_effect hsys).1 hpc] at hsys
    exact (Option.some.inj hsys).symm
  have hcommit : CommitInv t.ops.sys := by
    rw [ht]
    exact h.commit.step hok hsys
  have hlog : t.log = (s.ops.sys.commit p ret st).log := by
    rw [Buffers.log, ht, hstep]
  constructor
  · exact hcommit
  · rw [horder]
    exact h.order
  · intro j k c hj hk
    rw [hblock] at hj hk
    exact h.uniq j k c hj hk
  · intro j hj
    obtain ⟨hd, -⟩ := hdirty j hj
    by_cases hst : st = .reset
    · obtain ⟨c, hc, -⟩ := h.pinned p ret st hp j hd
      rw [hst] at hc
      cases hc
    · rw [hblock, hlog, commit_lh hst]
      exact h.dirty j hd
  · intro q ret' st' hq j hj
    obtain ⟨hd, hne⟩ := hdirty j hj
    have hq' : (s.ops.sys.commit p ret st).pc q = .commit ret' st' := by
      rw [← hstep, ← ht]
      exact hq
    by_cases hqp : q = p
    · rw [hqp] at hq'
      obtain ⟨c, hc, hcj⟩ := h.pinned p ret st hp j hd
      rw [hblock, hlog]
      rcases commit_toInstall hq' hc with hleft | hwritten
      · exact ⟨c, hleft, hcj⟩
      · rw [hcj] at hne
        exact absurd hwritten.symm hne
    · rw [commit_other hqp] at hq'
      have hpend : ∀ {r ret st}, s.ops.sys.pc r = .commit ret st →
          (s.ops.sys.pc r).pending := by
        intro r ret st hr
        rw [hr]
        rfl
      exact absurd (h.commit.one q p (hpend hq') (hpend hpc)) hqp

theorem mem_needs {l : Log} {st : Stage} (h : written l st = some b) : b ∈ needs l st := by
  cases st with
  | writeLog tail =>
    unfold written at h
    dsimp only at h
    split_ifs at h with htail
    cases h
    unfold needs
    dsimp only
    rw [List.getElem?_eq_getElem htail]
    simp
  | installTrans tail =>
    have hw : l.lh[tail]? = some b := h
    unfold needs
    dsimp only
    rw [hw]
    simp
  | writeHead | clearHead =>
    cases h
    simp [needs]
  | enter | reset => cases h

theorem Pins.call (h : Pins s) (hok : SyncOk s.ops.sys a) (hs : s.call a = some t) : Pins t := by
  have hother : (s.ops.step a).map (fun ops => { s with ops := ops }) = some t →
      (∀ p, a = .run p → (∀ b, s.pc p ≠ .logWrite b) ∧ ∀ ret st, s.pc p ≠ .commit ret st) →
      Pins t := by
    intro hmap hrun
    obtain ⟨ops, hops, heq⟩ := Option.map_eq_some_iff.mp hmap
    subst heq
    exact h.other hok hops hrun
  unfold Buffers.call at hs
  cases a with
  | logWrite p b =>
    dsimp only at hs
    split_ifs at hs
    apply hother hs
    intro q hq
    cases hq
  | run p =>
    dsimp only at hs
    split at hs
    · next b hp =>
      obtain ⟨i, hi, hmap⟩ := Option.bind_eq_some_iff.mp hs
      rw [Option.map_map] at hmap
      obtain ⟨ops, hops, heq⟩ := Option.map_eq_some_iff.mp hmap
      subst heq
      exact h.logWrite hok hp hops hi
    · next ret st hp =>
      split_ifs at hs with hneeds
      split at hs
      · next i hw =>
        obtain ⟨b, hb, hi⟩ := Option.bind_eq_some_iff.mp hw
        rw [Option.map_map] at hs
        obtain ⟨ops, hops, heq⟩ := Option.map_eq_some_iff.mp hs
        subst heq
        have hblock := heldBuf_block hi
        apply h.commit_stage (t := Buffers.setDirty { s with ops := ops } i false) hok hp hops
          rfl rfl
        · intro j
          rw [Buffers.setDirty, Buffers.setBuf_buf]
          split_ifs with hj
          · rw [hj]
          · rfl
        · intro j hj
          rw [Buffers.setDirty, Buffers.setBuf_buf] at hj
          split_ifs at hj with hji
          refine ⟨hj, ?_⟩
          rw [hb]
          intro hc
          exact hji (h.uniq j i b hc hblock)
      · next hw =>
        obtain ⟨ops, hops, heq⟩ := Option.map_eq_some_iff.mp hs
        subst heq
        apply h.commit_stage (t := { s with ops := ops }) hok hp hops rfl rfl
        · intro j
          rfl
        · intro j hj
          refine ⟨hj, ?_⟩
          cases hwrites : written s.log st with
          | some b =>
            obtain ⟨i, hi⟩ := Option.isSome_iff_exists.mp (hneeds b (mem_needs hwrites))
            rw [hwrites, Option.bind_some, hi] at hw
            cases hw
          | none =>
            obtain ⟨b, -, hb⟩ := h.dirty j hj
            rw [hb]
            simp
    · next hlog hcommit =>
      apply hother hs
      intro q hq
      cases hq
      exact ⟨hlog, hcommit⟩
  | beginOp | endOp | sync | kill =>
    apply hother hs
    intro q hq
    cases hq

theorem call_ops (hs : s.call a = some t) : s.ops.step a = some t.ops := by
  have hmap : ∀ {f : Buffers P → Buffers P}, (∀ u, (f u).ops = u.ops) →
      (s.ops.step a).map (fun ops => f { s with ops := ops }) = some t →
      s.ops.step a = some t.ops := by
    intro f hf hm
    obtain ⟨ops, hops, heq⟩ := Option.map_eq_some_iff.mp hm
    rw [← heq, hf]
    exact hops
  unfold Buffers.call at hs
  cases a with
  | logWrite p b =>
    dsimp only at hs
    split_ifs at hs
    exact hmap (f := id) (fun _ => rfl) hs
  | run p =>
    dsimp only at hs
    split at hs
    · obtain ⟨i, -, hm⟩ := Option.bind_eq_some_iff.mp hs
      rw [Option.map_map] at hm
      exact hmap (f := fun u => u.setDirty i true) (fun _ => rfl) hm
    · split_ifs at hs
      split at hs
      · next i _ =>
        rw [Option.map_map] at hs
        exact hmap (f := fun u => u.setDirty i false) (fun _ => rfl) hs
      · exact hmap (f := id) (fun _ => rfl) hs
    · exact hmap (f := id) (fun _ => rfl) hs
  | beginOp | endOp | sync | kill => exact hmap (f := id) (fun _ => rfl) hs

omit [DecidableEq P] in
theorem Pins.finds (h : Pins s) {a : BufAction P} (hok : BufOk s a) : Finds s a := by
  cases a with
  | bget p b =>
    unfold Finds
    cases hc : s.cached b with
    | some i =>
      left
      rw [hc]
      rfl
    | none => exact Or.inr (h.unused (hok hc))
  | _ => trivial

theorem Pins.step (h : Pins s) {a : BufAction P} (hok : BufOk s a) (hs : s.step a = some t) :
    Pins t ∧ t.panic ≠ some .noBuffers := by
  unfold Buffers.step at hs
  split_ifs at hs with hpanic
  have hnone : s.panic = none := by simpa using hpanic
  cases a with
  | call a =>
    dsimp only at hs
    split_ifs at hs
    exact ⟨h.call hok hs, step_panic (Tracked.step_sys (call_ops hs))⟩
  | bget p b =>
    dsimp only at hs
    split_ifs at hs
    cases hs
    obtain ⟨hpins, hkept⟩ := h.bget (p := p) (h.finds (a := .bget p b) hok)
    rw [hkept, hnone]
    exact ⟨hpins, by simp⟩
  | acquire p =>
    obtain ⟨i, -, hs⟩ := Option.bind_eq_some_iff.mp hs
    split_ifs at hs
    cases hs
    refine ⟨h.acquire, ?_⟩
    rw [show (s.acquire p i).panic = s.panic from rfl, hnone]
    simp
  | brelse p i =>
    dsimp only at hs
    split_ifs at hs
    cases hs
    refine ⟨h.brelse, ?_⟩
    have hkept : (s.brelse i).panic = s.panic := by
      unfold Buffers.brelse
      dsimp only
      split_ifs
      · rfl
      · rfl
    rw [hkept, hnone]
    simp

omit [DecidableEq P] in
theorem Clean.pins (h : Clean s) : Pins s := by
  obtain ⟨start, hops⟩ := h.ops
  constructor
  · rw [hops]
    exact CommitInv.init start _
  · exact h.order
  · exact h.uniq
  · intro i hi
    rw [(h.unused i).2] at hi
    cases hi
  · intro p ret st hp i hi
    rw [(h.unused i).2] at hi
    cases hi

end Pins

/-- In a run in which the log and the buffers in use leave room for each new block, `bget`
finds a buffer. -/
theorem finds_of_reach [DecidableEq P] {s₀ s t : Buffers P} {a : BufAction P} (h0 : Clean s₀)
    (hr : Reach Buffers.step BufOk s₀ s) (hok : BufOk s a) (hs : s.step a = some t) :
    Finds s a ∧ t.panic ≠ some .noBuffers := by
  have h : Pins s := by
    apply hr.invariant (I := Pins) h0.pins
    intro u b v hu hb hv
    exact (hu.step hb hv).1
  exact ⟨h.finds hok, (h.step hok hs).2⟩

/-- After `binit`. -/
def freshBuffers : Buffers Unit :=
  ⟨Tracked.init Unit 2, fun _ => ⟨none, false, 0, none⟩, (List.finRange NBUF).reverse,
    fun _ => none⟩

theorem clean_freshBuffers : Clean freshBuffers := by
  constructor
  · exact ⟨2, rfl⟩
  · intro i
    exact List.mem_reverse.mpr (List.mem_finRange i)
  · intro i j b hi
    cases hi
  · intro i
    exact ⟨rfl, rfl⟩

def Pc.syncCall : Pc → Bool
  | .sync (some _) => true
  | _ => false

theorem Pc.syncCall_iff (k : Pc) : k.syncCall ↔ ∃ n, k = .sync (some n) := by
  cases k with
  | sync ret => cases ret <;> simp [syncCall]
  | _ => simp [syncCall]

instance [Fintype P] (s : State P) (a : Action P) : Decidable (SyncOk s a) :=
  match a with
  | .run p =>
    decidable_of_iff ((s.pc p).syncCall → s.log.outstanding = 0 ∧ ∀ q, (s.pc q).pending = false)
      (by simp only [SyncOk, Pc.syncCall_iff, forall_exists_index])
  | .beginOp _ | .logWrite _ _ | .endOp _ | .sync _ | .kill _ => .isTrue trivial

instance [Fintype P] (s : Buffers P) (a : BufAction P) : Decidable (BufOk s a) :=
  match a with
  | .call a => inferInstanceAs (Decidable (SyncOk s.ops.sys a))
  | .bget _ _ => inferInstanceAs (Decidable (_ → _))
  | .acquire _ | .brelse _ _ => .isTrue trivial

theorem nbuf_pos : 0 < NBUF := by decide

/-- An operation logs block 92 and ends, and the transaction stays open. The next operation holds
block 93. -/
def pinnedAndHeld : Buffers Unit :=
  (run (guarded Buffers.step BufOk) freshBuffers
    [.call (.beginOp ()), .call (.run ()), .bget () 92, .acquire (), .call (.logWrite () 92),
      .call (.run ()), .brelse () ⟨0, nbuf_pos⟩, .call (.endOp ()), .call (.beginOp ()),
      .call (.run ()), .bget () 93, .acquire ()]).getD freshBuffers

theorem finds_of_reach_second : pinnedAndHeld.log.lh = [92] ∧ pinnedAndHeld.inUse = 1 ∧
    Finds pinnedAndHeld (.bget () 94) ∧ (pinnedAndHeld.bget () 94).panic ≠ some .noBuffers := by
  have hr : Reach Buffers.step BufOk freshBuffers pinnedAndHeld :=
    reach_of_guarded_run (eq_some_getD (by decide +kernel))
  have hok : BufOk pinnedAndHeld (.bget () 94) := by decide +kernel
  have hpanic : pinnedAndHeld.panic.isSome = false := by decide +kernel
  have hwait : (pinnedAndHeld.wait ()).isSome = false := by decide +kernel
  have hreads : (pinnedAndHeld.pc ()).reads = true := by decide +kernel
  have hs : pinnedAndHeld.step (.bget () 94) = some (pinnedAndHeld.bget () 94) := by
    unfold Buffers.step
    rw [if_neg (by simp [hpanic])]
    dsimp only
    rw [if_neg (by simp [hwait, hreads])]
  exact ⟨by decide +kernel, by decide +kernel, finds_of_reach clean_freshBuffers hr hok hs⟩

/-! ### A full log -/

/-- Each operation passes at most `MAXOPBLOCKS` distinct blocks to `log_write`. -/
def Budgeted [DecidableEq P] (s : Buffers P) : BufAction P → Prop
  | .call a => Tracked.Budget s.ops a
  | _ => True

/-- The process is inside an operation that has written at most `j` blocks. The blocks from
143 on are logged, `k` of them, and no other block is in a buffer. -/
structure Filled (k j : Nat) (s : Buffers Unit) : Prop where
  pc : s.pc () = .op
  panic : s.panic = none
  wait : s.wait () = none
  size : s.log.size = LOGSIZE
  outstanding : s.log.outstanding = 1
  committing : s.log.committing = false
  lh : s.log.lh = List.range' 143 k
  written : (s.ops.written ()).card ≤ j
  order : ∀ i, i ∈ s.order
  uniq : ∀ i j b, (s.buf i).blockno = some b → (s.buf j).blockno = some b → i = j
  free : ∀ i, (s.buf i).refcnt = 0 ∧ (s.buf i).holder = none
  logged : ∀ i b, (s.buf i).blockno = some b → (s.buf i).dirty = true ∧ b ∈ s.log.lh
  never : ∀ i, (s.buf i).blockno = none → (s.buf i).dirty = false
  kept : ∀ b ∈ s.log.lh, ∃ i, (s.buf i).blockno = some b

section Filled

variable {k j : Nat} {s : Buffers Unit} {i : Fin NBUF} {b : Nat}

theorem Filled.not_cached (h : Filled k j s) (hb : b ∉ List.range' 143 k) : s.cached b = none := by
  apply List.find?_eq_none.mpr
  intro i _ hi
  rw [decide_eq_true_eq] at hi
  have hmem := (h.logged i b hi).2
  rw [h.lh] at hmem
  exact hb hmem

/-- The buffers of the log are not all buffers. -/
theorem Filled.unused (h : Filled k j s) (hk : k < NBUF) :
    ∃ i, s.unused = some i ∧ s.buf i = ⟨none, false, 0, none⟩ := by
  have hempty : ∃ i, (s.buf i).blockno = none := by
    by_contra hno
    have hsome : ∀ i, ∃ b, (s.buf i).blockno = some b := fun i =>
      Option.ne_none_iff_exists'.mp fun hc => hno ⟨i, hc⟩
    choose f hf using hsome
    have hle : (Finset.univ : Finset (Fin NBUF)).card ≤ (List.range' 143 k).toFinset.card := by
      apply Finset.card_le_card_of_injOn f
      · intro i _
        have hmem := (h.logged i _ (hf i)).2
        rw [h.lh] at hmem
        simpa using hmem
      · intro i _ i' _ heq
        have hi' := hf i'
        rw [← heq] at hi'
        exact h.uniq i i' _ (hf i) hi'
    have hlen := List.toFinset_card_le (List.range' 143 k)
    rw [List.length_range'] at hlen
    rw [Finset.card_univ, Fintype.card_fin] at hle
    omega
  obtain ⟨i, hi⟩ := hempty
  have hsome : s.unused.isSome := by
    apply List.find?_isSome.mpr
    refine ⟨i, List.mem_reverse.mpr (h.order i), ?_⟩
    simp [(h.free i).1, h.never i hi]
  obtain ⟨i', hi'⟩ := Option.isSome_iff_exists.mp hsome
  have hclean := List.find?_some hi'
  rw [decide_eq_true_eq] at hclean
  refine ⟨i', hi', ?_⟩
  have hblock : (s.buf i').blockno = none := by
    cases hc : (s.buf i').blockno with
    | none => rfl
    | some b =>
      have hd := (h.logged i' b hc).1
      rw [hclean.2] at hd
      cases hd
  obtain ⟨hr, hh⟩ := h.free i'
  generalize s.buf i' = r at hclean hblock hr hh
  obtain ⟨bn, d, n, p⟩ := r
  dsimp only at hclean hblock hr hh
  rw [hclean.2, hblock, hr, hh]

theorem heldBuf_eq (hi : (s.buf i).holder = some () ∧ (s.buf i).blockno = some b)
    (hother : ∀ j, j ≠ i → (s.buf j).holder = none) : s.heldBuf () b = some i := by
  have hsome : (s.heldBuf () b).isSome := by
    apply List.find?_isSome.mpr
    exact ⟨i, List.mem_finRange i, by simpa using hi⟩
  obtain ⟨i', hi'⟩ := Option.isSome_iff_exists.mp hsome
  have hheld := List.find?_some hi'
  rw [decide_eq_true_eq] at hheld
  by_cases hne : i' = i
  · rw [hi', hne]
  · rw [hother i' hne] at hheld
    cases hheld.1

/-- `bread` of a block that is not cached. -/
theorem Filled.bread (h : Filled k j s) (hk : k < NBUF) (hb : b ∉ List.range' 143 k) :
    ∃ i, s.buf i = ⟨none, false, 0, none⟩ ∧
      Reach Buffers.step Budgeted s (s.setBuf i ⟨some b, false, 1, some ()⟩) := by
  obtain ⟨i, hu, hi⟩ := h.unused hk
  refine ⟨i, hi, ?_⟩
  have hget : s.bget () b = { s.setBuf i ⟨some b, false, 1, none⟩ with
      wait := Function.update s.wait () (some i) } := by
    unfold Buffers.bget
    rw [h.not_cached hb, hu]
    dsimp only
    rw [hi]
  have h1 : s.step (.bget () b) = some (s.bget () b) := by
    unfold Buffers.step
    simp [h.panic, h.wait, h.pc, Pc.reads]
  have h2 : (s.bget () b).step (.acquire ()) =
      some (s.setBuf i ⟨some b, false, 1, some ()⟩) := by
    have hwait : Function.update (Function.update s.wait () (some i)) () none = s.wait := by
      funext u
      rw [Function.update_self, ← h.wait]
    have hpanic : (s.bget () b).panic = none := by
      rw [hget]
      exact h.panic
    unfold Buffers.step
    rw [hpanic, hget]
    simp [Buffers.acquire, Buffers.setBuf, hwait]
  have hok1 : Budgeted s (.bget () b) := trivial
  have hok2 : Budgeted (s.bget () b) (.acquire ()) := trivial
  exact Reach.head hok1 h1 (Reach.head hok2 h2 (Reach.refl _))

/-- `log_write` and `brelse` of a block that is not logged. -/
theorem Filled.write (h : Filled k j s) (hk : k < 89) (hj : j < MAXOPBLOCKS) :
    ∃ t, Reach Buffers.step Budgeted s t ∧ Filled (k + 1) (j + 1) t := by
  have hb : 143 + k ∉ List.range' 143 k := by simp
  have hN : NBUF = 90 := rfl
  have hL : LOGSIZE = 90 := rfl
  obtain ⟨i, hi, hread⟩ := h.bread (by omega) hb
  generalize hblock : 143 + k = b at hb hread
  have hheld : (s.setBuf i ⟨some b, false, 1, some ()⟩).heldBuf () b = some i := by
    apply heldBuf_eq
    · simp [Buffers.setBuf]
    · intro j hj
      rw [Buffers.setBuf_buf, if_neg hj]
      exact (h.free j).2
  have hcheck : s.log.writeCheck = none := by
    unfold Log.writeCheck
    rw [h.size, h.outstanding, h.lh, List.length_range', if_neg (by omega), if_neg (by omega)]
  let w : Unit → Finset Nat := Function.update s.ops.written () (insert b (s.ops.written ()))
  have hw : (w ()).card ≤ j + 1 := by
    have hins := Finset.card_insert_le b (s.ops.written ())
    have hold := h.written
    have heq : w () = insert b (s.ops.written ()) := Function.update_self ..
    rw [heq]
    omega
  let u : Buffers Unit := s.setBuf i ⟨some b, false, 1, some ()⟩
  let u3 : Buffers Unit := { u with ops := ⟨s.ops.sys.setPc () (.logWrite b), w⟩ }
  let ops : Tracked Unit := ⟨{ s.ops.sys with log := s.log.absorb b }.setPc () .op, w⟩
  let u4 : Buffers Unit := { s with ops := ops }.setBuf i ⟨some b, true, 1, some ()⟩
  let u5 : Buffers Unit :=
    { { s with ops := ops }.setBuf i ⟨some b, true, 0, none⟩ with order := i :: s.order.erase i }
  have hops3 : s.ops.step (.logWrite () b) = some ⟨s.ops.sys.setPc () (.logWrite b), w⟩ := by
    unfold Tracked.step
    rw [step_logWrite h.panic h.pc hcheck]
    rfl
  have h3 : u.step (.call (.logWrite () b)) = some u3 := by
    have hp : u.panic = none := h.panic
    have hwait : u.wait () = none := h.wait
    have hcall : u.call (.logWrite () b) = some u3 := by
      unfold Buffers.call
      dsimp only
      rw [hheld, Option.isSome_some, if_pos rfl, show u.ops = s.ops from rfl, hops3]
      rfl
    unfold Buffers.step
    simp only [hp, hwait, hcall, Action.proc, Option.isSome_none, Bool.false_eq_true, if_false]
  have hops4 : u3.ops.step (.run ()) = some ops := by
    have hpc : u3.ops.sys.pc () = .logWrite b := by simp [u3]
    have hn : u3.ops.sys.panic = none := h.panic
    have htrack : u3.ops.track (.run ()) = w := by simp [Tracked.track, u3]
    unfold Tracked.step
    rw [run_logWrite hn hpc, Option.map_some, htrack]
    simp only [u3, ops, State.setPc, Function.update_idem]
    rfl
  have h4 : u3.step (.call (.run ())) = some u4 := by
    have hp : u3.panic = none := h.panic
    have hwait : u3.wait () = none := h.wait
    have hcall : u3.call (.run ()) = some u4 := by
      have hpc : u3.pc () = .logWrite b := by simp [u3, Buffers.pc]
      have hheld3 : u3.heldBuf () b = some i := hheld
      unfold Buffers.call
      simp only [hpc, hheld3, hops4, Option.bind_some, Option.map_some]
      simp [u3, u, u4, Buffers.setDirty, Buffers.setBuf]
    unfold Buffers.step
    simp only [hp, hwait, hcall, Action.proc, Option.isSome_none, Bool.false_eq_true, if_false]
  have h5 : u4.step (.brelse () i) = some u5 := by
    have hp : u4.panic = none := h.panic
    have hwait : u4.wait () = none := h.wait
    have hbuf : u4.buf i = ⟨some b, true, 1, some ()⟩ := by simp [u4, Buffers.setBuf]
    unfold Buffers.step
    simp only [hp, hwait, hbuf, Option.isSome_none, Bool.false_eq_true, if_false, false_or,
      ne_eq, not_true_eq_false, Buffers.brelse]
    simp [u4, u5, Buffers.setBuf]
  have hok3 : Budgeted u (.call (.logWrite () b)) := by
    have heq : w () = insert b (s.ops.written ()) := Function.update_self ..
    have hcard : (insert b (s.ops.written ())).card ≤ MAXOPBLOCKS := by
      rw [← heq]
      omega
    exact hcard
  have hok4 : Budgeted u3 (.call (.run ())) := trivial
  have hok5 : Budgeted u4 (.brelse () i) := trivial
  refine ⟨u5, hread.trans (Reach.head hok3 h3 (Reach.head hok4 h4 (Reach.head hok5 h5
    (Reach.refl _)))), ?_⟩
  have hlh : u5.log.lh = List.range' 143 (k + 1) := by
    have habsorb : u5.log.lh = if b ∈ s.log.lh then s.log.lh else s.log.lh ++ [b] :=
      Log.absorb_lh s.log b
    rw [habsorb, h.lh, if_neg hb, List.range'_1_concat, hblock]
  have hbuf : ∀ j, u5.buf j = if j = i then ⟨some b, true, 0, none⟩ else s.buf j := fun j =>
    Buffers.setBuf_buf ..
  have hmem : b ∈ List.range' 143 (k + 1) := by
    rw [List.range'_1_concat, hblock]
    simp
  have hold : ∀ c ∈ s.log.lh, c ∈ List.range' 143 (k + 1) := by
    intro c hc
    rw [h.lh] at hc
    rw [List.range'_1_concat]
    exact List.mem_append_left _ hc
  constructor
  · simp [u5, ops, Buffers.pc, Buffers.setBuf]
  · exact h.panic
  · exact h.wait
  · have hsize : u5.log.size = s.log.size := (absorb_region s.log b).1
    rw [hsize]
    exact h.size
  · have hout : u5.log.outstanding = s.log.outstanding := Log.absorb_outstanding s.log b
    rw [hout]
    exact h.outstanding
  · have hcom : u5.log.committing = s.log.committing := Log.absorb_committing s.log b
    rw [hcom]
    exact h.committing
  · exact hlh
  · exact hw
  · intro j
    by_cases hj : j = i
    · simp [u5, hj]
    · exact List.mem_cons_of_mem _ ((List.mem_erase_of_ne hj).mpr (h.order j))
  · intro j j' c hj hj'
    rw [hbuf] at hj hj'
    split_ifs at hj hj' with hji hji' hji'
    · rw [hji, hji']
    · cases hj
      have hc := (h.logged j' b hj').2
      rw [h.lh] at hc
      exact absurd hc hb
    · cases hj'
      have hc := (h.logged j b hj).2
      rw [h.lh] at hc
      exact absurd hc hb
    · exact h.uniq j j' c hj hj'
  · intro j
    rw [hbuf]
    split_ifs
    · exact ⟨rfl, rfl⟩
    · exact h.free j
  · intro j c hj
    rw [hbuf] at hj ⊢
    rw [hlh]
    split_ifs at hj ⊢
    · cases hj
      exact ⟨rfl, hmem⟩
    · obtain ⟨hd, hc⟩ := h.logged j c hj
      exact ⟨hd, hold c hc⟩
  · intro j hj
    rw [hbuf] at hj ⊢
    split_ifs at hj ⊢
    exact h.never j hj
  · intro c hc
    rw [hlh, List.range'_1_concat, hblock] at hc
    rcases List.mem_append.mp hc with hc | hc
    · rw [← h.lh] at hc
      obtain ⟨j, hj⟩ := h.kept c hc
      have hji : j ≠ i := by
        intro heq
        rw [heq, hi] at hj
        cases hj
      refine ⟨j, ?_⟩
      rw [hbuf, if_neg hji]
      exact hj
    · rw [List.mem_singleton.mp hc]
      refine ⟨i, ?_⟩
      rw [hbuf, if_pos rfl]

theorem Filled.writes (n : Nat) (h : Filled k j s) (hk : k + n ≤ 89) (hj : j + n ≤ MAXOPBLOCKS) :
    ∃ t, Reach Buffers.step Budgeted s t ∧ Filled (k + n) (j + n) t := by
  induction n generalizing k j s with
  | zero => exact ⟨s, Reach.refl s, h⟩
  | succ n ih =>
    obtain ⟨u, hu, hfill⟩ := h.write (by omega) (by omega)
    obtain ⟨t, ht, hlast⟩ := ih hfill (by omega) (by omega)
    refine ⟨t, hu.trans ht, ?_⟩
    rw [Nat.add_right_comm k, Nat.add_right_comm j] at hlast
    exact hlast

/-- The steps that leave the buffers alone. -/
theorem step_call {a : Action Unit} {ops : Tracked Unit} (hpanic : s.panic = none)
    (hwait : s.wait () = none) (hwrite : ∀ b, a ≠ .logWrite () b)
    (hrun : a = .run () → (∀ b, s.pc () ≠ .logWrite b) ∧ ∀ ret st, s.pc () ≠ .commit ret st)
    (h : s.ops.step a = some ops) : s.step (.call a) = some { s with ops := ops } := by
  have hcall : s.call a = some { s with ops := ops } := by
    unfold Buffers.call
    cases a with
    | logWrite p b => exact absurd rfl (hwrite b)
    | run p =>
      obtain ⟨hlog, hcommit⟩ := hrun rfl
      dsimp only
      split
      · next b hp => exact absurd hp (hlog b)
      · next ret st hp => exact absurd hp (hcommit ret st)
      · rw [h]
        rfl
    | _ =>
      dsimp only
      rw [h]
      rfl
  unfold Buffers.step
  dsimp only
  rw [if_neg (by simp [hpanic]), if_neg (by simp [hwait]), hcall]

theorem begin_admitted (hpc : s.pc () = .user) (hpanic : s.panic = none) (hwait : s.wait () = none)
    (hout : s.log.outstanding = 0) (hcom : s.log.committing = false)
    (hlen : s.log.lh.length ≤ 60) :
    ∃ ops, Reach Buffers.step Budgeted s { s with ops := ops } ∧
      ops.sys.log = { s.log with outstanding := 1 } ∧ ops.sys.pc () = .op ∧
      ops.sys.panic = none ∧ ops.written () = ∅ := by
  have hp : s.ops.sys.pc () = .user := hpc
  have hn : s.ops.sys.panic = none := hpanic
  let ops1 : Tracked Unit := ⟨s.ops.sys.setPc () .beginOp, s.ops.written⟩
  let ops2 : Tracked Unit := ⟨ops1.sys.enterOp (), Function.update s.ops.written () ∅⟩
  have hpc1 : ops1.sys.pc () = .beginOp := by simp [ops1]
  have h1 : s.ops.step (.beginOp ()) = some ops1 := by
    unfold Tracked.step
    rw [step_beginOp hn hp]
    rfl
  have h2 : ops1.step (.run ()) = some ops2 := by
    have htrack : ops1.track (.run ()) = Function.update s.ops.written () ∅ := by
      unfold Tracked.track
      dsimp only
      rw [if_pos hpc1]
    have hn1 : ops1.sys.panic = none := hn
    unfold Tracked.step
    rw [run_beginOp hn1 hpc1, htrack]
    rfl
  have hfree : ¬ s.log.blocked := by
    have hL : LOGSIZE = 90 := rfl
    have hM : MAXOPBLOCKS = 30 := rfl
    unfold Log.blocked Log.full
    rw [hcom, hout]
    simp only [Bool.false_eq_true, false_or]
    omega
  have henter : ops2.sys =
      { ops1.sys with log := { s.log with outstanding := s.log.outstanding + 1 } }.setPc () .op :=
    if_neg hfree
  have hs1 := step_call hpanic hwait (by simp) (by simp) h1
  have hs2 : ({ s with ops := ops1 } : Buffers Unit).step (.call (.run ())) =
      some { s with ops := ops2 } := by
    apply step_call (s := { s with ops := ops1 }) hn hwait
    · simp
    · intro _
      unfold Buffers.pc
      rw [hpc1]
      simp
    · exact h2
  have hok1 : Budgeted s (.call (.beginOp ())) := trivial
  have hok2 : Budgeted ({ s with ops := ops1 } : Buffers Unit) (.call (.run ())) := trivial
  refine ⟨ops2, Reach.head hok1 hs1 (Reach.head hok2 hs2 (Reach.refl _)), ?_, ?_, ?_, ?_⟩
  · rw [henter, State.setPc_log, hout]
    rfl
  · rw [henter]
    simp
  · rw [henter]
    exact hn
  · show Function.update s.ops.written () ∅ () = ∅
    rw [Function.update_self]

/-- The transaction is left open, and the next operation is admitted. -/
theorem Filled.next (h : Filled k j s) (hk : k ≤ 60) :
    ∃ t, Reach Buffers.step Budgeted s t ∧ Filled k 0 t := by
  have hp : s.ops.sys.pc () = .op := h.pc
  have hn : s.ops.sys.panic = none := h.panic
  let ops1 : Tracked Unit := ⟨{ s.ops.sys with log := s.log.ended }.setPc () .user, s.ops.written⟩
  have hend : s.log.ended.endOp = .leaveOpen := by
    have hL : LOGSIZE = 90 := rfl
    have hM : MAXOPBLOCKS = 30 := rfl
    unfold Log.endOp Log.ended
    dsimp only
    rw [h.committing, h.outstanding, h.lh, List.length_range', if_neg Bool.false_ne_true,
      if_neg (by omega), if_neg (by omega)]
  have h1 : s.ops.step (.endOp ()) = some ops1 := by
    have hstate : s.ops.sys.endOp () = ops1.sys := by
      unfold State.endOp
      dsimp only
      rw [show s.ops.sys.log.ended.endOp = .leaveOpen from hend]
      rfl
    unfold Tracked.step
    rw [step_endOp hn hp, hstate]
    rfl
  have hs1 := step_call h.panic h.wait (by simp) (by simp) h1
  have hok1 : Budgeted s (.call (.endOp ())) := trivial
  have hlh : ops1.sys.log.lh = List.range' 143 k := h.lh
  have hout1 : ops1.sys.log.outstanding = 0 := by
    show s.log.outstanding - 1 = 0
    rw [h.outstanding]
    rfl
  obtain ⟨ops, hr, hlog, hpc, hpanic, hwritten⟩ := begin_admitted
    (s := { s with ops := ops1 }) (by simp [ops1, Buffers.pc]) hn h.wait hout1 h.committing
    (by
      show ops1.sys.log.lh.length ≤ 60
      rw [hlh, List.length_range']
      exact hk)
  refine ⟨{ s with ops := ops }, Reach.head hok1 hs1 hr, ?_⟩
  have hlog' : Buffers.log { s with ops := ops } = { s.log with outstanding := 1 } := hlog
  constructor
  · exact hpc
  · exact hpanic
  · exact h.wait
  · rw [hlog']
    exact h.size
  · rw [hlog']
  · rw [hlog']
    exact h.committing
  · rw [hlog']
    exact h.lh
  · rw [hwritten]
    exact Nat.le_refl _
  · exact h.order
  · exact h.uniq
  · exact h.free
  · intro i b hi
    rw [hlog']
    exact h.logged i b hi
  · exact h.never
  · rw [hlog']
    exact h.kept

/-- With 89 logged blocks only one buffer is clean. -/
theorem Filled.only (h : Filled 89 j s) {i' : Fin NBUF} (hi : (s.buf i).blockno = none)
    (hi' : (s.buf i').blockno = none) : i' = i := by
  by_contra hne
  have hkept : ∀ b : Fin 89, ∃ i, (s.buf i).blockno = some (143 + b.val) := by
    intro b
    apply h.kept
    rw [h.lh, List.mem_range'_1]
    omega
  choose f hf using hkept
  have hinj : Function.Injective f := by
    intro b c hbc
    have hb := hf b
    rw [hbc, hf c, Option.some.injEq] at hb
    omega
  have hle : (Finset.univ.image f).card ≤ ((Finset.univ.erase i).erase i').card := by
    apply Finset.card_le_card
    intro x hx
    obtain ⟨b, -, hb⟩ := Finset.mem_image.mp hx
    have hx := hf b
    rw [hb] at hx
    have h1 : x ≠ i := by
      intro hc
      rw [hc, hi] at hx
      cases hx
    have h2 : x ≠ i' := by
      intro hc
      rw [hc, hi'] at hx
      cases hx
    simp [h1, h2]
  have hN : NBUF = 90 := rfl
  rw [Finset.card_image_of_injective _ hinj, Finset.card_erase_of_mem (by simp [hne]),
    Finset.card_erase_of_mem (Finset.mem_univ _), Finset.card_univ, Finset.card_univ,
    Fintype.card_fin, Fintype.card_fin] at hle
  omega

end Filled

/-- Three operations log 30, 30 and 29 blocks. Then the third one holds a buffer, and there is
none left for another block. -/
theorem not_finds : ¬ ∀ (s₀ s t : Buffers Unit) a, Clean s₀ →
    Reach Buffers.step Budgeted s₀ s → Budgeted s a → s.step a = some t → Finds s a := by
  intro hall
  obtain ⟨ops, hr0, hlog, hpc, hpanic, hwritten⟩ := begin_admitted (s := freshBuffers) rfl rfl rfl
    rfl rfl (by decide)
  have h0 : Filled 0 0 { freshBuffers with ops := ops } := by
    have hlog' : Buffers.log { freshBuffers with ops := ops } =
        { freshBuffers.log with outstanding := 1 } := hlog
    constructor
    · exact hpc
    · exact hpanic
    · rfl
    · rw [hlog']
      rfl
    · rw [hlog']
    · rw [hlog']
      rfl
    · rw [hlog']
      rfl
    · rw [hwritten]
      rfl
    · exact clean_freshBuffers.order
    · exact clean_freshBuffers.uniq
    · intro i
      exact ⟨rfl, rfl⟩
    · intro i b hi
      cases hi
    · intro i _
      rfl
    · rw [hlog']
      intro b hb
      cases hb
  have hM : MAXOPBLOCKS = 30 := rfl
  obtain ⟨s1, hr1, h1⟩ := h0.writes 30 (by omega) (by omega)
  obtain ⟨s2, hr2, h2⟩ := h1.next (by omega)
  obtain ⟨s3, hr3, h3⟩ := h2.writes 30 (by omega) (by omega)
  obtain ⟨s4, hr4, h4⟩ := h3.next (by omega)
  obtain ⟨s5, hr5, h5⟩ := h4.writes 29 (by omega) (by omega)
  simp only [Nat.zero_add, Nat.reduceAdd] at h5
  have hN : NBUF = 90 := rfl
  obtain ⟨i, hi, hr6⟩ := h5.bread (b := 5000) (by omega) (by simp)
  have hreach := ((((hr0.trans hr1).trans (hr2.trans hr3)).trans hr4).trans hr5).trans hr6
  let u := s5.setBuf i ⟨some 5000, false, 1, some ()⟩
  have hstep : u.step (.bget () 5001) = some (u.bget () 5001) := by
    have hp : u.panic = none := h5.panic
    have hw : u.wait () = none := h5.wait
    have hc : u.pc () = .op := h5.pc
    unfold Buffers.step
    simp [hp, hw, hc, Pc.reads]
  have hok : Budgeted u (.bget () 5001) := trivial
  rcases hall _ u _ _ clean_freshBuffers hreach hok hstep with hcached | ⟨i', href, hclean⟩
  · obtain ⟨i', hi'⟩ := Option.isSome_iff_exists.mp hcached
    have hblock := List.find?_some hi'
    rw [decide_eq_true_eq, Buffers.setBuf_buf] at hblock
    split_ifs at hblock
    · simp at hblock
    · have hmem := (h5.logged i' _ hblock).2
      rw [h5.lh] at hmem
      simp at hmem
  · rw [Buffers.setBuf_buf] at href hclean
    split_ifs at href hclean with hne
    have hnone : (s5.buf i').blockno = none := by
      cases hc : (s5.buf i').blockno with
      | none => rfl
      | some b =>
        rw [(h5.logged i' b hc).1] at hclean
        cases hclean
    exact hne (h5.only (by rw [hi]) hnone)

end Xv6.Protocol
