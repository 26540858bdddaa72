import Mathlib.Data.List.FinRange
import Mathlib.Logic.Function.Basic
import Xv6.Lib.ByteBuffer
import Xv6.Lib.Crash
import Xv6.Log.Record

/-!
# Disk and buffer cache (project3/bio.c:61-141, project3/ide.c:139-170)

One process runs. A buffer that it holds stays locked, so asking for it again
never returns; that and the panics are `Prog.halt`. The one write that reaches
the disk, in `iderw`, is the only `persist`.
-/

namespace Xv6

/-- Block size (fs.h). -/
def BSIZE : Nat := 512

/-- Size of the disk in blocks (param.h). -/
def FSSIZE : Nat := 100000

abbrev Block := Fin BSIZE → Byte

namespace Disk
open Crash

/-- Size of the buffer cache (param.h). -/
def NBUF : Nat := MAXOPBLOCKS * 3

instance : NeZero NBUF := ⟨Nat.succ_ne_zero 89⟩

/-- `struct buf`. A buffer that was never used belongs to device 0, which is
`blockno := none`; `valid` and `dirty` are `B_VALID` and `B_DIRTY`. -/
structure Buf where
  blockno : Option Nat
  valid : Bool
  dirty : Bool
  refcnt : Nat
  data : Block

/-- The machine. `order` is the list of `bcache`, most recently used first. The
last three fields are ghosts for the crash theorem: the contents after the
completed operations, those at the last commit that returned, and those at a
commit in progress. -/
structure Machine where
  disk : Nat → Block
  buf : Fin NBUF → Buf
  order : List (Fin NBUF)
  log : Log
  logical : Nat → Block
  durable : Nat → Block
  committing : Option (Nat → Block)

namespace Machine

def setBuf (s : Machine) (i : Fin NBUF) (r : Buf) : Machine :=
  { s with buf := Function.update s.buf i r }

def cached (s : Machine) (b : Nat) : Option (Fin NBUF) :=
  s.order.find? fun i => (s.buf i).blockno = some b

/-- The least recently used buffer that is neither held nor pinned. -/
def unused (s : Machine) : Option (Fin NBUF) :=
  s.order.reverse.find? fun i => (s.buf i).refcnt = 0 ∧ (s.buf i).dirty = false

/-- The disk transfer of `iderw`. -/
def transfer (s : Machine) (i : Fin NBUF) (b : Nat) : Machine :=
  { s with disk := Function.update s.disk b (s.buf i).data }.setBuf i
    { s.buf i with valid := true, dirty := false }

end Machine

open Machine

def bget (b : Nat) : Prog Machine (Fin NBUF) := do
  let s ← Prog.get
  match s.cached b with
  | some i =>
    if (s.buf i).refcnt = 0 then
      Prog.modify (·.setBuf i { s.buf i with refcnt := 1 })
      pure i
    else Prog.halt
  | none =>
    match s.unused with
    | some i =>
      Prog.modify (·.setBuf i { s.buf i with
        blockno := some b, valid := false, dirty := false, refcnt := 1 })
      pure i
    | none => Prog.halt

def iderw (i : Fin NBUF) : Prog Machine Unit := do
  let s ← Prog.get
  match (s.buf i).blockno with
  | none => Prog.halt
  | some b =>
    if b < FSSIZE then
      if (s.buf i).dirty then Prog.persist (·.transfer i b)
      else if (s.buf i).valid then Prog.halt
      else Prog.modify (·.setBuf i { s.buf i with data := s.disk b, valid := true })
    else Prog.halt

def bread (b : Nat) : Prog Machine (Fin NBUF) := do
  let i ← bget b
  let s ← Prog.get
  if (s.buf i).valid then pure i
  else
    iderw i
    pure i

/-- `b->data` is overwritten. -/
def setData (i : Fin NBUF) (v : Block) : Prog Machine Unit :=
  Prog.modify fun s => s.setBuf i { s.buf i with data := v }

def bwrite (i : Fin NBUF) : Prog Machine Unit := do
  Prog.modify fun s => s.setBuf i { s.buf i with dirty := true }
  iderw i

def brelse (i : Fin NBUF) : Prog Machine Unit :=
  Prog.modify fun s =>
    let s := s.setBuf i { s.buf i with refcnt := (s.buf i).refcnt - 1 }
    if (s.buf i).refcnt = 0 then { s with order := i :: s.order.erase i } else s

/-! ### What the cache holds -/

namespace Machine

/-- A modified block that only the cache has. -/
def Pinned (s : Machine) (b : Nat) : Prop :=
  ∃ i, (s.buf i).blockno = some b ∧ (s.buf i).dirty = true

variable (s : Machine) (i j : Fin NBUF) (r : Buf)

@[simp] theorem setBuf_self : (s.setBuf i r).buf i = r := by simp [setBuf]

theorem setBuf_ne (h : j ≠ i) : (s.setBuf i r).buf j = s.buf j := by simp [setBuf, h]

@[simp] theorem setBuf_disk : (s.setBuf i r).disk = s.disk := rfl
@[simp] theorem setBuf_log : (s.setBuf i r).log = s.log := rfl
@[simp] theorem setBuf_order : (s.setBuf i r).order = s.order := rfl

end Machine

/-- Read through the cache, the disk has the contents `σ`. -/
structure Sees (s : Machine) (σ : Nat → Block) : Prop where
  uniq : ∀ i j b, (s.buf i).blockno = some b → (s.buf j).blockno = some b → i = j
  order : ∀ i, i ∈ s.order
  range : ∀ i b, (s.buf i).blockno = some b → (s.buf i).valid = true → b < FSSIZE
  dirty : ∀ i, (s.buf i).dirty = true → (s.buf i).valid = true
  buf : ∀ i b, (s.buf i).blockno = some b → (s.buf i).valid = true → (s.buf i).data = σ b
  disk : ∀ b, ¬ s.Pinned b → s.disk b = σ b

namespace Sees

variable {s : Machine} {σ : Nat → Block} {i : Fin NBUF} {b : Nat}

/-- A buffer gets a new record, for a block that no other buffer has, and the disk
and the contents change where the other buffers do not look. -/
theorem update (h : Sees s σ) {d σ' : Nat → Block} {r : Buf}
    (huniq : ∀ b, r.blockno = some b → ∀ j, j ≠ i → (s.buf j).blockno ≠ some b)
    (hrange : ∀ b, r.blockno = some b → r.valid = true → b < FSSIZE)
    (hdirty : r.dirty = true → r.valid = true)
    (hdata : ∀ b, r.blockno = some b → r.valid = true → r.data = σ' b)
    (hother : ∀ j b, j ≠ i → (s.buf j).blockno = some b → σ' b = σ b)
    (hdisk : ∀ b, ¬ (s.setBuf i r).Pinned b → d b = σ' b) :
    Sees ({ s with disk := d }.setBuf i r) σ' := by
  have hbuf : ∀ j, ({ s with disk := d }.setBuf i r).buf j = (s.setBuf i r).buf j :=
    fun _ => rfl
  constructor
  · intro j k b hj hk
    rw [hbuf] at hj hk
    by_cases hji : j = i
    · by_cases hki : k = i
      · rw [hji, hki]
      · subst hji
        rw [Machine.setBuf_self] at hj
        rw [Machine.setBuf_ne _ _ _ _ hki] at hk
        exact absurd hk (huniq b hj k hki)
    · rw [Machine.setBuf_ne _ _ _ _ hji] at hj
      by_cases hki : k = i
      · subst hki
        rw [Machine.setBuf_self] at hk
        exact absurd hj (huniq b hk j hji)
      · rw [Machine.setBuf_ne _ _ _ _ hki] at hk
        exact h.uniq j k b hj hk
  · exact h.order
  · intro j b hj hv
    rw [hbuf] at hj hv
    by_cases hji : j = i
    · subst hji
      rw [Machine.setBuf_self] at hj hv
      exact hrange b hj hv
    · rw [Machine.setBuf_ne _ _ _ _ hji] at hj hv
      exact h.range j b hj hv
  · intro j hd
    rw [hbuf] at hd ⊢
    by_cases hji : j = i
    · subst hji
      rw [Machine.setBuf_self] at hd ⊢
      exact hdirty hd
    · rw [Machine.setBuf_ne _ _ _ _ hji] at hd ⊢
      exact h.dirty j hd
  · intro j b hj hv
    rw [hbuf] at hj hv ⊢
    by_cases hji : j = i
    · subst hji
      rw [Machine.setBuf_self] at hj hv ⊢
      exact hdata b hj hv
    · rw [Machine.setBuf_ne _ _ _ _ hji] at hj hv ⊢
      rw [hother j b hji hj]
      exact h.buf j b hj hv
  · exact hdisk

theorem setBuf (h : Sees s σ) {r : Buf}
    (huniq : ∀ b, r.blockno = some b → ∀ j, j ≠ i → (s.buf j).blockno ≠ some b)
    (hrange : ∀ b, r.blockno = some b → r.valid = true → b < FSSIZE)
    (hdirty : r.dirty = true → r.valid = true)
    (hdata : ∀ b, r.blockno = some b → r.valid = true → r.data = σ b)
    (hdisk : ∀ b, ¬ (s.setBuf i r).Pinned b → s.disk b = σ b) : Sees (s.setBuf i r) σ :=
  h.update huniq hrange hdirty hdata (fun _ _ _ _ => rfl) hdisk

theorem other (h : Sees s σ) (hb : (s.buf i).blockno = some b) :
    ∀ b', some b = some b' → ∀ j, j ≠ i → (s.buf j).blockno ≠ some b' := by
  intro b' hb' j hj hjb
  cases hb'
  exact hj (h.uniq j i b hjb hb)

theorem not_pinned (h : Sees s σ) (hb : (s.buf i).blockno = some b)
    (hd : (s.buf i).dirty = false) : ¬ s.Pinned b := by
  rintro ⟨j, hj, hjd⟩
  rw [h.uniq j i b hj hb, hd] at hjd
  cases hjd

end Sees

theorem Machine.setBuf_setBuf (s : Machine) (i : Fin NBUF) (r r' : Buf) :
    (s.setBuf i r).setBuf i r' = s.setBuf i r' := by
  simp [Machine.setBuf]

/-- The pinned blocks stay when neither the old nor the new record of the buffer
is dirty, or when it keeps its block and flag. -/
theorem Machine.pinned_setBuf {s : Machine} {i : Fin NBUF} {r : Buf}
    (h : r.dirty = (s.buf i).dirty)
    (hb : r.dirty = true → r.blockno = (s.buf i).blockno) (b : Nat) :
    (s.setBuf i r).Pinned b ↔ s.Pinned b := by
  constructor
  · rintro ⟨j, hj, hd⟩
    by_cases hji : j = i
    · subst hji
      rw [Machine.setBuf_self] at hj hd
      exact ⟨j, by rw [← hb hd]; exact hj, by rw [← h]; exact hd⟩
    · rw [Machine.setBuf_ne _ _ _ _ hji] at hj hd
      exact ⟨j, hj, hd⟩
  · rintro ⟨j, hj, hd⟩
    refine ⟨j, ?_⟩
    by_cases hji : j = i
    · subst hji
      rw [Machine.setBuf_self, h]
      exact ⟨by rw [hb (by rw [h]; exact hd)]; exact hj, hd⟩
    · rw [Machine.setBuf_ne _ _ _ _ hji]
      exact ⟨hj, hd⟩

/-! ### The functions of bio.c -/

/-- What `bread` needs not to halt. -/
structure Ready (s : Machine) (b : Nat) : Prop where
  range : b < FSSIZE
  free : ∀ i, (s.buf i).blockno = some b → (s.buf i).refcnt = 0
  room : ∃ i, (s.buf i).refcnt = 0 ∧ (s.buf i).dirty = false

/-- The outcome `t` of `bread b`: buffer `i` is held and has the contents of `b`. -/
structure Read (s : Machine) (σ : Nat → Block) (b : Nat) (i : Fin NBUF) (t : Machine) : Prop where
  eq : ∃ r, t = s.setBuf i r
  was : (s.buf i).refcnt = 0
  blockno : (t.buf i).blockno = some b
  valid : (t.buf i).valid = true
  refcnt : (t.buf i).refcnt = 1
  data : (t.buf i).data = σ b
  sees : Sees t σ
  pinned : ∀ b', t.Pinned b' ↔ s.Pinned b'

variable {H : Prop} {C : Machine → Prop} {s : Machine} {σ : Nat → Block} {b : Nat}

/-- `bget` finds the buffer of the block, or takes over a clean one. -/
theorem bget_spec (h : Sees s σ) (hready : H ∨ Ready s b) :
    wp H C (bget b) (fun i t => (s.buf i).refcnt = 0 ∧ ∃ r, t = s.setBuf i r ∧
      r.blockno = some b ∧ r.refcnt = 1 ∧ Sees t σ ∧ ∀ b', t.Pinned b' ↔ s.Pinned b') s := by
  refine wp_bind (wp_get ?_)
  cases hc : s.cached b with
  | some i =>
    have hi : (s.buf i).blockno = some b := by simpa using List.find?_some hc
    dsimp only
    split_ifs with href
    · have hpin : ∀ b', (s.setBuf i { s.buf i with refcnt := 1 }).Pinned b' ↔ s.Pinned b' :=
        Machine.pinned_setBuf rfl fun _ => rfl
      refine wp_bind (wp_modify (wp_pure ⟨href, _, rfl, hi, rfl, ?_, hpin⟩))
      refine h.setBuf ?_ (h.range i) (h.dirty i) (h.buf i) ?_
      · rw [hi]
        exact h.other hi
      · intro b' hp
        rw [hpin] at hp
        exact h.disk b' hp
    · refine wp_halt ?_
      rcases hready with hH | hr
      · exact hH
      · exact absurd (hr.free i hi) href
  | none =>
    have hfresh : ∀ j, (s.buf j).blockno ≠ some b := by
      intro j hj
      have := List.find?_eq_none.mp hc j (h.order j)
      simp [hj] at this
    dsimp only
    cases hu : s.unused with
    | some i =>
      have hi : (s.buf i).refcnt = 0 ∧ (s.buf i).dirty = false := by
        simpa using List.find?_some hu
      have hpin : ∀ b', (s.setBuf i { s.buf i with
          blockno := some b, valid := false, dirty := false, refcnt := 1 }).Pinned b'
            ↔ s.Pinned b' :=
        Machine.pinned_setBuf hi.2.symm Bool.noConfusion
      refine wp_bind (wp_modify (wp_pure ⟨hi.1, _, rfl, rfl, rfl, ?_, hpin⟩))
      refine h.setBuf ?_ (fun _ _ => Bool.noConfusion) Bool.noConfusion
        (fun _ _ => Bool.noConfusion) ?_
      · intro b' hb' j _
        cases hb'
        exact hfresh j
      · intro b' hp
        rw [hpin] at hp
        exact h.disk b' hp
    | none =>
      refine wp_halt ?_
      rcases hready with hH | hr
      · exact hH
      · obtain ⟨i, hi⟩ := hr.room
        have := List.find?_eq_none.mp hu i (List.mem_reverse.mpr (h.order i))
        simp [hi.1, hi.2] at this

theorem bread_spec (h : Sees s σ) (hready : H ∨ Ready s b) :
    wp H C (bread b) (fun i t => Read s σ b i t) s := by
  refine wp_seq (bget_spec h hready) ?_
  rintro i t ⟨hwas, r, rfl, hrb, href, hsees, hpin⟩
  refine wp_bind (wp_get ?_)
  split_ifs with hv
  · refine wp_pure ⟨⟨r, rfl⟩, hwas, ?_, hv, ?_, ?_, hsees, hpin⟩
    · rw [Machine.setBuf_self]
      exact hrb
    · rw [Machine.setBuf_self]
      exact href
    · exact hsees.buf i b (by rw [Machine.setBuf_self]; exact hrb) hv
  · have hv' : r.valid = false := by simpa using hv
    have hd : r.dirty = false := by
      by_contra hd
      have := hsees.dirty i (by simpa using hd)
      exact hv this
    have hnp := hsees.not_pinned (i := i) (b := b) (by simpa using hrb) (by simpa using hd)
    refine wp_bind (wp_bind (wp_get ?_))
    rw [Machine.setBuf_self, hrb]
    dsimp only
    by_cases hrange : b < FSSIZE
    · rw [if_pos hrange, if_neg (by simp [hd]), if_neg (by simp [hv'])]
      refine wp_modify ?_
      refine wp_pure ?_
      have hdisk : s.disk b = σ b := hsees.disk b hnp
      have hpin' : ∀ b', ((s.setBuf i r).setBuf i { r with data := s.disk b, valid := true }).Pinned b'
          ↔ (s.setBuf i r).Pinned b' := by
        refine Machine.pinned_setBuf ?_ ?_
        · rw [Machine.setBuf_self]
        · rw [Machine.setBuf_self]
          exact fun _ => rfl
      have hsees' : Sees ((s.setBuf i r).setBuf i { r with data := s.disk b, valid := true }) σ := by
        refine hsees.setBuf ?_ ?_ (fun _ => rfl) ?_ ?_
        · rw [hrb]
          exact hsees.other (by rw [Machine.setBuf_self]; exact hrb)
        · intro b' hb' _
          have : b = b' := by
            rw [hrb] at hb'
            exact Option.some.inj hb'
          omega
        · intro b' hb' _
          have : b = b' := by
            rw [hrb] at hb'
            exact Option.some.inj hb'
          rw [← this]
          exact hdisk
        · intro b' hp
          rw [hpin'] at hp
          exact hsees.disk b' hp
      refine ⟨⟨_, Machine.setBuf_setBuf s i r _⟩, hwas, ?_, ?_, ?_, ?_, hsees', ?_⟩
      · rw [Machine.setBuf_self]
        exact hrb
      · rw [Machine.setBuf_self]
      · rw [Machine.setBuf_self]
        exact href
      · rw [Machine.setBuf_self]
        exact hdisk
      · exact fun b' => (hpin' b').trans (hpin b')
    · rw [if_neg hrange]
      refine wp_halt ?_
      rcases hready with hH | hr
      · exact hH
      · exact absurd hr.range hrange

/-- The machine after a held buffer has been overwritten and written out. -/
def Machine.written (s : Machine) (i : Fin NBUF) (b : Nat) (v : Block) : Machine :=
  { s with disk := Function.update s.disk b v }.setBuf i
    { s.buf i with data := v, valid := true, dirty := false }

theorem iderw_dirty {i : Fin NBUF} {post : Unit → Machine → Prop}
    (hb : (s.buf i).blockno = some b) (hd : (s.buf i).dirty = true) (hrange : b < FSSIZE)
    (hC : C (s.transfer i b)) (hpost : post () (s.transfer i b)) : wp H C (iderw i) post s := by
  refine wp_bind (wp_get ?_)
  rw [hb]
  dsimp only
  rw [if_pos hrange, if_pos hd]
  exact wp_persist hC hpost

theorem overwrite_spec {α : Type} {i : Fin NBUF} {v : Block} {k : Prog Machine α}
    {post : α → Machine → Prop} (h : Sees s σ) (hb : (s.buf i).blockno = some b)
    (hv : (s.buf i).valid = true) (hC : C (s.written i b v))
    (hk : wp H C k post (s.written i b v)) :
    wp H C (do setData i v; bwrite i; k) post s := by
  have heq : ((s.setBuf i { s.buf i with data := v }).setBuf i
      { s.buf i with data := v, dirty := true }).transfer i b = s.written i b v := by
    simp only [Machine.transfer, Machine.written, Machine.setBuf_self, Machine.setBuf_disk]
    simp [Machine.setBuf]
  refine wp_bind (wp_modify (wp_bind (wp_bind (wp_modify ?_))))
  rw [Machine.setBuf_self]
  refine iderw_dirty (b := b) ?_ ?_ (h.range i b hb hv) ?_ ?_
  · rw [Machine.setBuf_self]
    exact hb
  · rw [Machine.setBuf_self]
  · exact heq.symm ▸ hC
  · exact heq.symm ▸ hk

theorem Machine.pinned_written {i : Fin NBUF} {v : Block} (h : Sees s σ)
    (hb : (s.buf i).blockno = some b) (b' : Nat) :
    (s.written i b v).Pinned b' ↔ s.Pinned b' ∧ b' ≠ b := by
  constructor
  · rintro ⟨j, hj, hd⟩
    by_cases hji : j = i
    · subst hji
      simp [Machine.written] at hd
    · simp only [Machine.written, Machine.setBuf_ne _ _ _ _ hji] at hj hd
      refine ⟨⟨j, hj, hd⟩, ?_⟩
      rintro rfl
      exact hji (h.uniq j i b' hj hb)
  · rintro ⟨⟨j, hj, hd⟩, hne⟩
    have hji : j ≠ i := by
      rintro rfl
      rw [hb] at hj
      exact hne (Option.some.inj hj).symm
    refine ⟨j, ?_⟩
    simp only [Machine.written, Machine.setBuf_ne _ _ _ _ hji]
    exact ⟨hj, hd⟩

/-- Writing a block out changes the contents there and nowhere else. -/
theorem Sees.written {i : Fin NBUF} {v : Block} (h : Sees s σ)
    (hb : (s.buf i).blockno = some b) (hv : (s.buf i).valid = true) :
    Sees (s.written i b v) (Function.update σ b v) := by
  refine h.update ?_ ?_ (fun _ => rfl) ?_ ?_ ?_
  · rw [hb]
    exact h.other hb
  · exact fun b' hb' _ => h.range i b' hb' hv
  · intro b' hb' _
    rw [hb] at hb'
    cases hb'
    rw [Function.update_self]
  · intro j b' hji hj
    refine Function.update_of_ne ?_ _ _
    rintro rfl
    exact hji (h.uniq j i b' hj hb)
  · intro b' hp
    have hp' : ¬ (s.Pinned b' ∧ b' ≠ b) := fun hc =>
      hp ((Machine.pinned_written (v := v) h hb b').mpr hc)
    by_cases hbb : b' = b
    · rw [hbb, Function.update_self, Function.update_self]
    · rw [Function.update_of_ne hbb, Function.update_of_ne hbb]
      exact h.disk b' fun hc => hp' ⟨hc, hbb⟩

/-- The machine after `brelse`. -/
def Machine.released (s : Machine) (i : Fin NBUF) : Machine :=
  let s := s.setBuf i { s.buf i with refcnt := (s.buf i).refcnt - 1 }
  if (s.buf i).refcnt = 0 then { s with order := i :: s.order.erase i } else s

theorem brelse_spec {i : Fin NBUF} {post : Unit → Machine → Prop}
    (h : post () (s.released i)) : wp H C (brelse i) post s :=
  wp_modify h

theorem Machine.released_buf (s : Machine) (i : Fin NBUF) : (s.released i).buf =
    (s.setBuf i { s.buf i with refcnt := (s.buf i).refcnt - 1 }).buf := by
  simp only [Machine.released]
  split_ifs <;> rfl

@[simp] theorem Machine.released_disk (s : Machine) (i : Fin NBUF) :
    (s.released i).disk = s.disk := by
  simp only [Machine.released]
  split_ifs <;> rfl

theorem Machine.pinned_released (s : Machine) (i : Fin NBUF) (b : Nat) :
    (s.released i).Pinned b ↔ s.Pinned b := by
  unfold Machine.Pinned
  rw [Machine.released_buf]
  exact Machine.pinned_setBuf (r := { s.buf i with refcnt := (s.buf i).refcnt - 1 }) rfl
    (fun _ => rfl) b

theorem Sees.released (h : Sees s σ) (i : Fin NBUF) : Sees (s.released i) σ := by
  have hset : Sees (s.setBuf i { s.buf i with refcnt := (s.buf i).refcnt - 1 }) σ := by
    refine h.setBuf ?_ (h.range i) (h.dirty i) (h.buf i) ?_
    · exact fun b hb => h.other hb b rfl
    · intro b hp
      refine h.disk b fun hc => hp ?_
      exact (Machine.pinned_setBuf (r := { s.buf i with refcnt := (s.buf i).refcnt - 1 }) rfl
        (fun _ => rfl) b).mpr hc
  refine ⟨?_, ?_, ?_, ?_, ?_, ?_⟩
  · rw [Machine.released_buf]
    exact hset.uniq
  · intro j
    simp only [Machine.released]
    split_ifs
    · by_cases hji : j = i
      · exact hji ▸ List.mem_cons_self
      · exact List.mem_cons_of_mem _ ((List.mem_erase_of_ne hji).mpr (h.order j))
    · exact h.order j
  · rw [Machine.released_buf]
    exact hset.range
  · rw [Machine.released_buf]
    exact hset.dirty
  · rw [Machine.released_buf]
    exact hset.buf
  · intro b hp
    rw [Machine.pinned_released] at hp
    rw [Machine.released_disk]
    exact h.disk b hp

/-! ### Frames -/

/-- `t` differs from `s` in the disk and the cache only. -/
structure Same (s t : Machine) : Prop where
  log : t.log = s.log
  logical : t.logical = s.logical
  durable : t.durable = s.durable
  committing : t.committing = s.committing

theorem Same.refl (s : Machine) : Same s s := ⟨rfl, rfl, rfl, rfl⟩

theorem Same.trans {s t u : Machine} (h : Same s t) (h' : Same t u) : Same s u :=
  ⟨h'.log.trans h.log, h'.logical.trans h.logical, h'.durable.trans h.durable,
    h'.committing.trans h.committing⟩

theorem Same.written (s : Machine) (i : Fin NBUF) (b : Nat) (v : Block) :
    Same s (s.written i b v) := ⟨rfl, rfl, rfl, rfl⟩

theorem Same.released (s : Machine) (i : Fin NBUF) : Same s (s.released i) := by
  unfold Machine.released
  dsimp only
  split_ifs
  · exact ⟨rfl, rfl, rfl, rfl⟩
  · exact ⟨rfl, rfl, rfl, rfl⟩

namespace Read

variable {t : Machine} {i j : Fin NBUF}

theorem same (h : Read s σ b i t) : Same s t := by
  obtain ⟨r, rfl⟩ := h.eq
  exact ⟨rfl, rfl, rfl, rfl⟩

theorem disk (h : Read s σ b i t) : t.disk = s.disk := by
  obtain ⟨r, rfl⟩ := h.eq
  rfl

theorem keep_ne (h : Read s σ b i t) (hj : j ≠ i) : t.buf j = s.buf j := by
  obtain ⟨r, rfl⟩ := h.eq
  exact Machine.setBuf_ne _ _ _ _ hj

theorem keep (h : Read s σ b i t) (hj : (s.buf j).refcnt = 1) : j ≠ i ∧ t.buf j = s.buf j := by
  have hji : j ≠ i := by
    rintro rfl
    rw [h.was] at hj
    cases hj
  exact ⟨hji, h.keep_ne hji⟩

end Read

/-- No buffer is held or dirty. -/
def Clean (s : Machine) : Prop := ∀ i, (s.buf i).refcnt = 0 ∧ (s.buf i).dirty = false

theorem Clean.not_pinned (h : Clean s) : ¬ s.Pinned b := by
  rintro ⟨i, -, hd⟩
  rw [(h i).2] at hd
  cases hd

theorem Clean.ready (h : Clean s) (hb : b < FSSIZE) : Ready s b :=
  ⟨hb, fun i _ => (h i).1, 0, h 0⟩

theorem Clean.ready_after {t : Machine} {i : Fin NBUF} {b' : Nat} (h : Clean s)
    (hr : Read s σ b i t) (hb' : b' < FSSIZE) (hne : b' ≠ b) : Ready t b' := by
  refine ⟨hb', ?_, ?_⟩
  · intro j hj
    have hji : j ≠ i := by
      rintro rfl
      rw [hr.blockno] at hj
      exact hne (Option.some.inj hj).symm
    rw [hr.keep_ne hji]
    exact (h j).1
  · obtain ⟨j, hj⟩ : ∃ j : Fin NBUF, j ≠ i := by
      by_cases h0 : i = 0
      · exact ⟨1, by rw [h0]; decide⟩
      · exact ⟨0, Ne.symm h0⟩
    exact ⟨j, by rw [hr.keep_ne hj]; exact h j⟩

theorem Read.not_dirty {t : Machine} {i : Fin NBUF} (h : Read s σ b i t) (hp : ¬ s.Pinned b) :
    (t.buf i).dirty = false := by
  by_contra hd
  exact hp ((h.pinned b).mp ⟨i, h.blockno, by simpa using hd⟩)

/-! ### Copying one block over another -/

/-- What is left after block `b` was overwritten with `v`, written out and
released together with the buffer that `v` came from. -/
structure Copied (s : Machine) (σ : Nat → Block) (b : Nat) (v : Block) (t : Machine) : Prop where
  same : Same s t
  disk : t.disk = Function.update s.disk b v
  sees : Sees t (Function.update σ b v)
  pinned : ∀ b', t.Pinned b' ↔ s.Pinned b' ∧ b' ≠ b

/-- The second half of both copying loops: `i` is copied into `j`. -/
theorem copy_spec {α : Type} {i j : Fin NBUF} {k : Prog Machine α}
    {post : α → Machine → Prop} {x : Nat} (h : Sees s σ) (hi : (s.buf i).blockno = some x)
    (hiv : (s.buf i).valid = true) (hj : (s.buf j).blockno = some b)
    (hjv : (s.buf j).valid = true)
    (hC : C (s.written j b (σ x)))
    (hk : Copied s σ b (σ x) (((s.written j b (σ x)).released i).released j) →
      wp H C k post (((s.written j b (σ x)).released i).released j)) :
    wp H C (do
      let s ← Prog.get
      setData j (s.buf i).data
      bwrite j
      brelse i
      brelse j
      k) post s := by
  refine wp_bind (wp_get ?_)
  rw [h.buf i x hi hiv]
  refine overwrite_spec h hj hjv hC ?_
  refine wp_bind (brelse_spec (wp_bind (brelse_spec (hk ?_))))
  have hw := h.written (v := σ x) hj hjv
  refine ⟨?_, ?_, (hw.released i).released j, ?_⟩
  · exact ((Same.written s j b _).trans (Same.released _ i)).trans (Same.released _ j)
  · rw [Machine.released_disk, Machine.released_disk]
    rfl
  · intro b'
    rw [Machine.pinned_released, Machine.pinned_released]
    exact Machine.pinned_written h hj b'

/-- After the copy the two buffers are free again. -/
theorem Clean.copied {t u : Machine} {i j : Fin NBUF} {x y : Nat} {v : Block} (h : Clean s)
    (hi : Read s σ x i t) (hj : Read t σ y j u) {m n : Fin NBUF}
    (hmn : (m = i ∧ n = j) ∨ (m = j ∧ n = i)) (hb : (u.buf n).blockno = some b) :
    Clean (((u.written n b v).released m).released n) := by
  have hij := hj.keep hi.refcnt
  have hi1 : (u.buf i).refcnt = 1 := by
    rw [hij.2]
    exact hi.refcnt
  have hdi : (u.buf i).dirty = false := by
    rw [hij.2]
    exact hi.not_dirty h.not_pinned
  have hdj : (u.buf j).dirty = false := by
    refine hj.not_dirty ?_
    rw [hi.pinned]
    exact h.not_pinned
  intro l
  rw [Machine.released_buf]
  have hne : m ≠ n := by
    rcases hmn with ⟨rfl, rfl⟩ | ⟨rfl, rfl⟩
    · exact hij.1
    · exact hij.1.symm
  by_cases hln : l = n
  · subst hln
    rw [Machine.setBuf_self, Machine.released_buf, Machine.setBuf_ne _ _ _ _ hne.symm]
    rcases hmn with ⟨rfl, rfl⟩ | ⟨rfl, rfl⟩
    · simp [Machine.written, hj.refcnt]
    · simp [Machine.written, hi1]
  · rw [Machine.setBuf_ne _ _ _ _ hln, Machine.released_buf]
    by_cases hlm : l = m
    · subst hlm
      rw [Machine.setBuf_self, Machine.written, Machine.setBuf_ne _ _ _ _ hne]
      rcases hmn with ⟨rfl, rfl⟩ | ⟨rfl, rfl⟩
      · simp [hi1, hdi]
      · simp [hj.refcnt, hdj]
    · rw [Machine.setBuf_ne _ _ _ _ hlm, Machine.written, Machine.setBuf_ne _ _ _ _ hln]
      have hl : l ≠ i ∧ l ≠ j := by
        rcases hmn with ⟨rfl, rfl⟩ | ⟨rfl, rfl⟩
        · exact ⟨hlm, hln⟩
        · exact ⟨hln, hlm⟩
      show (u.buf l).refcnt = 0 ∧ (u.buf l).dirty = false
      rw [hj.keep_ne hl.2, hi.keep_ne hl.1]
      exact h l

end Disk
end Xv6
