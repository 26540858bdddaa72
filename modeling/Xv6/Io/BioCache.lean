import Xv6.Io.Bio
import Xv6.Lib.Tally

/-!
# Who uses a buffer

There is at most one buffer for a block, `refcnt` counts the calls that have it, and one process
at a time holds it. A buffer that somebody uses keeps its block.
-/

namespace Xv6.Bio
open Disk Transition Wait

/-- In `acquiresleep` and `brelse` a process uses the buffer without its lock. -/
def Pc.refers (i : Fin NBUF) : Pc → Nat
  | .acquiresleep j | .brelse j => if j = i then 1 else 0
  | _ => 0

/-- The buffer that is locked for the call. -/
def Pc.locks : Pc → Option (Fin NBUF)
  | .bread i | .iderw i | .waiting i => some i
  | _ => none

variable {P : Type*} {s t : State P} {p q : P} {i j : Fin NBUF} {k : Pc} {a : Action P} {r : Buf}

structure Cache [Fintype P] (s : State P) : Prop where
  mem : ∀ i, i ∈ s.order
  nodup : s.order.Nodup
  unique : ∀ i j b, (s.buf i).blockno = some b → (s.buf j).blockno = some b → i = j
  refcnt : ∀ i, (s.buf i).refcnt =
    (if s.holder i = none then 0 else 1) + ∑ p, (s.pc p).refers i
  used : ∀ i, 0 < (s.buf i).refcnt → (s.buf i).blockno ≠ none
  mine : ∀ p i, (s.pc p).locks = some i → s.holder i = some p
  dirty : ∀ i, (s.buf i).dirty = true → (s.buf i).valid = true
  held : ∀ p i, s.holder i = some p → (s.pc p).locks ≠ some i → (s.buf i).valid = true
  late : ∀ p i, s.pc p = .iderw i → synced (s.buf i) = false

namespace Cache

variable [Fintype P]

theorem refcnt_pos_of_holder (h : Cache s) (hp : s.holder i ≠ none) : 0 < (s.buf i).refcnt := by
  rw [h.refcnt i, if_neg hp]
  omega

theorem refcnt_pos_of_refers (h : Cache s) (hp : 0 < (s.pc p).refers i) :
    0 < (s.buf i).refcnt := by
  have hle := Finset.single_le_sum (fun q _ => Nat.zero_le ((s.pc q).refers i))
    (Finset.mem_univ p)
  rw [h.refcnt i]
  omega

theorem blockno_of_holder (h : Cache s) (hp : s.holder i = some p) :
    ∃ b, (s.buf i).blockno = some b := by
  apply Option.ne_none_iff_exists'.mp
  apply h.used
  apply h.refcnt_pos_of_holder
  rw [hp]
  exact Option.some_ne_none p

/-- A buffer with `refcnt` 0 is in nobody's hands. -/
theorem unlocked (h : Cache s) (hz : (s.buf i).refcnt = 0) :
    s.holder i = none ∧ ∀ p, (s.pc p).locks ≠ some i ∧ (s.pc p).refers i = 0 := by
  have hnone : s.holder i = none := by
    by_contra hno
    have hpos := h.refcnt_pos_of_holder hno
    omega
  refine ⟨hnone, fun p => ⟨?_, ?_⟩⟩
  · intro hlocks
    have hmine := h.mine p i hlocks
    rw [hnone] at hmine
    cases hmine
  · by_contra hno
    have hpos := h.refcnt_pos_of_refers (Nat.pos_of_ne_zero hno)
    omega

theorem valid_of_idle (h : Cache s) (hp : s.pc p = .idle) (hi : s.holder i = some p) :
    (s.buf i).valid = true := by
  apply h.held p i hi
  rw [hp]
  exact Option.some_ne_none i |>.symm

/-- A buffer whose holder is between two calls is locked for no call. -/
theorem not_locks (h : Cache s) (hp : s.pc p = .idle) (hi : s.holder i = some p) (q : P) :
    (s.pc q).locks ≠ some i := by
  intro hq
  have hmine := h.mine q i hq
  rw [hi] at hmine
  rw [← Option.some.inj hmine, hp] at hq
  cases hq

variable [DecidableEq P]

theorem refers_update (s : State P) (p : P) (k : Pc) (i : Fin NBUF) :
    (∑ q, (Function.update s.pc p k q).refers i) + (s.pc p).refers i =
      (∑ q, (s.pc q).refers i) + k.refers i := by
  have hcomp : (fun q => (Function.update s.pc p k q).refers i) =
      Function.update (fun q => (s.pc q).refers i) p (k.refers i) :=
    Function.comp_update (Pc.refers i) s.pc p k
  rw [hcomp]
  exact sum_update (fun q => (s.pc q).refers i) p (k.refers i)

theorem setPc (h : Cache s) (hrefers : ∀ i, k.refers i = (s.pc p).refers i)
    (hmine : ∀ i, k.locks = some i → s.holder i = some p)
    (hheld : ∀ i, s.holder i = some p → k.locks ≠ some i → (s.buf i).valid = true)
    (hlate : ∀ i, k = .iderw i → synced (s.buf i) = false) : Cache (s.setPc p k) := by
  refine ⟨h.mem, h.nodup, h.unique, ?_, h.used, ?_, h.dirty, ?_, ?_⟩
  · intro i
    have hsum := refers_update s p k i
    have hold := h.refcnt i
    rw [hrefers i] at hsum
    show (s.buf i).refcnt = (if s.holder i = none then 0 else 1) +
      ∑ q, (Function.update s.pc p k q).refers i
    omega
  · intro q i hq
    have hq' : (Function.update s.pc p k q).locks = some i := hq
    by_cases hqp : q = p
    · rw [hqp, Function.update_self] at hq'
      rw [hqp]
      exact hmine i hq'
    · rw [Function.update_of_ne hqp] at hq'
      exact h.mine q i hq'
  · intro q i hi hq
    have hq' : (Function.update s.pc p k q).locks ≠ some i := hq
    by_cases hqp : q = p
    · rw [hqp, Function.update_self] at hq'
      rw [hqp] at hi
      exact hheld i hi hq'
    · rw [Function.update_of_ne hqp] at hq'
      exact h.held q i hi hq'
  · intro q i hq
    have hq' : Function.update s.pc p k q = .iderw i := hq
    by_cases hqp : q = p
    · rw [hqp, Function.update_self] at hq'
      exact hlate i hq'
    · rw [Function.update_of_ne hqp] at hq'
      exact h.late q i hq'

omit [DecidableEq P] in
/-- Flags and data of a buffer change. -/
theorem setBuf (h : Cache s) (hblockno : r.blockno = (s.buf i).blockno)
    (hrefcnt : r.refcnt = (s.buf i).refcnt) (hvalid : (s.buf i).valid = true → r.valid = true)
    (hdirty : r.dirty = true → r.valid = true)
    (hlate : ∀ q, s.pc q = .iderw i → synced r = false) : Cache (s.setBuf i r) := by
  have hself : (s.setBuf i r).buf i = r := Function.update_self ..
  have hne : ∀ {j}, j ≠ i → (s.setBuf i r).buf j = s.buf j := fun hj => Function.update_of_ne hj ..
  have hno : ∀ j, ((s.setBuf i r).buf j).blockno = (s.buf j).blockno := by
    intro j
    by_cases hj : j = i
    · rw [hj, hself, hblockno]
    · rw [hne hj]
  have hcount : ∀ j, ((s.setBuf i r).buf j).refcnt = (s.buf j).refcnt := by
    intro j
    by_cases hj : j = i
    · rw [hj, hself, hrefcnt]
    · rw [hne hj]
  refine ⟨h.mem, h.nodup, ?_, ?_, ?_, h.mine, ?_, ?_, ?_⟩
  · intro j j' b hj hj'
    rw [hno] at hj hj'
    exact h.unique j j' b hj hj'
  · intro j
    rw [hcount]
    exact h.refcnt j
  · intro j hj
    rw [hcount] at hj
    rw [hno]
    exact h.used j hj
  · intro j hj
    by_cases hji : j = i
    · rw [hji, hself] at hj ⊢
      exact hdirty hj
    · rw [hne hji] at hj ⊢
      exact h.dirty j hj
  · intro q j hq hlocks
    have hold := h.held q j hq hlocks
    by_cases hji : j = i
    · rw [hji] at hold ⊢
      rw [hself]
      exact hvalid hold
    · rw [hne hji]
      exact hold
  · intro q j hq
    by_cases hji : j = i
    · rw [hji] at hq ⊢
      rw [hself]
      exact hlate q hq
    · rw [hne hji]
      exact h.late q j hq

/-! ### The steps -/

/-- A process comes to a buffer or leaves it, without its lock. -/
theorem setBuf_setPc (h : Cache s)
    (hunique : ∀ j b, j ≠ i → r.blockno = some b → (s.buf j).blockno ≠ some b)
    (hrefcnt : r.refcnt + (s.pc p).refers i = (s.buf i).refcnt + k.refers i)
    (hother : ∀ j, j ≠ i → k.refers j = (s.pc p).refers j)
    (hused : 0 < r.refcnt → r.blockno ≠ none) (hold : (s.pc p).locks = none)
    (hnew : k.locks = none) (hdirty : r.dirty = true → r.valid = true)
    (hheld : s.holder i ≠ none → (s.buf i).valid = true → r.valid = true)
    (hlate : ∀ q, s.pc q = .iderw i → synced r = false) :
    Cache ((s.setBuf i r).setPc p k) := by
  have hself : ((s.setBuf i r).setPc p k).buf i = r := Function.update_self ..
  have hne : ∀ {j}, j ≠ i → ((s.setBuf i r).setPc p k).buf j = s.buf j :=
    fun hj => Function.update_of_ne hj ..
  have hlocks : ∀ q, (((s.setBuf i r).setPc p k).pc q).locks = (s.pc q).locks := by
    intro q
    show (Function.update s.pc p k q).locks = (s.pc q).locks
    by_cases hqp : q = p
    · rw [hqp, Function.update_self, hold, hnew]
    · rw [Function.update_of_ne hqp]
  refine ⟨h.mem, h.nodup, ?_, ?_, ?_, ?_, ?_, ?_, ?_⟩
  · intro j j' b hj hj'
    by_cases hji : j = i
    · by_cases hji' : j' = i
      · rw [hji, hji']
      · rw [hji, hself] at hj
        rw [hne hji'] at hj'
        exact absurd hj' (hunique j' b hji' hj)
    · rw [hne hji] at hj
      by_cases hji' : j' = i
      · rw [hji', hself] at hj'
        exact absurd hj (hunique j b hji hj')
      · rw [hne hji'] at hj'
        exact h.unique j j' b hj hj'
  · intro j
    have hsum := refers_update s p k j
    have hcount := h.refcnt j
    show (((s.setBuf i r).setPc p k).buf j).refcnt = (if s.holder j = none then 0 else 1) +
      ∑ q, (Function.update s.pc p k q).refers j
    by_cases hji : j = i
    · rw [hji] at hsum hcount ⊢
      rw [hself]
      omega
    · rw [hother j hji] at hsum
      rw [hne hji]
      omega
  · intro j hj
    by_cases hji : j = i
    · rw [hji, hself] at hj ⊢
      exact hused hj
    · rw [hne hji] at hj ⊢
      exact h.used j hj
  · intro q j hq
    rw [hlocks] at hq
    exact h.mine q j hq
  · intro j hj
    by_cases hji : j = i
    · rw [hji, hself] at hj ⊢
      exact hdirty hj
    · rw [hne hji] at hj ⊢
      exact h.dirty j hj
  · intro q j hq hnot
    rw [hlocks] at hnot
    have hvalid := h.held q j hq hnot
    by_cases hji : j = i
    · have hsome : s.holder i ≠ none := by
        rw [← hji, show s.holder j = some q from hq]
        exact Option.some_ne_none q
      rw [hji] at hvalid ⊢
      rw [hself]
      exact hheld hsome hvalid
    · rw [hne hji]
      exact hvalid
  · intro q j hq
    have hq' : s.pc q = .iderw j := by
      have hqk : Function.update s.pc p k q = .iderw j := hq
      by_cases hqp : q = p
      · rw [hqp, Function.update_self] at hqk
        rw [hqk] at hnew
        cases hnew
      · rw [Function.update_of_ne hqp] at hqk
        exact hqk
    by_cases hji : j = i
    · rw [hji] at hq' ⊢
      rw [hself]
      exact hlate q hq'
    · rw [hne hji]
      exact h.late q j hq'

/-! ### The steps -/

omit [Fintype P] [DecidableEq P] in
theorem cached_some {b : Nat} (hi : s.cached b = some i) : (s.buf i).blockno = some b := by
  unfold State.cached at hi
  have hfound := List.find?_some hi
  exact of_decide_eq_true hfound

omit [DecidableEq P] in
theorem cached_none (h : Cache s) {b : Nat} (hi : s.cached b = none) (j : Fin NBUF) :
    (s.buf j).blockno ≠ some b := by
  intro hj
  have hno := List.find?_eq_none.mp hi j (h.mem j)
  exact hno (decide_eq_true hj)

omit [Fintype P] [DecidableEq P] in
theorem unused_some (hi : s.unused = some i) : (s.buf i).refcnt = 0 ∧ (s.buf i).dirty = false := by
  unfold State.unused at hi
  have hfound := List.find?_some hi
  exact of_decide_eq_true hfound

theorem refers_acquiresleep (i j : Fin NBUF) (hj : j ≠ i) :
    (Pc.acquiresleep i).refers j = Pc.idle.refers j := if_neg (Ne.symm hj)

theorem bget (h : Cache s) (hp : s.pc p = .idle) (b : Nat) : Cache (s.bget p b) := by
  have hlocks : (s.pc p).locks = none := by
    rw [hp]
    rfl
  unfold State.bget
  cases hc : s.cached b with
  | some i =>
    have hb := cached_some hc
    refine h.setBuf_setPc ?_ ?_ ?_ ?_ hlocks rfl (h.dirty i) (fun _ hv => hv) (fun q => h.late q i)
    · intro j b' hj hb' hj'
      exact hj (h.unique j i b' hj' hb')
    · rw [hp]
      show (s.buf i).refcnt + 1 + 0 = (s.buf i).refcnt + if i = i then 1 else 0
      rw [if_pos rfl]
    · intro j hj
      rw [hp]
      exact refers_acquiresleep i j hj
    · intro _
      show (s.buf i).blockno ≠ none
      rw [hb]
      exact Option.some_ne_none b
  | none =>
    cases hu : s.unused with
    | none => exact ⟨h.mem, h.nodup, h.unique, h.refcnt, h.used, h.mine, h.dirty, h.held, h.late⟩
    | some i =>
      obtain ⟨hz, -⟩ := unused_some hu
      obtain ⟨hnone, hfree⟩ := h.unlocked hz
      refine h.setBuf_setPc ?_ ?_ ?_ ?_ hlocks rfl ?_ ?_ ?_
      · intro j b' _ hb' hj'
        cases hb'
        exact h.cached_none hc j hj'
      · rw [hp, hz]
        show 1 + 0 = 0 + if i = i then 1 else 0
        rw [if_pos rfl]
      · intro j hj
        rw [hp]
        exact refers_acquiresleep i j hj
      · intro _
        exact Option.some_ne_none b
      · intro hno
        cases hno
      · intro hno
        exact absurd hnone hno
      · intro q hq
        rfl

theorem acquiresleep (h : Cache s) (hp : s.pc p = .acquiresleep i) :
    Cache (s.acquiresleep p i) := by
  unfold State.acquiresleep
  by_cases hfree : s.holder i = none
  · rw [if_pos hfree]
    refine ⟨h.mem, h.nodup, h.unique, ?_, h.used, ?_, h.dirty, ?_, ?_⟩
    · intro j
      have hsum := refers_update s p (.bread i) j
      have hcount := h.refcnt j
      rw [hp] at hsum
      show (s.buf j).refcnt = (if Function.update s.holder i (some p) j = none then 0 else 1) +
        ∑ q, (Function.update s.pc p (.bread i) q).refers j
      by_cases hji : j = i
      · have hone : (Pc.acquiresleep i).refers i = 1 := if_pos rfl
        have hzero : (Pc.bread i).refers i = 0 := rfl
        rw [hji] at hsum hcount ⊢
        rw [Function.update_self, if_neg (Option.some_ne_none p)]
        rw [hfree, if_pos rfl] at hcount
        omega
      · have hz : (Pc.acquiresleep i).refers j = 0 := if_neg (Ne.symm hji)
        have hzero : (Pc.bread i).refers j = 0 := rfl
        rw [Function.update_of_ne hji]
        omega
    · intro q j hq
      have hq' : (Function.update s.pc p (.bread i) q).locks = some j := hq
      show Function.update s.holder i (some p) j = some q
      by_cases hqp : q = p
      · rw [hqp, Function.update_self] at hq'
        cases hq'
        rw [Function.update_self, hqp]
      · rw [Function.update_of_ne hqp] at hq'
        have hmine := h.mine q j hq'
        have hji : j ≠ i := by
          intro hji
          rw [hji, hfree] at hmine
          cases hmine
        rw [Function.update_of_ne hji]
        exact hmine
    · intro q j hq hnot
      have hq' : Function.update s.holder i (some p) j = some q := hq
      have hnot' : (Function.update s.pc p (.bread i) q).locks ≠ some j := hnot
      by_cases hji : j = i
      · rw [hji, Function.update_self] at hq'
        cases hq'
        rw [hji, Function.update_self] at hnot'
        exact absurd rfl hnot'
      · rw [Function.update_of_ne hji] at hq'
        apply h.held q j hq'
        by_cases hqp : q = p
        · rw [hqp, hp]
          exact (Option.some_ne_none j).symm
        · rw [Function.update_of_ne hqp] at hnot'
          exact hnot'
    · intro q j hq
      have hq' : Function.update s.pc p (.bread i) q = .iderw j := hq
      by_cases hqp : q = p
      · rw [hqp, Function.update_self] at hq'
        cases hq'
      · rw [Function.update_of_ne hqp] at hq'
        exact h.late q j hq'
  · rw [if_neg hfree]
    exact ⟨h.mem, h.nodup, h.unique, h.refcnt, h.used, h.mine, h.dirty, h.held, h.late⟩

theorem releasesleep (h : Cache s) (hp : s.pc p = .idle) (hi : s.holder i = some p) :
    Cache (State.setPc { s with
      holder := Function.update s.holder i none
      chan := wakeup s.chan (.lock i) } p (.brelse i)) := by
  refine ⟨h.mem, h.nodup, h.unique, ?_, h.used, ?_, h.dirty, ?_, ?_⟩
  · intro j
    have hsum := refers_update s p (.brelse i) j
    have hcount := h.refcnt j
    rw [hp] at hsum
    have hzero : Pc.idle.refers j = 0 := rfl
    show (s.buf j).refcnt = (if Function.update s.holder i none j = none then 0 else 1) +
      ∑ q, (Function.update s.pc p (.brelse i) q).refers j
    by_cases hji : j = i
    · have hone : (Pc.brelse i).refers i = 1 := if_pos rfl
      rw [hji] at hsum hcount hzero ⊢
      rw [Function.update_self, if_pos rfl]
      rw [hi, if_neg (Option.some_ne_none p)] at hcount
      omega
    · have hz : (Pc.brelse i).refers j = 0 := if_neg (Ne.symm hji)
      rw [Function.update_of_ne hji]
      omega
  · intro q j hq
    have hq' : (Function.update s.pc p (.brelse i) q).locks = some j := hq
    have hqp : q ≠ p := by
      intro hqp
      rw [hqp, Function.update_self] at hq'
      cases hq'
    rw [Function.update_of_ne hqp] at hq'
    have hmine := h.mine q j hq'
    have hji : j ≠ i := by
      intro hji
      rw [hji, hi] at hmine
      exact hqp (Option.some.inj hmine).symm
    show Function.update s.holder i none j = some q
    rw [Function.update_of_ne hji]
    exact hmine
  · intro q j hq hnot
    have hq' : Function.update s.holder i none j = some q := hq
    have hnot' : (Function.update s.pc p (.brelse i) q).locks ≠ some j := hnot
    have hji : j ≠ i := by
      intro hji
      rw [hji, Function.update_self] at hq'
      cases hq'
    rw [Function.update_of_ne hji] at hq'
    apply h.held q j hq'
    by_cases hqp : q = p
    · rw [hqp, hp]
      exact (Option.some_ne_none j).symm
    · rw [Function.update_of_ne hqp] at hnot'
      exact hnot'
  · intro q j hq
    have hq' : Function.update s.pc p (.brelse i) q = .iderw j := hq
    by_cases hqp : q = p
    · rw [hqp, Function.update_self] at hq'
      cases hq'
    · rw [Function.update_of_ne hqp] at hq'
      exact h.late q j hq'

theorem release (h : Cache s) (hp : s.pc p = .brelse i) : Cache (s.release p i) := by
  have hlocks : (s.pc p).locks = none := by
    rw [hp]
    rfl
  have hone : (s.pc p).refers i = 1 := by
    rw [hp]
    exact if_pos rfl
  have hpos := h.refcnt_pos_of_refers (p := p) (i := i) (by omega)
  have hcache : Cache ((s.setBuf i { s.buf i with refcnt := (s.buf i).refcnt - 1 }).setPc p .idle) := by
    refine h.setBuf_setPc ?_ ?_ ?_ ?_ hlocks rfl (h.dirty i) (fun _ hv => hv) (fun q => h.late q i)
    · intro j b hj hb hj'
      exact hj (h.unique j i b hj' hb)
    · rw [hone]
      show (s.buf i).refcnt - 1 + 1 = (s.buf i).refcnt + 0
      omega
    · intro j hj
      rw [hp]
      exact (if_neg (Ne.symm hj)).symm
    · intro _
      exact h.used i hpos
  unfold State.release
  dsimp only
  split_ifs
  · refine ⟨?_, ?_, hcache.unique, hcache.refcnt, hcache.used, hcache.mine, hcache.dirty,
      hcache.held, hcache.late⟩
    · intro j
      by_cases hj : j = i
      · rw [hj]
        exact List.mem_cons_self
      · exact List.mem_cons_of_mem i ((List.mem_erase_of_ne hj).mpr (h.mem j))
    · exact List.nodup_cons.mpr ⟨h.nodup.not_mem_erase, h.nodup.erase i⟩
  · exact hcache

omit [DecidableEq P] in
/-- The queue, the disk and the sleepers are of no account. -/
theorem congr (h : Cache s) (hbuf : t.buf = s.buf) (horder : t.order = s.order)
    (hholder : t.holder = s.holder) (hpc : t.pc = s.pc) : Cache t := by
  refine ⟨?_, ?_, ?_, ?_, ?_, ?_, ?_, ?_, ?_⟩
  · rw [horder]
    exact h.mem
  · rw [horder]
    exact h.nodup
  · rw [hbuf]
    exact h.unique
  · rw [hbuf, hholder, hpc]
    exact h.refcnt
  · rw [hbuf]
    exact h.used
  · rw [hpc, hholder]
    exact h.mine
  · rw [hbuf]
    exact h.dirty
  · rw [hholder, hpc, hbuf]
    exact h.held
  · rw [hpc, hbuf]
    exact h.late

/-- A process that holds the buffer for its call goes on with the call, or returns. -/
theorem call (h : Cache s) (hp : (s.pc p).locks = some i)
    (hk : k.locks = some i ∧ (k = .iderw i → synced (s.buf i) = false) ∨
      k = .idle ∧ (s.buf i).valid = true) : Cache (s.setPc p k) := by
  have hrefers : ∀ k : Pc, k.locks = some i → ∀ j, k.refers j = 0 := by
    intro k hk j
    cases k with
    | acquiresleep j' => cases hk
    | brelse j' => cases hk
    | idle => rfl
    | bread j' => rfl
    | iderw j' => rfl
    | waiting j' => rfl
  obtain ⟨hk, hlate⟩ | ⟨hk, hvalid⟩ := hk
  · refine h.setPc ?_ ?_ ?_ ?_
    · intro j
      rw [hrefers k hk, hrefers _ hp]
    · intro j hj
      rw [hk] at hj
      rw [← Option.some.inj hj]
      exact h.mine p i hp
    · intro j hj hnot
      apply h.held p j hj
      rw [hp, ← hk]
      exact hnot
    · intro j hj
      rw [hj] at hk
      have hji : j = i := Option.some.inj hk
      rw [hji]
      apply hlate
      rw [hj, hji]
  · rw [hk]
    refine h.setPc ?_ ?_ ?_ ?_
    · intro j
      rw [hrefers _ hp]
      rfl
    · intro j hj
      cases hj
    · intro j hj _
      by_cases hji : j = i
      · rw [hji]
        exact hvalid
      · apply h.held p j hj
        rw [hp]
        exact fun hno => hji (Option.some.inj hno).symm
    · intro j hj
      cases hj

theorem wait (h : Cache s) (hp : (s.pc p).locks = some i) : Cache (s.wait p i) := by
  unfold State.wait
  split_ifs with hsync
  · refine h.call hp (.inr ⟨rfl, ?_⟩)
    unfold synced at hsync
    rw [Bool.and_eq_true] at hsync
    exact hsync.1
  · have hwait : Cache (s.setPc p (.waiting i)) := by
      refine h.call hp (.inl ⟨rfl, ?_⟩)
      intro hno
      cases hno
    exact hwait.congr rfl rfl rfl rfl

omit [Fintype P] [DecidableEq P] in
theorem idestart_rest (s : State P) (i : Fin NBUF) : (s.idestart i).buf = s.buf ∧
    (s.idestart i).order = s.order ∧ (s.idestart i).holder = s.holder ∧
    (s.idestart i).pc = s.pc ∧ (s.idestart i).idequeue = s.idequeue ∧
    (s.idestart i).chan = s.chan ∧ (s.idestart i).disk = s.disk ∧
    (s.idestart i).contents = s.contents := by
  unfold State.idestart
  split
  · exact ⟨rfl, rfl, rfl, rfl, rfl, rfl, rfl, rfl⟩
  · split_ifs <;> exact ⟨rfl, rfl, rfl, rfl, rfl, rfl, rfl, rfl⟩

omit [DecidableEq P] in
theorem complete {ok : Bool} (h : Cache s) (hs : s.complete ok = some t) : Cache t := by
  unfold State.complete at hs
  split at hs
  · cases hs
    exact h.congr rfl rfl rfl rfl
  · cases hs
    exact h.congr rfl rfl rfl rfl
  · cases hs

omit [DecidableEq P] in
theorem idestart (h : Cache s) (i : Fin NBUF) : Cache (s.idestart i) := by
  obtain ⟨hbuf, horder, hholder, hpc, -⟩ := idestart_rest s i
  exact h.congr hbuf horder hholder hpc

theorem iderw (h : Cache s) (hp : s.pc p = .iderw i) : Cache (s.iderw p i) := by
  have hlocks : (s.pc p).locks = some i := by
    rw [hp]
    rfl
  have hmine := h.mine p i hlocks
  have hlate := h.late p i hp
  unfold State.iderw
  rw [if_neg fun hno => hno hmine, hlate, if_neg Bool.false_ne_true]
  have happend : Cache { s with idequeue := s.idequeue ++ [i] } := h.congr rfl rfl rfl rfl
  dsimp only
  split_ifs
  · apply (happend.idestart i).wait
    rw [(idestart_rest _ i).2.2.2.1]
    exact hlocks
  · exact happend.wait hlocks

theorem bwrite (h : Cache s) (hp : s.pc p = .idle) (hi : s.holder i = some p) :
    Cache ((s.setBuf i { s.buf i with dirty := true }).setPc p (.iderw i)) := by
  have hset : Cache (s.setBuf i { s.buf i with dirty := true }) := by
    refine h.setBuf rfl rfl id (fun _ => h.valid_of_idle hp hi) ?_
    intro q hq
    exact absurd (by rw [hq]; rfl) (h.not_locks hp hi q)
  refine hset.setPc ?_ ?_ ?_ ?_
  · intro j
    show Pc.refers j (.iderw i) = (s.pc p).refers j
    rw [hp]
    rfl
  · intro j hj
    cases hj
    exact hi
  · intro j hj _
    exact hset.valid_of_idle hp hj
  · intro j hj
    cases hj
    show synced (Function.update s.buf i { s.buf i with dirty := true } i) = false
    rw [Function.update_self]
    exact Bool.and_false _

end Cache

end Xv6.Bio
