import Mathlib.Data.Fintype.Card
import Xv6.Fs.Logged

/-!
# Operations that the machine brings to their end

The cache or the log may stop an operation (bio.c:88, log.c:212). `nests N` says that the
operation reads no block that it holds, holds at most `N` buffers at a time, and logs and
releases only what it holds. `run_total` turns that into a run that is not stopped, when the
log has `N` blocks to spare beside those that the operation logs.
-/

namespace Xv6.Fs
open Buffer Forest Disk

variable {α β : Type} {sb : Superblock} {A : Area} {N : Nat} {held held' : Finset Nat}
  {σ τ : Contents} {s t : Machine} {b : Nat}

namespace Op

def nests (N : Nat) :
    Op α → Finset Nat → (α → Finset Nat → Contents → Prop) → Contents → Prop
  | done a, held, post, σ => post a held σ
  | panic _, _, _, _ => True
  | bread b k, held, post, σ =>
    b < FSSIZE ∧ b ∉ held ∧ held.card < N ∧ (k (σ b)).nests N (insert b held) post σ
  | logWrite b f k, held, post, σ => b ∈ held ∧ k.nests N held post (Function.update σ b (f (σ b)))
  | brelse b k, held, post, σ => b ∈ held ∧ k.nests N (held.erase b) post σ

end Op

section Rules

variable {post post' : α → Finset Nat → Contents → Prop}

theorem nests_pure {a : α} (h : post a held σ) : (pure a : Op α).nests N held post σ := h

theorem nests_panic {e : Panic} : (Op.panic e : Op α).nests N held post σ := trivial

theorem nests_release {post : Unit → Finset Nat → Contents → Prop} (hb : b ∈ held)
    (h : post () (held.erase b) σ) : (brelse b).nests N held post σ := ⟨hb, h⟩

theorem nests_bread {k : Block → Op α} (hb : b < FSSIZE) (hnot : b ∉ held) (hcard : held.card < N)
    (h : (k (σ b)).nests N (insert b held) post σ) : (bread b >>= k).nests N held post σ :=
  ⟨hb, hnot, hcard, h⟩

theorem nests_logWrite {f : Block → Block} {k : Unit → Op α} (hb : b ∈ held)
    (h : (k ()).nests N held post (Function.update σ b (f (σ b)))) :
    (logWrite b f >>= k).nests N held post σ := ⟨hb, h⟩

theorem nests_brelse {k : Unit → Op α} (hb : b ∈ held)
    (h : (k ()).nests N (held.erase b) post σ) : (brelse b >>= k).nests N held post σ := ⟨hb, h⟩

theorem nests_mono {p : Op α} (h : p.nests N held post σ)
    (himp : ∀ a held τ, post a held τ → post' a held τ) : p.nests N held post' σ := by
  induction p generalizing held σ with
  | done a => exact himp a held σ h
  | panic e => trivial
  | bread b k ih => exact ⟨h.1, h.2.1, h.2.2.1, ih _ h.2.2.2⟩
  | logWrite b f k ih => exact ⟨h.1, ih h.2⟩
  | brelse b k ih => exact ⟨h.1, ih h.2⟩

theorem nests_bind {p : Op α} {k : α → Op β} {post : β → Finset Nat → Contents → Prop}
    (h : p.nests N held (fun a held τ => (k a).nests N held post τ) σ) :
    (p >>= k).nests N held post σ := by
  show (p.bind k).nests N held post σ
  induction p generalizing held σ with
  | done a => exact h
  | panic e => trivial
  | bread b q ih => exact ⟨h.1, h.2.1, h.2.2.1, ih _ h.2.2.2⟩
  | logWrite b f q ih => exact ⟨h.1, ih h.2⟩
  | brelse b q ih => exact ⟨h.1, ih h.2⟩

/-- What is known of the contents holds beside it. -/
theorem nests_and {p : Op α} {H : Panic → Prop} {W : Nat → Prop} {q : α → Contents → Prop}
    (h : p.nests N held post σ) (hq : p.wp H W q σ) :
    p.nests N held (fun a held τ => post a held τ ∧ q a τ) σ := by
  induction p generalizing held σ with
  | done a => exact ⟨h, wp_result (a := a) hq rfl⟩
  | panic e => trivial
  | bread b k ih => exact ⟨h.1, h.2.1, h.2.2.1, ih _ h.2.2.2 (wp_bread_iff.mp hq)⟩
  | logWrite b f k ih => exact ⟨h.1, ih h.2 (wp_logWrite_iff.mp hq).2⟩
  | brelse b k ih => exact ⟨h.1, ih h.2 (wp_brelse_iff.mp hq)⟩

/-- Sequencing, with a specification of the first part. -/
theorem nests_seq {p : Op α} {k : α → Op β} {H : Panic → Prop} {W : Nat → Prop}
    {q : α → Contents → Prop} {post' : β → Finset Nat → Contents → Prop}
    (h : p.nests N held post σ) (hq : p.wp H W q σ)
    (hk : ∀ a held τ, post a held τ → q a τ → (k a).nests N held post' τ) :
    (p >>= k).nests N held post' σ :=
  nests_bind (nests_mono (nests_and h hq) fun a held τ h => hk a held τ h.1 h.2)

end Rules

/-! ### The machine -/

/-- The buffers in use are those of the blocks in `held`, and a dirty buffer has a block. -/
structure HoldsBuffers (s : Machine) (held : Finset Nat) : Prop where
  buf : ∀ b ∈ held, ∃ i, (s.buf i).blockno = some b ∧ (s.buf i).refcnt = 1 ∧
    (s.buf i).valid = true
  free : ∀ i, (s.buf i).refcnt ≠ 0 → ∃ b ∈ held, (s.buf i).blockno = some b
  dirty : ∀ i, (s.buf i).dirty = true → (s.buf i).blockno ≠ none

namespace HoldsBuffers

variable {i : Fin NBUF}

theorem ready (h : HoldsBuffers s held) (hl : LogInv A s σ) (hb : b < FSSIZE) (hnot : b ∉ held)
    (hroom : s.log.lh.length + held.card < NBUF) : Ready s b := by
  refine ⟨hb, ?_, ?_⟩
  · intro i hi
    by_contra hr
    obtain ⟨b', hb', hi'⟩ := h.free i hr
    rw [hi] at hi'
    cases hi'
    exact hnot hb'
  · by_contra hno
    have hall : ∀ i, ∃ b ∈ s.log.lh.toFinset ∪ held, (s.buf i).blockno = some b := by
      intro i
      by_cases hr : (s.buf i).refcnt = 0
      · have hd : (s.buf i).dirty = true := by
          by_contra hd
          exact hno ⟨i, hr, by simpa using hd⟩
        obtain ⟨b', hb'⟩ := Option.ne_none_iff_exists'.mp (h.dirty i hd)
        refine ⟨b', Finset.mem_union_left _ (List.mem_toFinset.mpr ?_), hb'⟩
        exact (hl.pinned b').mp ⟨i, hb', hd⟩
      · obtain ⟨b', hb', hi⟩ := h.free i hr
        exact ⟨b', Finset.mem_union_right _ hb', hi⟩
    choose f hf hblock using hall
    have hinj : Function.Injective f := by
      intro i j hij
      have hi := hblock i
      rw [hij] at hi
      exact hl.sees.uniq i j _ hi (hblock j)
    have hle : (Finset.univ.image f).card ≤ (s.log.lh.toFinset ∪ held).card := by
      apply Finset.card_le_card
      intro x hx
      obtain ⟨i, -, rfl⟩ := Finset.mem_image.mp hx
      exact hf i
    rw [Finset.card_image_of_injective _ hinj, Finset.card_univ, Fintype.card_fin] at hle
    have h1 := Finset.card_union_le s.log.lh.toFinset held
    have h2 := List.toFinset_card_le s.log.lh
    omega

theorem congr (h : HoldsBuffers s held) (hbuf : t.buf = s.buf) : HoldsBuffers t held := by
  obtain ⟨h1, h2, h3⟩ := h
  rw [← hbuf] at h1 h2 h3
  exact ⟨h1, h2, h3⟩

/-- The buffers keep their blocks. -/
theorem setBuf (h : HoldsBuffers s held) {r : Buf} (hb : r.blockno = (s.buf i).blockno)
    (hr : r.refcnt = (s.buf i).refcnt) (hv : r.valid = (s.buf i).valid)
    (hd : r.dirty = true → r.blockno ≠ none) : HoldsBuffers (s.setBuf i r) held := by
  have hsame : ∀ j, ((s.setBuf i r).buf j).blockno = (s.buf j).blockno ∧
      ((s.setBuf i r).buf j).refcnt = (s.buf j).refcnt ∧
      ((s.setBuf i r).buf j).valid = (s.buf j).valid := by
    intro j
    by_cases hj : j = i
    · rw [hj, Machine.setBuf_self]
      exact ⟨hb, hr, hv⟩
    · rw [Machine.setBuf_ne _ _ _ _ hj]
      exact ⟨rfl, rfl, rfl⟩
  refine ⟨?_, ?_, ?_⟩
  · intro b' hb'
    obtain ⟨j, h1, h2, h3⟩ := h.buf b' hb'
    refine ⟨j, ?_⟩
    rw [(hsame j).1, (hsame j).2.1, (hsame j).2.2]
    exact ⟨h1, h2, h3⟩
  · intro j hj
    rw [(hsame j).2.1] at hj
    rw [(hsame j).1]
    exact h.free j hj
  · intro j hj
    by_cases hji : j = i
    · rw [hji, Machine.setBuf_self] at hj ⊢
      exact hd hj
    · rw [Machine.setBuf_ne _ _ _ _ hji] at hj ⊢
      exact h.dirty j hj

theorem read (h : HoldsBuffers s held) (hr : Read s σ b i t) : HoldsBuffers t (insert b held) := by
  refine ⟨?_, ?_, ?_⟩
  · intro b' hb'
    rcases Finset.mem_insert.mp hb' with rfl | hb'
    · exact ⟨i, hr.blockno, hr.refcnt, hr.valid⟩
    · obtain ⟨j, h1, h2, h3⟩ := h.buf b' hb'
      refine ⟨j, ?_⟩
      rw [(hr.keep h2).2]
      exact ⟨h1, h2, h3⟩
  · intro j hj
    by_cases hji : j = i
    · rw [hji]
      exact ⟨b, Finset.mem_insert_self _ _, hr.blockno⟩
    · rw [hr.keep_ne hji] at hj ⊢
      obtain ⟨b', hb', hblock⟩ := h.free j hj
      exact ⟨b', Finset.mem_insert_of_mem hb', hblock⟩
  · intro j hj
    by_cases hji : j = i
    · rw [hji, hr.blockno]
      exact Option.some_ne_none b
    · rw [hr.keep_ne hji] at hj ⊢
      exact h.dirty j hj

theorem released (h : HoldsBuffers s held) (hl : LogInv A s σ) (hi : (s.buf i).blockno = some b)
    (hr : (s.buf i).refcnt = 1) : HoldsBuffers (s.released i) (held.erase b) := by
  have hbuf := Machine.released_buf s i
  have hne : ∀ j, j ≠ i → (s.released i).buf j = s.buf j := by
    intro j hj
    rw [hbuf, Machine.setBuf_ne _ _ _ _ hj]
  have hself : (s.released i).buf i = { s.buf i with refcnt := (s.buf i).refcnt - 1 } := by
    rw [hbuf, Machine.setBuf_self]
  refine ⟨?_, ?_, ?_⟩
  · intro b' hb'
    obtain ⟨hne', hb'⟩ := Finset.mem_erase.mp hb'
    obtain ⟨j, h1, h2, h3⟩ := h.buf b' hb'
    have hji : j ≠ i := by
      rintro rfl
      rw [hi] at h1
      cases h1
      exact hne' rfl
    refine ⟨j, ?_⟩
    rw [hne j hji]
    exact ⟨h1, h2, h3⟩
  · intro j hj
    have hji : j ≠ i := by
      rintro rfl
      rw [hself, hr] at hj
      exact hj rfl
    rw [hne j hji] at hj ⊢
    obtain ⟨b', hb', hblock⟩ := h.free j hj
    refine ⟨b', Finset.mem_erase.mpr ⟨?_, hb'⟩, hblock⟩
    rintro rfl
    exact hji (hl.sees.uniq j i b' hblock hi)
  · intro j hj
    by_cases hji : j = i
    · rw [hji, hself] at hj ⊢
      exact h.dirty i hj
    · rw [hne j hji] at hj ⊢
      exact h.dirty j hj

/-- The buffer that the operation finds again. -/
theorem held_eq (h : HoldsBuffers s held) (hl : LogInv A s σ) (hb : b ∈ held) :
    ∃ i, s.held b = some i ∧ (s.buf i).blockno = some b ∧ (s.buf i).refcnt = 1 ∧
      (s.buf i).valid = true := by
  obtain ⟨i, h1, h2, h3⟩ := h.buf b hb
  refine ⟨i, ?_, h1, h2, h3⟩
  have hcached : s.cached b = some i := by
    cases hc : s.cached b with
    | some j =>
      have hj : (s.buf j).blockno = some b := by simpa using List.find?_some hc
      rw [hl.sees.uniq j i b hj h1]
    | none =>
      have hnone := List.find?_eq_none.mp hc i (hl.sees.order i)
      simp [h1] at hnone
  unfold Machine.held
  rw [hcached, Option.filter_some, if_pos]
  simp [h2, h3]

end HoldsBuffers

/-- Nothing stops an operation that holds at most `N` buffers, when the blocks in the log and
those that it logs leave `N` buffers over and do not fill the log. -/
theorem run_total {C : Machine → Prop} {p : Op α} {H : Panic → Prop} {W : Nat → Prop}
    {post : α → Contents → Prop} {end_ : α → Finset Nat → Contents → Prop}
    (hW : ∀ b, W b → A.Home b) (hs : LogInv A s σ) (h : p.wp H W post σ)
    (hn : p.nests N held end_ σ) (hheld : HoldsBuffers s held) (hout : 1 ≤ s.log.outstanding)
    (hroom : (s.log.lh.toFinset ∪ p.logs σ).card + N ≤ NBUF)
    (hlog : (s.log.lh.toFinset ∪ p.logs σ).card + 2 ≤ min A.size (LOGSIZE + 1)) :
    Crash.wp False C p.run (fun r t => t.disk = s.disk ∧ match r with
      | .ok a => ∃ τ, p.exec σ = .ok (a, τ) ∧ post a τ ∧ LogInv A t τ
      | .error e => p.exec σ = .error e ∧ H e) s := by
  have hlen : s.log.lh.length ≤ (s.log.lh.toFinset ∪ p.logs σ).card := by
    rw [← List.toFinset_card_of_nodup hs.lh.nodup]
    exact Finset.card_le_card Finset.subset_union_left
  induction p generalizing s σ held with
  | done a => exact Crash.wp_pure ⟨rfl, σ, rfl, wp_result (a := a) h rfl, hs⟩
  | panic e =>
    rcases exec_of_wp h with ⟨a, τ, hexec, -⟩ | ⟨e', hexec, he⟩
    · cases hexec
    · cases hexec
      exact Crash.wp_pure ⟨rfl, rfl, he⟩
  | bread b k ih =>
    obtain ⟨hb, hnot, hcard, hrest⟩ := hn
    have hready := hheld.ready hs hb hnot (by omega)
    refine Crash.wp_seq (bread_spec hs.sees (Or.inr hready)) fun i t hr => ?_
    refine Crash.wp_bind (Crash.wp_get ?_)
    have hsame := hr.same
    rw [hr.data, ← hr.disk]
    refine ih (σ b) (hs.read hr) (wp_bread_iff.mp h) hrest (hheld.read hr) ?_ ?_ ?_ ?_
    · rw [hsame.log]
      exact hout
    · rw [hsame.log]
      exact hroom
    · rw [hsame.log]
      exact hlog
    · rw [hsame.log]
      exact hlen
  | logWrite b f k ih =>
    obtain ⟨hb, hrest⟩ := hn
    obtain ⟨hWb, hk⟩ := wp_logWrite_iff.mp h
    obtain ⟨i, hfound, hi, href, hv⟩ := hheld.held_eq hs hb
    have hdata := hs.sees.buf i b hi hv
    have hlogs : (Op.logWrite b f k).logs σ = insert b (k.logs (Function.update σ b (f (σ b)))) := rfl
    have hcheck : s.log.writeCheck = none := by
      have hsize := hs.size
      unfold Log.writeCheck
      rw [hsize, if_neg (by omega), if_neg (by omega)]
    refine Crash.wp_bind (Crash.wp_get ?_)
    rw [hfound]
    dsimp only
    rw [hdata]
    refine overwriteLog_spec hs (hW b hWb) hi hv (Or.inr hcheck) fun hl => ?_
    have hlh : (s.logged i b (f (σ b))).log = s.log.absorb b := rfl
    have hsub : (s.log.absorb b).lh.toFinset ∪ k.logs (Function.update σ b (f (σ b))) ⊆
        s.log.lh.toFinset ∪ (Op.logWrite b f k).logs σ := by
      rw [hlogs]
      intro x hx
      rw [Finset.mem_union, List.mem_toFinset, Log.absorb_lh] at hx
      rw [Finset.mem_union, List.mem_toFinset, Finset.mem_insert]
      rcases hx with hx | hx
      · split_ifs at hx
        · exact Or.inl hx
        · rcases List.mem_append.mp hx with hx | hx
          · exact Or.inl hx
          · exact Or.inr (Or.inl (List.mem_singleton.mp hx))
      · exact Or.inr (Or.inr hx)
    have hcard := Finset.card_le_card hsub
    have hset : HoldsBuffers (s.setBuf i { s.buf i with data := f (σ b), dirty := true }) held := by
      refine hheld.setBuf ?_ ?_ ?_ fun _ => ?_
      · rfl
      · rfl
      · rfl
      rw [hi]
      exact Option.some_ne_none b
    have hholds : HoldsBuffers (s.logged i b (f (σ b))) held := hset.congr rfl
    refine ih hl hk hrest hholds ?_ ?_ ?_ ?_
    · rw [hlh, Log.absorb_outstanding]
      exact hout
    · rw [hlh]
      omega
    · rw [hlh]
      omega
    · rw [hlh, ← List.toFinset_card_of_nodup (hlh ▸ hl.lh.nodup)]
      exact Finset.card_le_card Finset.subset_union_left
  | brelse b k ih =>
    obtain ⟨hb, hrest⟩ := hn
    obtain ⟨i, hfound, hi, href, hv⟩ := hheld.held_eq hs hb
    have hsame := Same.released s i
    refine Crash.wp_bind (Crash.wp_get ?_)
    rw [hfound, ← Machine.released_disk s i]
    refine Crash.wp_bind (brelse_spec ?_)
    refine ih (hs.released i) (wp_brelse_iff.mp h) hrest (hheld.released hs hi href) ?_ ?_ ?_ ?_
    · rw [hsame.log]
      exact hout
    · rw [hsame.log]
      exact hroom
    · rw [hsame.log]
      exact hlog
    · rw [hsame.log]
      exact hlen

-- Only the rules above look into `nests`.
attribute [irreducible] Op.nests

/-! ### The functions of fs.c -/

section Functions

variable {T : AddrTable} {ip : Inode}

/-- The blocks that are held are data blocks in use. -/
def AllLive (sb : Superblock) (σ : Contents) (held : Finset Nat) : Prop := ∀ b ∈ held, Live sb σ b

theorem Live.lt_FSSIZE (h : Live sb σ b) : b < FSSIZE := Nat.lt_of_lt_of_le h.2.1 sb.size_le

theorem bzero_nests (hb : b < FSSIZE) (hnot : b ∉ held) (hcard : held.card < N) :
    (bzero b).nests N held (fun _ h _ => h = held) σ := by
  refine nests_bread hb hnot hcard (nests_logWrite (Finset.mem_insert_self _ _) ?_)
  exact nests_release (Finset.mem_insert_self _ _) (Finset.erase_insert hnot)

theorem ballocFrom_nests (bs : List Nat) (hbs : ∀ b ∈ bs, b < sb.size ∧ b % BPB = 0)
    (hlive : AllLive sb σ held) (hcard : held.card < N) :
    (ballocFrom sb bs).nests N held (fun _ h _ => h = held) σ := by
  induction bs with
  | nil => exact nests_panic
  | cons b bs ih =>
    obtain ⟨hb, hmod⟩ := hbs b List.mem_cons_self
    have hlow := Superblock.bblock_lt hb
    have hdata : sb.datastart ≤ sb.size := sb.bitmap_le
    have hsize := sb.size_le
    have hnot : sb.bblock b ∉ held := fun hc => absurd (hlive _ hc).1 (by omega)
    refine nests_bread (by omega) hnot hcard ?_
    cases hf : firstClear (σ (sb.bblock b)) (min BPB (sb.size - b)) with
    | some bi =>
      obtain ⟨hlt, hclear⟩ := firstClear_some hf
      have hbit : bit sb σ (b + bi) = false := by
        obtain ⟨k, hk⟩ : ∃ k, b = k * BPB :=
          ⟨b / BPB, by rw [Nat.div_mul_cancel (Nat.dvd_of_mod_eq_zero hmod)]⟩
        unfold bit
        rw [hk, bblock_add (by omega), add_mod_BPB (by omega), ← hk]
        exact hclear
      have hfresh : b + bi ∉ held := by
        intro hc
        rw [(hlive _ hc).2.2] at hbit
        cases hbit
      refine nests_logWrite (Finset.mem_insert_self _ _)
        (nests_brelse (Finset.mem_insert_self _ _) ?_)
      rw [Finset.erase_insert hnot]
      exact nests_bind (nests_mono (bzero_nests (by omega) hfresh hcard) fun _ _ _ h => nests_pure h)
    | none =>
      refine nests_brelse (Finset.mem_insert_self _ _) ?_
      rw [Finset.erase_insert hnot]
      exact ih fun c hc => hbs c (List.mem_cons_of_mem _ hc)

theorem balloc_nests (hlive : AllLive sb σ held) (hcard : held.card < N) :
    (balloc sb).nests N held (fun _ h _ => h = held) σ := by
  refine ballocFrom_nests _ ?_ hlive hcard
  intro b hb
  obtain ⟨k, hk, rfl⟩ := List.mem_map.mp hb
  have hB : BPB = 4096 := rfl
  have hk' := List.mem_range.mp hk
  rw [hB] at hk' ⊢
  omega

theorem slot_nests (k : Fin 9) (hN : 0 < N) :
    (slot sb ip k).nests N ∅ (fun _ h _ => h = ∅) σ := by
  unfold slot
  split_ifs
  · have hempty : AllLive sb σ ∅ := fun b hb => absurd hb (Finset.notMem_empty b)
    exact nests_bind (nests_mono (balloc_nests hempty hN) fun _ _ _ h => nests_pure h)
  · exact nests_pure rfl

theorem entry_nests {w j : Nat} (hlive : AllLive sb σ held) (hw : Live sb σ w) (hnot : w ∉ held)
    (hcard : held.card + 1 < N) :
    (entry sb w j).nests N held (fun _ h _ => h = insert w held) σ := by
  refine nests_bread hw.lt_FSSIZE hnot (by omega) ?_
  split_ifs
  · have hall : AllLive sb σ (insert w held) := by
      intro b hb
      rcases Finset.mem_insert.mp hb with rfl | hb
      · exact hw
      · exact hlive b hb
    have hgrow := Finset.card_insert_le w held
    refine nests_bind (nests_mono (balloc_nests hall (by omega)) ?_)
    rintro x h τ rfl
    exact nests_logWrite (Finset.mem_insert_self _ _) (nests_pure rfl)
  · exact nests_pure rfl

/-- The indirect blocks on the way to a place. -/
def above (T : AddrTable) (σ : Contents) (r : Nat × Fin 9) : List (Fin 128) → Finset Nat
  | [] => ∅
  | _ :: js => insert (blockAt T σ (r, js)) (above T σ r js)

variable {r : Nat × Fin 9} {js : List (Fin 128)} {j : Fin 128}

theorem mem_above (h : b ∈ above T σ r js) :
    ∃ ks, ks <:+ js ∧ ks ≠ js ∧ b = blockAt T σ (r, ks) := by
  induction js with
  | nil => exact absurd h (Finset.notMem_empty b)
  | cons j js ih =>
    rcases Finset.mem_insert.mp h with rfl | h
    · exact ⟨js, List.suffix_cons j js, (List.cons_ne_self j js).symm, rfl⟩
    · obtain ⟨ks, hks, hne, rfl⟩ := ih h
      refine ⟨ks, hks.trans (List.suffix_cons j js), ?_, rfl⟩
      rintro rfl
      have hle := hks.length_le
      rw [List.length_cons] at hle
      omega

theorem card_above (T : AddrTable) (σ : Contents) (r : Nat × Fin 9) (js : List (Fin 128)) :
    (above T σ r js).card ≤ js.length := by
  induction js with
  | nil => exact Nat.le_refl 0
  | cons j js ih =>
    have h := Finset.card_insert_le (blockAt T σ (r, js)) (above T σ r js)
    rw [List.length_cons]
    exact h.trans (Nat.succ_le_succ ih)

theorem valid_suffix {ks : List (Fin 128)} (hks : ks <:+ js) (hv : (shape sb).Valid (r, js)) :
    (shape sb).Valid (r, ks) := ⟨hv.1, Nat.le_trans hks.length_le hv.2⟩

/-- The blocks above a block are in use, and are others. -/
theorem above_live (h : Consistent sb T σ) (hv : (shape sb).Valid (r, js))
    (h0 : blockAt T σ (r, js) ≠ 0) :
    AllLive sb σ (above T σ r js) ∧ blockAt T σ (r, js) ∉ above T σ r js := by
  constructor
  · intro b hb
    obtain ⟨ks, hks, -, rfl⟩ := mem_above hb
    exact h.live (valid_suffix hks hv) (ref_suffix_ne_zero h0 hks)
  · intro hb
    obtain ⟨ks, hks, hne, heq⟩ := mem_above hb
    refine h.owns.ref_ne hv (valid_suffix hks hv) h0 ?_ heq
    intro hc
    exact hne (congrArg Prod.snd hc).symm

theorem above_keep {S : Finset Place} {D : Place → Nat → Prop} {T' : AddrTable}
    (h : Extends sb S D T σ T' τ) (hv : (shape sb).Valid (r, js))
    (h0 : ∀ ks, ks <:+ js → ks ≠ js → blockAt T σ (r, ks) ≠ 0) :
    above T' τ r js = above T σ r js := by
  induction js with
  | nil => rfl
  | cons j js ih =>
    have hsuf := List.suffix_cons j js
    have hhead := h0 js hsuf (List.cons_ne_self j js).symm
    have hrest : above T' τ r js = above T σ r js := by
      apply ih (valid_suffix hsuf hv)
      intro ks hks _
      exact ref_suffix_ne_zero hhead hks
    show insert _ _ = insert _ _
    rw [hrest, h.keep _ (valid_suffix hsuf hv) hhead]

/-- `bmap` goes from a block to the one below it, and holds all on the way. -/
theorem entry_above {D : Place → Nat → Prop} {w : Nat} (h : Consistent sb T σ)
    (hin : (shape sb).Inner (r, js)) (hw : blockAt T σ (r, js) = w) (hw0 : w ≠ 0)
    (hN : js.length + 1 < N) {γ : Type} {k : Nat → Op γ}
    {post : γ → Finset Nat → Contents → Prop}
    (hk : ∀ addr τ, Extends sb {((r, j :: js) : Place)} D T σ T τ →
      blockAt T τ (r, j :: js) = addr → addr ≠ 0 → (k addr).nests N (above T τ r (j :: js)) post τ) :
    (entry sb w j >>= k).nests N (above T σ r js) post σ := by
  have h0 : blockAt T σ (r, js) ≠ 0 := by
    rw [hw]
    exact hw0
  obtain ⟨hlive, hnot⟩ := above_live h hin.valid h0
  have hcard := card_above T σ r js
  rw [hw] at hnot
  have hself := h.live hin.valid h0
  rw [hw] at hself
  have hspec := entry_spec (H := fun _ => True) (D := D) h hin hw hw0
    (S := {((r, j :: js) : Place)}) (by
      intro p hp
      rw [Finset.mem_singleton.mp hp]
      exact hin.cons j) (Finset.mem_singleton_self _) (Or.inl trivial)
  refine nests_seq (entry_nests hlive hself hnot (by omega)) hspec ?_
  rintro addr _ τ rfl ⟨hext, hat, hne, -⟩
  have hkeep : above T τ r (j :: js) = insert w (above T σ r js) := by
    rw [above_keep hext (hin.cons j)]
    · show insert _ _ = _
      rw [hw]
    · intro ks hks hne'
      rcases List.suffix_cons_iff.mp hks with rfl | hks
      · exact absurd rfl hne'
      · exact ref_suffix_ne_zero h0 hks
  have hrest := hk addr τ hext hat hne
  rw [hkeep] at hrest
  exact hrest

/-- What is held on the way is released from below. -/
theorem brelse_above {γ : Type} {k : Unit → Op γ} {post : γ → Finset Nat → Contents → Prop}
    {w : Nat} (h : Consistent sb T σ) (hv : (shape sb).Valid (r, js)) (hw : blockAt T σ (r, js) = w)
    (hw0 : w ≠ 0) (hk : (k ()).nests N (above T σ r js) post σ) :
    (brelse w >>= k).nests N (above T σ r (j :: js)) post σ := by
  have h0 : blockAt T σ (r, js) ≠ 0 := by
    rw [hw]
    exact hw0
  obtain ⟨-, hnot⟩ := above_live h hv h0
  refine nests_brelse ?_ ?_
  · rw [← hw]
    exact Finset.mem_insert_self _ _
  · rw [← hw]
    show (k ()).nests N ((insert _ _ : Finset Nat).erase _) post σ
    rw [Finset.erase_insert hnot]
    exact hk

/-- The slot of the inode is the first step. -/
theorem slot_above {k : Fin 9} (h : Consistent sb T σ) (hT : T ip.inum = ip.addrs)
    (hi : ip.inum < sb.ninodes) (hN : 0 < N) {γ : Type} {f : Nat × Inode → Op γ}
    {post : γ → Finset Nat → Contents → Prop}
    (hf : ∀ w a T' τ, Consistent sb T' τ → blockAt T' τ ((ip.inum, k), []) = w → w ≠ 0 →
      (f (w, { ip with addrs := a })).nests N ∅ post τ) :
    (slot sb ip k >>= f).nests N ∅ post σ := by
  have hspec := slot_spec (H := fun _ => True) (D := fun _ _ => False) (k := k)
    (S := {(((ip.inum, k), []) : Place)}) h hT hi (by
      intro p hp
      rw [Finset.mem_singleton.mp hp]
      exact ⟨hi, Nat.zero_le _⟩) (Finset.mem_singleton_self _) (Or.inl trivial)
  refine nests_seq (slot_nests k hN) hspec ?_
  rintro ⟨w, ip'⟩ _ τ rfl ⟨a, rfl, hext, hat, hne, -⟩
  exact hf w a _ τ hext.consistent hat hne

/-- `bmap` holds at most three indirect blocks, and one more for `balloc`. -/
theorem bmap_nests {bn : Nat} (h : Consistent sb T σ) (hT : T ip.inum = ip.addrs)
    (hi : ip.inum < sb.ninodes) (hbn : bn < MAXFILE) (hN : 4 ≤ N) :
    (bmap sb ip bn).nests N ∅ (fun _ held _ => held = ∅) σ := by
  rw [MAXFILE_eq] at hbn
  have e1 : NDIRECT = 6 := rfl
  have e2 : NINDIRECT = 128 := rfl
  unfold bmap
  by_cases h1 : bn < NDIRECT
  · rw [if_pos h1]
    exact slot_nests _ (by omega)
  rw [if_neg h1]
  dsimp only
  by_cases h2 : bn - NDIRECT < NINDIRECT
  · obtain ⟨j, -, hj⟩ := path_single bn (by omega) (by omega)
    rw [if_pos h2, e1, hj]
    refine slot_above h hT hi (by omega) fun bp a T' τ hc hat hne => ?_
    have hin : (shape sb).Inner (((ip.inum, 6), []) : Place) := ⟨hi, Nat.zero_lt_one⟩
    refine entry_above (D := fun _ _ => False) hc hin hat hne (by rw [List.length_nil]; omega) ?_
    intro addr τ1 hext1 _ _
    have hkeep := hext1.keep _ hin.valid (by rw [hat]; exact hne)
    exact brelse_above hext1.consistent hin.valid (hkeep.trans hat) hne (nests_pure rfl)
  rw [if_neg h2]
  by_cases h3 : bn - NDIRECT - NINDIRECT < NDINDIRECT
  · have e3 : NDINDIRECT = 16384 := rfl
    obtain ⟨j, d, -, hj, hd⟩ := path_double bn (by omega) (by omega)
    rw [if_pos h3, e1, e2, hj, hd]
    refine slot_above h hT hi (by omega) fun dbp a T' τ hc hat hne => ?_
    have hin : (shape sb).Inner (((ip.inum, 7), []) : Place) := ⟨hi, Nat.zero_lt_succ 1⟩
    have hin1 : (shape sb).Inner (((ip.inum, 7), [d]) : Place) := ⟨hi, Nat.lt_succ_self 1⟩
    refine entry_above (D := fun _ _ => False) hc hin hat hne (by rw [List.length_nil]; omega) ?_
    intro bp τ1 hext1 hat1 hne1
    refine entry_above (D := fun _ _ => False) hext1.consistent hin1 hat1 hne1
      (by rw [List.length_singleton]; omega) ?_
    intro addr τ2 hext2 _ _
    have hkeep1 := (hext2.keep _ hin1.valid (by rw [hat1]; exact hne1)).trans hat1
    have hkeep := (hext1.keep _ hin.valid (by rw [hat]; exact hne)).trans hat
    have hkeep2 := (hext2.keep _ hin.valid (by rw [hkeep]; exact hne)).trans hkeep
    exact brelse_above hext2.consistent hin1.valid hkeep1 hne1
      (brelse_above hext2.consistent hin.valid hkeep2 hne (nests_pure rfl))
  rw [if_neg h3]
  have e3 : NDINDIRECT = 16384 := rfl
  have e4 : NTINDIRECT = 2097152 := rfl
  have h4 : bn - NDIRECT - NINDIRECT - NDINDIRECT < NTINDIRECT := by omega
  obtain ⟨j, d, t, -, hj, hd, ht⟩ := path_triple bn (by omega) (by omega)
  rw [if_pos h4, e1, e2, e3, hj, hd, ht]
  refine slot_above h hT hi (by omega) fun tbp a T' τ hc hat hne => ?_
  have hin : (shape sb).Inner (((ip.inum, 8), []) : Place) := ⟨hi, Nat.zero_lt_succ 2⟩
  have hin1 : (shape sb).Inner (((ip.inum, 8), [t]) : Place) :=
    ⟨hi, Nat.succ_lt_succ (Nat.zero_lt_succ 1)⟩
  have hin2 : (shape sb).Inner (((ip.inum, 8), [d, t]) : Place) := ⟨hi, Nat.lt_succ_self 2⟩
  refine entry_above (D := fun _ _ => False) hc hin hat hne (by rw [List.length_nil]; omega) ?_
  intro dbp τ1 hext1 hat1 hne1
  refine entry_above (D := fun _ _ => False) hext1.consistent hin1 hat1 hne1
    (by rw [List.length_singleton]; omega) ?_
  intro bp τ2 hext2 hat2 hne2
  refine entry_above (D := fun _ _ => False) hext2.consistent hin2 hat2 hne2
    (by simp only [List.length_cons, List.length_nil]; omega) ?_
  intro addr τ3 hext3 _ _
  have hkeep2 := (hext3.keep _ hin2.valid (by rw [hat2]; exact hne2)).trans hat2
  have hkeep1 := (hext2.keep _ hin1.valid (by rw [hat1]; exact hne1)).trans hat1
  have hkeep1' := (hext3.keep _ hin1.valid (by rw [hkeep1]; exact hne1)).trans hkeep1
  have hkeep := (hext1.keep _ hin.valid (by rw [hat]; exact hne)).trans hat
  have hkeep' := (hext2.keep _ hin.valid (by rw [hkeep]; exact hne)).trans hkeep
  have hkeep'' := (hext3.keep _ hin.valid (by rw [hkeep']; exact hne)).trans hkeep'
  exact brelse_above hext3.consistent hin2.valid hkeep2 hne2
    (brelse_above hext3.consistent hin1.valid hkeep1' hne1
      (brelse_above hext3.consistent hin.valid hkeep'' hne (nests_pure rfl)))

theorem iupdate_nests (hi : ip.inum < sb.ninodes) (hN : 0 < N) :
    (iupdate sb ip).nests N ∅ (fun _ held _ => held = ∅) σ := by
  have h1 := Superblock.iblock_lt hi
  have h2 := sb.bmapstart_lt_datastart
  have h3 : sb.datastart ≤ sb.size := sb.bitmap_le
  have h4 := sb.size_le
  refine nests_bread (by omega) (Finset.notMem_empty _) hN
    (nests_logWrite (Finset.mem_insert_self _ _) ?_)
  exact nests_release (Finset.mem_insert_self _ _) (Finset.erase_insert (Finset.notMem_empty _))

theorem writeLoop_nests (turns : Nat) {src : List Byte} {off r : Nat} (h : Consistent sb T σ)
    (hT : T ip.inum = ip.addrs) (hi : ip.inum < sb.ninodes) (hmax : off + r ≤ MAXFILE * BSIZE)
    (hlen : src.length = r) (hN : 4 ≤ N) :
    (writeLoop sb turns ip src off r).nests N ∅ (fun _ held _ => held = ∅) σ := by
  induction turns generalizing T σ ip src off r with
  | zero => exact nests_pure rfl
  | succ turns ih =>
    unfold writeLoop
    by_cases hr0 : r = 0
    · rw [if_pos hr0]
      exact nests_pure rfl
    rw [if_neg hr0]
    have hbn : off / BSIZE < MAXFILE := by
      have hmax' : off + r ≤ MAXFILE * 512 := hmax
      show off / 512 < MAXFILE
      omega
    let S := (branch ip.inum (off / BSIZE)).toFinset
    have hS : ∀ p ∈ S, (shape sb).Valid p := fun p hp =>
      valid_of_mem_branch hi (List.mem_toFinset.mp hp)
    refine nests_seq (bmap_nests h hT hi hbn hN) (bmap_spec (H := fun _ => True)
      (D := fun _ _ => False) h hT hi hS (fun p hp => List.mem_toFinset.mpr hp) hbn
      (Or.inl trivial)) ?_
    rintro ⟨addr, ip1⟩ _ σ1 rfl ⟨hip1, hext1, hat1, h01, -⟩
    dsimp only at hip1 hext1 hat1 h01 ⊢
    have hinum : ip1.inum = ip.inum := by rw [hip1]
    have hB := BSIZE_eq
    have hleaf : Leaf sb (place ip.inum (off / BSIZE)) := leaf_place hi _
    have hlive := hext1.consistent.live hleaf.valid (by rw [hat1]; exact h01)
    rw [hat1] at hlive
    have hmap := hext1.consistent.sameMap_leaf hleaf (by rw [hat1]; exact h01)
      (patch (σ1 addr) (off % BSIZE) (src.take (min r (BSIZE - off % BSIZE))))
    rw [hat1] at hmap
    refine nests_bread hlive.lt_FSSIZE (Finset.notMem_empty _) (by rw [Finset.card_empty]; omega)
      (nests_logWrite (Finset.mem_insert_self _ _) (nests_brelse (Finset.mem_insert_self _ _) ?_))
    rw [Finset.erase_insert (Finset.notMem_empty _)]
    refine ih (hmap.consistent hext1.consistent) ?_ (by rw [hinum]; exact hi) ?_ ?_
    · rw [hinum, Function.update_self]
    · omega
    · rw [List.length_drop]
      omega

theorem writei_nests (devsw : Fin NDEV → Devsw) {src : List Byte} {off n : BitVec 32}
    (h : Consistent sb T σ) (hT : T ip.inum = ip.addrs) (hi : ip.inum < sb.ninodes)
    (hmax : off.toNat + n.toNat ≤ MAXFILE * BSIZE) (hlen : src.length = n.toNat) (hN : 4 ≤ N) :
    (writei sb devsw ip src off n).nests N ∅ (fun _ held _ => held = ∅) σ := by
  unfold writei
  split_ifs
  · split <;> exact nests_pure rfl
  · exact nests_pure rfl
  · exact nests_pure rfl
  · have hloop := writeLoop_nests n.toNat h hT hi hmax hlen hN
    have hinum : (writeLoop sb n.toNat ip src off.toNat n.toNat).wp (fun _ => True) sb.Logged
        (fun ip' _ => ip'.inum = ip.inum) σ := by
      refine wp_mono (writeLoop_spec (S := touched ip.inum off.toNat n.toNat) n.toNat h hT hi
        (Nat.le_refl _) hlen hmax (fun p hp => valid_touched hi hp)
        (fun o ho ho' p hp => mem_touched ho ho' hp) (Or.inl trivial)) ?_
      intro ip' τ hw
      rw [hw.inode]
    refine nests_seq hloop hinum ?_
    rintro ip' _ τ rfl heq
    dsimp only
    split_ifs
    · refine nests_bind (nests_mono (iupdate_nests ?_ (by omega)) ?_)
      · show ip'.inum < sb.ninodes
        rw [heq]
        exact hi
      · rintro _ held τ' rfl
        exact nests_pure rfl
    · exact nests_pure rfl

end Functions

end Xv6.Fs
