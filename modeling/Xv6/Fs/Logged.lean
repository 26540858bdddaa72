import Xv6.Fs.Write

/-!
# What an operation passes to log_write

`logs` gives the block numbers, and `Does` an outcome together with them. `balloc`
takes the head of `freeList`, and logs the new block and its bitmap block.
-/

namespace Xv6.Fs
open Buffer Forest

namespace Op

variable {α β : Type}

def logs : Op α → Contents → Finset Nat
  | done _, _ => ∅
  | panic _, _ => ∅
  | bread b k, σ => (k (σ b)).logs σ
  | logWrite b f k, σ => insert b (k.logs (Function.update σ b (f (σ b))))
  | brelse _ k, σ => k.logs σ

end Op

/-- The operation returns `a` with the contents `τ`, and has logged the blocks `bs`. -/
structure Does {α : Type} (p : Op α) (σ : Contents) (a : α) (τ : Contents) (bs : Finset Nat) :
    Prop where
  exec : p.exec σ = .ok (a, τ)
  logs : p.logs σ = bs

section Rules

variable {α β : Type} {σ τ υ : Contents} {a : α} {c : β} {bs cs : Finset Nat}

theorem Does.pure (a : α) (σ : Contents) : Does (pure a) σ a σ ∅ := ⟨rfl, rfl⟩

theorem Does.bread {b : Nat} {k : Block → Op α} (h : Does (k (σ b)) σ a τ bs) :
    Does (bread b >>= k) σ a τ bs := ⟨h.exec, h.logs⟩

theorem Does.brelse {b : Nat} {k : Unit → Op α} (h : Does (k ()) σ a τ bs) :
    Does (brelse b >>= k) σ a τ bs := ⟨h.exec, h.logs⟩

theorem Does.logWrite {b : Nat} {f : Block → Block} {k : Unit → Op α}
    (h : Does (k ()) (Function.update σ b (f (σ b))) a τ bs) :
    Does (logWrite b f >>= k) σ a τ (insert b bs) := ⟨h.exec, congrArg (insert b) h.logs⟩

theorem Does.seq {p : Op α} {k : α → Op β} (h : Does p σ a τ bs) (hk : Does (k a) τ c υ cs) :
    Does (p >>= k) σ c υ (bs ∪ cs) := by
  show Does (p.bind k) σ c υ (bs ∪ cs)
  obtain ⟨hexec, hlogs⟩ := h
  induction p generalizing σ bs with
  | done x =>
    have hx : x = a ∧ σ = τ := by simpa [Op.exec] using hexec
    obtain ⟨rfl, rfl⟩ := hx
    have hbs : bs = ∅ := hlogs.symm
    rw [hbs, Finset.empty_union]
    exact hk
  | panic e => cases hexec
  | bread b q ih =>
    obtain ⟨he, hl⟩ := ih (σ b) hexec hlogs
    exact ⟨he, hl⟩
  | logWrite b f q ih =>
    obtain ⟨he, hl⟩ := ih hexec rfl
    refine ⟨he, ?_⟩
    rw [← hlogs]
    show insert b ((q.bind k).logs _) = insert b (q.logs _) ∪ cs
    rw [hl, Finset.insert_union]
  | brelse b q ih =>
    obtain ⟨he, hl⟩ := ih hexec hlogs
    exact ⟨he, hl⟩

theorem exec_bind {p : Op α} (k : α → Op β) (h : p.exec σ = .ok (a, τ)) :
    (p >>= k).exec σ = (k a).exec τ := by
  show (p.bind k).exec σ = _
  induction p generalizing σ with
  | done x =>
    have hx : x = a ∧ σ = τ := by simpa [Op.exec] using h
    rw [← hx.1, ← hx.2]
    rfl
  | panic e => cases h
  | bread b q ih => exact ih (σ b) h
  | logWrite b f q ih => exact ih h
  | brelse b q ih => exact ih h

theorem exec_bind_ok {p : Op α} {k : α → Op β} (h : (p >>= k).exec σ = .ok (c, υ)) :
    ∃ a τ, p.exec σ = .ok (a, τ) ∧ (k a).exec τ = .ok (c, υ) := by
  change (p.bind k).exec σ = _ at h
  induction p generalizing σ with
  | done x => exact ⟨x, σ, rfl, h⟩
  | panic e => cases h
  | bread b q ih => exact ih (σ b) h
  | logWrite b f q ih => exact ih h
  | brelse b q ih => exact ih h

theorem eq_of_not_mem_logs {p : Op α} (h : p.exec σ = .ok (a, τ)) {b : Nat}
    (hb : b ∉ p.logs σ) : τ b = σ b := by
  induction p generalizing σ with
  | done x =>
    have hx : x = a ∧ σ = τ := by simpa [Op.exec] using h
    rw [hx.2]
  | panic e => cases h
  | bread c q ih => exact ih (σ c) h hb
  | logWrite c f q ih =>
    have hmem : b ∉ insert c (q.logs (Function.update σ c (f (σ c)))) := hb
    rw [Finset.mem_insert, not_or] at hmem
    rw [ih h hmem.2, Function.update_of_ne hmem.1]
  | brelse c q ih => exact ih h hb

theorem logged_of_wp {p : Op α} {H : Panic → Prop} {W : Nat → Prop} {post : α → Contents → Prop}
    (h : p.wp H W post σ) {b : Nat} (hb : b ∈ p.logs σ) : W b := by
  induction p generalizing σ with
  | done x => exact absurd hb (Finset.notMem_empty b)
  | panic e => exact absurd hb (Finset.notMem_empty b)
  | bread c q ih =>
    exact ih (σ c) (wp_bread_iff.mp h) hb
  | logWrite c f q ih =>
    obtain ⟨hc, hk⟩ := wp_logWrite_iff.mp h
    rcases Finset.mem_insert.mp hb with heq | hq
    · rw [heq]
      exact hc
    · exact ih hk hq
  | brelse c q ih =>
    exact ih (wp_brelse_iff.mp h) hb

/-- Code that may not log anything has its outcome without changes. -/
theorem does_of_wp {p : Op α} {H : Panic → Prop} {post : α → Contents → Prop}
    (h : p.wp H (fun _ => False) post σ) (hp : p.exec σ = .ok (a, τ)) : Does p σ a σ ∅ := by
  have hlogs : p.logs σ = ∅ := by
    apply Finset.eq_empty_of_forall_notMem
    intro b hb
    exact logged_of_wp h hb
  have hsame : τ = σ := by
    funext b
    apply eq_of_not_mem_logs hp
    rw [hlogs]
    exact Finset.notMem_empty b
  rw [hsame] at hp
  exact ⟨hp, hlogs⟩

end Rules

/-! ### The first free block -/

/-- The free blocks in the order in which `balloc` takes them. -/
def freeList (sb : Superblock) (σ : Contents) : List Nat :=
  (List.range sb.size).filter fun b => !bit sb σ b

variable {sb : Superblock} {σ : Contents} {x : Nat} {xs : List Nat}

theorem mem_freeList {b : Nat} : b ∈ freeList sb σ ↔ b < sb.size ∧ bit sb σ b = false := by
  unfold freeList
  rw [List.mem_filter, List.mem_range, Bool.not_eq_true']

theorem pairwise_freeList (sb : Superblock) (σ : Contents) : (freeList sb σ).Pairwise (· < ·) :=
  List.Pairwise.filter _ List.pairwise_lt_range

theorem length_freeList (sb : Superblock) (σ : Contents) :
    (freeList sb σ).length = freeBlocks sb σ := by
  have hset : (freeList sb σ).toFinset
      = (Finset.range sb.size).filter fun b => bit sb σ b = false := by
    ext b
    rw [List.mem_toFinset, mem_freeList, Finset.mem_filter, Finset.mem_range]
  unfold freeBlocks
  rw [← hset, List.toFinset_card_of_nodup]
  exact (pairwise_freeList sb σ).imp fun h => Nat.ne_of_lt h

theorem freeList_congr {τ : Contents} (h : ∀ b, b < sb.size → bit sb τ b = bit sb σ b) :
    freeList sb τ = freeList sb σ :=
  List.filter_congr fun b hb => by rw [h b (List.mem_range.mp hb)]

theorem marked_of_lt_head (h : freeList sb σ = x :: xs) {y : Nat} (hy : y < x) :
    bit sb σ y = true := by
  have hx : x ∈ freeList sb σ := h ▸ List.mem_cons_self
  have hsize := (mem_freeList.mp hx).1
  by_contra hbit
  have hmem : y ∈ freeList sb σ := mem_freeList.mpr ⟨by omega, Bool.not_eq_true _ ▸ hbit⟩
  have hsorted := pairwise_freeList sb σ
  rw [h] at hmem hsorted
  rcases List.mem_cons.mp hmem with heq | htail
  · omega
  · have hlt := List.rel_of_pairwise_cons hsorted htail
    omega

theorem freeList_allocated (hx : sb.datastart ≤ x) (h : freeList sb σ = x :: xs) :
    freeList sb (allocated sb σ x) = xs := by
  have hfilter : freeList sb (allocated sb σ x) = (freeList sb σ).filter fun b => decide (b ≠ x) := by
    unfold freeList
    rw [List.filter_filter]
    refine List.filter_congr fun b hb => ?_
    rw [bit_allocated hx (List.mem_range.mp hb), Bool.not_or, Bool.and_comm]
    simp
  have hsorted := pairwise_freeList sb σ
  rw [hfilter, h, List.filter_cons_of_neg (by simp), List.filter_eq_self]
  intro b hb
  rw [h] at hsorted
  have hlt := List.rel_of_pairwise_cons hsorted hb
  exact decide_eq_true (Nat.ne_of_gt hlt)

theorem firstClear_eq_some {bp : Block} {n bi : Nat} (hlt : bi < n) (hclear : getBit bp bi = false)
    (hleast : ∀ m, m < bi → getBit bp m = true) : firstClear bp n = some bi := by
  unfold firstClear
  rw [List.find?_range_eq_some]
  refine ⟨by rw [hclear, Bool.not_false], List.mem_range.mpr hlt, fun m hm => ?_⟩
  rw [hleast m hm]
  rfl

theorem firstClear_eq_none {bp : Block} {n : Nat} (hset : ∀ m, m < n → getBit bp m = true) :
    firstClear bp n = none := by
  unfold firstClear
  rw [List.find?_eq_none]
  intro m hm
  rw [hset m (List.mem_range.mp hm)]
  simp

/-- The outer loop passes over full bitmap blocks until the one with the first free bit. -/
theorem ballocFrom_does (bs : List Nat) (hmul : ∀ b ∈ bs, b % BPB = 0)
    (hsorted : bs.Pairwise (· < ·)) (hmem : x / BPB * BPB ∈ bs) (hsize : x < sb.size)
    (hfree : bit sb σ x = false) (hleast : ∀ y, y < x → bit sb σ y = true) :
    Does (ballocFrom sb bs) σ x (allocated sb σ x) {sb.bblock x, x} := by
  have hB : BPB = 4096 := rfl
  have hdm := Nat.div_add_mod x BPB
  induction bs with
  | nil => cases hmem
  | cons b bs ih =>
    refine Does.bread ?_
    obtain ⟨k, rfl⟩ : ∃ k, b = k * BPB :=
      ⟨b / BPB, by rw [Nat.div_mul_cancel (Nat.dvd_of_mod_eq_zero (hmul b List.mem_cons_self))]⟩
    have hbit : ∀ m, m < BPB → bit sb σ (k * BPB + m) = getBit (σ (sb.bblock (k * BPB))) m := by
      intro m hm
      unfold bit
      rw [bblock_add hm, add_mod_BPB hm]
    by_cases hk : x / BPB * BPB = k * BPB
    · have hx : x = k * BPB + x % BPB := by
        rw [← hk, Nat.mul_comm]
        exact hdm.symm
      have hlt := Nat.mod_lt x BPB_pos
      have hfirst : firstClear (σ (sb.bblock (k * BPB))) (min BPB (sb.size - k * BPB))
          = some (x % BPB) := by
        refine firstClear_eq_some (by omega) ?_ fun m hm => ?_
        · rw [← hbit _ hlt, ← hx]
          exact hfree
        · rw [← hbit m (by omega)]
          exact hleast _ (by omega)
      rw [hfirst]
      have hblk : sb.bblock x = sb.bblock (k * BPB) := by
        rw [hx]
        exact bblock_add hlt
      have hall : allocated sb σ x = Function.update (Function.update σ (sb.bblock (k * BPB))
          (setBit (σ (sb.bblock (k * BPB))) (x % BPB))) x fun _ => 0 := by
        unfold allocated
        rw [hblk]
      rw [hall, hblk]
      dsimp only
      rw [← hx]
      refine Does.logWrite (Does.brelse ?_)
      have hzero : Does (bzero x) (Function.update σ (sb.bblock (k * BPB))
          (setBit (σ (sb.bblock (k * BPB))) (x % BPB))) () (Function.update (Function.update σ
          (sb.bblock (k * BPB)) (setBit (σ (sb.bblock (k * BPB))) (x % BPB))) x fun _ => 0) {x} := by
        rw [← insert_empty_eq x]
        exact Does.bread (Does.logWrite ⟨rfl, rfl⟩)
      have hres := hzero.seq (k := fun _ => pure x) (Does.pure x _)
      rw [Finset.union_empty] at hres
      exact hres
    · have htail : x / BPB * BPB ∈ bs := (List.mem_cons.mp hmem).resolve_left hk
      have hlt := List.rel_of_pairwise_cons hsorted htail
      have hnone : firstClear (σ (sb.bblock (k * BPB))) (min BPB (sb.size - k * BPB)) = none := by
        refine firstClear_eq_none fun m hm => ?_
        rw [← hbit m (by omega)]
        refine hleast _ ?_
        -- a multiple of BPB below the one of x
        have hkx : k < x / BPB := Nat.lt_of_mul_lt_mul_right hlt
        have hstep : (k + 1) * BPB ≤ x / BPB * BPB := Nat.mul_le_mul_right _ hkx
        have hexp : (k + 1) * BPB = k * BPB + BPB := Nat.succ_mul k BPB
        have hcomm : BPB * (x / BPB) = x / BPB * BPB := Nat.mul_comm _ _
        omega
      rw [hnone]
      exact Does.brelse (ih (fun c hc => hmul c (List.mem_cons_of_mem _ hc))
        (List.Pairwise.of_cons hsorted) htail)

theorem balloc_does (h : freeList sb σ = x :: xs) :
    Does (balloc sb) σ x (allocated sb σ x) {sb.bblock x, x} := by
  have hB : BPB = 4096 := rfl
  have hx : x ∈ freeList sb σ := h ▸ List.mem_cons_self
  obtain ⟨hsize, hfree⟩ := mem_freeList.mp hx
  refine ballocFrom_does _ ?_ ?_ ?_ hsize hfree fun y hy => marked_of_lt_head h hy
  · intro b hb
    obtain ⟨k, -, rfl⟩ := List.mem_map.mp hb
    exact Nat.mul_mod_left k BPB
  · refine List.Pairwise.map _ (fun a b hab => ?_) List.pairwise_lt_range
    exact Nat.mul_lt_mul_of_pos_right hab BPB_pos
  · refine List.mem_map.mpr ⟨x / BPB, List.mem_range.mpr ?_, rfl⟩
    rw [hB]
    omega

end Xv6.Fs
