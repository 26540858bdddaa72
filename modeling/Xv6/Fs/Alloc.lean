import Xv6.Fs.Layout

/-!
# Block allocation (project3/fs.c:42-95)

`balloc` takes the first block whose bit is clear, `bfree` clears a bit that is set.
-/

namespace Xv6.Fs
open Buffer

variable (sb : Superblock)

def bzero (bno : Nat) : Op Unit := do
  let _ ← bread bno
  logWrite bno fun _ _ => 0
  brelse bno

/-- The inner loop of `balloc`: the first of `n` bits that is clear. -/
def firstClear (bp : Block) (n : Nat) : Option Nat := (List.range n).find? fun bi => !getBit bp bi

-- The outer loop of balloc() over the values of `b` that are left.
def ballocFrom : List Nat → Op Nat
  | [] => .panic .outOfBlocks
  | b :: bs => do
    let bp ← bread (sb.bblock b)
    match firstClear bp (min BPB (sb.size - b)) with
    | some bi => do
      logWrite (sb.bblock b) (setBit · bi)
      brelse (sb.bblock b)
      bzero (b + bi)
      pure (b + bi)
    | none => do
      brelse (sb.bblock b)
      ballocFrom bs

def balloc : Op Nat := ballocFrom sb ((List.range ((sb.size + BPB - 1) / BPB)).map (· * BPB))

def bfree (b : Nat) : Op Unit := do
  let bp ← bread (sb.bblock b)
  if getBit bp (b % BPB) then do
    logWrite (sb.bblock b) (clearBit · (b % BPB))
    brelse (sb.bblock b)
  else .panic .freeingFreeBlock

/-! ### The free map -/

/-- The bit of block `b`. -/
def bit (σ : Contents) (b : Nat) : Bool := getBit (σ (sb.bblock b)) (b % BPB)

/-- The contents after `balloc` returned `x`. -/
def allocated (σ : Contents) (x : Nat) : Contents :=
  Function.update (Function.update σ (sb.bblock x) (setBit (σ (sb.bblock x)) (x % BPB)))
    x fun _ => 0

/-- The contents after `bfree x`. -/
def freed (σ : Contents) (x : Nat) : Contents :=
  Function.update σ (sb.bblock x) (clearBit (σ (sb.bblock x)) (x % BPB))

variable {sb} {σ : Contents} {H : Panic → Prop} {b x : Nat}

theorem BPB_pos : 0 < BPB := by decide

theorem mod_BPB_div_lt (b : Nat) : b % BPB / 8 < BSIZE := by
  have h : b % BPB < 8 * BSIZE := Nat.mod_lt _ BPB_pos
  have hB : BSIZE = 512 := rfl
  omega

theorem bblock_mod_eq (h : sb.bblock b = sb.bblock x) : b % BPB = x % BPB ↔ b = x := by
  refine ⟨fun hm => ?_, fun he => by rw [he]⟩
  have hd : b / BPB = x / BPB := by
    unfold Superblock.bblock at h
    omega
  rw [← Nat.div_add_mod b BPB, ← Nat.div_add_mod x BPB, hd, hm]

theorem bit_congr {τ : Contents} (h : τ (sb.bblock b) = σ (sb.bblock b)) :
    bit sb τ b = bit sb σ b := by
  unfold bit
  rw [h]

theorem allocated_of_ne (hx : b ≠ x) (hb : b ≠ sb.bblock x) : allocated sb σ x b = σ b := by
  unfold allocated
  rw [Function.update_of_ne hx, Function.update_of_ne hb]

theorem allocated_self : allocated sb σ x x = fun _ => 0 := Function.update_self _ _ _

theorem allocated_low (hx : sb.datastart ≤ x) (hb : b < sb.bmapstart) :
    allocated sb σ x b = σ b := by
  have h1 := sb.bmapstart_lt_datastart
  have h2 : sb.bmapstart ≤ sb.bblock x := Superblock.bmapstart_le_bblock x
  exact allocated_of_ne (by omega) (by omega)

theorem allocated_data (hx : x < sb.size) (hb : sb.datastart ≤ b) (hne : b ≠ x) :
    allocated sb σ x b = σ b := by
  have h := Superblock.bblock_lt hx
  exact allocated_of_ne hne (by omega)

theorem bit_allocated (hx : sb.datastart ≤ x) (hb : b < sb.size) :
    bit sb (allocated sb σ x) b = (bit sb σ b || decide (b = x)) := by
  have hlt := Superblock.bblock_lt hb
  unfold bit allocated
  rw [Function.update_of_ne (show sb.bblock b ≠ x by omega)]
  by_cases hbx : sb.bblock b = sb.bblock x
  · rw [hbx, Function.update_self, getBit_setBit _ _ _ (mod_BPB_div_lt x)]
    have hiff := bblock_mod_eq hbx
    simp only [eq_comm, hiff]
  · rw [Function.update_of_ne hbx]
    have hne : b ≠ x := by
      rintro rfl
      exact hbx rfl
    simp [hne]

theorem freed_of_ne (hb : b ≠ sb.bblock x) : freed sb σ x b = σ b := Function.update_of_ne hb _ _

theorem freed_low (hb : b < sb.bmapstart) : freed sb σ x b = σ b := by
  have h : sb.bmapstart ≤ sb.bblock x := Superblock.bmapstart_le_bblock x
  exact freed_of_ne (by omega)

theorem freed_data (hx : x < sb.size) (hb : sb.datastart ≤ b) : freed sb σ x b = σ b := by
  have h := Superblock.bblock_lt hx
  exact freed_of_ne (by omega)

theorem bit_freed : bit sb (freed sb σ x) b = (bit sb σ b && decide (b ≠ x)) := by
  unfold bit freed
  by_cases hbx : sb.bblock b = sb.bblock x
  · rw [hbx, Function.update_self, getBit_clearBit _ _ _ (mod_BPB_div_lt x)]
    have hiff := bblock_mod_eq hbx
    simp only [ne_eq, eq_comm, hiff]
  · rw [Function.update_of_ne hbx]
    have hne : b ≠ x := by
      rintro rfl
      exact hbx rfl
    simp [hne]

/-! ### Specifications -/

theorem firstClear_some {bp : Block} {n bi : Nat} (h : firstClear bp n = some bi) :
    bi < n ∧ getBit bp bi = false := by
  refine ⟨List.mem_range.mp (List.mem_of_find?_eq_some h), ?_⟩
  simpa using List.find?_some h

theorem firstClear_none {bp : Block} {n bi : Nat} (h : firstClear bp n = none) (hbi : bi < n) :
    getBit bp bi = true := by
  simpa using List.find?_eq_none.mp h bi (List.mem_range.mpr hbi)

theorem bblock_add {k bi : Nat} (h : bi < BPB) : sb.bblock (k * BPB + bi) = sb.bblock (k * BPB) := by
  unfold Superblock.bblock
  rw [Nat.mul_comm, Nat.mul_add_div BPB_pos, Nat.div_eq_of_lt h, Nat.mul_div_right _ BPB_pos,
    Nat.add_zero]

theorem add_mod_BPB {k bi : Nat} (h : bi < BPB) : (k * BPB + bi) % BPB = bi := by
  rw [Nat.mul_comm, Nat.mul_add_mod, Nat.mod_eq_of_lt h]

/-- The outer loop, started where all blocks before are in use. -/
theorem ballocFrom_spec (bs : List Nat) (hmul : ∀ b ∈ bs, b % BPB = 0)
    (hused : ∀ x, x < sb.size → x / BPB * BPB ∉ bs → bit sb σ x = true)
    (hmeta : ∀ b, b < sb.datastart → bit sb σ b = true)
    (hpanic : H .outOfBlocks ∨ ∃ x, x < sb.size ∧ bit sb σ x = false) :
    (ballocFrom sb bs).wp H sb.Logged (fun x τ => sb.datastart ≤ x ∧ x < sb.size ∧
      bit sb σ x = false ∧ τ = allocated sb σ x) σ := by
  induction bs with
  | nil =>
    refine wp_panic ?_
    rcases hpanic with h | ⟨x, hx, hfree⟩
    · exact h
    · rw [hused x hx List.not_mem_nil] at hfree
      cases hfree
  | cons b bs ih =>
    refine wp_bind (wp_bread ?_)
    obtain ⟨k, hk⟩ : ∃ k, b = k * BPB :=
      ⟨b / BPB, by rw [Nat.div_mul_cancel (Nat.dvd_of_mod_eq_zero (hmul b List.mem_cons_self))]⟩
    cases hf : firstClear (σ (sb.bblock b)) (min BPB (sb.size - b)) with
    | some bi =>
      obtain ⟨hlt, hclear⟩ := firstClear_some hf
      have hbi : bi < BPB := by omega
      have hsize : b + bi < sb.size := by omega
      have hblk : sb.bblock (b + bi) = sb.bblock b := by
        rw [hk]
        exact bblock_add hbi
      have hmod : (b + bi) % BPB = bi := by
        rw [hk]
        exact add_mod_BPB hbi
      have hbit : bit sb σ (b + bi) = false := by
        unfold bit
        rw [hblk, hmod]
        exact hclear
      have hdata : sb.datastart ≤ b + bi := by
        by_contra hlow
        rw [hmeta _ (by omega)] at hbit
        cases hbit
      refine wp_bind (wp_logWrite (Superblock.logged_of_bmapstart
        (Superblock.bmapstart_le_bblock b)) (wp_bind (wp_brelse ?_)))
      refine wp_bind (wp_bind (wp_bread (wp_bind (wp_logWrite
        (Superblock.logged_of_datastart hdata) (wp_brelse (wp_pure ?_))))))
      refine ⟨hdata, hsize, hbit, ?_⟩
      unfold allocated
      rw [hblk, hmod]
    | none =>
      refine wp_bind (wp_brelse (ih (fun c hc => hmul c (List.mem_cons_of_mem _ hc)) ?_))
      intro x hx hnot
      by_cases hxb : x / BPB * BPB = b
      · have hx' : x = b + x % BPB := by
          rw [← hxb, Nat.mul_comm]
          exact (Nat.div_add_mod x BPB).symm
        have hlt := Nat.mod_lt x BPB_pos
        have hset : getBit _ (x % BPB) = true := firstClear_none hf (by omega)
        have hblk : sb.bblock x = sb.bblock b := by
          rw [hx', hk]
          exact bblock_add hlt
        unfold bit
        rw [hblk]
        exact hset
      · exact hused x hx fun hmem => (List.mem_cons.mp hmem).elim hxb hnot

/-- `balloc` returns a free data block, zeroed and marked, unless there is none. -/
theorem balloc_spec (hmeta : ∀ b, b < sb.datastart → bit sb σ b = true)
    (hpanic : H .outOfBlocks ∨ ∃ x, x < sb.size ∧ bit sb σ x = false) :
    (balloc sb).wp H sb.Logged (fun x τ => sb.datastart ≤ x ∧ x < sb.size ∧
      bit sb σ x = false ∧ τ = allocated sb σ x) σ := by
  refine ballocFrom_spec _ ?_ ?_ hmeta hpanic
  · intro b hb
    obtain ⟨k, -, rfl⟩ := List.mem_map.mp hb
    exact Nat.mul_mod_left k BPB
  · intro x hx hnot
    refine absurd (List.mem_map.mpr ⟨x / BPB, List.mem_range.mpr ?_, rfl⟩) hnot
    have hB : BPB = 4096 := rfl
    rw [hB]
    omega

theorem bfree_spec {W : Nat → Prop} (hW : W (sb.bblock b)) (hbit : bit sb σ b = true) :
    (bfree sb b).wp H W (fun _ τ => τ = freed sb σ b) σ := by
  refine wp_bind (wp_bread ?_)
  have hb : getBit (σ (sb.bblock b)) (b % BPB) = true := hbit
  rw [if_pos hb]
  exact wp_bind (wp_logWrite hW (wp_brelse rfl))

end Xv6.Fs
