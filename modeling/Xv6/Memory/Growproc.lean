import Xv6.Memory.Sbrk

/-!
# The value that growproc returns (project2/proc.c:158-184)

`growproc` keeps `ptable.lock` on every way out that fails, takes a new size of 0 for an
error of `deallocuvm`, and does not notice that the new size has wrapped below 0.
-/

namespace Xv6.Memory
open Threads (PGSIZE KERNBASE uint)

namespace Space

/-- The value that `growproc` returns; a panic in `allocuvm` has none. -/
def growprocValue (s : Space) (n : Int) (free : Nat) : Option Int :=
  if s.overLimit n then some (-1)
  else if 0 < n then
    (s.pgdir.allocuvm s.size (uint (s.size + n)) free).map fun r => if r.1 = 0 then -1 else 0
  else if n < 0 then
    some (if (s.pgdir.deallocuvm s.size (uint (s.size + n))).1 = 0 then -1 else 0)
  else some 0

/-- The limit and the free memory are enough for `n` bytes more, and a process that
shrinks keeps something. -/
def growable (s : Space) (n : Int) (free : Nat) : Prop :=
  s.overLimit n = false ∧
    (0 < n → s.size + n.toNat < KERNBASE ∧ pgup (s.size + n.toNat) - pgup s.size ≤ free) ∧
    (n < 0 → 0 < s.size + n)

instance (s : Space) (n : Int) (free : Nat) : Decidable (s.growable n free) :=
  inferInstanceAs (Decidable (_ ∧ _))

end Space

/-- Exactly the pages below the size are mapped, and `ptable.lock` is free. -/
structure Intact (s : Space) : Prop where
  size : s.size < KERNBASE
  mapped : ∀ a, s.pgdir a ≠ none ↔ a < pgup s.size
  unlocked : s.lockHeld = false

/-- A failed `growproc` changes nothing; one that works adds `n` bytes. -/
structure GrowprocLaw (s : Space) (n : Int) (free : Nat) (t : Space) : Prop where
  fails : s.growprocValue n free = some (-1) →
    (∀ a, t.pgdir a ≠ none ↔ s.pgdir a ≠ none) ∧ t.size = s.size ∧ t.lockHeld = s.lockHeld
  works : s.growprocValue n free = some 0 →
    (t.size : Int) = s.size + n ∧ ∀ a, t.pgdir a ≠ none ↔ a < pgup t.size

namespace Intact

variable {s : Space} {n : Int} {free : Nat}

/-- The new pages of a process that grows are not mapped yet. -/
theorem allocuvm (h : Intact s) (h0 : 0 < n) (hn : n < 2147483648) :
    (s.size + n.toNat < KERNBASE ∧ pgup (s.size + n.toNat) - pgup s.size ≤ free ∧
      ∃ pd, s.pgdir.allocuvm s.size (uint (s.size + n)) free = some (s.size + n.toNat, pd) ∧
        ∀ a, pd a ≠ none ↔ a < pgup (s.size + n.toNat)) ∨
    (¬ (s.size + n.toNat < KERNBASE ∧ pgup (s.size + n.toNat) - pgup s.size ≤ free) ∧
      ∃ pd, s.pgdir.allocuvm s.size (uint (s.size + n)) free = some (0, pd)) := by
  have hnew := uint_add h.size h0.le hn
  have hlen : (pages s.size (s.size + n.toNat)).length = pgup (s.size + n.toNat) - pgup s.size :=
    List.length_range'
  rw [hnew]
  unfold Pgdir.allocuvm
  by_cases hk : KERNBASE ≤ s.size + n.toNat
  · rw [if_pos hk]
    right
    refine ⟨by omega, s.pgdir, rfl⟩
  · rw [if_neg hk, if_neg (by omega)]
    have hnone : ∀ a ∈ pages s.size (s.size + n.toNat), s.pgdir a = none := by
      intro a ha
      have hlo := (mem_pages.mp ha).1
      by_contra hc
      have hhi := (h.mapped a).mp hc
      omega
    have hsome := Pgdir.allocLoop_isSome s.size (s.size + n.toNat) free (nodup_pages _ _) hnone
    obtain ⟨r, hr⟩ := Option.isSome_iff_exists.mp hsome
    obtain ⟨sz, pd⟩ := r
    rcases Pgdir.allocLoop_spec (fun _ ha => ha) hr with ⟨hfree, hsz, -, hpd⟩ | ⟨hfree, hsz, -⟩
    · left
      refine ⟨by omega, by omega, pd, by rw [hr, hsz], ?_⟩
      intro a
      have hmono := pgup_mono (Nat.le_add_right s.size n.toNat)
      have hmem : a ∈ pages s.size (s.size + n.toNat) ↔ _ := mem_pages
      have hold := h.mapped a
      rw [hpd a]
      split_ifs with ha
      · simp [(hmem.mp ha).2]
      · rw [hold]
        constructor
        · omega
        · intro hlt
          by_contra hc
          exact ha (hmem.mpr ⟨by omega, hlt⟩)
    · right
      refine ⟨by omega, pd, by rw [hr, hsz]⟩

theorem grows (h : Intact s) (addr : Nat) (h0 : 0 < n) (hn : n < 2147483648)
    (hlimit : s.overLimit n = false) :
    GrowprocLaw s n free (s.growproc n addr free) ↔ s.growable n free := by
  have hneg : ¬ n < 0 := by omega
  unfold Space.growable
  rcases @Intact.allocuvm s n free h h0 hn with ⟨hk, hfree, pd, halloc, hpd⟩ | ⟨hno, pd, halloc⟩
  · have hne : s.size + n.toNat ≠ 0 := by omega
    have ht : s.growproc n addr free = { s.setSz s.main (s.size + n.toNat) with
        pgdir := pd
        handed := s.handed ++ [⟨addr, n.toNat⟩]
        grown := s.grown ++ [⟨s.size, n.toNat⟩] } := by
      simp only [Space.growproc, hlimit, h0, halloc, hne, if_true, if_false, Bool.false_eq_true]
    have hsize : (s.growproc n addr free).size = s.size + n.toNat := by
      rw [ht]
      refine (Space.setSz_size s s.main _).trans ?_
      rw [if_pos rfl]
    have hvalue : s.growprocValue n free = some 0 := by
      simp only [Space.growprocValue, hlimit, h0, halloc, hne, if_true, if_false, Option.map_some,
        Bool.false_eq_true]
    have hlaw : GrowprocLaw s n free (s.growproc n addr free) := by
      refine ⟨fun hv => ?_, fun _ => ⟨?_, ?_⟩⟩
      · rw [hvalue] at hv
        cases hv
      · rw [hsize]
        omega
      · intro a
        rw [hsize, ht]
        exact hpd a
    simp only [hlaw, hlimit, hk, hfree, hneg, true_and, implies_true, false_imp_iff]
  · have hvalue : s.growprocValue n free = some (-1) := by
      simp [Space.growprocValue, hlimit, h0, halloc]
    have hlock : (s.growproc n addr free).lockHeld = true := by
      simp [Space.growproc, hlimit, h0, halloc]
    constructor
    · intro hlaw
      have hkept := (hlaw.fails hvalue).2.2
      rw [hlock, h.unlocked] at hkept
      cases hkept
    · intro hgrow
      exact absurd (hgrow.2.1 h0) hno

theorem shrinks (h : Intact s) (addr : Nat) (h0 : n < 0) (hn : -2147483648 ≤ n)
    (hlimit : s.overLimit n = false) :
    GrowprocLaw s n free (s.growproc n addr free) ↔ s.growable n free := by
  have hpos : ¬ 0 < n := by omega
  have hsz := h.size
  have hdealloc := Pgdir.deallocuvm_size s.pgdir s.size (uint (s.size + n))
  have hpages := Pgdir.deallocuvm_pages s.pgdir s.size (uint (s.size + n))
  unfold Threads.State.deallocuvm at hdealloc
  have huint : uint (s.size + n) =
      if 0 ≤ s.size + n then (s.size + n).toNat else (s.size + n + 4294967296).toNat := by
    unfold uint
    unfold KERNBASE at hsz
    split_ifs with hc
    · rw [Int.emod_eq_of_lt hc (by omega)]
    · rw [← Int.add_emod_right, Int.emod_eq_of_lt (by omega) (by omega)]
  have hgrowable : s.growable n free ↔ 0 < s.size + n := by
    simp only [Space.growable, hlimit, hpos, h0, true_and, false_imp_iff, true_imp_iff]
  rw [hgrowable]
  generalize hr : s.pgdir.deallocuvm s.size (uint (s.size + n)) = r at hdealloc hpages
  obtain ⟨sz, pd⟩ := r
  dsimp only at hdealloc hpages
  by_cases hz : sz = 0
  · have hvalue : s.growprocValue n free = some (-1) := by
      simp [Space.growprocValue, hlimit, hpos, h0, hr, hz]
    have hlock : (s.growproc n addr free).lockHeld = true := by
      simp [Space.growproc, hlimit, hpos, h0, hr, hz]
    constructor
    · intro hlaw
      have hkept := (hlaw.fails hvalue).2.2
      rw [hlock, h.unlocked] at hkept
      cases hkept
    · intro hlt
      rw [hz, huint, if_pos hlt.le] at hdealloc
      split_ifs at hdealloc
      · omega
      · omega
  · have hvalue : s.growprocValue n free = some 0 := by
      simp [Space.growprocValue, hlimit, hpos, h0, hr, hz]
    have ht : s.growproc n addr free = { s.setSz s.main sz with
        pgdir := pd
        handed := s.handed.map (Region.below sz) } := by
      simp [Space.growproc, hlimit, hpos, h0, hr, hz]
    have hsize : (s.growproc n addr free).size = sz := by
      rw [ht]
      refine (Space.setSz_size s s.main _).trans ?_
      rw [if_pos rfl]
    constructor
    · intro hlaw
      have hnew := (hlaw.works hvalue).1
      rw [hsize] at hnew
      omega
    · intro hlt
      rw [huint, if_pos hlt.le] at hdealloc hpages
      have hnew : sz = (s.size + n).toNat := by
        rw [hdealloc]
        split_ifs
        · omega
        · rfl
      refine ⟨fun hv => ?_, fun _ => ⟨?_, ?_⟩⟩
      · rw [hvalue] at hv
        cases hv
      · rw [hsize]
        omega
      · intro a
        have hmono : pgup sz ≤ pgup s.size := pgup_mono (by omega)
        have hmem : a ∈ pages sz s.size ↔ _ := mem_pages
        have hold := h.mapped a
        rw [hsize, ht]
        dsimp only
        rw [hpages a, ← hnew]
        split_ifs with ha
        · have hlo := (hmem.mp ha).1
          simp only [ne_eq, not_true_eq_false, false_iff]
          omega
        · rw [hold]
          constructor
          · intro hlt'
            by_contra hc
            exact ha (hmem.mpr ⟨by omega, hlt'⟩)
          · omega

end Intact

/-- The law of `growproc` holds exactly where it has what it needs. -/
theorem growprocLaw_iff (s : Space) (n : Int) (addr free : Nat) (h : Intact s)
    (hlo : -2147483648 ≤ n) (hhi : n < 2147483648) :
    GrowprocLaw s n free (s.growproc n addr free) ↔ s.growable n free := by
  cases hlimit : s.overLimit n with
  | true =>
    have hvalue : s.growprocValue n free = some (-1) := by simp [Space.growprocValue, hlimit]
    have hlock : (s.growproc n addr free).lockHeld = true := by simp [Space.growproc, hlimit]
    constructor
    · intro hlaw
      have hkept := (hlaw.fails hvalue).2.2
      rw [hlock, h.unlocked] at hkept
      cases hkept
    · intro hgrow
      rw [hgrow.1] at hlimit
      cases hlimit
  | false =>
    rcases Int.lt_trichotomy 0 n with h0 | h0 | h0
    · exact h.grows addr h0 hhi hlimit
    · subst h0
      have hsame : s.growproc 0 addr free = s := by simp [Space.growproc, hlimit]
      have hvalue : s.growprocValue 0 free = some 0 := by simp [Space.growprocValue, hlimit]
      rw [hsame]
      constructor
      · intro _
        exact ⟨hlimit, fun hc => absurd hc (lt_irrefl _), fun hc => absurd hc (lt_irrefl _)⟩
      · intro _
        refine ⟨fun hv => ?_, fun _ => ⟨by simp, h.mapped⟩⟩
        rw [hvalue] at hv
        cases hv
    · exact h.shrinks addr h0 hlo hlimit

theorem intact_twoThreads : Intact twoThreads := by
  refine ⟨by decide +kernel, ?_, rfl⟩
  intro a
  have hsize : pgup twoThreads.size = 5 := by decide +kernel
  rw [hsize]
  simp [twoThreads]

/-- One page more. -/
theorem growprocLaw_iff_page : GrowprocLaw twoThreads 4096 1 (twoThreads.growproc 4096 20480 1) :=
  (growprocLaw_iff twoThreads 4096 20480 1 intact_twoThreads (by decide) (by decide)).mpr
    (by decide +kernel)

-- A larger step down wraps: 0 is returned and the size stays.
example : twoThreads.growprocValue (-20481) 0 = some 0 ∧
    (twoThreads.growproc (-20481) 20480 0).size = 20480 := by decide +kernel

/-- `sbrk(-size)` returns -1 after it has taken every page away, and keeps the lock. -/
theorem not_growprocLaw : ¬ ∀ s n addr free, Intact s → -2147483648 ≤ n → n < 2147483648 →
    GrowprocLaw s n free (s.growproc n addr free) := by
  intro hall
  have hlaw := hall twoThreads (-20480) 20480 0 intact_twoThreads (by decide) (by decide)
  have hkept := (hlaw.fails (by decide +kernel)).2.2
  have hlock : (twoThreads.growproc (-20480) 20480 0).lockHeld = true := by decide +kernel
  rw [hlock, intact_twoThreads.unlocked] at hkept
  cases hkept

end Xv6.Memory
