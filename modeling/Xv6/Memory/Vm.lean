import Mathlib.Data.List.Basic
import Xv6.Threads.Table

/-!
# The user pages of a process (project2/vm.c:60-345)

`allocuvm` and `deallocuvm` with their loops over the page table. The table of
threads keeps only the sizes that they return; `allocuvm_size` and
`deallocuvm_size` say that these are the same.
-/

namespace Xv6.Memory
open Threads (PGSIZE KERNBASE)

/-- The user part of a page directory: the PTE_U bit of the entry of each page, and
nothing where PTE_P is clear. -/
abbrev Pgdir := Nat → Option Bool

/-- `PGROUNDUP(sz)` as a page number: the first page that does not begin below
`sz`. -/
def pgup (sz : Nat) : Nat := (sz + (PGSIZE - 1)) / PGSIZE

/-- The pages of the loop `for(a = PGROUNDUP(lo); a < hi; a += PGSIZE)`. -/
def pages (lo hi : Nat) : List Nat := List.range' (pgup lo) (pgup hi - pgup lo)

namespace Pgdir

/-- `mappages` of one page; no value is `panic("remap")`. -/
def mappages (pd : Pgdir) (a : Nat) : Option Pgdir :=
  if (pd a).isSome then none else some (Function.update pd a (some true))

-- *pte = 0.
def unmap (pd : Pgdir) (a : Nat) : Pgdir := Function.update pd a none

def deallocuvm (pd : Pgdir) (oldsz newsz : Nat) : Nat × Pgdir :=
  if oldsz ≤ newsz then (oldsz, pd) else (newsz, (pages newsz oldsz).foldl unmap pd)

/-- The loop of `allocuvm` over the pages `as`; memory for `free` pages is left. -/
def allocLoop (oldsz newsz : Nat) : List Nat → (free : Nat) → Pgdir → Option (Nat × Pgdir)
  | [], _, pd => some (newsz, pd)
  | _ :: _, 0, pd => some (0, (pd.deallocuvm newsz oldsz).2)
  | a :: as, free + 1, pd => (pd.mappages a).bind fun pd => allocLoop oldsz newsz as free pd

def allocuvm (pd : Pgdir) (oldsz newsz free : Nat) : Option (Nat × Pgdir) :=
  if KERNBASE ≤ newsz then some (0, pd)
  else if newsz < oldsz then some (oldsz, pd)
  else allocLoop oldsz newsz (pages oldsz newsz) free pd

/-- `clearpteu`. -/
def clearpteu (pd : Pgdir) (uva : Nat) : Pgdir :=
  Function.update pd (uva / PGSIZE) ((pd (uva / PGSIZE)).map fun _ => false)

/-- `uva2ka` finds every page that `copyout` of `len` bytes to `va` needs. -/
def copyout (pd : Pgdir) (va len : Nat) : Bool :=
  (List.range' (va / PGSIZE) ((va + len - 1) / PGSIZE + 1 - va / PGSIZE)).all fun a =>
    pd a == some true

end Pgdir

/-! ### The pages of a range -/

theorem mem_pages {a lo hi : Nat} : a ∈ pages lo hi ↔ pgup lo ≤ a ∧ a < pgup hi := by
  rw [pages, List.mem_range'_1]
  omega

theorem nodup_pages (lo hi : Nat) : (pages lo hi).Nodup := List.nodup_range'

theorem pgup_mono {x y : Nat} (h : x ≤ y) : pgup x ≤ pgup y :=
  Nat.div_le_div_right (by omega)

theorem pages_eq_nil {lo hi : Nat} (h : hi ≤ lo) : pages lo hi = [] := by
  have hm := pgup_mono h
  rw [pages, show pgup hi - pgup lo = 0 by omega]
  rfl

namespace Pgdir

variable {pd pd' : Pgdir}

theorem foldl_unmap (as : List Nat) (pd : Pgdir) (b : Nat) :
    as.foldl unmap pd b = if b ∈ as then none else pd b := by
  induction as generalizing pd with
  | nil => simp
  | cons a as ih =>
    rw [List.foldl_cons, ih, unmap]
    by_cases hb : b = a
    · simp [hb]
    · simp [hb]

theorem deallocuvm_pages (pd : Pgdir) (oldsz newsz b : Nat) :
    (pd.deallocuvm oldsz newsz).2 b = if b ∈ pages newsz oldsz then none else pd b := by
  unfold deallocuvm
  by_cases hle : oldsz ≤ newsz
  · rw [if_pos hle, pages_eq_nil hle]
    simp
  · rw [if_neg hle]
    exact foldl_unmap _ _ _

theorem deallocuvm_size (pd : Pgdir) (oldsz newsz : Nat) :
    (pd.deallocuvm oldsz newsz).1 = Threads.State.deallocuvm oldsz newsz := by
  unfold deallocuvm Threads.State.deallocuvm
  split_ifs <;> rfl

/-- The two ways in which the loop ends without a panic. -/
theorem allocLoop_spec {oldsz newsz r : Nat} {as : List Nat} {free : Nat}
    (hsub : ∀ a ∈ as, a ∈ pages oldsz newsz)
    (h : allocLoop oldsz newsz as free pd = some (r, pd')) :
    (as.length ≤ free ∧ r = newsz ∧ (∀ a ∈ as, pd a = none) ∧
      ∀ b, pd' b = if b ∈ as then some true else pd b) ∨
    (free < as.length ∧ r = 0 ∧
      ∀ b, pd' b = if b ∈ pages oldsz newsz then none else pd b) := by
  induction as generalizing free pd with
  | nil =>
    cases h
    exact Or.inl ⟨Nat.zero_le _, rfl, by simp, by simp⟩
  | cons a as ih =>
    cases free with
    | zero =>
      cases h
      exact Or.inr ⟨by simp, rfl, fun b => deallocuvm_pages _ _ _ b⟩
    | succ free =>
      have ha : a ∈ pages oldsz newsz := hsub a List.mem_cons_self
      obtain ⟨qd, hq, hrest⟩ := Option.bind_eq_some_iff.mp h
      unfold mappages at hq
      split_ifs at hq with hpres
      cases hq
      have hnone : pd a = none := by simpa using hpres
      rcases ih (fun b hb => hsub b (List.mem_cons_of_mem _ hb)) hrest with
        ⟨hlen, hr, hfree, hpd⟩ | ⟨hlen, hr, hpd⟩
      · refine Or.inl ⟨by simpa using hlen, hr, ?_, ?_⟩
        · intro b hb
          rcases List.mem_cons.mp hb with rfl | hb
          · exact hnone
          · have hbf := hfree b hb
            by_cases hba : b = a
            · rw [hba]
              exact hnone
            · rwa [Function.update_of_ne hba] at hbf
        · intro b
          rw [hpd b]
          by_cases hba : b = a
          · subst hba
            simp
          · simp [hba]
      · refine Or.inr ⟨by simpa using hlen, hr, ?_⟩
        intro b
        rw [hpd b]
        by_cases hba : b = a
        · subst hba
          simp [ha]
        · rw [Function.update_of_ne hba]

theorem allocLoop_isSome (oldsz newsz free : Nat) {as : List Nat} (hnd : as.Nodup)
    (hfree : ∀ a ∈ as, pd a = none) : (allocLoop oldsz newsz as free pd).isSome := by
  induction as generalizing free pd with
  | nil => rfl
  | cons a as ih =>
    cases free with
    | zero => rfl
    | succ free =>
      have hnd' := List.nodup_cons.mp hnd
      have hm : pd.mappages a = some (Function.update pd a (some true)) := by
        rw [mappages, hfree a List.mem_cons_self]
        rfl
      rw [allocLoop, hm]
      refine ih _ hnd'.2 ?_
      intro b hb
      have hba : b ≠ a := fun hc => hnd'.1 (hc ▸ hb)
      rw [Function.update_of_ne hba]
      exact hfree b (List.mem_cons_of_mem _ hb)

theorem allocuvm_size {oldsz newsz free r : Nat}
    (h : pd.allocuvm oldsz newsz free = some (r, pd')) :
    r = Threads.State.allocuvm oldsz newsz (decide ((pages oldsz newsz).length ≤ free)) := by
  unfold allocuvm at h
  unfold Threads.State.allocuvm
  split_ifs at h ⊢ with hk hlt henough
  · cases h
    rfl
  · cases h
    rfl
  · rcases allocLoop_spec (fun _ ha => ha) h with ⟨-, hr, -⟩ | ⟨hlen, -⟩
    · exact hr
    · simp only [decide_eq_true_eq] at henough
      omega
  · rcases allocLoop_spec (fun _ ha => ha) h with ⟨hlen, -⟩ | ⟨-, hr, -⟩
    · exact absurd (decide_eq_true hlen) henough
    · exact hr

end Pgdir

end Xv6.Memory
