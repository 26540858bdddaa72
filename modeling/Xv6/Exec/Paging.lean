import Xv6.Lib.ByteBuffer
import Xv6.Memory.Vm

/-!
# The page directory that exec builds (project2/vm.c:35-386, kalloc.c:59-95)

The user part of a page directory with the contents of its pages, and the number of
free pages, from which `kalloc` takes and to which `kfree` gives. No step loses a
page: `Conserves` says that the free pages and those of the directory stay as many.
-/

namespace Xv6.Exec
open Threads (PGSIZE KERNBASE uint)
open Memory (pgup pages)

def PHYSTOP : Nat := 0xE000000
def DEVSPACE : Nat := 0xFE000000

/-- The memory under one page table. -/
def PTSIZE : Nat := 1024 * PGSIZE

/-- The pages of a directory without user memory: its own and those of the tables for `kmap`. -/
def KVMPAGES : Nat := 1 + PHYSTOP / PTSIZE + (2 ^ 32 - DEVSPACE) / PTSIZE

/-- PTE_U and the contents. -/
structure Page where
  user : Bool
  data : Nat → Byte

/-- The entries of the directory that have a page table, and the entries of the tables that
have a page, by their numbers from 0 on. -/
structure Pgdir where
  tables : List Nat
  pages : List (Nat × Page)

def pdx (a : Nat) : Nat := a / 1024

/-- A page directory and the number of free pages. -/
structure Vm where
  pgdir : Pgdir
  free : Nat

/-- `setupkvm`. -/
def setupkvm (free : Nat) : Option Vm :=
  if KVMPAGES ≤ free then some ⟨⟨[], []⟩, free - KVMPAGES⟩ else none

namespace Vm

/-- `walkpgdir` with `alloc` set. -/
def walkpgdir (v : Vm) (a : Nat) : Option Vm :=
  if pdx a ∈ v.pgdir.tables then some v
  else if v.free = 0 then none
  else some ⟨{ v.pgdir with tables := pdx a :: v.pgdir.tables }, v.free - 1⟩

def deallocuvm (v : Vm) (oldsz newsz : Nat) : Nat × Vm :=
  if oldsz ≤ newsz then (oldsz, v)
  else
    let gone := fun p : Nat × Page => decide (pgup newsz ≤ p.1 ∧ p.1 * PGSIZE < oldsz)
    (newsz, ⟨{ v.pgdir with pages := v.pgdir.pages.filter fun p => !gone p },
      v.free + v.pgdir.pages.countP gone⟩)

/-- The loop of `allocuvm` over the pages `as`; no value is `panic("remap")`. -/
def allocLoop (oldsz newsz : Nat) : List Nat → Vm → Option (Nat × Vm)
  | [], v => some (newsz, v)
  | a :: as, v =>
    match v.free with
    | 0 => some (0, (v.deallocuvm newsz oldsz).2)
    | free + 1 =>
      let v := { v with free := free }
      match v.walkpgdir a with
      | none =>
        -- kfree(mem)
        let v := (v.deallocuvm newsz oldsz).2
        some (0, { v with free := v.free + 1 })
      | some v =>
        if (v.pgdir.pages.lookup a).isSome then none
        else
          allocLoop oldsz newsz as
            ⟨{ v.pgdir with pages := (a, ⟨true, fun _ => 0⟩) :: v.pgdir.pages }, v.free⟩

def allocuvm (v : Vm) (oldsz newsz : Nat) : Option (Nat × Vm) :=
  if KERNBASE ≤ newsz then some (0, v)
  else if newsz < oldsz then some (oldsz, v)
  else allocLoop oldsz newsz (pages oldsz newsz) v

/-- `freevm`: the number of free pages after it. -/
def freevm (v : Vm) : Nat :=
  let v := (v.deallocuvm KERNBASE 0).2
  v.free + v.pgdir.tables.length + KVMPAGES

/-- The page `a` is written to. -/
def setPage (v : Vm) (a : Nat) (f : Page → Page) : Vm :=
  { v with
    pgdir := { v.pgdir with
      pages := v.pgdir.pages.map fun p => if p.1 = a then (p.1, f p.2) else p } }

/-- `clearpteu`; no value is its panic. -/
def clearpteu (v : Vm) (uva : Nat) : Option Vm :=
  if pdx (uva / PGSIZE) ∈ v.pgdir.tables then
    some (v.setPage (uva / PGSIZE) fun p => { p with user := false })
  else none

/-- `*pte` where `walkpgdir` has returned a null pointer: the first word of the page 0 of
the process that runs. Without that page the kernel faults, and with PTE_P and PTE_U set
`copyout` writes anywhere; neither is modelled. -/
def nullPte (page0 : Option Page) : Option Bool :=
  page0.bind fun p =>
    let w := leNat ((List.range 4).map p.data)
    if w % 2 = 0 ∨ w / 4 % 2 = 0 then some false else none

/-- Whether `uva2ka` finds the page of the address; the part of the kernel has no PTE_U. -/
def uva2ka (page0 : Option Page) (v : Vm) (va : Nat) : Option Bool :=
  if va < KERNBASE then
    if pdx (va / PGSIZE) ∈ v.pgdir.tables then
      some ((v.pgdir.pages.lookup (va / PGSIZE)).any Page.user)
    else nullPte page0
  else if va < KERNBASE + PHYSTOP ∨ DEVSPACE ≤ va then some false
  else nullPte page0

/-- `copyout`, a byte at a time. -/
def copyout (page0 : Option Page) : Vm → (va : Nat) → List Byte → Option (Bool × Vm)
  | v, _, [] => some (true, v)
  | v, va, b :: bs =>
    (v.uva2ka page0 va).bind fun found =>
      if found then
        copyout page0
          (v.setPage (va / PGSIZE) fun p =>
            { p with data := Function.update p.data (va % PGSIZE) b })
          (uint (va + 1)) bs
      else some (false, v)

end Vm

/-! ### Where the pages are -/

namespace Vm

/-- The free pages and those of the directory. -/
def total (v : Vm) : Nat :=
  v.free + v.pgdir.pages.length + v.pgdir.tables.length + KVMPAGES

def Below (v : Vm) : Prop := ∀ p ∈ v.pgdir.pages, p.1 * PGSIZE < KERNBASE

/-- No page is lost, and user memory stays below the kernel. -/
structure Conserves (v v' : Vm) : Prop where
  total : v'.total = v.total
  below : v.Below → v'.Below

variable {v v' v'' : Vm}

theorem Conserves.refl (v : Vm) : Conserves v v := ⟨rfl, id⟩

theorem Conserves.trans (h : Conserves v v') (h' : Conserves v' v'') : Conserves v v'' :=
  ⟨h'.total.trans h.total, fun hb => h'.below (h.below hb)⟩

theorem setupkvm_total {free : Nat} (h : setupkvm free = some v) : v.total = free ∧ v.Below := by
  unfold setupkvm at h
  split_ifs at h with hle
  cases h
  refine ⟨?_, fun p hp => absurd hp List.not_mem_nil⟩
  simp only [total, List.length_nil]
  omega

theorem length_filter_not {α : Type*} (l : List α) (g : α → Bool) :
    (l.filter fun p => !g p).length + l.countP g = l.length := by
  have h := (List.length_eq_countP_add_countP g (l := l)).symm
  rw [List.countP_eq_length_filter (p := fun p => ¬ g p)] at h
  simpa [Nat.add_comm] using h

theorem conserves_deallocuvm (v : Vm) (oldsz newsz : Nat) :
    Conserves v (v.deallocuvm oldsz newsz).2 := by
  unfold deallocuvm
  split_ifs
  · exact .refl _
  · refine ⟨?_, fun hb p hp => hb p (List.mem_filter.mp hp).1⟩
    have hlen := length_filter_not v.pgdir.pages
      fun p => decide (pgup newsz ≤ p.1 ∧ p.1 * PGSIZE < oldsz)
    dsimp only [total]
    omega

theorem conserves_walkpgdir {a : Nat} (h : v.walkpgdir a = some v') : Conserves v v' := by
  unfold walkpgdir at h
  split_ifs at h with htable hfree
  · cases h
    exact .refl _
  · cases h
    refine ⟨?_, id⟩
    simp only [total, List.length_cons]
    omega

theorem conserves_mappages {a free : Nat} (ha : a * PGSIZE < KERNBASE)
    (hfree : v.free = free + 1) (hw : ({ v with free := free } : Vm).walkpgdir a = some v') :
    Conserves v ⟨{ v'.pgdir with pages := (a, ⟨true, fun _ => 0⟩) :: v'.pgdir.pages }, v'.free⟩ := by
  have hc := conserves_walkpgdir hw
  have htotal := hc.total
  refine ⟨?_, fun hb p hp => ?_⟩
  · simp only [total, List.length_cons] at htotal ⊢
    omega
  · rcases List.mem_cons.mp hp with rfl | hp
    · exact ha
    · exact hc.below hb p hp

theorem conserves_allocLoop {oldsz newsz r : Nat} {as : List Nat}
    (has : ∀ a ∈ as, a * PGSIZE < KERNBASE) (h : allocLoop oldsz newsz as v = some (r, v')) :
    Conserves v v' := by
  induction as generalizing v with
  | nil =>
    cases h
    exact .refl _
  | cons a as ih =>
    unfold allocLoop at h
    cases hfree : v.free with
    | zero =>
      rw [hfree] at h
      cases h
      exact conserves_deallocuvm v newsz oldsz
    | succ free =>
      rw [hfree] at h
      dsimp only at h
      cases hw : ({ v with free := free } : Vm).walkpgdir a with
      | none =>
        rw [hw] at h
        cases h
        have hd := conserves_deallocuvm { v with free := free } newsz oldsz
        refine ⟨?_, hd.below⟩
        have htotal := hd.total
        dsimp only [total] at htotal ⊢
        omega
      | some w =>
        rw [hw] at h
        dsimp only at h
        split_ifs at h
        exact (conserves_mappages (has a List.mem_cons_self) hfree hw).trans
          (ih (fun b hb => has b (List.mem_cons_of_mem _ hb)) h)

theorem page_below {a oldsz newsz : Nat} (hk : newsz < KERNBASE) (ha : a ∈ pages oldsz newsz) :
    a * PGSIZE < KERNBASE := by
  have hlt := (Memory.mem_pages.mp ha).2
  unfold pgup at hlt
  unfold PGSIZE at *
  omega

theorem conserves_allocuvm {oldsz newsz r : Nat} (h : v.allocuvm oldsz newsz = some (r, v')) :
    Conserves v v' := by
  unfold allocuvm at h
  split_ifs at h with hk hlt
  · cases h
    exact .refl _
  · cases h
    exact .refl _
  · exact conserves_allocLoop (fun a ha => page_below (by omega) ha) h

theorem conserves_setPage (v : Vm) (a : Nat) (f : Page → Page) : Conserves v (v.setPage a f) := by
  refine ⟨?_, fun hb p hp => ?_⟩
  · simp only [total, setPage, List.length_map]
  · obtain ⟨q, hq, rfl⟩ := List.mem_map.mp hp
    have hlt := hb q hq
    split_ifs
    · exact hlt
    · exact hlt

theorem conserves_clearpteu {uva : Nat} (h : v.clearpteu uva = some v') : Conserves v v' := by
  unfold clearpteu at h
  split_ifs at h
  cases h
  exact conserves_setPage v _ _

theorem conserves_copyout {page0 : Option Page} {va : Nat} {bs : List Byte} {r : Bool}
    (h : v.copyout page0 va bs = some (r, v')) : Conserves v v' := by
  induction bs generalizing v va with
  | nil =>
    cases h
    exact .refl _
  | cons b bs ih =>
    obtain ⟨found, -, h⟩ := Option.bind_eq_some_iff.mp h
    split_ifs at h
    · exact (conserves_setPage v _ _).trans (ih h)
    · cases h
      exact .refl _

theorem freevm_eq (hb : v.Below) : v.freevm = v.total := by
  have hpages : v.pgdir.pages.filter (fun p => !decide (pgup 0 ≤ p.1 ∧ p.1 * PGSIZE < KERNBASE)) =
      [] := by
    refine List.filter_eq_nil_iff.mpr fun p hp => ?_
    have h0 : pgup 0 = 0 := by decide
    rw [h0, decide_eq_true ⟨Nat.zero_le _, hb p hp⟩]
    exact Bool.false_ne_true
  have hlen := length_filter_not v.pgdir.pages
    fun p => decide (pgup 0 ≤ p.1 ∧ p.1 * PGSIZE < KERNBASE)
  rw [hpages, List.length_nil] at hlen
  have hk : ¬ KERNBASE ≤ 0 := by decide
  simp only [freevm, deallocuvm, if_neg hk, total]
  omega

theorem Conserves.freevm_eq (h : Conserves v v') (hb : v.Below) : v'.freevm = v.total :=
  (Vm.freevm_eq (h.below hb)).trans h.total

end Vm

end Xv6.Exec
