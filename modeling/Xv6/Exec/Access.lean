import Xv6.Exec.Paging

/-!
# Which pages a directory has

The entry of each page, and what `allocuvm`, `clearpteu` and `copyout` make of it.
-/

namespace Xv6.Exec
open Threads (PGSIZE KERNBASE uint)
open Memory (pgup pages)

namespace Vm

/-- The page at the number `a`. -/
def page (v : Vm) (a : Nat) : Option Page := v.pgdir.pages.lookup a

/-- The user has access to the page of the address. -/
def user (v : Vm) (va : Nat) : Bool := (v.page (va / PGSIZE)).any Page.user

/-- The byte at the address. -/
def mem (v : Vm) (va : Nat) : Option Byte :=
  (v.page (va / PGSIZE)).map fun p => p.data (va % PGSIZE)

/-- A byte is written. -/
def poke (v : Vm) (va : Nat) (b : Byte) : Vm :=
  v.setPage (va / PGSIZE) fun p => { p with data := Function.update p.data (va % PGSIZE) b }

/-- The kernel writes through a user pointer; no value is a page fault. -/
def store : Vm → (va : Nat) → List Byte → Option Vm
  | v, _, [] => some v
  | v, va, b :: bs => if (v.mem va).isSome then store (v.poke va b) (va + 1) bs else none

/-- The pages that the loop of `allocuvm` takes for the user pages `as`, with the page
tables that are missing. -/
def cost (tables : List Nat) : List Nat → Nat
  | [] => 0
  | a :: as => if pdx a ∈ tables then 1 + cost tables as else 2 + cost (pdx a :: tables) as

variable {v v' : Vm}

theorem lookup_cons {a b : Nat} {p : Page} {ps : List (Nat × Page)} :
    ((a, p) :: ps).lookup b = if b = a then some p else ps.lookup b := by
  by_cases h : b = a
  · subst h
    simp
  · have hb : (b == a) = false := beq_false_of_ne h
    simp [List.lookup_cons, hb, h]

theorem page_setPage (v : Vm) (a b : Nat) (f : Page → Page) :
    (v.setPage a f).page b = if b = a then (v.page b).map f else v.page b := by
  unfold page setPage
  dsimp only
  induction v.pgdir.pages with
  | nil => simp
  | cons p ps ih =>
    obtain ⟨c, q⟩ := p
    rw [List.map_cons, lookup_cons]
    by_cases hca : c = a
    · subst hca
      rw [if_pos rfl, lookup_cons, ih]
      split_ifs <;> rfl
    · rw [if_neg hca, lookup_cons, ih]
      by_cases hbc : b = c
      · subst hbc
        simp [hca]
      · simp [hbc]

theorem walkpgdir_spec {a : Nat} (h : v.walkpgdir a = some v') :
    v'.pgdir.pages = v.pgdir.pages ∧
      v'.pgdir.tables = (if pdx a ∈ v.pgdir.tables then v.pgdir.tables
        else pdx a :: v.pgdir.tables) ∧
      v'.free + (if pdx a ∈ v.pgdir.tables then 0 else 1) = v.free := by
  unfold walkpgdir at h
  split_ifs at h ⊢
  · cases h
    simp
  · cases h
    refine ⟨rfl, rfl, ?_⟩
    dsimp only
    omega

/-- `v'` has new pages at the numbers `as`. -/
structure Extended (v : Vm) (as : List Nat) (v' : Vm) : Prop where
  fresh : ∀ a ∈ as, v.page a = none
  page : ∀ b, v'.page b = if b ∈ as then some ⟨true, fun _ => 0⟩ else v.page b
  tables : ∀ t ∈ v.pgdir.tables, t ∈ v'.pgdir.tables
  newTables : ∀ a ∈ as, pdx a ∈ v'.pgdir.tables
  length : v'.pgdir.pages.length = v.pgdir.pages.length + as.length
  free : v'.free + cost v.pgdir.tables as = v.free

theorem extended_nil (v : Vm) : Extended v [] v := by
  constructor
  · simp
  · simp
  · simp
  · simp
  · simp
  · simp [cost]

theorem Extended.cons {w : Vm} {a free : Nat} {as : List Nat} (hfree : v.free = free + 1)
    (hnot : a ∉ as) (hnone : v.page a = none)
    (hw : ({ v with free := free } : Vm).walkpgdir a = some w)
    (h : Extended ⟨{ w.pgdir with pages := (a, ⟨true, fun _ => 0⟩) :: w.pgdir.pages }, w.free⟩ as v') :
    Extended v (a :: as) v' := by
  obtain ⟨hpages, htables, hwfree⟩ := walkpgdir_spec hw
  dsimp only at hpages htables hwfree
  have hold : ∀ t ∈ v.pgdir.tables, t ∈ w.pgdir.tables := by
    intro t ht
    rw [htables]
    split_ifs
    · exact ht
    · exact List.mem_cons_of_mem _ ht
  have hself : pdx a ∈ w.pgdir.tables := by
    rw [htables]
    split_ifs with ht
    · exact ht
    · exact List.mem_cons_self
  constructor
  · intro b hb
    rcases List.mem_cons.mp hb with hba | hb
    · rw [hba]
      exact hnone
    · have hb' := h.fresh b hb
      have hba : b ≠ a := fun hc => hnot (hc ▸ hb)
      unfold Vm.page at hb' ⊢
      dsimp only at hb'
      rwa [lookup_cons, if_neg hba, hpages] at hb'
  · intro b
    rw [h.page b]
    by_cases hb : b ∈ as
    · simp [hb]
    · rw [if_neg hb]
      unfold Vm.page
      dsimp only
      rw [lookup_cons, hpages]
      by_cases hba : b = a
      · simp [hba]
      · simp [hba, hb]
  · intro t ht
    exact h.tables t (hold t ht)
  · intro b hb
    rcases List.mem_cons.mp hb with hba | hb
    · rw [hba]
      exact h.tables _ hself
    · exact h.newTables b hb
  · have hlen := h.length
    simp only [List.length_cons, hpages] at hlen ⊢
    omega
  · have hf := h.free
    dsimp only at hf
    unfold cost
    rw [htables] at hf
    split_ifs at hwfree hf ⊢ <;> omega

theorem lookup_filter (g : Nat → Bool) (ps : List (Nat × Page)) (b : Nat) :
    (ps.filter fun p => !g p.1).lookup b = if g b then none else ps.lookup b := by
  induction ps with
  | nil => simp
  | cons p ps ih =>
    obtain ⟨c, q⟩ := p
    by_cases hc : g c = true
    · rw [List.filter_cons_of_neg (by simp [hc]), ih, lookup_cons]
      by_cases hb : b = c
      · simp [hb, hc]
      · simp [hb]
    · rw [List.filter_cons_of_pos (by simp [hc]), lookup_cons, ih, lookup_cons]
      by_cases hb : b = c
      · simp [hb, hc]
      · simp [hb]

theorem page_deallocuvm (v : Vm) (oldsz newsz b : Nat) :
    (v.deallocuvm oldsz newsz).2.page b =
      if pgup newsz ≤ b ∧ b * PGSIZE < oldsz then none else v.page b := by
  unfold deallocuvm
  by_cases hle : oldsz ≤ newsz
  · rw [if_pos hle, if_neg]
    unfold pgup PGSIZE
    omega
  · rw [if_neg hle]
    unfold page
    dsimp only
    rw [lookup_filter fun c => decide (pgup newsz ≤ c ∧ c * PGSIZE < oldsz)]
    simp

theorem tables_deallocuvm (v : Vm) (oldsz newsz : Nat) :
    (v.deallocuvm oldsz newsz).2.pgdir.tables = v.pgdir.tables := by
  unfold deallocuvm
  split_ifs <;> rfl

/-- An `allocuvm` that fails has given back the pages from `oldsz` to `newsz`. -/
structure Undone (v : Vm) (oldsz newsz : Nat) (v' : Vm) : Prop where
  page : ∀ b, v'.page b = if pgup oldsz ≤ b ∧ b * PGSIZE < newsz then none else v.page b
  tables : ∀ t ∈ v.pgdir.tables, t ∈ v'.pgdir.tables

theorem undone_deallocuvm (v : Vm) (oldsz newsz : Nat) :
    Undone v oldsz newsz (v.deallocuvm newsz oldsz).2 := by
  refine ⟨page_deallocuvm v newsz oldsz, ?_⟩
  intro t ht
  rw [tables_deallocuvm]
  exact ht

/-- The pages taken before it fails are given back as well. -/
theorem Undone.cons {w : Vm} {a free oldsz newsz : Nat} {p : Page}
    (ha : pgup oldsz ≤ a ∧ a * PGSIZE < newsz)
    (hw : ({ v with free := free } : Vm).walkpgdir a = some w)
    (h : Undone ⟨{ w.pgdir with pages := (a, p) :: w.pgdir.pages }, w.free⟩ oldsz newsz v') :
    Undone v oldsz newsz v' := by
  obtain ⟨hpages, htables, -⟩ := walkpgdir_spec hw
  dsimp only at hpages htables
  constructor
  · intro b
    rw [h.page b]
    split_ifs with hb
    · rfl
    · have hba : b ≠ a := by
        intro hc
        subst hc
        exact hb ha
      unfold Vm.page
      dsimp only
      rw [lookup_cons, if_neg hba, hpages]
  · intro t ht
    apply h.tables
    dsimp only
    rw [htables]
    split_ifs
    · exact ht
    · exact List.mem_cons_of_mem _ ht

/-- The two ways in which the loop of `allocuvm` ends without a panic. -/
theorem allocLoop_spec {oldsz newsz r : Nat} {as : List Nat} (hnd : as.Nodup)
    (has : ∀ a ∈ as, pgup oldsz ≤ a ∧ a * PGSIZE < newsz)
    (h : allocLoop oldsz newsz as v = some (r, v')) :
    (cost v.pgdir.tables as ≤ v.free ∧ r = newsz ∧ Extended v as v') ∨
    (v.free < cost v.pgdir.tables as ∧ r = 0 ∧ Undone v oldsz newsz v') := by
  induction as generalizing v with
  | nil =>
    cases h
    exact Or.inl ⟨Nat.zero_le _, rfl, extended_nil _⟩
  | cons a as ih =>
    obtain ⟨hnot, hnd⟩ := List.nodup_cons.mp hnd
    unfold allocLoop at h
    cases hfree : v.free with
    | zero =>
      rw [hfree] at h
      cases h
      right
      refine ⟨?_, rfl, undone_deallocuvm v oldsz newsz⟩
      unfold cost
      split_ifs <;> omega
    | succ free =>
      rw [hfree] at h
      dsimp only at h
      cases hw : ({ v with free := free } : Vm).walkpgdir a with
      | none =>
        rw [hw] at h
        cases h
        right
        have hundone := undone_deallocuvm { v with free := free } oldsz newsz
        unfold walkpgdir at hw
        split_ifs at hw with htable hzero
        dsimp only at htable hzero
        refine ⟨?_, rfl, hundone.page, hundone.tables⟩
        unfold cost
        rw [if_neg htable]
        omega
      | some w =>
        rw [hw] at h
        dsimp only at h
        obtain ⟨hpages, htables, hwfree⟩ := walkpgdir_spec hw
        dsimp only at hpages htables hwfree
        split_ifs at h with hpres
        have hnone : v.page a = none := by
          rw [hpages] at hpres
          exact Option.not_isSome_iff_eq_none.mp hpres
        have hcost : cost v.pgdir.tables (a :: as) + w.free =
            free + 1 + cost w.pgdir.tables as := by
          rw [cost, htables]
          split_ifs at hwfree ⊢ <;> omega
        rcases ih hnd (fun b hb => has b (List.mem_cons_of_mem _ hb)) h with
          ⟨hle, hr, hext⟩ | ⟨hlt, hr, hundone⟩
        · dsimp only at hle
          exact Or.inl ⟨by omega, hr, Extended.cons hfree hnot hnone hw hext⟩
        · dsimp only at hlt
          exact Or.inr ⟨by omega, hr, hundone.cons (has a List.mem_cons_self) hw⟩

theorem allocLoop_isSome (oldsz newsz : Nat) {as : List Nat} (hnd : as.Nodup)
    (hnone : ∀ a ∈ as, v.page a = none) : (allocLoop oldsz newsz as v).isSome := by
  induction as generalizing v with
  | nil => rfl
  | cons a as ih =>
    obtain ⟨hnot, hnd⟩ := List.nodup_cons.mp hnd
    unfold allocLoop
    cases hfree : v.free with
    | zero => rfl
    | succ free =>
      dsimp only
      cases hw : ({ v with free := free } : Vm).walkpgdir a with
      | none => rfl
      | some w =>
        have hpages := (walkpgdir_spec hw).1
        dsimp only at hpages ⊢
        have hself : w.pgdir.pages.lookup a = none := by
          rw [hpages]
          exact hnone a List.mem_cons_self
        rw [hself, if_neg (by simp)]
        apply ih hnd
        intro b hb
        have hba : b ≠ a := fun hc => hnot (hc ▸ hb)
        unfold page
        dsimp only
        rw [lookup_cons, if_neg hba, hpages]
        exact hnone b (List.mem_cons_of_mem _ hb)

/-- The same pages, and no page table less. -/
structure Kept (v v' : Vm) : Prop where
  page : ∀ b, v'.page b = v.page b
  tables : ∀ t ∈ v.pgdir.tables, t ∈ v'.pgdir.tables

theorem Undone.kept {oldsz newsz : Nat} (h : Undone v oldsz newsz v')
    (hnone : ∀ a ∈ pages oldsz newsz, v.page a = none) : Kept v v' := by
  refine ⟨?_, h.tables⟩
  intro b
  rw [h.page b]
  split_ifs with hb
  · apply (hnone b _).symm
    rw [Memory.mem_pages]
    refine ⟨hb.1, ?_⟩
    have hlt := hb.2
    unfold pgup
    unfold PGSIZE at *
    omega
  · rfl

/-- `allocuvm` where the new pages are not there yet. -/
theorem allocuvm_cases {oldsz newsz : Nat} (hle : oldsz ≤ newsz)
    (hnone : ∀ a ∈ pages oldsz newsz, v.page a = none) :
    (newsz < KERNBASE ∧ cost v.pgdir.tables (pages oldsz newsz) ≤ v.free ∧
      ∃ v', v.allocuvm oldsz newsz = some (newsz, v') ∧ Extended v (pages oldsz newsz) v') ∨
    (¬ (newsz < KERNBASE ∧ cost v.pgdir.tables (pages oldsz newsz) ≤ v.free) ∧
      ∃ v', v.allocuvm oldsz newsz = some (0, v') ∧ Kept v v') := by
  unfold allocuvm
  by_cases hk : KERNBASE ≤ newsz
  · rw [if_pos hk]
    right
    exact ⟨by omega, v, rfl, fun _ => rfl, fun _ ht => ht⟩
  · rw [if_neg hk, if_neg (by omega)]
    have hnd := Memory.nodup_pages oldsz newsz
    obtain ⟨r, hr⟩ := Option.isSome_iff_exists.mp (allocLoop_isSome oldsz newsz hnd hnone)
    obtain ⟨sz, v'⟩ := r
    have hrange : ∀ a ∈ pages oldsz newsz, pgup oldsz ≤ a ∧ a * PGSIZE < newsz := by
      intro a ha
      obtain ⟨hlo, hhi⟩ := Memory.mem_pages.mp ha
      refine ⟨hlo, ?_⟩
      unfold pgup at hhi
      unfold PGSIZE at *
      omega
    rcases allocLoop_spec hnd hrange hr with ⟨hcost, hsz, hext⟩ | ⟨hcost, hsz, hundone⟩
    · left
      exact ⟨by omega, hcost, v', by rw [hr, hsz], hext⟩
    · right
      exact ⟨by omega, v', by rw [hr, hsz], hundone.kept hnone⟩

/-! ### Bytes -/

/-- `v'` has the pages of `v`, with other contents. -/
structure SamePages (v v' : Vm) : Prop where
  user : ∀ a, (v'.page a).map Page.user = (v.page a).map Page.user
  tables : v'.pgdir.tables = v.pgdir.tables
  length : v'.pgdir.pages.length = v.pgdir.pages.length
  free : v'.free = v.free

theorem SamePages.refl (v : Vm) : SamePages v v := ⟨fun _ => rfl, rfl, rfl, rfl⟩

theorem SamePages.trans {v'' : Vm} (h : SamePages v v') (h' : SamePages v' v'') :
    SamePages v v'' :=
  ⟨fun a => (h'.user a).trans (h.user a), h'.tables.trans h.tables, h'.length.trans h.length,
    h'.free.trans h.free⟩

theorem SamePages.page_isSome (h : SamePages v v') (a : Nat) :
    (v'.page a).isSome = (v.page a).isSome := by
  have hu := congrArg Option.isSome (h.user a)
  simpa using hu

theorem SamePages.any_user (h : SamePages v v') (va : Nat) : v'.user va = v.user va := by
  have hu := congrArg (Option.any id) (h.user (va / PGSIZE))
  unfold Vm.user
  simpa [Option.any_map] using hu

theorem samePages_poke (v : Vm) (va : Nat) (b : Byte) : SamePages v (v.poke va b) := by
  refine ⟨?_, rfl, by simp [poke, setPage], rfl⟩
  intro a
  rw [poke, page_setPage]
  split_ifs
  · cases v.page a <;> rfl
  · rfl

theorem mem_poke (v : Vm) (va x : Nat) (b : Byte) :
    (v.poke va b).mem x = if x = va then (v.mem x).map fun _ => b else v.mem x := by
  have hx := Nat.div_add_mod x PGSIZE
  have hva := Nat.div_add_mod va PGSIZE
  unfold mem poke
  rw [page_setPage]
  by_cases hpage : x / PGSIZE = va / PGSIZE
  · rw [if_pos hpage]
    by_cases hoff : x % PGSIZE = va % PGSIZE
    · have heq : x = va := by rw [← hx, ← hva, hpage, hoff]
      rw [if_pos heq, hoff]
      cases v.page (x / PGSIZE) <;> simp
    · have hne : x ≠ va := by
        intro hc
        exact hoff (by rw [hc])
      rw [if_neg hne]
      cases v.page (x / PGSIZE) <;> simp [hoff]
  · have hne : x ≠ va := by
      intro hc
      exact hpage (by rw [hc])
    rw [if_neg hpage, if_neg hne]

/-- What writing the bytes `bs` from `va` on makes of the memory. -/
structure Written (v : Vm) (va : Nat) (bs : List Byte) (v' : Vm) : Prop extends SamePages v v' where
  mem : ∀ x, v'.mem x = if va ≤ x ∧ x < va + bs.length then some (bs.getD (x - va) 0) else v.mem x

theorem written_nil (v : Vm) (va : Nat) : Written v va [] v := by
  refine ⟨.refl v, ?_⟩
  intro x
  rw [if_neg]
  simp only [List.length_nil]
  omega

theorem Written.cons {va : Nat} {b : Byte} {bs : List Byte} (hmem : (v.mem va).isSome)
    (h : Written (v.poke va b) (va + 1) bs v') : Written v va (b :: bs) v' := by
  refine ⟨(samePages_poke v va b).trans h.toSamePages, ?_⟩
  intro x
  rw [h.mem x, mem_poke]
  by_cases hx : x = va
  · subst hx
    obtain ⟨c, hc⟩ := Option.isSome_iff_exists.mp hmem
    rw [if_neg (by omega), if_pos rfl, if_pos (by simp), hc]
    simp
  · rw [if_neg hx]
    by_cases hin : va + 1 ≤ x ∧ x < va + 1 + bs.length
    · rw [if_pos hin, if_pos (by simp only [List.length_cons]; omega)]
      have hsub : x - va = x - (va + 1) + 1 := by omega
      rw [hsub, List.getD_cons_succ]
    · rw [if_neg hin, if_neg (by simp only [List.length_cons]; omega)]

theorem store_spec {va : Nat} {bs : List Byte} (h : v.store va bs = some v') :
    Written v va bs v' := by
  induction bs generalizing v va with
  | nil =>
    cases h
    exact written_nil _ va
  | cons b bs ih =>
    unfold store at h
    split_ifs at h with hmem
    exact Written.cons hmem (ih h)

/-- The user can be given bytes where the pages are the user's. -/
theorem copyout_spec {page0 : Option Page} {va : Nat} {bs : List Byte}
    (hva : va + bs.length ≤ KERNBASE)
    (huser : ∀ x, va ≤ x → x < va + bs.length → v.user x = true)
    (htable : ∀ x, va ≤ x → x < va + bs.length → pdx (x / PGSIZE) ∈ v.pgdir.tables) :
    ∃ v', v.copyout page0 va bs = some (true, v') ∧ Written v va bs v' := by
  induction bs generalizing v va with
  | nil => exact ⟨v, rfl, written_nil v va⟩
  | cons b bs ih =>
    simp only [List.length_cons] at hva huser htable
    have hself : v.user va = true := huser va (Nat.le_refl _) (by omega)
    have hmem : (v.mem va).isSome := by
      unfold user at hself
      unfold mem
      cases hp : v.page (va / PGSIZE) with
      | none => simp [hp] at hself
      | some p => simp
    have hfound : v.uva2ka page0 va = some true := by
      unfold uva2ka
      rw [if_pos (by omega), if_pos (htable va (Nat.le_refl _) (by omega))]
      exact congrArg some hself
    have hnext : uint (va + 1) = va + 1 := by
      unfold uint
      unfold KERNBASE at hva
      omega
    have hpoke := samePages_poke v va b
    have huser' : ∀ x, va + 1 ≤ x → x < va + 1 + bs.length → (v.poke va b).user x = true := by
      intro x hlo hhi
      rw [hpoke.any_user]
      exact huser x (by omega) (by omega)
    have htable' : ∀ x, va + 1 ≤ x → x < va + 1 + bs.length →
        pdx (x / PGSIZE) ∈ (v.poke va b).pgdir.tables := by
      intro x hlo hhi
      rw [hpoke.tables]
      exact htable x (by omega) (by omega)
    obtain ⟨v', hv', hw⟩ := ih (by omega) huser' htable'
    refine ⟨v', ?_, Written.cons hmem hw⟩
    rw [copyout, hfound, Option.bind_some, if_pos rfl, hnext]
    exact hv'

end Vm

end Xv6.Exec
