import Xv6.Exec.Paging

/-!
# The new image of a process (project2/exec.c:10-231, elf.h)

The two parts of `exec` and `exec2` that build the new page directory: loading the
segments of the file, and the user stack with the arguments. Where the C code goes to
`bad` the functions return no value beside the directory; where it panics they return
nothing.
-/

namespace Xv6.Exec
open Threads (PGSIZE KERNBASE uint)

def T_DEV : Nat := 3
def MAXARG : Nat := 32
def ELF_MAGIC : Nat := 0x464C457F
def ELF_PROG_LOAD : Nat := 1

/-- What `readi` depends on; `device n` is what `devsw[major].read` returns for `n` bytes. -/
structure Inode where
  type : Nat
  content : List Byte
  device : Nat → Option (List Byte)

/-- `readi`: the bytes that are read, and no value for -1. -/
def Inode.readi (ip : Inode) (off n : Nat) : Option (List Byte) :=
  if ip.type = T_DEV then ip.device n
  else if ip.content.length < off ∨ uint (off + n) < off then none
  else some ((ip.content.drop off).take n)

/-- `readi(…) != n` goes to `bad`. -/
def Inode.readAll (ip : Inode) (off n : Nat) : Option (List Byte) :=
  (ip.readi off n).filter fun bs => bs.length = n

/-- A field of `k` bytes at an offset. -/
def field (bs : List Byte) (off k : Nat) : Nat := leNat ((bs.drop off).take k)

/-- `struct elfhdr`. -/
structure Elfhdr where
  magic : Nat
  entry : Nat
  phoff : Nat
  phnum : Nat
  deriving DecidableEq, Repr

/-- `struct proghdr`. -/
structure Proghdr where
  type : Nat
  off : Nat
  vaddr : Nat
  filesz : Nat
  memsz : Nat
  deriving DecidableEq, Repr

def Inode.elfhdr (ip : Inode) : Option Elfhdr :=
  (ip.readAll 0 52).map fun bs => ⟨field bs 0 4, field bs 24 4, field bs 28 4, field bs 44 2⟩

def Inode.proghdr (ip : Inode) (off : Nat) : Option Proghdr :=
  (ip.readAll off 32).map fun bs =>
    ⟨field bs 0 4, field bs 4 4, field bs 8 4, field bs 16 4, field bs 20 4⟩

namespace Vm

/-- The loop of `loaduvm` from round `k` on. A page table that is missing is its panic; a
page that is missing would make it write to the physical address 0, which is not modelled. -/
def loadLoop (ip : Inode) (addr offset sz : Nat) : (rounds k : Nat) → Vm → Option (Bool × Vm)
  | 0, _, v => some (true, v)
  | rounds + 1, k, v =>
    let i := k * PGSIZE
    let a := (addr + i) / PGSIZE
    if pdx a ∈ v.pgdir.tables ∧ (v.pgdir.pages.lookup a).isSome then
      match ip.readAll (uint (offset + i)) (min (sz - i) PGSIZE) with
      | none => some (false, v)
      | some bs =>
        loadLoop ip addr offset sz rounds (k + 1)
          (v.setPage a fun p =>
            { p with data := fun j => if j < bs.length then bs.getD j 0 else p.data j })
    else none

def loaduvm (v : Vm) (addr : Nat) (ip : Inode) (offset sz : Nat) : Option (Bool × Vm) :=
  if addr % PGSIZE ≠ 0 then none
  else loadLoop ip addr offset sz ((sz + (PGSIZE - 1)) / PGSIZE) 0 v

/-- The loop over the program headers; `n` are left. -/
def loadSegments (ip : Inode) : (n off sz : Nat) → Vm → Option (Option Nat × Vm)
  | 0, _, sz, v => some (some sz, v)
  | n + 1, off, sz, v =>
    match ip.proghdr off with
    | none => some (none, v)
    | some ph =>
      if ph.type ≠ ELF_PROG_LOAD then loadSegments ip n (uint (off + 32)) sz v
      else if ph.memsz < ph.filesz then some (none, v)
      else if uint (ph.vaddr + ph.memsz) < ph.vaddr then some (none, v)
      else
        (v.allocuvm sz (uint (ph.vaddr + ph.memsz))).bind fun r =>
          if r.1 = 0 then some (none, r.2)
          else if ph.vaddr % PGSIZE ≠ 0 then some (none, r.2)
          else
            (r.2.loaduvm ph.vaddr ip ph.off ph.filesz).bind fun l =>
              if l.1 then loadSegments ip n (uint (off + 32)) r.1 l.2 else some (none, l.2)

/-- Push argument strings; with the stack pointer and the pointers for `ustack`. -/
def pushArgs (page0 : Option Page) :
    (argv : List (List Byte)) → (argc sp : Nat) → (ptrs : List Nat) → Vm →
      Option (Option (Nat × List Nat) × Vm)
  | [], _, sp, ptrs, v => some (some (sp, ptrs), v)
  | s :: argv, argc, sp, ptrs, v =>
    if MAXARG ≤ argc then some (none, v)
    else
      let sp := uint (sp - (s.length + 1)) / 4 * 4
      (v.copyout page0 sp (s ++ [0])).bind fun r =>
        if r.1 then pushArgs page0 argv (argc + 1) sp (ptrs ++ [sp]) r.2 else some (none, r.2)

/-- The user stack of `stacksize` pages above a guard page: the new size and `sp`. -/
def buildStack (v : Vm) (page0 : Option Page) (sz stacksize : Nat) (argv : List (List Byte)) :
    Option (Option (Nat × Nat) × Vm) :=
  let sz := (sz + (PGSIZE - 1)) / PGSIZE * PGSIZE
  (v.allocuvm sz (uint (sz + (stacksize + 1) * PGSIZE))).bind fun r =>
    if r.1 = 0 then some (none, r.2)
    else
      (r.2.clearpteu (r.1 - (stacksize + 1) * PGSIZE)).bind fun v =>
        (pushArgs page0 argv 0 r.1 [] v).bind fun
          | (none, v) => some (none, v)
          | (some (sp, ptrs), v) =>
            let argc := argv.length
            let ustack := [0xffffffff, argc, uint (sp - (argc + 1) * 4)] ++ ptrs ++ [0]
            let sp := uint (sp - (3 + argc + 1) * 4)
            (v.copyout page0 sp (ustack.flatMap (natLE 4))).map fun w =>
              if w.1 then (some (r.1, sp), w.2) else (none, w.2)

end Vm

/-- Up to `iunlockput`: the header, the size and the page directory, or the free pages that
are left after `bad`. -/
def loadImage (ip : Inode) (free : Nat) : Option (Except Nat (Elfhdr × Nat × Vm)) :=
  match ip.elfhdr with
  | none => some (.error free)
  | some elf =>
    if elf.magic ≠ ELF_MAGIC then some (.error free)
    else
      match setupkvm free with
      | none => some (.error free)
      | some v =>
        (v.loadSegments ip elf.phnum elf.phoff 0).map fun
          | (some sz, v) => .ok (elf, sz, v)
          | (none, v) => .error v.freevm

/-! ### No page is lost -/

namespace Vm

variable {v v' : Vm}

theorem conserves_loadLoop {ip : Inode} {addr offset sz rounds k : Nat} {r : Bool}
    (h : loadLoop ip addr offset sz rounds k v = some (r, v')) : Conserves v v' := by
  induction rounds generalizing k v with
  | zero =>
    cases h
    exact .refl _
  | succ rounds ih =>
    unfold loadLoop at h
    dsimp only at h
    split_ifs at h
    split at h
    · cases h
      exact .refl _
    · exact (conserves_setPage v _ _).trans (ih h)

theorem conserves_loaduvm {ip : Inode} {addr offset sz : Nat} {r : Bool}
    (h : v.loaduvm addr ip offset sz = some (r, v')) : Conserves v v' := by
  unfold loaduvm at h
  split_ifs at h
  exact conserves_loadLoop h

theorem conserves_loadSegments {ip : Inode} {n off sz : Nat} {r : Option Nat}
    (h : loadSegments ip n off sz v = some (r, v')) : Conserves v v' := by
  induction n generalizing off sz v with
  | zero =>
    cases h
    exact .refl _
  | succ n ih =>
    unfold loadSegments at h
    split at h
    · cases h
      exact .refl _
    · next ph _ =>
      split at h
      · exact ih h
      split at h
      · cases h
        exact .refl _
      split at h
      · cases h
        exact .refl _
      obtain ⟨w, hw, h⟩ := Option.bind_eq_some_iff.mp h
      have hc := conserves_allocuvm hw
      split_ifs at h
      · cases h
        exact hc
      · cases h
        exact hc
      · obtain ⟨l, hl, h⟩ := Option.bind_eq_some_iff.mp h
        have hcl := hc.trans (conserves_loaduvm hl)
        split_ifs at h
        · exact hcl.trans (ih h)
        · cases h
          exact hcl

theorem conserves_pushArgs {page0 : Option Page} {argv : List (List Byte)} {argc sp : Nat}
    {ptrs : List Nat} {r : Option (Nat × List Nat)}
    (h : pushArgs page0 argv argc sp ptrs v = some (r, v')) : Conserves v v' := by
  induction argv generalizing argc sp ptrs v with
  | nil =>
    cases h
    exact .refl _
  | cons s argv ih =>
    unfold pushArgs at h
    split_ifs at h
    · cases h
      exact .refl _
    · obtain ⟨w, hw, h⟩ := Option.bind_eq_some_iff.mp h
      have hc := conserves_copyout hw
      split_ifs at h
      · exact hc.trans (ih h)
      · cases h
        exact hc

theorem conserves_buildStack {page0 : Option Page} {sz stacksize : Nat} {argv : List (List Byte)}
    {r : Option (Nat × Nat)} (h : v.buildStack page0 sz stacksize argv = some (r, v')) :
    Conserves v v' := by
  obtain ⟨w, hw, h⟩ := Option.bind_eq_some_iff.mp h
  have hc := conserves_allocuvm hw
  split_ifs at h
  · cases h
    exact hc
  · obtain ⟨x, hx, h⟩ := Option.bind_eq_some_iff.mp h
    obtain ⟨y, hy, h⟩ := Option.bind_eq_some_iff.mp h
    have hcy := (hc.trans (conserves_clearpteu hx)).trans (conserves_pushArgs hy)
    split at h
    · cases h
      exact hcy
    · obtain ⟨z, hz, h⟩ := Option.map_eq_some_iff.mp h
      have hcz := hcy.trans (conserves_copyout hz)
      split_ifs at h
      · cases h
        exact hcz
      · cases h
        exact hcz

end Vm

/-- A failure leaves as much memory as there was; a success has it all in `v`. -/
theorem loadImage_free {ip : Inode} {free : Nat} {r : Except Nat (Elfhdr × Nat × Vm)}
    (h : loadImage ip free = some r) :
    (∀ f, r = .error f → f = free) ∧
      ∀ elf sz v, r = .ok (elf, sz, v) → v.total = free ∧ v.Below := by
  have hbad : ∀ {x : Except Nat (Elfhdr × Nat × Vm)}, some (.error free) = some x →
      (∀ f, x = .error f → f = free) ∧
        ∀ elf sz v, x = .ok (elf, sz, v) → v.total = free ∧ v.Below := by
    rintro x hx
    cases hx
    refine ⟨fun f hf => ?_, fun elf sz v hv => ?_⟩
    · cases hf
      rfl
    · cases hv
  unfold loadImage at h
  split at h
  · exact hbad h
  · split_ifs at h
    · exact hbad h
    · split at h
      · exact hbad h
      · next v hv =>
        obtain ⟨htotal, hbelow⟩ := Vm.setupkvm_total hv
        obtain ⟨w, hw, h⟩ := Option.map_eq_some_iff.mp h
        have hc := Vm.conserves_loadSegments hw
        split at h
        · subst h
          refine ⟨fun f hf => ?_, fun elf sz v hv => ?_⟩
          · cases hf
          · cases hv
            exact ⟨hc.total.trans htotal, hc.below hbelow⟩
        · subst h
          refine ⟨fun f hf => ?_, fun elf sz v hv => ?_⟩
          · cases hf
            exact (hc.freevm_eq hbelow).trans htotal
          · cases hv

end Xv6.Exec
