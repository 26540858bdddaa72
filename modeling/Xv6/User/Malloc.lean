import Mathlib.Logic.Function.Basic
import Xv6.Lib.Transition

/-!
# The allocator of user programs (project3/umalloc.c:11-90)

Memory is counted in headers of eight bytes, and an address is the number of a header. `base` is
the address of the static header, which lies below everything that `sbrk` gives. The loops are
given the number of turns that they may take.
-/

namespace Xv6.Malloc
open Transition

/-- Beside the memory: the value that the last call of `malloc` returned, the headers of the
blocks that are in use, and the memory that `morecore` got. -/
structure Heap where
  ptr : Nat → Nat
  size : Nat → Nat
  freep : Nat
  /-- What `sbrk` returns next. -/
  brk : Nat
  ret : Nat
  used : List Nat
  got : Nat → Bool

inductive Action where
  /-- `ok` says whether the kernel has memory. -/
  | malloc (nbytes : Nat) (ok : Bool)
  | free (ap : Nat)
  /-- The program writes into a block. -/
  | write (a v w : Nat)
  /-- The program calls `sbrk`. -/
  | sbrk (n : Nat)
  deriving DecidableEq

/-- KERNBASE, in headers. -/
def KERNTOP : Nat := 0x80000000 / 8

/-- `nunits` for a size in bytes, in 32 bits. -/
def nunits (nbytes : Nat) : Nat := (nbytes + 8 - 1) % 4294967296 / 8 + 1

namespace Heap

/-- The first loop of `free`. -/
def search (ptr : Nat → Nat) (bp : Nat) : Nat → Nat → Option Nat
  | 0, _ => none
  | fuel + 1, p =>
    if p < bp ∧ bp < ptr p then some p
    else if ptr p ≤ p ∧ (p < bp ∨ bp < ptr p) then some p
    else search ptr bp fuel (ptr p)

/-- The first `if` of `free`: `bp` ends where the next block begins. -/
def joinNext (s : Heap) (bp p : Nat) : Heap :=
  if bp + s.size bp = s.ptr p then { s with
    size := Function.update s.size bp (s.size bp + s.size (s.ptr p))
    ptr := Function.update s.ptr bp (s.ptr (s.ptr p)) }
  else { s with ptr := Function.update s.ptr bp (s.ptr p) }

/-- The second one: `bp` begins where `p` ends. -/
def joinPrev (s : Heap) (bp p : Nat) : Heap :=
  if p + s.size p = bp then { s with
    size := Function.update s.size p (s.size p + s.size bp)
    ptr := Function.update s.ptr p (s.ptr bp) }
  else { s with ptr := Function.update s.ptr p bp }

def link (s : Heap) (bp p : Nat) : Heap :=
  { (s.joinNext bp p).joinPrev bp p with freep := p }

def free (s : Heap) (ap : Nat) : Option Heap :=
  (search s.ptr (ap - 1) (2 * s.brk) s.freep).map fun p => s.link (ap - 1) p

/-- What `sbrk` gives becomes one block. -/
def gain (s : Heap) (nu : Nat) : Heap :=
  { s with
    brk := s.brk + nu
    got := fun m => s.got m || (decide (s.brk ≤ m) && decide (m < s.brk + nu))
    size := Function.update s.size s.brk nu }

/-- `some none`: there is no memory. -/
def morecore (s : Heap) (nu : Nat) (ok : Bool) : Option (Option Heap) :=
  let nu := if nu < 4096 then 4096 else nu
  if ok = true ∧ s.brk + nu < KERNTOP then ((s.gain nu).free (s.brk + 1)).map some
  else some none

/-- The block `p` is large enough: it is taken as a whole, or its end is cut off. -/
def take (s : Heap) (n prevp p : Nat) : Heap :=
  if s.size p = n then { s with
    ptr := Function.update s.ptr prevp (s.ptr p)
    freep := prevp
    ret := p + 1
    used := p :: s.used }
  else
    let q := p + (s.size p - n)
    { s with
      size := Function.update (Function.update s.size p (s.size p - n)) q n
      freep := prevp
      ret := q + 1
      used := q :: s.used }

/-- The loop of `malloc`, where `p` is `prevp->s.ptr`. -/
def mallocLoop (n : Nat) (ok : Bool) : Nat → Heap → Nat → Option Heap
  | 0, _, _ => none
  | fuel + 1, s, prevp =>
    let p := s.ptr prevp
    if n ≤ s.size p then some (s.take n prevp p)
    else if p = s.freep then
      (s.morecore n ok).bind fun
        | none => some { s with ret := 0 }
        | some t => mallocLoop n ok fuel t t.freep
    else mallocLoop n ok fuel s p

def malloc (base : Nat) (s : Heap) (nbytes : Nat) (ok : Bool) : Option Heap :=
  let s :=
    if s.freep = 0 then { s with
      ptr := Function.update s.ptr base base
      freep := base
      size := Function.update s.size base 0 }
    else s
  mallocLoop (nunits nbytes) ok (2 * s.brk + 1) s s.freep

end Heap

/-- The memory in which the program may write: the insides of its blocks, and what the allocator
does not have. -/
def Own (base : Nat) (s : Heap) (a : Nat) : Prop :=
  (∃ u ∈ s.used, u < a ∧ a < u + s.size u) ∨ a < s.brk ∧ s.got a = false ∧ a ≠ base

instance (base : Nat) (s : Heap) (a : Nat) : Decidable (Own base s a) :=
  inferInstanceAs (Decidable (_ ∨ _))

/-- A program asks for less than 2 GB (`sbrk` takes an `int`), gives back what it got, and calls
`sbrk` itself only to grow, by whole headers and below KERNBASE. -/
def Enabled (base : Nat) (s : Heap) : Action → Prop
  | .malloc nbytes _ => nbytes + 15 < 2147483648
  | .free ap => ap - 1 ∈ s.used ∧ 0 < ap
  | .write a _ _ => Own base s a
  | .sbrk n => s.brk + n < KERNTOP

instance (base : Nat) (s : Heap) : (a : Action) → Decidable (Enabled base s a)
  | .malloc nbytes _ => inferInstanceAs (Decidable (nbytes + 15 < 2147483648))
  | .free ap => inferInstanceAs (Decidable (ap - 1 ∈ s.used ∧ 0 < ap))
  | .write a _ _ => inferInstanceAs (Decidable (Own base s a))
  | .sbrk n => inferInstanceAs (Decidable (s.brk + n < KERNTOP))

def step (base : Nat) (s : Heap) (a : Action) : Option Heap :=
  if Enabled base s a then
    match a with
    | .malloc nbytes ok => s.malloc base nbytes ok
    | .free ap => (s.free ap).map fun t => { t with used := t.used.erase (ap - 1) }
    | .write a v w => some { s with
        ptr := Function.update s.ptr a v
        size := Function.update s.size a w }
    | .sbrk n => some { s with brk := s.brk + n }
  else none

/-- A program that has not called `malloc` yet. -/
def fresh (brk : Nat) (ptr size : Nat → Nat) : Heap where
  ptr := ptr
  size := size
  freep := 0
  brk := brk
  ret := 0
  used := []
  got := fun _ => false

end Xv6.Malloc
