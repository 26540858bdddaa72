import Xv6.Fs.Contents
import Xv6.Fs.Inode
import Xv6.Fs.Trunc
import Xv6.Lib.Transition

/-!
# The inode cache (project3/fs.c:194-214, 242-361, iget, ialloc, iput)

The calls of fs.c on the entries of the cache, one after the other. Between them a cached
inode is what the disk has.
-/

namespace Xv6.Fs
open Buffer Forest Transition

/-- Maximum number of active inodes (param.h). -/
def NINODE : Nat := 50

instance : NeZero NINODE := ⟨Nat.succ_ne_zero 49⟩

/-- Directory names (fs.h). -/
def DIRSIZ : Nat := 14

/-- `durable` is the disk as of the last commit. -/
structure Kernel where
  disk : Contents
  durable : Contents
  icache : Fin NINODE → Inode

/-- The entries before `iinit`. -/
def Inode.unset : Inode := ⟨Dinode.zero, 0, 0, false, false, fun _ => 0⟩

/-- What is assigned before an `iupdate` in sys_link, sys_unlink, create and sys_slink. -/
inductive Assign where
  | link
  | unlink
  | create (major minor : BitVec 16)
  | slink (old : List Byte)

/-- `strncpy(path, old, DIRSIZ)`. -/
def strncpy (path : Fin 16 → Byte) (old : List Byte) : Fin 16 → Byte := fun i =>
  if i.val < DIRSIZ then (old.takeWhile (· ≠ 0)).getD i 0 else path i

def Assign.apply : Assign → Inode → Inode
  | .link, ip => { ip with nlink := ip.nlink + 1 }
  | .unlink, ip => { ip with nlink := ip.nlink - 1 }
  | .create major minor, ip => { ip with major := major, minor := minor, nlink := 1 }
  | .slink old, ip => { ip with path := strncpy ip.path old }

section Ops

variable (sb : Superblock)

-- for(inum = 1; inum < sb.ninodes; inum++)
def iallocLoop (type : BitVec 16) : List Nat → Op Nat
  | [] => .panic .iallocNoInodes
  | inum :: inums => do
    let bp ← bread (sb.iblock inum)
    if (decodeDinode bp inum).type = 0 then do
      logWrite (sb.iblock inum) (clearDinode · inum type)
      brelse (sb.iblock inum)
      pure inum
    else do
      brelse (sb.iblock inum)
      iallocLoop type inums

/-- `ialloc` up to `iget`. -/
def ialloc (type : BitVec 16) : Op Nat := iallocLoop sb type (List.range' 1 (sb.ninodes - 1))

/-- The last reference to an inode without links frees it. -/
def iput (ip : Inode) : Op Inode :=
  if ip.locked then .panic .asleep
  else if ip.valid ∧ ip.nlink = 0 ∧ ip.ref = 1 then do
    let ip ← itrunc sb ip
    let ip := { ip with type := 0 }
    iupdate sb ip
    pure { ip with valid := false, ref := ip.ref - 1 }
  else pure { ip with ref := ip.ref - 1 }

/-- An assignment with its `iupdate`. -/
def assign (a : Assign) (ip : Inode) : Op Inode := do
  let ip := a.apply ip
  iupdate sb ip
  pure ip

end Ops

namespace Kernel

def setInode (k : Kernel) (s : Fin NINODE) (ip : Inode) : Kernel :=
  { k with icache := Function.update k.icache s ip }

def setDisk (k : Kernel) (σ : Contents) : Kernel := { k with disk := σ }

def iget (k : Kernel) (inum : Nat) : Except Panic (Fin NINODE × Kernel) :=
  match (List.finRange NINODE).find? fun s => 0 < (k.icache s).ref ∧ (k.icache s).inum = inum with
  | some s => .ok (s, k.setInode s { k.icache s with ref := (k.icache s).ref + 1 })
  | none =>
    match (List.finRange NINODE).find? fun s => (k.icache s).ref = 0 with
    | some s => .ok (s, k.setInode s { k.icache s with inum := inum, ref := 1, valid := false })
    | none => .error .igetNoInodes

/-- Runs code of fs.c on an entry. -/
def on (k : Kernel) (s : Fin NINODE) (p : Inode → Op Inode) : Option Kernel :=
  match (p (k.icache s)).exec k.disk with
  | .ok (ip, σ) => some ((k.setInode s ip).setDisk σ)
  | .error _ => none

/-- The caller has a reference and the lock. -/
def holds (k : Kernel) (s : Fin NINODE) : Prop :=
  1 ≤ (k.icache s).ref ∧ (k.icache s).locked = true ∧ (k.icache s).valid = true

instance (k : Kernel) (s : Fin NINODE) : Decidable (k.holds s) :=
  inferInstanceAs (Decidable (_ ∧ _))

end Kernel

inductive FsAction where
  | iget (inum : Nat)
  | idup (s : Fin NINODE)
  | ilock (s : Fin NINODE)
  | iunlock (s : Fin NINODE)
  | iput (s : Fin NINODE)
  | readi (s : Fin NINODE) (off n : BitVec 32)
  | writei (s : Fin NINODE) (src : List Byte) (off : BitVec 32)
  | ialloc (type : BitVec 16)
  | assign (s : Fin NINODE) (a : Assign)
  | commit
  | reboot

/-- A call of fs.c, a commit or a reboot. After a panic there is no next state. -/
def Kernel.step (sb : Superblock) (devsw : Fin NDEV → Devsw) (k : Kernel) :
    FsAction → Option Kernel
  | .iget inum =>
    if inum < sb.ninodes then
      match k.iget inum with
      | .ok (_, k) => some k
      | .error _ => none
    else none
  | .idup s =>
    if 1 ≤ (k.icache s).ref then
      some (k.setInode s { k.icache s with ref := (k.icache s).ref + 1 })
    else none
  | .ilock s => k.on s (Fs.ilock sb)
  | .iunlock s => k.on s Fs.iunlock
  | .iput s => if 1 ≤ (k.icache s).ref then k.on s (Fs.iput sb) else none
  | .readi s off n =>
    if k.holds s then
      k.on s fun ip => do
        let r ← Fs.readi sb devsw ip off n
        pure r.2.2
    else none
  | .writei s src off =>
    if k.holds s ∧ src.length < 4294967296 then
      k.on s fun ip => do
        let r ← Fs.writei sb devsw ip src off (BitVec.ofNat 32 src.length)
        pure r.2
    else none
  | .ialloc type =>
    if type = 0 then none
    else
      match (Fs.ialloc sb type).exec k.disk with
      | .ok (inum, σ) =>
        match (k.setDisk σ).iget inum with
        | .ok (_, k) => some k
        | .error _ => none
      | .error _ => none
  | .assign s a => if k.holds s then k.on s (Fs.assign sb a) else none
  | .commit => some { k with durable := k.disk }
  | .reboot => some { k with disk := k.durable, icache := fun _ => Inode.unset }

/-! ### Sound disks -/

/-- The `addrs` of the inodes on disk. -/
def table (sb : Superblock) (σ : Contents) : AddrTable := fun i => (dinode sb σ i).addrs

/-- The blocks are where the inodes on disk say, files have no holes, and free inodes have no
blocks. -/
structure Sound (sb : Superblock) (σ : Contents) : Prop where
  consistent : Consistent sb (table sb σ) σ
  noHoles : ∀ i, i < sb.ninodes → NoHoles (table sb σ) σ i (dinode sb σ i).size.toNat
  free : ∀ i, i < sb.ninodes → (dinode sb σ i).type = 0 → (dinode sb σ i).addrs = fun _ => 0

section Sound

variable {sb : Superblock} {devsw : Fin NDEV → Devsw} {T T' : AddrTable} {σ τ : Contents}
  {ip ip' : Inode} {i : Nat}

theorem blockAt_congr_table (h : ∀ j, j < sb.ninodes → T' j = T j) {p : Place}
    (hp : (shape sb).Valid p) : blockAt T' σ p = blockAt T σ p := by
  have hroot : ∀ r : Nat × Fin 9, r.1 < sb.ninodes →
      (forest T' σ).root r = (forest T σ).root r := by
    intro r hr
    show (T' r.1 r.2).toNat = (T r.1 r.2).toNat
    rw [h r.1 hr]
  exact ref_congr (hroot p.1 hp.1) (fun js _ _ j => rfl) hp

theorem Consistent.congr_table (h : ∀ j, j < sb.ninodes → T' j = T j)
    (hc : Consistent sb T σ) : Consistent sb T' σ := by
  have hroot : ∀ r : Nat × Fin 9, r.1 < sb.ninodes →
      (forest T' σ).root r = (forest T σ).root r := by
    intro r hr
    show (T' r.1 r.2).toNat = (T r.1 r.2).toNat
    rw [h r.1 hr]
  exact ⟨hc.owns.congr hroot fun i js _ _ j => rfl, hc.marked⟩

theorem NoHoles.congr {n : Nat} (h : NoHoles T σ i n)
    (heq : ∀ bn, blockAt T' τ (place i bn) = blockAt T σ (place i bn)) : NoHoles T' τ i n := by
  refine ⟨h.le, ?_⟩
  intro o ho
  unfold Present
  rw [heq]
  exact h.present o ho

/-- The inodes on disk may be read off another table. -/
theorem Sound.of_table (hc : Consistent sb T τ)
    (hT : ∀ j, j < sb.ninodes → (dinode sb τ j).addrs = T j)
    (hh : ∀ j, j < sb.ninodes → NoHoles T τ j (dinode sb τ j).size.toNat)
    (hf : ∀ j, j < sb.ninodes → (dinode sb τ j).type = 0 → (dinode sb τ j).addrs = fun _ => 0) :
    Sound sb τ := by
  have htable : ∀ j, j < sb.ninodes → table sb τ j = T j := hT
  constructor
  · exact hc.congr_table htable
  · intro j hj
    apply (hh j hj).congr
    intro bn
    exact blockAt_congr_table htable (leaf_place hj bn).valid
  · exact hf

/-- One inode is given other fields and other blocks. -/
theorem Sound.change (h : Sound sb σ) {a : Fin 9 → BitVec 32}
    (hc : Consistent sb (Function.update (table sb σ) i a) τ) (ha : (dinode sb τ i).addrs = a)
    (hh : NoHoles (Function.update (table sb σ) i a) τ i (dinode sb τ i).size.toNat)
    (hfree : (dinode sb τ i).type = 0 → a = fun _ => 0)
    (hd : ∀ j, j ≠ i → j < sb.ninodes → dinode sb τ j = dinode sb σ j)
    (hb : ∀ j, j ≠ i → j < sb.ninodes → ∀ bn,
      blockAt (Function.update (table sb σ) i a) τ (place j bn)
        = blockAt (table sb σ) σ (place j bn)) : Sound sb τ := by
  apply Sound.of_table hc
  · intro j hj
    by_cases hji : j = i
    · rw [hji, ha, Function.update_self]
    · rw [hd j hji hj, Function.update_of_ne hji]
      rfl
  · intro j hj
    by_cases hji : j = i
    · rw [hji]
      exact hh
    · rw [hd j hji hj]
      exact (h.noHoles j hj).congr (hb j hji hj)
  · intro j hj ht
    by_cases hji : j = i
    · rw [hji, ha]
      apply hfree
      rw [← hji]
      exact ht
    · rw [hd j hji hj] at ht ⊢
      exact h.free j hj ht

/-- One inode is written to its block with the blocks that it has. -/
theorem Sound.change_low (h : Sound sb σ) (hi : i < sb.ninodes)
    (hlow : ∀ b, sb.bmapstart ≤ b → τ b = σ b)
    (hd : ∀ j, j ≠ i → j < sb.ninodes → dinode sb τ j = dinode sb σ j)
    (ha : (dinode sb τ i).addrs = (dinode sb σ i).addrs)
    (hs : (dinode sb τ i).size = (dinode sb σ i).size)
    (hfree : (dinode sb τ i).type = 0 → (dinode sb σ i).addrs = fun _ => 0) : Sound sb τ := by
  have hmap := h.consistent.sameMap_low hlow
  have hself : Function.update (table sb σ) i (dinode sb σ i).addrs = table sb σ :=
    Function.update_eq_self i (table sb σ)
  have hat : ∀ j, j < sb.ninodes → ∀ bn,
      blockAt (table sb σ) τ (place j bn) = blockAt (table sb σ) σ (place j bn) :=
    fun j hj bn => hmap.blockAt_eq (leaf_place hj bn).valid
  have hholes : NoHoles (table sb σ) τ i (dinode sb τ i).size.toNat := by
    rw [hs]
    exact (h.noHoles i hi).congr (hat i hi)
  rw [← hself] at hholes hat
  apply h.change _ ha hholes hfree hd
  · intro j _ hj bn
    rw [hat j hj bn, hself]
  · rw [hself]
    exact hmap.consistent h.consistent

theorem Sound.after_iupdate (h : Sound sb σ) (hi : i < sb.ninodes) {d : Dinode}
    (ha : d.addrs = (dinode sb σ i).addrs) (hs : d.size = (dinode sb σ i).size)
    (hfree : d.type = 0 → d.addrs = fun _ => 0) : Sound sb (updated sb σ i d) := by
  have hself : dinode sb (updated sb σ i d) i = d := dinode_updated_self d
  apply h.change_low hi
  · intro b hb
    exact updated_high hi d hb
  · intro j hj _
    exact dinode_updated_ne d hj
  · rw [hself]
    exact ha
  · rw [hself]
    exact hs
  · rw [hself, ← ha]
    exact hfree

/-! ### The calls on sound disks -/

/-- The entry of an inode in use, as the disk has it. -/
def Cached (sb : Superblock) (σ : Contents) (ip : Inode) : Prop :=
  ip.toDinode = dinode sb σ ip.inum ∧ ip.type ≠ 0

/-- What a call may leave of the inode `ip`: the disk has it as it is now. -/
structure Leaves (sb : Superblock) (σ : Contents) (ip ip' : Inode) (τ : Contents) : Prop where
  sound : Sound sb τ
  inum : ip'.inum = ip.inum
  others : ∀ j, j ≠ ip.inum → j < sb.ninodes → dinode sb τ j = dinode sb σ j
  cached : ip'.valid = true → Cached sb τ ip'

theorem Leaves.same (ip : Inode) (h : Sound sb σ) (hinum : ip'.inum = ip.inum)
    (hc : ip'.valid = true → Cached sb σ ip') : Leaves sb σ ip ip' σ :=
  ⟨h, hinum, fun _ _ _ => rfl, hc⟩

theorem Cached.congr (hc : Cached sb σ ip) (hd : dinode sb τ ip.inum = dinode sb σ ip.inum) :
    Cached sb τ ip := by
  refine ⟨?_, hc.2⟩
  rw [hd]
  exact hc.1

theorem Cached.addrs (hc : Cached sb σ ip) : table sb σ ip.inum = ip.addrs := by
  rw [hc.1]
  rfl

theorem Cached.noHoles (hc : Cached sb σ ip) (h : Sound sb σ) (hi : ip.inum < sb.ninodes) :
    NoHoles (table sb σ) σ ip.inum ip.size.toNat := by
  have hh := h.noHoles ip.inum hi
  rw [← hc.1] at hh
  exact hh

theorem length_eq_toNat {src : List Byte} (h : src.length < 4294967296) :
    src.length = (BitVec.ofNat 32 src.length).toNat := by
  rw [BitVec.toNat_ofNat]
  omega

theorem Sound.after_writei {src : List Byte} {off n : BitVec 32} {res : Int} (h : Sound sb σ)
    (hi : ip.inum < sb.ninodes) (hc : Cached sb σ ip) (hlen : src.length = n.toNat)
    (hexec : (writei sb devsw ip src off n).exec σ = .ok ((res, ip'), τ)) :
    Leaves sb σ ip ip' τ ∧ ip' = { ip with addrs := ip'.addrs, size := ip'.size } := by
  by_cases hdev : ip.type = T_DEV
  · unfold Fs.writei at hexec
    rw [if_pos hdev] at hexec
    have hsame : ip' = ip ∧ τ = σ := by
      cases hw : (device devsw ip.major).bind Devsw.write with
      | none =>
        rw [hw] at hexec
        cases hexec
        exact ⟨rfl, rfl⟩
      | some write =>
        rw [hw] at hexec
        cases hexec
        exact ⟨rfl, rfl⟩
    obtain ⟨rfl, rfl⟩ := hsame
    exact ⟨Leaves.same _ h rfl fun _ => hc, rfl⟩
  by_cases hbad : BadRange ip off n
  · rw [writei_bad hdev hbad] at hexec
    cases hexec
    exact ⟨Leaves.same _ h rfl fun _ => hc, rfl⟩
  unfold BadRange at hbad
  rw [not_or, not_or, Nat.not_lt, Nat.not_le, Nat.not_lt] at hbad
  have hspec := writei_spec (H := fun _ => True) devsw h.consistent hc.addrs hi hdev
    (hc.noHoles h hi) hbad.1 hbad.2.2 hlen (Or.inl trivial)
  obtain ⟨-, hw⟩ := wp_result hspec hexec
  dsimp only at hw
  have hinum : ip'.inum = ip.inum := by rw [hw.inode]
  have htype : ip'.type = ip.type := by rw [hw.inode]
  have hsaved : dinode sb τ ip.inum = ip'.toDinode := hw.saved hc.1.symm
  have hne : ip'.type ≠ 0 := by
    rw [htype]
    exact hc.2
  refine ⟨⟨?_, hinum, hw.dinodes, ?_⟩, hw.inode⟩
  · apply h.change hw.consistent
    · rw [hsaved]
    · rw [hsaved]
      exact hw.noHoles
    · intro ht
      rw [hsaved] at ht
      exact absurd ht hne
    · exact hw.dinodes
    · intro j hj hjn bn
      exact (hw.others j hj hjn bn).1
  · intro _
    refine ⟨?_, hne⟩
    rw [hinum, hsaved]

theorem Sound.readi_does (h : Sound sb σ) (hi : ip.inum < sb.ninodes) (hc : Cached sb σ ip)
    (off n : BitVec 32) : ∃ res bs, Does (readi sb devsw ip off n) σ (res, bs, ip) σ ∅ := by
  by_cases hdev : ip.type = T_DEV
  · unfold readi
    rw [if_pos hdev]
    cases (device devsw ip.major).bind Devsw.read with
    | none => exact ⟨-1, [], Does.pure _ _⟩
    | some read => exact ⟨(read ip n).1, (read ip n).2, Does.pure _ _⟩
  by_cases hbad : ip.size < off ∨ off + n < off
  · unfold readi
    rw [if_neg hdev, if_pos hbad]
    exact ⟨-1, [], Does.pure _ _⟩
  rw [not_or, BitVec.lt_def, BitVec.lt_def, BitVec.toNat_add] at hbad
  have hoff := off.isLt
  have hn := n.isLt
  have hspec := @readi_spec σ (fun _ => False) (fun _ => False) _ ip sb devsw off n
    hc.addrs hdev (hc.noHoles h hi) (by omega) (by omega)
  obtain ⟨a, τ, hexec, rfl, rfl⟩ := wp_total hspec
  exact ⟨_, _, does_of_wp hspec hexec⟩

theorem noHoles_of_size {T : AddrTable} {σ : Contents} {i : Nat} {size : BitVec 32}
    (h : size = 0) : NoHoles T σ i size.toNat := by
  rw [h]
  exact noHoles_zero T σ i

theorem Sound.after_itrunc (h : Sound sb σ) (ht : Truncated sb (table sb σ) σ ip ip' τ) :
    Sound sb τ := by
  have haddrs : (dinode sb τ ip.inum).addrs = fun _ => 0 := by rw [ht.saved, ht.inode]
  have hsize : (dinode sb τ ip.inum).size = 0 := by rw [ht.saved, ht.inode]
  apply h.change ht.consistent haddrs
  · exact noHoles_of_size hsize
  · intro _
    rfl
  · exact ht.dinodes
  · exact ht.others

theorem Sound.after_iput (h : Sound sb σ) (hi : ip.inum < sb.ninodes)
    (hc : ip.valid = true → Cached sb σ ip)
    (hexec : (iput sb ip).exec σ = .ok (ip', τ)) : Leaves sb σ ip ip' τ := by
  unfold iput at hexec
  by_cases hl : ip.locked = true
  · rw [if_pos hl] at hexec
    cases hexec
  rw [if_neg hl] at hexec
  by_cases hfree : ip.valid = true ∧ ip.nlink = 0 ∧ ip.ref = 1
  · rw [if_pos hfree] at hexec
    refine wp_result (H := fun _ => True) (W := sb.Logged) ?_ hexec
    apply wp_seq (itrunc_spec h.consistent (hc hfree.1).addrs hi)
    intro ip1 σ1 ht
    have hs1 := h.after_itrunc ht
    have hinum : ip1.inum = ip.inum := by rw [ht.inode]
    have hsaved := ht.saved
    rw [← hinum] at hi hsaved
    apply wp_seq (iupdate_spec _)
    rintro _ _ rfl
    apply wp_pure
    refine ⟨?_, hinum, ?_, ?_⟩
    · apply hs1.after_iupdate hi
      · rw [hsaved]
      · rw [hsaved]
      · intro _
        rw [ht.inode]
    · intro j hj hjn
      have hj' : j ≠ ip1.inum := by
        rw [hinum]
        exact hj
      rw [dinode_updated_ne _ hj']
      exact ht.dinodes j hj hjn
    · intro hv
      cases hv
  · rw [if_neg hfree] at hexec
    cases hexec
    exact Leaves.same _ h rfl hc

theorem Sound.after_assign (h : Sound sb σ) (hi : ip.inum < sb.ninodes) (hc : Cached sb σ ip)
    (a : Assign) (hexec : (assign sb a ip).exec σ = .ok (ip', τ)) :
    Leaves sb σ ip ip' τ ∧ ip' = a.apply ip := by
  have heq : ip' = a.apply ip ∧ τ = updated sb σ (a.apply ip).inum (a.apply ip).toDinode := by
    cases hexec
    exact ⟨rfl, rfl⟩
  obtain ⟨rfl, rfl⟩ := heq
  have hinum : (a.apply ip).inum = ip.inum := by cases a <;> rfl
  have haddrs : (a.apply ip).addrs = ip.addrs := by cases a <;> rfl
  have hsize : (a.apply ip).size = ip.size := by cases a <;> rfl
  have htype : (a.apply ip).type = ip.type := by cases a <;> rfl
  have hne : (a.apply ip).type ≠ 0 := by
    rw [htype]
    exact hc.2
  rw [hinum]
  refine ⟨⟨?_, hinum, ?_, ?_⟩, rfl⟩
  · apply h.after_iupdate hi
    · rw [haddrs, hc.1]
    · rw [hsize, hc.1]
    · intro ht
      exact absurd ht hne
  · intro j hj _
    exact dinode_updated_ne _ hj
  · intro _
    refine ⟨?_, hne⟩
    rw [hinum, dinode_updated_self]

/-- When `ilock` returns, the entry has what was cached or what is on disk. -/
theorem ilock_exec (hexec : (ilock sb ip).exec σ = .ok (ip', τ)) :
    ip' = ip.held sb σ ∧ τ = σ ∧ 1 ≤ ip.ref ∧ (ip.valid = false → ip'.type ≠ 0) := by
  have href : 1 ≤ ip.ref := by
    by_contra hlt
    unfold ilock at hexec
    rw [if_pos (by omega)] at hexec
    cases hexec
  have hfree : ip.locked = false := by
    by_contra hl
    unfold ilock at hexec
    rw [if_neg (by omega), if_pos (Bool.not_eq_false _ ▸ hl)] at hexec
    cases hexec
  have htype : ip.valid = true ∨ (ip.current sb σ).type ≠ 0 := by
    by_contra hno
    rw [not_or, not_not] at hno
    have hcur : ip.current sb σ = dinode sb σ ip.inum := if_neg hno.1
    rw [hcur] at hno
    unfold ilock at hexec
    rw [if_neg (by omega), hfree, if_neg Bool.false_ne_true, if_neg hno.1] at hexec
    have hno' : (decodeDinode (σ (sb.iblock ip.inum)) ip.inum).type = 0 := hno.2
    have hstop : (if (decodeDinode (σ (sb.iblock ip.inum)) ip.inum).type = 0 then
        (Op.panic .ilockNoType : Op Inode) else pure { ip with
          toDinode := decodeDinode (σ (sb.iblock ip.inum)) ip.inum, locked := true, valid := true }).exec
        σ = .ok (ip', τ) := hexec
    rw [if_pos hno'] at hstop
    cases hstop
  rw [(ilock_does href hfree htype).exec] at hexec
  cases hexec
  refine ⟨rfl, rfl, href, ?_⟩
  intro hv
  apply htype.resolve_left
  rw [hv]
  exact Bool.false_ne_true

theorem iunlock_exec (hexec : (iunlock ip).exec σ = .ok (ip', τ)) :
    ip' = { ip with locked := false } ∧ τ = σ ∧ 1 ≤ ip.ref := by
  unfold iunlock at hexec
  by_cases hno : ¬ ip.locked = true ∨ ip.ref < 1
  · rw [if_pos hno] at hexec
    cases hexec
  · rw [if_neg hno] at hexec
    cases hexec
    exact ⟨rfl, rfl, by omega⟩

theorem Sound.after_ilock (h : Sound sb σ) (hc : ip.valid = true → Cached sb σ ip)
    (hexec : (ilock sb ip).exec σ = .ok (ip', τ)) : Leaves sb σ ip ip' τ := by
  obtain ⟨rfl, rfl, -, htype⟩ := ilock_exec hexec
  refine Leaves.same _ h rfl ?_
  intro _
  by_cases hv : ip.valid = true
  · have hcur : ip.current sb τ = ip.toDinode := if_pos hv
    have hheld : (ip.held sb τ).toDinode = ip.toDinode := hcur
    refine ⟨?_, ?_⟩
    · rw [hheld]
      exact (hc hv).1
    · rw [hheld]
      exact (hc hv).2
  · refine ⟨?_, htype (Bool.not_eq_true _ ▸ hv)⟩
    exact if_neg hv

/-- `ialloc` takes a free inode. -/
theorem iallocLoop_spec {type : BitVec 16} (inums : List Nat) (hlt : ∀ i ∈ inums, i < sb.ninodes) :
    (iallocLoop sb type inums).wp (fun _ => True) sb.Logged (fun inum τ => inum < sb.ninodes ∧
      (dinode sb σ inum).type = 0 ∧
      τ = Function.update σ (sb.iblock inum) (clearDinode (σ (sb.iblock inum)) inum type)) σ := by
  induction inums with
  | nil => exact wp_panic trivial
  | cons inum inums ih =>
    apply wp_bind
    apply wp_bread
    by_cases ht : (decodeDinode (σ (sb.iblock inum)) inum).type = 0
    · rw [if_pos ht]
      apply wp_bind
      apply wp_logWrite (Superblock.logged_iblock inum)
      apply wp_bind
      apply wp_brelse
      apply wp_pure
      exact ⟨hlt inum List.mem_cons_self, ht, rfl⟩
    · rw [if_neg ht]
      apply wp_bind
      apply wp_brelse
      apply ih
      intro i hi
      exact hlt i (List.mem_cons_of_mem _ hi)

theorem Sound.after_ialloc {type : BitVec 16} {inum : Nat} (h : Sound sb σ)
    (hexec : (ialloc sb type).exec σ = .ok (inum, τ)) :
    Sound sb τ ∧ inum < sb.ninodes ∧ (dinode sb σ inum).type = 0 ∧
      dinode sb τ inum = { Dinode.zero with type := type } ∧
      ∀ j, j ≠ inum → dinode sb τ j = dinode sb σ j := by
  have hrange : ∀ i ∈ List.range' 1 (sb.ninodes - 1), i < sb.ninodes := by
    intro i hi
    rw [List.mem_range'_1] at hi
    omega
  obtain ⟨hi, hfree, rfl⟩ := wp_result (iallocLoop_spec _ hrange) hexec
  have hself : dinode sb (Function.update σ (sb.iblock inum)
      (clearDinode (σ (sb.iblock inum)) inum type)) inum = { Dinode.zero with type := type } := by
    unfold dinode
    rw [Function.update_self]
    exact decodeDinode_clearDinode _ _ _
  have hother : ∀ j, j ≠ inum → dinode sb (Function.update σ (sb.iblock inum)
      (clearDinode (σ (sb.iblock inum)) inum type)) j = dinode sb σ j := by
    intro j hj
    unfold dinode
    by_cases hb : sb.iblock j = sb.iblock inum
    · rw [hb, Function.update_self]
      exact decodeDinode_clearDinode_ne _ _ (iblock_mod_ne hb.symm (Ne.symm hj))
    · rw [Function.update_of_ne hb]
  refine ⟨?_, hi, hfree, hself, hother⟩
  have hlow : ∀ b, sb.bmapstart ≤ b → Function.update σ (sb.iblock inum)
      (clearDinode (σ (sb.iblock inum)) inum type) b = σ b := by
    intro b hb
    have hlt := Superblock.iblock_lt hi
    exact Function.update_of_ne (by omega) _ _
  have ha : (dinode sb σ inum).addrs = fun _ => 0 := h.free inum hi hfree
  have hT : Function.update (table sb σ) inum (fun _ => 0) = table sb σ := by
    rw [← ha]
    exact Function.update_eq_self inum (table sb σ)
  have hmap := h.consistent.sameMap_low hlow
  apply h.change (i := inum) (a := fun _ => 0)
  · rw [hT]
    exact hmap.consistent h.consistent
  · rw [hself]
    rfl
  · apply noHoles_of_size
    rw [hself]
    rfl
  · intro _
    rfl
  · intro j hj _
    exact hother j hj
  · intro j _ hj bn
    rw [hT]
    exact hmap.blockAt_eq (leaf_place hj bn).valid

end Sound

/-! ### The invariant of the cache -/

namespace Kernel

@[simp] theorem setInode_disk (k : Kernel) (s : Fin NINODE) (ip : Inode) :
    (k.setInode s ip).disk = k.disk := rfl

@[simp] theorem setInode_durable (k : Kernel) (s : Fin NINODE) (ip : Inode) :
    (k.setInode s ip).durable = k.durable := rfl

@[simp] theorem setDisk_disk (k : Kernel) (σ : Contents) : (k.setDisk σ).disk = σ := rfl

@[simp] theorem setDisk_icache (k : Kernel) (σ : Contents) : (k.setDisk σ).icache = k.icache := rfl

@[simp] theorem setInode_self (k : Kernel) (s : Fin NINODE) (ip : Inode) :
    (k.setInode s ip).icache s = ip := Function.update_self ..

theorem setInode_ne (k : Kernel) {s t : Fin NINODE} (ip : Inode) (h : t ≠ s) :
    (k.setInode s ip).icache t = k.icache t := Function.update_of_ne h ..

/-- Both disks are sound, an inode has one entry at most, and the valid entries are as on
disk. -/
structure Inv (sb : Superblock) (k : Kernel) : Prop where
  disk : Sound sb k.disk
  durable : Sound sb k.durable
  inum : ∀ s, 1 ≤ (k.icache s).ref → (k.icache s).inum < sb.ninodes
  uniq : ∀ s t, 1 ≤ (k.icache s).ref → 1 ≤ (k.icache t).ref →
    (k.icache s).inum = (k.icache t).inum → s = t
  cached : ∀ s, 1 ≤ (k.icache s).ref → (k.icache s).valid = true → Cached sb k.disk (k.icache s)

variable {sb : Superblock} {devsw : Fin NDEV → Devsw} {k k' : Kernel} {s : Fin NINODE} {σ : Contents}
  {ip ip' : Inode} {inum : Nat}

theorem on_eq_some {p : Inode → Op Inode} (h : k.on s p = some k') :
    ∃ ip σ, (p (k.icache s)).exec k.disk = .ok (ip, σ) ∧ k' = (k.setInode s ip).setDisk σ := by
  unfold on at h
  cases hp : (p (k.icache s)).exec k.disk with
  | error e =>
    rw [hp] at h
    cases h
  | ok r =>
    rw [hp] at h
    cases h
    exact ⟨r.1, r.2, rfl, rfl⟩

/-- The entry that `iget` returns: it has the inode already, or nobody uses it. -/
theorem iget_eq_ok (h : k.iget inum = .ok (s, k')) :
    (1 ≤ (k.icache s).ref ∧ (k.icache s).inum = inum ∧
      k' = k.setInode s { k.icache s with ref := (k.icache s).ref + 1 }) ∨
    ((k.icache s).ref = 0 ∧ (∀ t, 1 ≤ (k.icache t).ref → (k.icache t).inum ≠ inum) ∧
      k' = k.setInode s { k.icache s with inum := inum, ref := 1, valid := false }) := by
  unfold iget at h
  cases hfind : (List.finRange NINODE).find? fun s =>
      0 < (k.icache s).ref ∧ (k.icache s).inum = inum with
  | some t =>
    rw [hfind] at h
    cases h
    have ht := List.find?_some hfind
    rw [decide_eq_true_eq] at ht
    exact Or.inl ⟨ht.1, ht.2, rfl⟩
  | none =>
    rw [hfind] at h
    have hnone := List.find?_eq_none.mp hfind
    cases hempty : (List.finRange NINODE).find? fun s => (k.icache s).ref = 0 with
    | none =>
      rw [hempty] at h
      cases h
    | some t =>
      rw [hempty] at h
      cases h
      have ht := List.find?_some hempty
      rw [decide_eq_true_eq] at ht
      refine Or.inr ⟨ht, ?_, rfl⟩
      intro u hu heq
      exact hnone u (List.mem_finRange u) (decide_eq_true ⟨hu, heq⟩)

/-- The entries in use are as before, or on the inode that was locked. -/
theorem Inv.of_entries (h : k.Inv sb) (hdisk : Sound sb k'.disk) (hdurable : Sound sb k'.durable)
    (hkeep : ∀ t, 1 ≤ (k'.icache t).ref → 1 ≤ (k.icache t).ref ∧
      (k'.icache t).inum = (k.icache t).inum)
    (hcached : ∀ t, 1 ≤ (k'.icache t).ref → (k'.icache t).valid = true →
      Cached sb k'.disk (k'.icache t)) : k'.Inv sb := by
  refine ⟨hdisk, hdurable, ?_, ?_, hcached⟩
  · intro t ht
    obtain ⟨hold, hinum⟩ := hkeep t ht
    rw [hinum]
    exact h.inum t hold
  · intro t u ht hu heq
    obtain ⟨htold, htinum⟩ := hkeep t ht
    obtain ⟨huold, huinum⟩ := hkeep u hu
    rw [htinum, huinum] at heq
    exact h.uniq t u htold huold heq

theorem Inv.entry (h : k.Inv sb) (href : 1 ≤ (k.icache s).ref)
    (hl : Leaves sb k.disk (k.icache s) ip' σ) : ((k.setInode s ip').setDisk σ).Inv sb := by
  have hself : (k.setInode s ip').icache s = ip' := k.setInode_self s ip'
  have hother : ∀ t, t ≠ s → (k.setInode s ip').icache t = k.icache t :=
    fun t ht => k.setInode_ne ip' ht
  refine h.of_entries hl.sound h.durable ?_ ?_
  · intro t ht
    by_cases hts : t = s
    · rw [hts]
      refine ⟨href, ?_⟩
      show ((k.setInode s ip').icache s).inum = _
      rw [hself]
      exact hl.inum
    · have ht' : 1 ≤ ((k.setInode s ip').icache t).ref := ht
      rw [hother t hts] at ht'
      refine ⟨ht', ?_⟩
      show ((k.setInode s ip').icache t).inum = _
      rw [hother t hts]
  · intro t ht hv
    have ht' : 1 ≤ ((k.setInode s ip').icache t).ref := ht
    have hv' : ((k.setInode s ip').icache t).valid = true := hv
    show Cached sb σ ((k.setInode s ip').icache t)
    by_cases hts : t = s
    · rw [hts, hself] at hv' ⊢
      exact hl.cached hv'
    · rw [hother t hts] at ht' hv' ⊢
      apply (h.cached t ht' hv').congr
      apply hl.others _ _ (h.inum t ht')
      intro heq
      exact hts (h.uniq t s ht' href heq)

/-- An entry nobody uses is taken for an inode that no entry has. -/
theorem Inv.recycle (h : k.Inv sb) (hi : inum < sb.ninodes)
    (hnew : ∀ t, 1 ≤ (k.icache t).ref → (k.icache t).inum ≠ inum) :
    (k.setInode s { k.icache s with inum := inum, ref := 1, valid := false }).Inv sb := by
  generalize hip : ({ k.icache s with inum := inum, ref := 1, valid := false } : Inode) = ip'
  have hinum : ip'.inum = inum := by rw [← hip]
  have hvalid : ip'.valid = false := by rw [← hip]
  have hself : (k.setInode s ip').icache s = ip' := k.setInode_self s ip'
  have hother : ∀ t, t ≠ s → (k.setInode s ip').icache t = k.icache t :=
    fun t ht => k.setInode_ne ip' ht
  constructor
  · exact h.disk
  · exact h.durable
  · intro t ht
    by_cases hts : t = s
    · rw [hts, hself, hinum]
      exact hi
    · rw [hother t hts] at ht ⊢
      exact h.inum t ht
  · intro t u ht hu heq
    by_cases hts : t = s
    · by_cases hus : u = s
      · rw [hts, hus]
      · rw [hother u hus] at hu heq
        rw [hts, hself, hinum] at heq
        exact absurd heq.symm (hnew u hu)
    · rw [hother t hts] at ht heq
      by_cases hus : u = s
      · rw [hus, hself, hinum] at heq
        exact absurd heq (hnew t ht)
      · rw [hother u hus] at hu heq
        exact h.uniq t u ht hu heq
  · intro t ht hv
    by_cases hts : t = s
    · rw [hts, hself, hvalid] at hv
      cases hv
    · rw [hother t hts] at ht hv ⊢
      exact h.cached t ht hv

theorem Inv.iget (h : k.Inv sb) (hi : inum < sb.ninodes) (hk : k.iget inum = .ok (s, k')) :
    k'.Inv sb := by
  rcases iget_eq_ok hk with ⟨href, -, rfl⟩ | ⟨-, hnew, rfl⟩
  · apply h.entry (σ := k.disk) href
    refine Leaves.same _ h.disk rfl ?_
    intro hv
    exact h.cached s href hv
  · exact h.recycle hi hnew

/-- `ialloc` writes an inode that no valid entry has. -/
theorem Inv.ialloc {type : BitVec 16} (h : k.Inv sb)
    (hexec : (Fs.ialloc sb type).exec k.disk = .ok (inum, σ)) :
    (k.setDisk σ).Inv sb ∧ inum < sb.ninodes := by
  obtain ⟨hs, hi, hfree, -, hother⟩ := h.disk.after_ialloc hexec
  refine ⟨?_, hi⟩
  refine h.of_entries hs h.durable ?_ ?_
  · intro t ht
    exact ⟨ht, rfl⟩
  · intro t ht hv
    have hc := h.cached t ht hv
    apply hc.congr
    apply hother
    intro heq
    have htype := hc.2
    rw [hc.1, heq] at htype
    exact htype hfree

/-- The entry in a state that `holds` is the one on disk. -/
theorem Inv.held (h : k.Inv sb) (hs : k.holds s) :
    (k.icache s).inum < sb.ninodes ∧ Cached sb k.disk (k.icache s) :=
  ⟨h.inum s hs.1, h.cached s hs.1 hs.2.2⟩

theorem Inv.booted (h : Sound sb σ) : Inv sb ⟨σ, σ, fun _ => Inode.unset⟩ := by
  have hunset : ¬ 1 ≤ Inode.unset.ref := by decide
  refine ⟨h, h, ?_, ?_, ?_⟩
  · intro s hs
    exact absurd hs hunset
  · intro s t hs
    exact absurd hs hunset
  · intro s hs
    exact absurd hs hunset

/-- What the calls on one entry leave of it. -/
theorem Inv.leaves (h : k.Inv sb) (href : 1 ≤ (k.icache s).ref) {p : Inode → Op Inode}
    (hp : ∀ ip' σ, (p (k.icache s)).exec k.disk = .ok (ip', σ) →
      Leaves sb k.disk (k.icache s) ip' σ) (hk : k.on s p = some k') : k'.Inv sb := by
  obtain ⟨ip', σ, hexec, rfl⟩ := on_eq_some hk
  exact h.entry href (hp ip' σ hexec)

theorem Inv.step {a : FsAction} (h : k.Inv sb) (hk : k.step sb devsw a = some k') : k'.Inv sb := by
  cases a with
  | iget inum =>
    obtain ⟨hi, hk⟩ := Option.ite_none_right_eq_some.mp hk
    cases hget : k.iget inum with
    | error e =>
      rw [hget] at hk
      cases hk
    | ok r =>
      rw [hget] at hk
      cases hk
      exact h.iget hi hget
  | idup s =>
    obtain ⟨href, hk⟩ := Option.ite_none_right_eq_some.mp hk
    cases hk
    apply h.entry (σ := k.disk) href
    refine Leaves.same _ h.disk rfl ?_
    intro hv
    exact h.cached s href hv
  | ilock s =>
    obtain ⟨ip', σ, hexec, rfl⟩ := on_eq_some hk
    have href := (ilock_exec hexec).2.2.1
    apply h.entry href
    exact h.disk.after_ilock (h.cached s href) hexec
  | iunlock s =>
    obtain ⟨ip', σ, hexec, rfl⟩ := on_eq_some hk
    obtain ⟨rfl, rfl, href⟩ := iunlock_exec hexec
    apply h.entry href
    refine Leaves.same _ h.disk rfl ?_
    intro hv
    exact h.cached s href hv
  | iput s =>
    obtain ⟨href, hk⟩ := Option.ite_none_right_eq_some.mp hk
    refine h.leaves href ?_ hk
    intro ip' σ hexec
    exact h.disk.after_iput (h.inum s href) (h.cached s href) hexec
  | readi s off n =>
    obtain ⟨hs, hk⟩ := Option.ite_none_right_eq_some.mp hk
    obtain ⟨hi, hc⟩ := h.held hs
    refine h.leaves hs.1 ?_ hk
    intro ip' σ hexec
    obtain ⟨res, bs, hdo⟩ := @Sound.readi_does _ devsw _ _ h.disk hi hc off n
    rw [exec_bind _ hdo.exec] at hexec
    cases hexec
    exact Leaves.same _ h.disk rfl fun _ => hc
  | writei s src off =>
    obtain ⟨⟨hs, hlen⟩, hk⟩ := Option.ite_none_right_eq_some.mp hk
    obtain ⟨hi, hc⟩ := h.held hs
    refine h.leaves hs.1 ?_ hk
    intro ip' σ hexec
    obtain ⟨⟨res, ip1⟩, σ1, hwrite, hpure⟩ := exec_bind_ok hexec
    cases hpure
    exact (h.disk.after_writei hi hc (length_eq_toNat hlen) hwrite).1
  | ialloc type =>
    obtain ⟨-, hk⟩ := Option.ite_none_left_eq_some.mp hk
    cases hexec : (Fs.ialloc sb type).exec k.disk with
    | error e =>
      rw [hexec] at hk
      cases hk
    | ok r =>
      rw [hexec] at hk
      dsimp only at hk
      obtain ⟨h', hi⟩ := h.ialloc hexec
      cases hget : (k.setDisk r.2).iget r.1 with
      | error e =>
        rw [hget] at hk
        cases hk
      | ok q =>
        rw [hget] at hk
        cases hk
        exact h'.iget hi hget
  | assign s a =>
    obtain ⟨hs, hk⟩ := Option.ite_none_right_eq_some.mp hk
    obtain ⟨hi, hc⟩ := h.held hs
    refine h.leaves hs.1 ?_ hk
    intro ip' σ hexec
    exact (h.disk.after_assign hi hc a hexec).1
  | commit =>
    cases hk
    exact ⟨h.disk, h.disk, h.inum, h.uniq, h.cached⟩
  | reboot =>
    cases hk
    exact Inv.booted h.durable

theorem Inv.reach (h : k.Inv sb) (hr : Reachable (Kernel.step sb devsw) k k') : k'.Inv sb :=
  hr.invariant h fun _ _ _ hu _ hs => hu.step hs

end Kernel

end Xv6.Fs
