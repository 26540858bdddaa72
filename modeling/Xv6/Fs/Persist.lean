import Xv6.Fs.Ownership
import Xv6.Fs.Symlink

/-!
# Inodes that leave the cache and come back (project3/fs.c:220-313, iupdate, iget, ilock)

`iupdate` writes all fields of the inode but `path`, and `ilock` reads all of them but `path`.
The path stays in the entry of the cache, whoever uses the entry next.
-/

namespace Xv6.Fs
open Transition

variable {sb : Superblock} {devsw : Fin NDEV → Devsw} {k k1 k2 : Kernel} {s t : CacheSlot}
  {i : Nat} {d : Dinode} {p : Fin 16 → Byte} {ip ip' : Inode} {σ τ : Contents}

/-- The entry that `iget` takes when no entry has the inode. -/
def Kernel.unused (k : Kernel) : Option CacheSlot :=
  (List.finRange NINODE).find? fun s => (k.icache s).ref = 0

/-- Activity that does not change inode `i`, which has been written as `d`: it is neither assigned
nor written nor freed, and before a reboot it has been committed. -/
def Spares (sb : Superblock) (i : Nat) (d : Dinode) (k : Kernel) : FsAction → Prop
  | .writei s _ _ => (k.icache s).inum ≠ i
  | .assign s _ => (k.icache s).inum ≠ i
  | .iput s => (k.icache s).inum = i →
      ¬ ((k.icache s).valid = true ∧ (k.icache s).nlink = 0 ∧ (k.icache s).ref = 1)
  | .reboot => dinode sb k.durable i = d
  | _ => True

/-- An unused entry that `iget` takes for inode `i` has its path. -/
def Carries (i : Nat) (p : Fin 16 → Byte) (k : Kernel) : FsAction → Prop
  | .iget inum => inum = i → (∀ t, 1 ≤ (k.icache t).ref → (k.icache t).inum ≠ i) →
      ∀ s, k.unused = some s → (k.icache s).path = p
  | _ => True

deriving instance DecidableEq for Dinode

instance : (a : FsAction) → Decidable (Spares sb i d k a)
  | .writei s _ _ => inferInstanceAs (Decidable ((k.icache s).inum ≠ i))
  | .assign s _ => inferInstanceAs (Decidable ((k.icache s).inum ≠ i))
  | .iput s => inferInstanceAs (Decidable ((k.icache s).inum = i →
      ¬ ((k.icache s).valid = true ∧ (k.icache s).nlink = 0 ∧ (k.icache s).ref = 1)))
  | .reboot => inferInstanceAs (Decidable (dinode sb k.durable i = d))
  | .iget _ | .idup _ | .ilock _ | .iunlock _ | .readi _ _ _ | .ialloc _ | .commit => isTrue trivial

instance : (a : FsAction) → Decidable (Carries i p k a)
  | .iget inum => inferInstanceAs (Decidable (inum = i →
      (∀ t, 1 ≤ (k.icache t).ref → (k.icache t).inum ≠ i) →
        ∀ s, k.unused = some s → (k.icache s).path = p))
  | .writei _ _ _ | .assign _ _ | .iput _ | .reboot | .idup _ | .ilock _ | .iunlock _ | .readi _ _ _
  | .ialloc _ | .commit => isTrue trivial

/-- Inode `i` is on disk as `d`, and its entry has the path `p`. -/
structure Persists (sb : Superblock) (i : Nat) (d : Dinode) (p : Fin 16 → Byte) (k : Kernel) :
    Prop where
  inv : k.Inv sb
  lt : i < sb.ninodes
  disk : dinode sb k.disk i = d
  path : ∀ t, 1 ≤ (k.icache t).ref → (k.icache t).inum = i → (k.icache t).path = p

namespace Persists

/-- A call on an entry in use leaves inode `i` alone. -/
theorem entry (h : Persists sb i d p k) (href : 1 ≤ (k.icache s).ref)
    (hl : Leaves sb k.disk (k.icache s) ip' τ)
    (hself : (k.icache s).inum = i → dinode sb τ i = d ∧ ip'.path = (k.icache s).path) :
    Persists sb i d p ((k.setInode s ip').setDisk τ) := by
  refine ⟨h.inv.entry href hl, h.lt, ?_, ?_⟩
  · show dinode sb τ i = d
    by_cases hi : (k.icache s).inum = i
    · exact (hself hi).1
    · rw [hl.others i (Ne.symm hi) h.lt]
      exact h.disk
  · intro t ht hinum
    have ht' : 1 ≤ ((k.setInode s ip').icache t).ref := ht
    have hinum' : ((k.setInode s ip').icache t).inum = i := hinum
    show ((k.setInode s ip').icache t).path = p
    by_cases hts : t = s
    · subst hts
      rw [Kernel.setInode_self] at hinum' ⊢
      have hi : (k.icache t).inum = i := hl.inum.symm.trans hinum'
      rw [(hself hi).2]
      exact h.path t href hi
    · rw [Kernel.setInode_ne k ip' hts] at ht' hinum' ⊢
      exact h.path t ht' hinum'

theorem entry_same (h : Persists sb i d p k) (href : 1 ≤ (k.icache s).ref)
    (hl : Leaves sb k.disk (k.icache s) ip' k.disk) (hpath : ip'.path = (k.icache s).path) :
    Persists sb i d p ((k.setInode s ip').setDisk k.disk) :=
  h.entry href hl fun _ => ⟨h.disk, hpath⟩

theorem setDisk (h : Persists sb i d p k) (hinv : (k.setDisk τ).Inv sb)
    (hd : dinode sb τ i = dinode sb k.disk i) : Persists sb i d p (k.setDisk τ) :=
  ⟨hinv, h.lt, hd.trans h.disk, h.path⟩

theorem iget {inum : Nat} (h : Persists sb i d p k) (hi : inum < sb.ninodes)
    (hget : k.iget inum = .ok (s, k1)) (hc : inum = i → (k.icache s).ref = 0 →
      (∀ t, 1 ≤ (k.icache t).ref → (k.icache t).inum ≠ i) → (k.icache s).path = p) :
    Persists sb i d p k1 := by
  have hinv := h.inv.iget hi hget
  rcases Kernel.iget_eq_ok hget with ⟨href, -, rfl⟩ | ⟨hzero, hnew, rfl⟩
  · exact h.entry_same href (Leaves.same _ h.inv.disk rfl (h.inv.cached s href)) rfl
  · refine ⟨hinv, h.lt, h.disk, ?_⟩
    intro t ht hinum
    by_cases hts : t = s
    · subst hts
      rw [Kernel.setInode_self] at hinum ⊢
      have heq : inum = i := hinum
      subst heq
      exact hc rfl hzero hnew
    · rw [Kernel.setInode_ne k _ hts] at ht hinum ⊢
      exact h.path t ht hinum

end Persists

theorem iget_unused {inum : Nat} (hget : k.iget inum = .ok (s, k1))
    (hnew : ∀ t, 1 ≤ (k.icache t).ref → (k.icache t).inum ≠ inum) : k.unused = some s := by
  unfold Kernel.iget at hget
  split at hget
  · next t hfind =>
    have ht := List.find?_some hfind
    rw [decide_eq_true_eq] at ht
    exact absurd ht.2 (hnew t ht.1)
  · split at hget
    · next t hfind =>
      cases hget
      exact hfind
    · cases hget

theorem iput_same (hno : ¬ (ip.valid = true ∧ ip.nlink = 0 ∧ ip.ref = 1))
    (hexec : (iput sb ip).exec σ = .ok (ip', τ)) : τ = σ := by
  unfold iput at hexec
  by_cases hl : ip.locked = true
  · rw [if_pos hl] at hexec
    cases hexec
  · rw [if_neg hl, if_neg hno] at hexec
    cases hexec
    rfl

theorem Persists.step {a : FsAction} (h : Persists sb i d p k) (hspare : Spares sb i d k a)
    (hcarry : Carries i p k a) (htype : d.type ≠ 0) (hk : k.step sb devsw a = some k1) :
    Persists sb i d p k1 := by
  cases a with
  | iget inum =>
    obtain ⟨hi, hk⟩ := Option.ite_none_right_eq_some.mp hk
    split at hk
    · next s k' hget =>
      cases hk
      apply h.iget hi hget
      intro heq _ hnew
      subst heq
      exact hcarry rfl hnew s (iget_unused hget hnew)
    · cases hk
  | idup s =>
    obtain ⟨href, hk⟩ := Option.ite_none_right_eq_some.mp hk
    cases hk
    exact h.entry_same href (Leaves.same _ h.inv.disk rfl (h.inv.cached s href)) rfl
  | ilock s =>
    obtain ⟨ip', σ, hexec, rfl⟩ := Kernel.on_eq_some hk
    obtain ⟨rfl, rfl, href, -⟩ := ilock_exec hexec
    exact h.entry_same href (h.inv.disk.after_ilock (h.inv.cached s href) hexec) rfl
  | iunlock s =>
    obtain ⟨ip', σ, hexec, rfl⟩ := Kernel.on_eq_some hk
    obtain ⟨rfl, rfl, href⟩ := iunlock_exec hexec
    exact h.entry_same href (Leaves.same _ h.inv.disk rfl (h.inv.cached s href)) rfl
  | iput s =>
    obtain ⟨href, hk⟩ := Option.ite_none_right_eq_some.mp hk
    obtain ⟨ip', σ, hexec, rfl⟩ := Kernel.on_eq_some hk
    apply h.entry href (h.inv.disk.after_iput (h.inv.inum s href) (h.inv.cached s href) hexec)
    intro hi
    rw [iput_same (hspare hi) hexec]
    exact ⟨h.disk, ((iput_all (k.icache s)).exec hexec).2.2⟩
  | readi s off n =>
    obtain ⟨hs, hk⟩ := Option.ite_none_right_eq_some.mp hk
    obtain ⟨hi, hc⟩ := h.inv.held hs
    obtain ⟨ip', σ, hexec, rfl⟩ := Kernel.on_eq_some hk
    obtain ⟨res, bs, hdo⟩ := @Sound.readi_does _ devsw _ _ h.inv.disk hi hc off n
    rw [exec_bind _ hdo.exec] at hexec
    cases hexec
    exact h.entry_same hs.1 (Leaves.same _ h.inv.disk rfl fun _ => hc) rfl
  | writei s src off =>
    obtain ⟨⟨hs, hlen⟩, hk⟩ := Option.ite_none_right_eq_some.mp hk
    obtain ⟨hi, hc⟩ := h.inv.held hs
    obtain ⟨ip', σ, hexec, rfl⟩ := Kernel.on_eq_some hk
    obtain ⟨⟨res, ip1⟩, σ1, hwrite, hpure⟩ := exec_bind_ok hexec
    cases hpure
    apply h.entry hs.1 (h.inv.disk.after_writei hi hc (length_eq_toNat hlen) hwrite).1
    intro heq
    exact absurd heq hspare
  | ialloc type =>
    obtain ⟨-, hk⟩ := Option.ite_none_left_eq_some.mp hk
    split at hk
    · next inum σ hexec =>
      obtain ⟨-, -, hfree, -, hother⟩ := h.inv.disk.after_ialloc hexec
      obtain ⟨hinv, hi⟩ := h.inv.ialloc hexec
      have hne : inum ≠ i := by
        intro heq
        rw [heq, h.disk] at hfree
        exact htype hfree
      split at hk
      · next s k' hget =>
        cases hk
        apply (h.setDisk hinv (hother i (Ne.symm hne))).iget hi hget
        intro heq
        exact absurd heq hne
      · cases hk
    · cases hk
  | assign s a =>
    obtain ⟨hs, hk⟩ := Option.ite_none_right_eq_some.mp hk
    obtain ⟨hi, hc⟩ := h.inv.held hs
    obtain ⟨ip', σ, hexec, rfl⟩ := Kernel.on_eq_some hk
    apply h.entry hs.1 (h.inv.disk.after_assign hi hc a hexec).1
    intro heq
    exact absurd heq hspare
  | commit =>
    have hinv : k1.Inv sb := h.inv.step hk
    cases hk
    exact ⟨hinv, h.lt, h.disk, h.path⟩
  | reboot =>
    have hinv : k1.Inv sb := h.inv.step hk
    cases hk
    refine ⟨hinv, h.lt, hspare, ?_⟩
    intro t ht
    exact absurd ht (show ¬ 1 ≤ Inode.unset.ref by decide)

/-- The entry has all fields that `iupdate` has written from `ip`, and the path. A link leads where
it did. -/
structure Restored (sb : Superblock) (devsw : Fin NDEV → Devsw) (ip : Inode) (t : CacheSlot)
    (k : Kernel) : Prop where
  fields : (k.icache t).toDinode = ip.toDinode
  path : (k.icache t).path = ip.path
  follows : ip.type = T_SYM → ∀ cwd turns, Call.redirect sb devsw cwd (turns + 1) t k =
    Call.follow sb devsw cwd turns t (Call.pathString ip) k

/-- `ilock` restores an inode as long as `iget` takes for it only entries that have its path. -/
theorem restored_of_reach (h : Sound sb σ)
    (hr : Reachable (Kernel.step sb devsw) (Kernel.boot σ) k) (hs : k.holds s)
    (hrun : Reach (Kernel.step sb devsw) (fun u a => Spares sb (k.icache s).inum
      (k.icache s).toDinode u a ∧ Carries (k.icache s).inum (k.icache s).path u a) k k1)
    (hinum : (k1.icache t).inum = (k.icache s).inum)
    (hlock : k1.step sb devsw (.ilock t) = some k2) :
    Restored sb devsw (k.icache s) t k2 := by
  have hinv : k.Inv sb := (Kernel.Inv.booted h).reach hr
  obtain ⟨hi, hc⟩ := hinv.held hs
  have hstart : Persists sb (k.icache s).inum (k.icache s).toDinode (k.icache s).path k := by
    refine ⟨hinv, hi, hc.1.symm, ?_⟩
    intro u hu heq
    rw [hinv.uniq u s hu hs.1 heq]
  have hend := hrun.invariant hstart fun u a v hu ha hstep => hu.step ha.1 ha.2 hc.2 hstep
  obtain ⟨ip', σ', hexec, rfl⟩ := Kernel.on_eq_some hlock
  have hcached := (hend.inv.disk.after_ilock (hend.inv.cached t (ilock_exec hexec).2.2.1) hexec)
  obtain ⟨rfl, rfl, href, -⟩ := ilock_exec hexec
  have hfields : ((k1.icache t).held sb k1.disk).toDinode = (k.icache s).toDinode := by
    have hdisk := (hcached.cached rfl).1
    rw [hdisk]
    show dinode sb k1.disk (k1.icache t).inum = _
    rw [hinum, hend.disk]
  have hself : ((k1.setInode t ((k1.icache t).held sb k1.disk)).setDisk k1.disk).icache t =
      (k1.icache t).held sb k1.disk := Kernel.setInode_self ..
  have hpath : ((k1.icache t).held sb k1.disk).path = (k.icache s).path := hend.path t href hinum
  refine ⟨?_, ?_, ?_⟩
  · rw [hself, hfields]
  · rw [hself, hpath]
  · intro htype cwd turns
    rw [redirect_of_symlink]
    · unfold Call.pathString
      rw [hself, hpath]
    · rw [hself, hfields]
      exact htype

/-- A link to "a" is made. -/
def linkMade : List FsAction :=
  [.ialloc T_SYM, .ilock 0, .assign 0 (.create 0 0), .assign 0 (.slink [97])]

/-- Its entry is given back and taken again. -/
def linkAgain : List FsAction := [.iunlock 0, .iput 0, .iget 1]

theorem restored_of_reach_link : ∃ k k1 k2,
    run (Kernel.step Superblock.mkfs noDevices) (Kernel.boot (blankImage Superblock.mkfs))
      linkMade = some k ∧
    run (Kernel.step Superblock.mkfs noDevices) k linkAgain = some k1 ∧
    k1.step Superblock.mkfs noDevices (.ilock 0) = some k2 ∧
    Restored Superblock.mkfs noDevices (k.icache 0) 0 k2 := by
  have hrun : ((run (Kernel.step Superblock.mkfs noDevices)
      (Kernel.boot (blankImage Superblock.mkfs)) linkMade).bind fun k =>
        (run (guarded (Kernel.step Superblock.mkfs noDevices) fun u a =>
          Spares Superblock.mkfs (k.icache 0).inum (k.icache 0).toDinode u a ∧
            Carries (k.icache 0).inum (k.icache 0).path u a) k linkAgain).bind fun k1 =>
          (k1.step Superblock.mkfs noDevices (.ilock 0)).map fun _ =>
            decide (k.holds 0 ∧ (k1.icache 0).inum = (k.icache 0).inum)) = some true := by
    decide +kernel
  obtain ⟨k, hk, h1⟩ := Option.bind_eq_some_iff.mp hrun
  obtain ⟨k1, hk1, h2⟩ := Option.bind_eq_some_iff.mp h1
  obtain ⟨k2, hk2, hfacts⟩ := Option.map_eq_some_iff.mp h2
  rw [decide_eq_true_eq] at hfacts
  refine ⟨k, k1, k2, hk, run_of_guarded_run hk1, hk2, ?_⟩
  exact restored_of_reach (sound_iff_intact.mpr (intact_blankImage (by decide)))
    (reachable_of_run hk) hfacts.1 (reach_of_guarded_run hk1) hfacts.2 hk2

/-- A file "a", a link "l" to it, and a file "b" that takes the entry of the link. -/
def evictRun : List SysAction :=
  [.open [97] O_CREATE 0, .close 0, .slink [97] [108], .open [98] O_CREATE 0]

/-- The results of opening the link and its target for writing. -/
def evictResults (s : Sys) : Except Stop (Int × Int) := do
  let (link, _) ← Syscall.sysOpen Superblock.mkfs noDevices 2 0 [108] O_RDWR s
  let (target, _) ← Syscall.sysOpen Superblock.mkfs noDevices 2 0 [97] O_RDWR s
  pure (link, target)

/-- The link is in another entry, whose path is empty, and leads to the directory. -/
theorem not_restored_evictRun : ∃ s, alone evictRun = some s ∧ evictResults s = .ok (-1, 1) := by
  have hrun : (alone evictRun).map (fun s => (evictResults s).toOption) = some (some (-1, 1)) := by
    decide +kernel
  obtain ⟨s, hs, hres⟩ := Option.map_eq_some_iff.mp hrun
  exact ⟨s, hs, toOption_eq_some hres⟩

end Xv6.Fs
