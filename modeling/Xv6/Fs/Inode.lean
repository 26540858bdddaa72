import Xv6.Fs.Logged

/-!
# Locking inodes (project3/fs.c:288-323, ilock, iunlock)

The functions work on an entry of the inode cache. A process that waits for a lock
which nobody else holds sleeps for ever.
-/

namespace Xv6.Fs
open Buffer Forest

variable (sb : Superblock)

def ilock (ip : Inode) : Op Inode :=
  if ip.ref < 1 then .panic .ilock
  else if ip.locked then .panic .asleep
  else if ip.valid then pure { ip with locked := true }
  else do
    let bp ← bread (sb.iblock ip.inum)
    brelse (sb.iblock ip.inum)
    let ip := { ip with toDinode := decodeDinode bp ip.inum, locked := true, valid := true }
    if ip.type = 0 then .panic .ilockNoType else pure ip

def iunlock (ip : Inode) : Op Inode :=
  if ¬ ip.locked ∨ ip.ref < 1 then .panic .iunlock else pure { ip with locked := false }

/-- The inode of an entry: what is cached, or what is on disk. -/
def Inode.current (σ : Contents) (ip : Inode) : Dinode :=
  if ip.valid then ip.toDinode else dinode sb σ ip.inum

/-- The entry after `ilock`. -/
def Inode.held (σ : Contents) (ip : Inode) : Inode :=
  { ip with toDinode := ip.current sb σ, locked := true, valid := true }

variable {sb} {σ : Contents} {ip : Inode}

/-- `ilock` only reads. -/
theorem ilock_does (href : 1 ≤ ip.ref) (hfree : ip.locked = false)
    (htype : ip.valid ∨ (ip.current sb σ).type ≠ 0) :
    Does (ilock sb ip) σ (ip.held sb σ) σ ∅ := by
  unfold ilock
  rw [if_neg (by omega), hfree, if_neg Bool.false_ne_true]
  by_cases hv : ip.valid = true
  · have hheld : ip.held sb σ = { ip with locked := true } := by
      obtain ⟨d, inum, ref, locked, valid, path⟩ := ip
      dsimp only at hv
      subst hv
      rfl
    rw [if_pos hv, hheld]
    exact Does.pure _ _
  · have hcur : ip.current sb σ = dinode sb σ ip.inum := if_neg hv
    have ht : (decodeDinode (σ (sb.iblock ip.inum)) ip.inum).type ≠ 0 := by
      have hne := htype.resolve_left hv
      rw [hcur] at hne
      exact hne
    rw [if_neg hv]
    refine Does.bread (Does.brelse ?_)
    have hheld : ip.held sb σ = { ip with
        toDinode := decodeDinode (σ (sb.iblock ip.inum)) ip.inum, locked := true, valid := true } := by
      unfold Inode.held
      rw [hcur]
      rfl
    rw [hheld]
    dsimp only
    rw [if_neg ht]
    exact Does.pure _ _

theorem iunlock_does (href : 1 ≤ ip.ref) (hheld : ip.locked = true) (σ : Contents) :
    Does (iunlock ip) σ { ip with locked := false } σ ∅ := by
  unfold iunlock
  rw [if_neg]
  · exact Does.pure _ _
  · rintro (hl | hr)
    · exact hl hheld
    · omega

end Xv6.Fs
