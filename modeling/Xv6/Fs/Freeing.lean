import Xv6.Fs.Contents
import Xv6.Fs.Trunc

/-!
# The blocks of a file that is truncated

`Emptied` says of the free map and of the blocks what `itrunc` leaves of an inode.
-/

namespace Xv6.Fs
open Buffer Forest

/-- Block `b` is a data block or an indirect block of inode `i`. -/
def Owned (sb : Superblock) (T : AddrTable) (σ : Contents) (i b : Nat) : Prop :=
  b ≠ 0 ∧ ∃ p, (shape sb).Valid p ∧ p.1.1 = i ∧ blockAt T σ p = b

/-- `ip'` and `τ` are what `itrunc` leaves of `ip` and `σ`. -/
structure Emptied (sb : Superblock) (T : AddrTable) (σ : Contents) (ip ip' : Inode)
    (τ : Contents) : Prop where
  inode : ip' = { ip with addrs := fun _ => 0, size := 0 }
  saved : dinode sb τ ip.inum = ip'.toDinode
  marked : ∀ b, Owned sb T σ ip.inum b → b < sb.size ∧ bit sb σ b = true
  bits : ∀ b, b < sb.size → (bit sb τ b = true ↔ bit sb σ b = true ∧ ¬ Owned sb T σ ip.inum b)
  blocks : ∀ b, b < sb.bmapstart ∨ sb.datastart ≤ b → b ≠ sb.iblock ip.inum → τ b = σ b
  dinodes : ∀ j, j ≠ ip.inum → j < sb.ninodes → dinode sb τ j = dinode sb σ j
  others : ∀ p, (shape sb).Valid p → p.1.1 ≠ ip.inum →
    blockAt (Function.update T ip.inum fun _ => 0) τ p = blockAt T σ p
  consistent : Consistent sb (Function.update T ip.inum fun _ => 0) τ

variable {sb : Superblock} {T : AddrTable} {σ τ : Contents} {ip : Inode}

theorem owned_iff_below (i b : Nat) :
    Owned sb T σ i b ↔ ∃ k, Below sb T σ ((i, k), []) b := by
  constructor
  · rintro ⟨hb, ⟨⟨j, k⟩, ks⟩, hv, hj, hat⟩
    subst hj
    exact ⟨k, hb, ks, List.nil_suffix, hv, hat⟩
  · rintro ⟨k, hb, ks, -, hv, hat⟩
    exact ⟨hb, ((i, k), ks), hv, rfl, hat⟩

/-- Every block of the file is freed, once and no other block, and nothing but the inode and the
free map is written. -/
theorem itrunc_emptied (h : Consistent sb T σ) (hT : T ip.inum = ip.addrs)
    (hi : ip.inum < sb.ninodes) :
    ∃ ip' τ, (itrunc sb ip).exec σ = .ok (ip', τ) ∧ Emptied sb T σ ip ip' τ := by
  have hspec := itrunc_freed (H := fun _ => False) (W := fun _ => True) (fun _ _ => trivial)
    trivial h hT hi
  obtain ⟨ip', τ, hexec, hinode, τ1, hfreed, rfl⟩ := wp_total hspec
  obtain ⟨hc, -⟩ := hfreed.consistent h hi
  have hmap := hc.sameMap_updated hi ip'.toDinode
  refine ⟨ip', _, hexec, hinode, dinode_updated_self _, ?_, ?_, ?_, ?_, ?_, hmap.consistent hc⟩
  · rintro b ⟨hb, p, hv, -, hat⟩
    have hlive := h.live hv (fun h0 => hb (hat.symm.trans h0))
    rw [hat] at hlive
    exact ⟨hlive.2.1, hlive.2.2⟩
  · intro b hb
    rw [hmap.bit_eq hb, hfreed.bit b hb, owned_iff_below]
  · intro b hb hne
    have hold : updated sb τ1 ip.inum ip'.toDinode b = τ1 b := Function.update_of_ne hne _ _
    rw [hold, hfreed.same b hb]
  · intro j hj hjn
    rw [dinode_updated_ne _ hj]
    exact dinode_congr (hfreed.same _ (Or.inl (Superblock.iblock_lt hjn)))
  · intro p hv hp
    rw [hmap.blockAt_eq hv]
    apply ref_congr (S := shape sb) _ _ hv
    · show (Function.update T ip.inum (fun _ => 0) p.1.1 p.1.2).toNat = (T p.1.1 p.1.2).toNat
      rw [Function.update_of_ne hp]
    · intro js hin h0 j
      have hlive := h.live (p := (p.1, js)) hin.valid h0
      rw [forest_child, forest_child, hfreed.same _ (Or.inr hlive.1)]

/-- A file with one block in its double indirect tree. -/
theorem itrunc_emptied_sparse : ∃ addr ip τ, addr ≠ 0 ∧
    (bmap Superblock.mkfs newFile 200).exec (blankImage Superblock.mkfs) = .ok ((addr, ip), τ) ∧
    ∃ ip' τ', (itrunc Superblock.mkfs ip).exec τ = .ok (ip', τ') ∧
      Emptied Superblock.mkfs (Function.update noAddrs 2 ip.addrs) τ ip ip' τ' := by
  have hi : newFile.inum < Superblock.mkfs.ninodes := by decide
  have hspec := @bmap_spec _ 200 (branch 2 200).toFinset (fun _ _ => False) noAddrs _
    (fun _ => False) newFile (consistent_blankImage (by decide)) rfl hi
    (fun p hp => valid_of_mem_branch hi (List.mem_toFinset.mp hp))
    (fun p hp => List.mem_toFinset.mpr hp) (by decide) (Or.inr ?_)
  · obtain ⟨⟨addr, ip⟩, τ, hexec, hm⟩ := wp_total hspec
    have hinum : ip.inum = 2 := by
      have hframe : ip = { newFile with addrs := ip.addrs } := hm.inode
      rw [hframe]
      rfl
    have hc : Consistent Superblock.mkfs (Function.update noAddrs 2 ip.addrs) τ :=
      hm.ext.consistent
    refine ⟨addr, ip, τ, hm.ne_zero, hexec, ?_⟩
    apply itrunc_emptied hc
    · rw [hinum, Function.update_self]
    · rw [hinum]
      decide
  · rw [freeBlocks_blankImage (by decide)]
    refine Nat.le_trans (Finset.card_filter_le _ _) ?_
    exact Nat.le_trans (List.toFinset_card_le _) (by decide)

end Xv6.Fs
