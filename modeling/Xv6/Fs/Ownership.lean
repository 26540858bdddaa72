import Xv6.Fs.Icache

/-!
# Blocks have one owner (project3/fs.c)

The law of the free map in terms of the references to each block: what allocation, truncation
and the cache keep, over any run.
-/

namespace Xv6.Fs
open Buffer Forest Transition

variable {sb : Superblock} {devsw : Fin NDEV → Devsw} {σ : Contents} {k : Kernel}

/-- The places that refer to block `b`: slots of inodes on disk, and entries of the indirect
blocks below them. -/
def References (sb : Superblock) (σ : Contents) (b : Nat) (p : Place) : Prop :=
  (shape sb).Valid p ∧ blockAt (table sb σ) σ p = b

/-- Block `b` is free and referenced from nowhere, or in use and referenced from one place, which
is an inode in use or an indirect block of it. -/
def OneOwner (sb : Superblock) (σ : Contents) (b : Nat) : Prop :=
  (bit sb σ b = false ∧ ∀ p, ¬ References sb σ b p) ∨
  (bit sb σ b = true ∧ ∃ p, References sb σ b p ∧ (dinode sb σ p.1.1).type ≠ 0 ∧
    ∀ q, References sb σ b q → q = p)

/-- A consistent image without holes. -/
structure Intact (sb : Superblock) (σ : Contents) : Prop where
  owner : ∀ b, sb.datastart ≤ b → b < sb.size → OneOwner sb σ b
  inside : ∀ p, (shape sb).Valid p → blockAt (table sb σ) σ p ≠ 0 →
    sb.datastart ≤ blockAt (table sb σ) σ p ∧ blockAt (table sb σ) σ p < sb.size
  marked : ∀ b, b < sb.datastart → bit sb σ b = true
  noHoles : ∀ i, i < sb.ninodes → NoHoles (table sb σ) σ i (dinode sb σ i).size.toNat

theorem root_ne_zero {p : Place} (h : blockAt (table sb σ) σ p ≠ 0) :
    (dinode sb σ p.1.1).addrs p.1.2 ≠ 0 := by
  intro h0
  apply h
  apply ref_of_root_zero
  show ((dinode sb σ p.1.1).addrs p.1.2).toNat = 0
  rw [h0]
  rfl

theorem Sound.owner (h : Sound sb σ) {b : Nat} (hb : sb.datastart ≤ b) (hsize : b < sb.size) :
    OneOwner sb σ b := by
  have hpos : b ≠ 0 := by
    have hlt := sb.datastart_pos
    omega
  cases hbit : bit sb σ b with
  | false =>
    refine Or.inl ⟨hbit, ?_⟩
    intro p hp
    have h0 : blockAt (table sb σ) σ p ≠ 0 := by
      rw [hp.2]
      exact hpos
    have hlive := (h.consistent.live hp.1 h0).2.2
    rw [hp.2, hbit] at hlive
    cases hlive
  | true =>
    obtain ⟨p, hp, hpb⟩ := h.consistent.owns.reached b ⟨hb, hsize, hbit⟩
    have hpb' : blockAt (table sb σ) σ p = b := hpb
    have h0 : blockAt (table sb σ) σ p ≠ 0 := by
      rw [hpb']
      exact hpos
    refine Or.inr ⟨hbit, p, ⟨hp, hpb'⟩, ?_, ?_⟩
    · intro htype
      apply root_ne_zero h0
      rw [h.free p.1.1 hp.1 htype]
    · intro q hq
      apply (h.consistent.owns.uniq p q hp hq.1 h0 _).symm
      exact hpb'.trans hq.2.symm

/-- What an image must be so that the calls keep it. -/
theorem sound_iff_intact : Sound sb σ ↔ Intact sb σ := by
  constructor
  · intro h
    refine ⟨fun b hb hsize => h.owner hb hsize, ?_, h.consistent.marked, h.noHoles⟩
    intro p hp h0
    have hlive := h.consistent.live hp h0
    exact ⟨hlive.1, hlive.2.1⟩
  · intro h
    have hused : ∀ p, (shape sb).Valid p → blockAt (table sb σ) σ p ≠ 0 →
        bit sb σ (blockAt (table sb σ) σ p) = true ∧ (dinode sb σ p.1.1).type ≠ 0 ∧
          ∀ q, References sb σ (blockAt (table sb σ) σ p) q → q = p := by
      intro p hp h0
      obtain ⟨hb, hsize⟩ := h.inside p hp h0
      rcases h.owner _ hb hsize with ⟨-, hnone⟩ | ⟨hbit, q, -, htype, huniq⟩
      · exact absurd ⟨hp, rfl⟩ (hnone p)
      · have hpq : p = q := huniq p ⟨hp, rfl⟩
        rw [← hpq] at htype huniq
        exact ⟨hbit, htype, huniq⟩
    refine ⟨⟨⟨?_, ?_, ?_, ?_⟩, h.marked⟩, h.noHoles, ?_⟩
    · intro hlive
      have hpos := sb.datastart_pos
      have hle := hlive.1
      omega
    · intro p hp h0
      obtain ⟨hb, hsize⟩ := h.inside p hp h0
      exact ⟨hb, hsize, (hused p hp h0).1⟩
    · intro p q hp hq h0 heq
      exact ((hused p hp h0).2.2 q ⟨hq, heq.symm⟩).symm
    · intro b hlive
      rcases h.owner b hlive.1 hlive.2.1 with ⟨hbit, -⟩ | ⟨-, p, hp, -⟩
      · have hset := hlive.2.2
        rw [hbit] at hset
        cases hset
      · exact ⟨p, hp.1, hp.2⟩
    · intro i hi htype
      funext k
      by_contra hne
      have h0 : blockAt (table sb σ) σ ((i, k), []) ≠ 0 := by
        intro h0
        exact hne (toNat_eq_zero.mp h0)
      exact (hused ((i, k), []) ⟨hi, Nat.zero_le _⟩ h0).2.1 htype

/-- The machine after switching on with the image `σ`. -/
def Kernel.boot (σ : Contents) : Kernel := ⟨σ, σ, fun _ => Inode.unset⟩

/-- From a consistent image without holes every run of calls keeps one owner for each block in
use and none for the free ones, and the inodes in the cache are those on disk. -/
theorem owner_of_reach (h : Intact sb σ)
    (hr : Reachable (Kernel.step sb devsw) (Kernel.boot σ) k) :
    (∀ b, sb.datastart ≤ b → b < sb.size → OneOwner sb k.disk b) ∧
    (∀ s, 1 ≤ (k.icache s).ref → (k.icache s).valid = true →
      (k.icache s).toDinode = dinode sb k.disk (k.icache s).inum) ∧
    ∀ i j bn bm, i < sb.ninodes → j < sb.ninodes → bn < MAXFILE → bm < MAXFILE →
      blockAt (table sb k.disk) k.disk (place i bn) ≠ 0 →
      blockAt (table sb k.disk) k.disk (place i bn) = blockAt (table sb k.disk) k.disk (place j bm) →
      i = j ∧ bn = bm := by
  have hinv : k.Inv sb := (Kernel.Inv.booted (sound_iff_intact.mpr h)).reach hr
  refine ⟨?_, ?_, ?_⟩
  · intro b hb hsize
    exact hinv.disk.owner hb hsize
  · intro s href hv
    exact (hinv.cached s href hv).1
  · intro i j bn bm hi hj hbn hbm h0 heq
    apply place_inj hbn hbm
    exact hinv.disk.consistent.owns.uniq _ _ (leaf_place hi bn).valid (leaf_place hj bm).valid h0 heq

theorem intact_blankImage (h : sb.datastart < BPB) : Intact sb (blankImage sb) := by
  have hzero : ∀ i, i < sb.ninodes → dinode sb (blankImage sb) i = Dinode.zero := by
    intro i hi
    have hlt := Superblock.iblock_lt hi
    have hblank : blankImage sb (sb.iblock i) = fun _ => 0 :=
      Function.update_of_ne (by omega) _ _
    unfold dinode
    rw [hblank]
    exact decodeDinode_zero i
  rw [← sound_iff_intact]
  apply Sound.of_table (consistent_blankImage h)
  · intro j hj
    rw [hzero j hj]
    rfl
  · intro j hj
    rw [hzero j hj]
    exact noHoles_zero _ _ _
  · intro j hj _
    rw [hzero j hj]
    rfl

/-- A file is made and gets a block. -/
def firstFile : List FsAction :=
  [.ialloc T_FILE, .ilock 0, .assign 0 (.create 0 0), .writei 0 [104, 105] 0, .iunlock 0]

theorem owner_of_reach_firstFile :
    ∃ k, run (Kernel.step Superblock.mkfs fun _ => ⟨none, none⟩)
      (Kernel.boot (blankImage Superblock.mkfs)) firstFile = some k ∧
      OneOwner Superblock.mkfs k.disk 143 := by
  have hrun : (run (Kernel.step Superblock.mkfs fun _ => ⟨none, none⟩)
      (Kernel.boot (blankImage Superblock.mkfs)) firstFile).isSome = true := by decide +kernel
  obtain ⟨k, hk⟩ := Option.isSome_iff_exists.mp hrun
  refine ⟨k, hk, ?_⟩
  have hlaw := owner_of_reach (intact_blankImage (by decide)) (reachable_of_run hk)
  exact hlaw.1 143 (by decide) (by decide)

end Xv6.Fs
