import Xv6.Fs.Bound
import Xv6.Fs.Dir
import Xv6.Fs.Freeing

/-!
# The transaction of an unlink (project3/sysfile.c:186-241, sys_unlink)

Whatever the file that goes with its last link, the transaction logs the block of its directory
entry, two blocks of inodes and the blocks of the free map.
-/

namespace Xv6.Fs
open Buffer Forest

variable (sb : Superblock) (devsw : Fin NDEV → Devsw)

def iunlockput (ip : Inode) : Op Inode := do
  let ip ← iunlock ip
  iput sb ip

-- bad:
def unlinkBad (dp : Inode) : Op Int := do
  let _ ← iunlockput sb dp
  pure (-1)

-- ip->type == T_DIR && !isdirempty(ip)
def unlinkRefuses (ip : Inode) : Op (Bool × Inode) :=
  if ip.type = T_DIR then do
    let (empty, ip) ← isdirempty sb devsw ip
    pure (!empty, ip)
  else pure (false, ip)

-- if(ip->type == T_DIR){ dp->nlink--; iupdate(dp); }
def unlinkParent (dp ip : Inode) : Op Inode :=
  if ip.type = T_DIR then assign sb .unlink dp else pure dp

/-- `sys_unlink` after `nameiparent` returned `dp` and `name`. `ips` gives the entries that `iget`
returns. -/
def sysUnlink (dp : Inode) (name : List Byte) (ips : Nat → Inode) : Op Int := do
  let dp ← ilock sb dp
  -- Cannot unlink "." or "..".
  if namecmp name [46] ∨ namecmp name [46, 46] then unlinkBad sb dp
  else do
    let (found, dp) ← dirlookup sb devsw dp name
    match found with
    | none => unlinkBad sb dp
    | some (inum, off) => do
      let ip ← ilock sb (ips inum)
      if ip.nlink.toInt < 1 then .panic .unlinkNlink
      else do
        let (refused, ip) ← unlinkRefuses sb devsw ip
        if refused then do
          let _ ← iunlockput sb ip
          unlinkBad sb dp
        else do
          let (n, dp) ← writei sb devsw dp (List.replicate direntSize 0) (BitVec.ofNat 32 off)
            (BitVec.ofNat 32 direntSize)
          if n ≠ direntSize then .panic .unlinkWritei
          else do
            let dp ← unlinkParent sb dp ip
            let _ ← iunlockput sb dp
            let ip ← assign sb .unlink ip
            let _ ← iunlockput sb ip
            pure 0

variable {sb devsw} {T : AddrTable} {σ : Contents} {dp ip : Inode} {name : List Byte} {k : Nat}
  {H : Panic → Prop} {W : Nat → Prop}

/-! ### The steps of the transaction -/

theorem ilock_reads (href : 1 ≤ ip.ref) (hfree : ip.locked = false)
    (htype : (ip.current sb σ).type ≠ 0) :
    (ilock sb ip).wp H W (fun ip' τ => ip' = ip.held sb σ ∧ τ = σ) σ := by
  unfold ilock
  rw [if_neg (by omega), hfree, if_neg Bool.false_ne_true]
  unfold Inode.held Inode.current at *
  by_cases hv : ip.valid = true
  · rw [if_pos hv]
    rw [if_pos hv]
    apply wp_pure
    refine ⟨?_, rfl⟩
    rw [← hv]
  · rw [if_neg hv] at htype ⊢
    rw [if_neg hv]
    apply wp_bind
    apply wp_bread
    apply wp_bind
    apply wp_brelse
    dsimp only
    rw [if_neg (show (decodeDinode (σ (sb.iblock ip.inum)) ip.inum).type ≠ 0 from htype)]
    exact wp_pure ⟨rfl, rfl⟩

theorem iunlock_reads (href : 1 ≤ ip.ref) (hheld : ip.locked = true) :
    (iunlock ip).wp H W (fun ip' τ => ip' = { ip with locked := false } ∧ τ = σ) σ := by
  unfold iunlock
  rw [if_neg]
  · exact wp_pure ⟨rfl, rfl⟩
  · rintro (hl | hr)
    · exact hl hheld
    · omega

/-- `iput` writes to the free map and the inode, at most. -/
theorem iput_writes (hW : ∀ b, b < sb.size → W (sb.bblock b)) (hWi : W (sb.iblock ip.inum))
    (h : Consistent sb T σ) (hT : T ip.inum = ip.addrs) (hi : ip.inum < sb.ninodes)
    (hfree : ip.locked = false) : (iput sb ip).wp H W (fun _ τ => ∃ T', Consistent sb T' τ ∧
      ∀ j, j ≠ ip.inum → T' j = T j) σ := by
  unfold iput
  rw [hfree, if_neg Bool.false_ne_true]
  split_ifs
  · refine wp_seq (itrunc_freed hW hWi h hT hi) ?_
    rintro ip1 τ ⟨hip, τ1, hfreed, rfl⟩
    obtain ⟨hc, -⟩ := hfreed.consistent h hi
    have hinum : ip1.inum = ip.inum := by rw [hip]
    have hc1 := (hc.sameMap_updated hi ip1.toDinode).consistent hc
    have hi1 : ip1.inum < sb.ninodes := by
      rw [hinum]
      exact hi
    have hWi1 : W (sb.iblock ip1.inum) := by
      rw [hinum]
      exact hWi
    refine wp_seq (@iupdate_writes _ _ _ _ { ip1 with type := 0 } hWi1) ?_
    intro _ τ hτ
    have hc2 := (hc1.sameMap_updated hi1 ({ ip1 with type := 0 } : Inode).toDinode).consistent hc1
    rw [hτ]
    apply wp_pure
    rw [hinum] at hc2 ⊢
    exact ⟨_, hc2, fun j hj => Function.update_of_ne hj _ _⟩
  · exact wp_pure ⟨T, h, fun _ _ => rfl⟩

theorem iunlockput_writes (hW : ∀ b, b < sb.size → W (sb.bblock b)) (hWi : W (sb.iblock ip.inum))
    (h : Consistent sb T σ) (hT : T ip.inum = ip.addrs) (hi : ip.inum < sb.ninodes)
    (href : 1 ≤ ip.ref) (hheld : ip.locked = true) :
    (iunlockput sb ip).wp H W (fun _ τ => ∃ T', Consistent sb T' τ ∧
      ∀ j, j ≠ ip.inum → T' j = T j) σ := by
  refine wp_seq (iunlock_reads href hheld) ?_
  rintro _ _ ⟨rfl, rfl⟩
  exact @iput_writes _ _ _ { ip with locked := false } _ _ hW hWi h hT hi rfl

/-- An assignment to `nlink`, with its `iupdate`. -/
theorem assign_writes (hWi : W (sb.iblock ip.inum)) (h : Consistent sb T σ)
    (hi : ip.inum < sb.ninodes) : (assign sb .unlink ip).wp H W (fun ip' τ =>
      ip' = { ip with nlink := ip.nlink - 1 } ∧ Consistent sb T τ) σ := by
  refine wp_seq (@iupdate_writes _ _ _ _ (Assign.unlink.apply ip) hWi) ?_
  rintro _ _ rfl
  exact wp_pure ⟨rfl, (h.sameMap_updated hi _).consistent h⟩

/-- The write over an entry. -/
theorem writei_dirent (h : Consistent sb T σ) (hT : T dp.inum = dp.addrs)
    (hi : dp.inum < sb.ninodes) (hdev : dp.type ≠ T_DEV) (he : HasEntry T σ dp k)
    (hWb : W (blockAt T σ (place dp.inum (direntSize * k / BSIZE)))) :
    (writei sb devsw dp (List.replicate direntSize 0) (BitVec.ofNat 32 (direntSize * k))
      (BitVec.ofNat 32 direntSize)).wp H W (fun r τ => r = ((direntSize : Int), dp) ∧
        Consistent sb T τ) σ := by
  have hle := he.le
  have hmax := he.max
  have hpresent := he.present
  rw [MAXFILE_BSIZE] at hmax
  rw [direntSize_eq] at *
  have hoff : (BitVec.ofNat 32 (16 * k)).toNat = 16 * k := by
    rw [BitVec.toNat_ofNat]
    omega
  have hn : (BitVec.ofNat 32 16).toNat = 16 := rfl
  have hadd : (BitVec.ofNat 32 (16 * k) + BitVec.ofNat 32 16).toNat = 16 * k + 16 := by
    rw [toNat_add_of_lt (by omega), hoff, hn]
  have hlimit : (BitVec.ofNat 32 (MAXFILE * BSIZE)).toNat = 1082199040 := by decide
  unfold writei
  rw [if_neg hdev, if_neg, if_neg]
  · dsimp only
    rw [hoff, hn]
    have hbn : 16 * k / BSIZE < MAXFILE := by
      rw [MAXFILE_eq]
      show 16 * k / 512 < 2113670
      omega
    have hpiece : min 16 (BSIZE - 16 * k % BSIZE) = 16 := by
      show min 16 (512 - 16 * k % 512) = 16
      omega
    have hloop : (writeLoop sb 16 dp (List.replicate 16 0) (16 * k) 16).wp H W (fun ip' τ =>
        ip' = dp ∧ Consistent sb T τ) σ := by
      unfold writeLoop
      rw [if_neg (by decide)]
      refine wp_seq (bmap_found hT hbn hpresent) ?_
      rintro ⟨addr, ip'⟩ τ ⟨hres, rfl⟩
      obtain ⟨rfl, rfl⟩ := Prod.mk.inj hres
      dsimp only
      rw [hpiece]
      apply wp_bind
      apply wp_bread
      apply wp_bind
      apply wp_logWrite hWb
      apply wp_bind
      apply wp_brelse
      unfold writeLoop
      rw [if_pos (by decide)]
      apply wp_pure
      exact ⟨rfl, (h.sameMap_leaf (leaf_place hi _) hpresent _).consistent h⟩
    refine wp_seq hloop ?_
    rintro _ τ ⟨rfl, hc⟩
    rw [if_neg]
    · exact wp_pure ⟨rfl, hc⟩
    · rintro ⟨-, hlt⟩
      rw [BitVec.lt_def, hadd] at hlt
      omega
  · rw [BitVec.lt_def, hadd, hlimit]
    omega
  · rw [BitVec.lt_def, BitVec.lt_def, hadd, hoff]
    omega

theorem isdiremptyLoop_reads (hT : T dp.inum = dp.addrs) (hdev : dp.type ≠ T_DEV)
    (ms : List Nat) (hms : ∀ m ∈ ms, HasEntry T σ dp m) :
    (isdiremptyLoop sb devsw dp (ms.map (direntSize * ·))).wp H W (fun r τ => r.2 = dp ∧ τ = σ)
      σ := by
  induction ms with
  | nil => exact wp_pure ⟨rfl, rfl⟩
  | cons m ms ih =>
    rw [List.map_cons]
    unfold isdiremptyLoop
    refine wp_seq (readi_dirent hT hdev (hms m List.mem_cons_self)) ?_
    rintro _ τ ⟨rfl, rfl⟩
    dsimp only
    rw [if_neg (not_not.mpr rfl)]
    split_ifs
    · exact wp_pure ⟨rfl, rfl⟩
    · exact ih fun x hx => hms x (List.mem_cons_of_mem _ hx)

theorem isdirempty_reads (hT : T dp.inum = dp.addrs) (hdev : dp.type ≠ T_DEV)
    (hall : ∀ m, direntSize * m < dp.size.toNat → HasEntry T σ dp m) :
    (isdirempty sb devsw dp).wp H W (fun r τ => r.2 = dp ∧ τ = σ) σ := by
  unfold isdirempty direntOffs
  rw [← List.map_drop]
  apply isdiremptyLoop_reads hT hdev
  intro m hm
  apply hall
  have hlt := List.mem_range.mp (List.mem_of_mem_drop hm)
  rw [direntSize_eq] at *
  omega

theorem unlinkRefuses_reads {υ : Contents} (hT : T ip.inum = (ip.held sb υ).addrs)
    (hall : (ip.current sb υ).type = T_DIR →
      ∀ m, direntSize * m < (ip.current sb υ).size.toNat → HasEntry T υ (ip.held sb υ) m) :
    (unlinkRefuses sb devsw (ip.held sb υ)).wp H W (fun r τ => r.2 = ip.held sb υ ∧ τ = υ ∧
      ((ip.current sb υ).type ≠ T_DIR → r.1 = false)) υ := by
  unfold unlinkRefuses
  by_cases ht : (ip.held sb υ).type = T_DIR
  · rw [if_pos ht]
    have hdev : (ip.held sb υ).type ≠ T_DEV := by
      rw [ht]
      decide
    refine wp_seq (isdirempty_reads (T := T) hT hdev (hall ht)) ?_
    rintro ⟨e, _⟩ τ ⟨rfl, rfl⟩
    apply wp_pure
    refine ⟨rfl, rfl, ?_⟩
    intro hne
    exact absurd ht hne
  · rw [if_neg ht]
    exact wp_pure ⟨rfl, rfl, fun _ => rfl⟩

theorem unlinkParent_writes (hWd : W (sb.iblock dp.inum)) (h : Consistent sb T σ)
    (hi : dp.inum < sb.ninodes) : (unlinkParent sb dp ip).wp H W (fun dp' τ =>
      (dp' = dp ∨ dp' = { dp with nlink := dp.nlink - 1 }) ∧ Consistent sb T τ) σ := by
  unfold unlinkParent
  split_ifs
  · apply wp_mono (assign_writes hWd h hi)
    rintro dp' τ ⟨hdp, hc⟩
    exact ⟨Or.inr hdp, hc⟩
  · exact wp_pure ⟨Or.inl rfl, h⟩

/-! ### The transaction -/

/-- Entry `k` of the directory `dp` names `ip`, which has no other link and no other user. -/
structure LastLink (sb : Superblock) (T : AddrTable) (σ : Contents) (dp ip : Inode)
    (name : List Byte) (k : Nat) : Prop where
  consistent : Consistent sb T σ
  dp_ref : 1 ≤ dp.ref
  dp_free : dp.locked = false
  dp_inum : dp.inum < sb.ninodes
  dp_addrs : T dp.inum = (dp.current sb σ).addrs
  dp_type : (dp.current sb σ).type = T_DIR
  ip_ref : ip.ref = 1
  ip_free : ip.locked = false
  ip_inum : ip.inum < sb.ninodes
  ip_addrs : T ip.inum = (ip.current sb σ).addrs
  ip_type : (ip.current sb σ).type ≠ 0
  ip_nlink : (ip.current sb σ).nlink = 1
  ne : ip.inum ≠ dp.inum
  first : FirstEntry T σ (dp.held sb σ) name k
  found : (direntAt T σ dp.inum k).inum.toNat = ip.inum
  -- if `ip` is a directory, `isdirempty` reads it
  entries : (ip.current sb σ).type = T_DIR →
    ∀ m, direntSize * m < (ip.current sb σ).size.toNat → HasEntry T σ (ip.held sb σ) m
  not_dots : namecmp name [46] = false ∧ namecmp name [46, 46] = false

/-- The blocks that the transaction may log. -/
def UnlinkBlock (sb : Superblock) (T : AddrTable) (σ : Contents) (dp ip : Inode) (k b : Nat) :
    Prop :=
  b = blockAt T σ (place dp.inum (direntSize * k / BSIZE)) ∨ b = sb.iblock dp.inum ∨
    b = sb.iblock ip.inum ∨ (sb.bmapstart ≤ b ∧ b < sb.datastart)

theorem sysUnlink_writes (h : LastLink sb T σ dp ip name k) (ips : Nat → Inode)
    (hips : ips ip.inum = ip) : (sysUnlink sb devsw dp name ips).wp (fun _ => False)
      (UnlinkBlock sb T σ dp ip k)
      (fun r _ => (ip.current sb σ).type ≠ T_DIR → r = 0) σ := by
  have hW : ∀ b, b < sb.size → UnlinkBlock sb T σ dp ip k (sb.bblock b) := by
    intro b hb
    exact Or.inr (Or.inr (Or.inr
      ⟨Superblock.bmapstart_le_bblock b, Superblock.bblock_lt hb⟩))
  have hWd : UnlinkBlock sb T σ dp ip k (sb.iblock dp.inum) := Or.inr (Or.inl rfl)
  have hWi : UnlinkBlock sb T σ dp ip k (sb.iblock ip.inum) := Or.inr (Or.inr (Or.inl rfl))
  have hdtype : (dp.held sb σ).type = T_DIR := h.dp_type
  have hdev : (dp.held sb σ).type ≠ T_DEV := by
    rw [hdtype]
    decide
  have hdT : T (dp.held sb σ).inum = (dp.held sb σ).addrs := h.dp_addrs
  have hiT : T (ip.held sb σ).inum = (ip.held sb σ).addrs := h.ip_addrs
  unfold sysUnlink
  refine wp_seq (ilock_reads h.dp_ref h.dp_free (by rw [h.dp_type]; decide)) ?_
  rintro _ τ ⟨rfl, rfl⟩
  rw [if_neg (by rw [h.not_dots.1, h.not_dots.2]; simp)]
  refine wp_seq (dirlookup_found hdT hdtype h.first) ?_
  rintro _ τ ⟨rfl, rfl⟩
  have hfound : (direntAt T τ (dp.held sb τ).inum k).inum.toNat = ip.inum := h.found
  dsimp only
  rw [hfound, hips]
  refine wp_seq (ilock_reads (by rw [h.ip_ref]) h.ip_free h.ip_type) ?_
  rintro _ υ ⟨rfl, rfl⟩
  have hnlink : (ip.held sb υ).nlink = 1 := h.ip_nlink
  rw [if_neg (by rw [hnlink]; decide)]
  refine wp_seq (unlinkRefuses_reads hiT h.entries) ?_
  rintro ⟨refused, ip1⟩ τ ⟨hip1, hτ, hfile⟩
  dsimp only at hip1 hfile ⊢
  rw [hip1, hτ]
  have hiheld : (ip.held sb υ).locked = true := rfl
  have hdheld : (dp.held sb υ).locked = true := rfl
  have hiref : 1 ≤ (ip.held sb υ).ref := Nat.le_of_eq h.ip_ref.symm
  cases refused with
  | true =>
    have hdir : (ip.current sb υ).type = T_DIR := by
      by_contra hne
      cases hfile hne
    rw [if_pos rfl]
    refine wp_seq (iunlockput_writes hW hWi h.consistent hiT h.ip_inum hiref hiheld) ?_
    rintro _ σ1 ⟨T1, hc1, hT1⟩
    unfold unlinkBad
    refine wp_seq (iunlockput_writes hW hWd hc1 ((hT1 _ h.ne.symm).trans hdT) h.dp_inum h.dp_ref
      hdheld) ?_
    intro _ _ _
    apply wp_pure
    intro hne
    exact absurd hdir hne
  | false =>
    rw [if_neg Bool.false_ne_true]
    refine wp_seq (writei_dirent h.consistent hdT h.dp_inum hdev (h.first.here k le_rfl)
      (Or.inl rfl)) ?_
    rintro _ σ1 ⟨rfl, hc1⟩
    dsimp only
    rw [if_neg (not_not.mpr rfl)]
    refine wp_seq (@unlinkParent_writes _ _ _ _ (ip.held sb υ) _ _ hWd hc1 h.dp_inum) ?_
    rintro dp1 σ2 ⟨hdp1, hc2⟩
    have hd1 : dp1.inum = dp.inum ∧ dp1.addrs = (dp.held sb υ).addrs ∧ dp1.ref = dp.ref ∧
        dp1.locked = true := by
      rcases hdp1 with rfl | rfl
      · exact ⟨rfl, rfl, rfl, rfl⟩
      · exact ⟨rfl, rfl, rfl, rfl⟩
    refine wp_seq (@iunlockput_writes _ _ _ dp1 _ _ hW (by rw [hd1.1]; exact hWd) hc2
      (by rw [hd1.1, hd1.2.1]; exact hdT) (by rw [hd1.1]; exact h.dp_inum)
      (by rw [hd1.2.2.1]; exact h.dp_ref) hd1.2.2.2) ?_
    rintro _ σ3 ⟨T3, hc3, hT3⟩
    refine wp_seq (@assign_writes _ _ _ (ip.held sb υ) _ _ hWi hc3 h.ip_inum) ?_
    rintro _ σ4 ⟨rfl, hc4⟩
    have hiT3 : T3 ip.inum = (ip.held sb υ).addrs := by
      rw [hT3 _ (by rw [hd1.1]; exact h.ne)]
      exact hiT
    refine wp_seq (@iunlockput_writes _ _ _
      { ip.held sb υ with nlink := (ip.held sb υ).nlink - 1 } _ _ hW hWi hc4 hiT3 h.ip_inum
      hiref rfl) ?_
    intro _ _ _
    exact wp_pure fun _ => rfl

theorem card_unlinkBlocks {p : Op Int} {dp ip : Inode} (hsize : sb.size = FSSIZE)
    (hlogs : ∀ b ∈ p.logs σ, UnlinkBlock sb T σ dp ip k b) : (p.logs σ).card ≤ MAXOPBLOCKS := by
  have hsub : p.logs σ ⊆ {blockAt T σ (place dp.inum (direntSize * k / BSIZE)), sb.iblock dp.inum,
      sb.iblock ip.inum} ∪ Finset.Ico sb.bmapstart sb.datastart := by
    intro b hb
    rw [Finset.mem_union, Finset.mem_Ico]
    rcases hlogs b hb with rfl | rfl | rfl | hmap
    · simp
    · simp
    · simp
    · exact Or.inr hmap
  have hbitmap : (Finset.Ico sb.bmapstart sb.datastart).card = 25 := by
    rw [Nat.card_Ico]
    unfold Superblock.datastart
    rw [hsize]
    show sb.bmapstart + 25 - sb.bmapstart = 25
    omega
  have hthree := Finset.card_le_three (a := blockAt T σ (place dp.inum (direntSize * k / BSIZE)))
    (b := sb.iblock dp.inum) (c := sb.iblock ip.inum)
  have hunion := Finset.card_union_le {blockAt T σ (place dp.inum (direntSize * k / BSIZE)),
    sb.iblock dp.inum, sb.iblock ip.inum} (Finset.Ico sb.bmapstart sb.datastart)
  have hle := Finset.card_le_card hsub
  have hmax : MAXOPBLOCKS = 30 := rfl
  omega

/-- However large the file and wherever its blocks, its last unlink fits into a transaction. -/
theorem sysUnlink_logs_le (hsize : sb.size = FSSIZE) (h : LastLink sb T σ dp ip name k)
    (ips : Nat → Inode) (hips : ips ip.inum = ip) :
    ∃ r τ, (sysUnlink sb devsw dp name ips).exec σ = .ok (r, τ) ∧
      ((ip.current sb σ).type ≠ T_DIR → r = 0) ∧
      ((sysUnlink sb devsw dp name ips).logs σ).card ≤ MAXOPBLOCKS := by
  have hspec := @sysUnlink_writes _ devsw _ _ _ _ _ _ h ips hips
  obtain ⟨r, τ, hexec, hr⟩ := wp_total hspec
  exact ⟨r, τ, hexec, hr, card_unlinkBlocks hsize fun b hb => logged_of_wp hspec hb⟩

/-- An entry for inode 3 with the name "a". -/
def entryA : List Byte := [3, 0, 97] ++ List.replicate 13 0

def newDir : Inode := { newFile with type := T_DIR, inum := 1 }

/-- Inode 3 of the scattered disk, whose blocks lie under five bitmap blocks. -/
def largeFile : Inode :=
  { newFile with inum := 3, size := 8457216, addrs := Scattered.addrs 3, locked := false }

/-- A directory gets an entry for the file, and the entry is removed. -/
theorem sysUnlink_logs_le_largeFile : ∃ dp' τ, (writei Superblock.mkfs (fun _ => ⟨none, none⟩)
      newDir entryA 0 16).exec Scattered.contents = .ok ((16, dp'), τ) ∧
    ∃ r υ, (sysUnlink Superblock.mkfs (fun _ => ⟨none, none⟩) { dp' with locked := false } [97]
        fun _ => largeFile).exec τ = .ok (r, υ) ∧
      ((largeFile.current Superblock.mkfs τ).type ≠ T_DIR → r = 0) ∧
      ((sysUnlink Superblock.mkfs (fun _ => ⟨none, none⟩) { dp' with locked := false } [97]
        fun _ => largeFile).logs τ).card ≤ MAXOPBLOCKS := by
  have hroom : need (touched newDir.inum (0 : BitVec 32).toNat (16 : BitVec 32).toNat)
      Scattered.addrs Scattered.contents ≤ freeBlocks Superblock.mkfs Scattered.contents := by
    rw [← length_freeList, Scattered.freeList_eq]
    exact Nat.le_trans (need_le_length _ _ _) (by decide)
  have haddrs : Scattered.addrs newDir.inum = newDir.addrs := by decide
  have hspec := @writei_spec Superblock.mkfs Scattered.addrs _ (fun _ => False) newDir entryA
    (fun _ => ⟨none, none⟩) 0 16 Scattered.consistent haddrs (by decide) (by decide)
    (noHoles_zero _ _ _) (Nat.le_refl _) (by decide) (by decide) (Or.inr hroom)
  obtain ⟨⟨res, dp'⟩, τ, hexec, hres, hw⟩ := wp_total hspec
  dsimp only at hres hw
  rw [hres] at hexec
  have hinode := hw.inode
  have hsize : dp'.size.toNat = 16 := hw.size
  have hinum : dp'.inum = 1 := by rw [hinode]; rfl
  have htype : dp'.type = T_DIR := by rw [hinode]; rfl
  have hvalid : dp'.valid = true := by rw [hinode]; rfl
  have href : dp'.ref = 1 := by rw [hinode]; rfl
  generalize hTdef : Function.update Scattered.addrs newDir.inum dp'.addrs = T at hw
  have hT1 : T 1 = dp'.addrs := by
    rw [← hTdef]
    exact Function.update_self _ _ _
  have hT3 : T 3 = Scattered.addrs 3 := by
    rw [← hTdef]
    exact Function.update_of_ne (by decide) _ _
  have hbytes : fileBytes T τ 1 0 16 = entryA := by
    have hc := hw.contents
    unfold fileContents at hc
    rw [hTdef, hsize, hinum] at hc
    rw [hc]
    decide
  have hentry : direntAt T τ 1 0 = decodeDirent entryA := by
    unfold direntAt
    exact congrArg decodeDirent hbytes
  have hdpc : ({ dp' with locked := false } : Inode).current Superblock.mkfs τ = dp'.toDinode := by
    unfold Inode.current
    exact if_pos hvalid
  have hheld : ({ dp' with locked := false } : Inode).held Superblock.mkfs τ = dp' := by
    unfold Inode.held
    rw [hdpc, hinode]
    rfl
  have hhas : HasEntry T τ dp' 0 := by
    refine ⟨Nat.le_of_eq hsize.symm, by decide, ?_⟩
    have hpresent := hw.noHoles.present 0 (by rw [hsize]; decide)
    rw [hTdef] at hpresent
    rw [hinum]
    exact hpresent
  have hlast : LastLink Superblock.mkfs T τ { dp' with locked := false }
      largeFile [97] 0 := by
    have hcons := hw.consistent
    rw [hTdef] at hcons
    constructor
    · exact hcons
    · exact Nat.le_of_eq href.symm
    · rfl
    · show dp'.inum < 200
      rw [hinum]
      decide
    · rw [hdpc]
      show T dp'.inum = _
      rw [hinum]
      exact hT1
    · rw [hdpc]
      exact htype
    · rfl
    · rfl
    · decide
    · exact hT3
    · exact (by decide : largeFile.type ≠ 0)
    · rfl
    · show (3 : Nat) ≠ dp'.inum
      rw [hinum]
      decide
    · rw [hheld]
      constructor
      · intro m hm
        rw [Nat.le_zero.mp hm]
        exact hhas
      · intro m hm
        omega
      · rw [hinum, hentry]
        decide
      · rw [hinum, hentry]
        decide
    · show (direntAt T τ dp'.inum 0).inum.toNat = 3
      rw [hinum, hentry]
      decide
    · intro hdir
      cases hdir
    · decide
  exact ⟨dp', τ, hexec, sysUnlink_logs_le (k := 0) rfl hlast _ rfl⟩

end Xv6.Fs
