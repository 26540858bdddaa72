import Xv6.Fs.Mkfs
import Xv6.Fs.Room

/-!
# The contents of files (project3/fs.c)

`writei_readi` is the law of `readi` (fs.c:607-630) and `writei` (fs.c:634-663) on the
contents that the cache shows, and on the machine, where the log or the cache stops a
write that changes more blocks than there is room for.
-/

namespace Xv6.Fs
open Buffer Disk

variable {sb : Superblock} {devsw : Fin NDEV → Devsw} {T : AddrTable} {σ τ : Contents}
  {ip : Inode} {src : List Byte} {off n : BitVec 32}

/-- The range checks of `writei` fail: `off` is behind the end, or the end of the write
wraps around or is too far. -/
def BadRange (ip : Inode) (off n : BitVec 32) : Prop :=
  ip.size.toNat < off.toNat ∨ 4294967296 ≤ off.toNat + n.toNat ∨
    MAXFILE * BSIZE < off.toNat + n.toNat

theorem writei_bad (hdev : ip.type ≠ T_DEV) (h : BadRange ip off n) :
    (writei sb devsw ip src off n).exec σ = .ok ((-1, ip), σ) := by
  unfold writei
  rw [if_neg hdev]
  by_cases h1 : ip.size < off ∨ off + n < off
  · rw [if_pos h1]
    rfl
  · rw [if_neg h1, if_pos]
    · rfl
    · rw [BitVec.lt_def, BitVec.lt_def, BitVec.toNat_add] at h1
      have hM : (BitVec.ofNat 32 (MAXFILE * BSIZE)).toNat = 1082199040 := by decide
      rw [BitVec.lt_def, BitVec.toNat_add]
      unfold BadRange at h
      rw [MAXFILE_BSIZE] at h
      have hoff := off.isLt
      have hn := n.isLt
      omega

/-- Inside an operation that holds no buffer, the blocks in the log and the blocks `bs` leave
four over, for the buffers that `writei` holds at a time. -/
structure HasRoom (sb : Superblock) (s : Machine) (bs : Finset Nat) : Prop where
  holds : HoldsBuffers s ∅
  op : 1 ≤ s.log.outstanding
  blocks : (s.log.lh.toFinset ∪ bs).card + 4 ≤ min sb.nlog LOGSIZE

/-- The outcome of a write: afterwards a read returns what the old contents with `src`
over them have in the range, the other inodes and their data are as before, and the
machine gets there where it has room, and nowhere else if it gets to an end. -/
structure WriteOutcome (sb : Superblock) (devsw : Fin NDEV → Devsw) (T : AddrTable) (σ : Contents)
    (ip : Inode) (src : List Byte) (off n : BitVec 32) (ip' : Inode) (τ : Contents) : Prop where
  result : (writei sb devsw ip src off n).exec σ = .ok (((n.toNat : Int), ip'), τ)
  size : ip'.size.toNat = max ip.size.toNat (off.toNat + n.toNat)
  before : (readi sb devsw ip 0 ip.size).exec σ
    = .ok (((ip.size.toNat : Int), fileContents T σ ip, ip), σ)
  reads : ∀ o m : BitVec 32, o.toNat ≤ ip'.size.toNat → o.toNat + m.toNat < 4294967296 →
    (readi sb devsw ip' o m).exec τ = .ok ((((min m.toNat (ip'.size.toNat - o.toNat) : Nat) : Int),
      ((patched (fileContents T σ ip) off.toNat src).drop o.toNat).take m.toNat, ip'), τ)
  others : ∀ j, j ≠ ip.inum → j < sb.ninodes → dinode sb τ j = dinode sb σ j ∧ ∀ bn,
    blockAt (Function.update T ip.inum ip'.addrs) τ (place j bn) = blockAt T σ (place j bn) ∧
    (blockAt T σ (place j bn) ≠ 0 → τ (blockAt T σ (place j bn)) = σ (blockAt T σ (place j bn)))
  machine : ∀ (s : Machine) (stop : Prop) (C : Machine → Prop), LogInv sb.area s σ →
    stop ∨ HasRoom sb s ((writei sb devsw ip src off n).logs σ) →
    Crash.wp stop C (writei sb devsw ip src off n).run
      (fun r t => r = .ok ((n.toNat : Int), ip') ∧ LogInv sb.area t τ) s

/-- The exact result of `readi` on a file without holes. -/
theorem readi_exec (sb : Superblock) (devsw : Fin NDEV → Devsw) (o m : BitVec 32) (hT : T ip.inum = ip.addrs)
    (hdev : ip.type ≠ T_DEV)
    (hh : NoHoles T σ ip.inum ip.size.toNat) (ho : o.toNat ≤ ip.size.toNat)
    (hw : o.toNat + m.toNat < 4294967296) :
    (readi sb devsw ip o m).exec σ = .ok ((((min m.toNat (ip.size.toNat - o.toNat) : Nat) : Int),
      ((fileContents T σ ip).drop o.toNat).take m.toNat, ip), σ) := by
  obtain ⟨a, τ, hexec, rfl, rfl⟩ := wp_total (readi_spec (H := fun _ => False) (W := sb.Logged)
    sb devsw hT hdev hh ho hw)
  exact hexec

/-- The law of `writei` and `readi` for a file whose blocks below its size are allocated. -/
theorem writei_readi (h : Consistent sb T σ) (hT : T ip.inum = ip.addrs)
    (hi : ip.inum < sb.ninodes) (hdev : ip.type ≠ T_DEV)
    (hh : NoHoles T σ ip.inum ip.size.toNat) :
    (BadRange ip off n → (writei sb devsw ip src off n).exec σ = .ok ((-1, ip), σ)) ∧
    (off.toNat ≤ ip.size.toNat → off.toNat + n.toNat ≤ MAXFILE * BSIZE → src.length = n.toNat →
      need (touched ip.inum off.toNat n.toNat) T σ ≤ freeBlocks sb σ →
      ∃ ip' τ, WriteOutcome sb devsw T σ ip src off n ip' τ) := by
  refine ⟨writei_bad hdev, fun hoff hmax hlen hroom => ?_⟩
  have hspec := writei_spec (H := fun _ => False) devsw h hT hi hdev hh hoff hmax hlen
    (Or.inr hroom)
  obtain ⟨⟨res, ip'⟩, τ, hexec, hres, hw⟩ := wp_total hspec
  dsimp only at hres hw
  subst hres
  have hinum : ip'.inum = ip.inum := by rw [hw.inode]
  have hsize := ip.size.isLt
  have hfull : (fileContents T σ ip).take ip.size.toNat = fileContents T σ ip :=
    List.take_of_length_le (by rw [fileContents, length_fileBytes])
  refine ⟨ip', τ, hexec, hw.size, ?_, fun o m ho hm => ?_, fun j hj hjn =>
    ⟨hw.dinodes j hj hjn, hw.others j hj hjn⟩, fun s stop C hs hroom => ?_⟩
  · have hread := readi_exec sb devsw 0 ip.size hT hdev hh
      (Nat.zero_le _) (by show 0 + _ < _; omega)
    have hmin : min ip.size.toNat (ip.size.toNat - (0 : BitVec 32).toNat) = ip.size.toNat :=
      Nat.min_self _
    rw [hmin] at hread
    rw [hread]
    have hz : (0 : BitVec 32).toNat = 0 := rfl
    rw [hz, List.drop_zero, hfull]
  · have htable : Function.update T ip.inum ip'.addrs ip'.inum = ip'.addrs := by
      rw [hinum, Function.update_self]
    have hread := readi_exec sb devsw o m htable (by rw [hw.inode]; exact hdev) (by rw [hinum]; exact hw.noHoles) ho hm
    rw [hw.contents] at hread
    exact hread
  · have hend : ∀ (a : Int × Inode) (τ' : Contents) (t : Machine),
        (writei sb devsw ip src off n).exec σ = .ok (a, τ') → LogInv sb.area t τ' →
        (Except.ok a : Except Panic (Int × Inode)) = .ok ((n.toNat : Int), ip') ∧
          LogInv sb.area t τ := by
      intro a τ' t hexec' ht
      rw [hexec] at hexec'
      cases hexec'
      exact ⟨rfl, ht⟩
    have hhome : ∀ b, sb.Logged b → sb.area.Home b := fun b hb => Superblock.home_of_logged hb
    rcases hroom with hstop | ⟨hholds, hop, hblocks⟩
    · refine Crash.wp_stop (fun _ => hstop) (Crash.wp_mono (run_spec hhome hs hspec) ?_)
      rintro r t ⟨-, hr⟩
      cases r with
      | error e => exact hr.2.elim
      | ok a =>
        obtain ⟨τ', hexec', -, ht⟩ := hr
        exact hend a τ' t hexec' ht
    · have hlog : LOGSIZE = 90 := rfl
      have hbuf : NBUF = 90 := rfl
      have hsize : sb.area.size = sb.nlog := rfl
      have hnests := writei_nests (σ := σ) (N := 4) devsw h hT hi hmax hlen (Nat.le_refl 4)
      refine Crash.wp_stop False.elim (Crash.wp_mono
        (run_total hhome hs hspec hnests hholds hop (by omega) (by omega)) ?_)
      rintro r t ⟨-, hr⟩
      cases r with
      | error e => exact hr.2.elim
      | ok a =>
        obtain ⟨τ', hexec', -, ht⟩ := hr
        exact hend a τ' t hexec' ht

/-- A new file. -/
def newFile : Inode where
  type := T_FILE
  major := 0
  minor := 0
  nlink := 1
  size := 0
  addrs := fun _ => 0
  inum := 2
  ref := 1
  locked := true
  valid := true
  path := fun _ => 0

theorem noHoles_zero (T : AddrTable) (σ : Contents) (i : Nat) : NoHoles T σ i 0 :=
  ⟨Nat.zero_le _, fun o ho => absurd ho (Nat.not_lt_zero o)⟩

theorem need_le_length (L : List Place) (T : AddrTable) (σ : Contents) :
    need L.toFinset T σ ≤ L.length :=
  Nat.le_trans (Finset.card_le_card (Finset.filter_subset _ _)) (List.toFinset_card_le L)

/-- A machine with the image without files that was just switched on. -/
def bootMachine (sb : Superblock) : Machine :=
  Machine.powerOn sb.area ⟨blankImage sb, fun _ => ⟨none, false, false, 0, fun _ => 0⟩, [],
    initlog sb.logstart sb.nlog, blankImage sb, blankImage sb, none⟩

/-- It has begun its first operation. -/
def freshMachine (sb : Superblock) : Machine :=
  { bootMachine sb with log := { initlog sb.logstart sb.nlog with outstanding := 1 } }

theorem logInv_freshMachine (sb : Superblock) :
    LogInv sb.area (freshMachine sb) (blankImage sb) := by
  have hboot : Sees (bootMachine sb) (blankImage sb) := Sees.powerOn sb.area _
  have hsees : Sees (freshMachine sb) (blankImage sb) := hboot.congr rfl rfl rfl
  refine ⟨hsees, rfl, rfl, sb.area.logOk_nil, fun b => ?_, ?_, fun _ _ => rfl, rfl⟩
  · refine ⟨?_, fun h => absurd h List.not_mem_nil⟩
    rintro ⟨i, hi, -⟩
    cases hi
  · have hne : sb.logstart ≠ sb.bmapstart := by
      have h1 := sb.log_le
      have h2 := sb.inodestart_lt_bmapstart
      omega
    have hzero : blankImage sb sb.logstart = fun _ => 0 := Function.update_of_ne hne _ _
    show decodeHead (blankImage sb sb.logstart) = []
    rw [hzero, decodeHead, getWord_zeros]
    rfl

theorem hasRoom_newFile : HasRoom Superblock.mkfs (freshMachine Superblock.mkfs)
    ((writei Superblock.mkfs (fun _ => ⟨none, none⟩) newFile [104, 105] 0 2).logs
      (blankImage Superblock.mkfs)) := by
  refine ⟨⟨?_, ?_, ?_⟩, by decide, by decide +kernel⟩
  · intro b hb
    exact absurd hb (Finset.notMem_empty b)
  · intro i hi
    exact absurd rfl hi
  · intro i hi
    cases hi

theorem writei_readi_newFile :
    ∃ ip' τ, WriteOutcome Superblock.mkfs (fun _ => ⟨none, none⟩) noAddrs
      (blankImage Superblock.mkfs) newFile [104, 105] 0 2 ip' τ ∧
      Crash.wp False (fun _ => True)
        (writei Superblock.mkfs (fun _ => ⟨none, none⟩) newFile [104, 105] 0 2).run
        (fun r t => r = .ok (2, ip') ∧ LogInv Superblock.mkfs.area t τ)
        (freshMachine Superblock.mkfs) := by
  have hlaw : ∃ ip' τ, WriteOutcome Superblock.mkfs (fun _ => ⟨none, none⟩) noAddrs
      (blankImage Superblock.mkfs) newFile [104, 105] 0 2 ip' τ := by
    refine (writei_readi (consistent_blankImage (by decide)) rfl (by decide) (by decide)
      (noHoles_zero _ _ _)).2 (by decide) (by decide) rfl ?_
    rw [freeBlocks_blankImage (by decide)]
    exact Nat.le_trans (need_le_length _ _ _) (by decide)
  obtain ⟨ip', τ, hout⟩ := hlaw
  exact ⟨ip', τ, hout, hout.machine (freshMachine Superblock.mkfs) False (fun _ => True)
    (logInv_freshMachine Superblock.mkfs) (Or.inr hasRoom_newFile)⟩

/-! ### A write that is too large for the log -/

/-- An operation on an empty log that changes as many blocks as the log has does not
come to its end. -/
theorem run_eq_none {α : Type} {H : Panic → Prop} {post : α → Contents → Prop} {p : Op α} {a : α}
    {s : Machine} (hs : LogInv sb.area s σ) (hlh : s.log.lh = []) (h : p.wp H sb.Logged post σ)
    (hp : p.exec σ = .ok (a, τ)) {F : Finset Nat} (hF : ∀ b ∈ F, τ b ≠ σ b)
    (hcard : sb.nlog ≤ F.card) : (p.run s).2 = none := by
  have hspec := run_spec (C := fun _ => True) (fun b hb => Superblock.home_of_logged hb) hs h
  cases hr : (p.run s).2 with
  | none => rfl
  | some res =>
    obtain ⟨r, t⟩ := res
    obtain ⟨hdisk, hres⟩ := Crash.wp_result hspec hr
    match r, hres with
    | .error e, hres =>
      rw [hp] at hres
      cases hres.1
    | .ok a', hres =>
      obtain ⟨τ', hp', -, ht⟩ := hres
      rw [hp] at hp'
      cases hp'
      have hsub : F ⊆ t.log.lh.toFinset := by
        intro b hb
        rw [List.mem_toFinset, ← ht.pinned]
        by_contra hnp
        refine hF b hb ?_
        rw [← ht.sees.disk b hnp, hdisk]
        refine hs.sees.disk b fun hpin => ?_
        rw [hs.pinned, hlh] at hpin
        exact absurd hpin List.not_mem_nil
      have h1 := Finset.card_le_card hsub
      have h2 := List.toFinset_card_le t.log.lh
      have h3 : t.log.lh.length + 1 ≤ sb.nlog := ht.lh.fits
      omega

theorem blankImage_data {b : Nat} (h : sb.datastart ≤ b) : blankImage sb b = fun _ => 0 := by
  have h1 := sb.bmapstart_lt_datastart
  exact Function.update_of_ne (by omega) _ _

/-- Writing ones to a new file changes a block for each 512 bytes. -/
theorem writei_newFile_changes {ip' : Inode} {src : List Byte} {k : Nat}
    (hi : newFile.inum < sb.ninodes)
    (hw : Written sb noAddrs (blankImage sb) newFile src 0 (512 * k) ip' τ)
    (hlen : src.length = 512 * k) (hsrc : ∀ o, o < 512 * k → src.getD o 0 ≠ 0) :
    ∃ F : Finset Nat, F.card = k ∧ ∀ b ∈ F, τ b ≠ blankImage sb b := by
  have hinum : ip'.inum = newFile.inum := by rw [hw.inode]
  have hsize : ip'.size.toNat = 512 * k := by
    rw [hw.size]
    show max 0 (0 + 512 * k) = 512 * k
    omega
  have hcont : fileBytes (Function.update noAddrs newFile.inum ip'.addrs) τ newFile.inum 0 (512 * k)
      = src := by
    have h := hw.contents
    unfold fileContents at h
    rw [hinum, hsize] at h
    rw [h]
    show [] ++ src ++ List.drop _ [] = src
    rw [List.drop_nil, List.append_nil, List.nil_append]
  have hc := hw.consistent
  have hpres := hw.noHoles
  rw [hsize] at hpres
  generalize Function.update noAddrs newFile.inum ip'.addrs = T' at hcont hc hpres
  have hat : ∀ bn, bn < k → 512 * bn / BSIZE = bn := by
    intro bn _
    show 512 * bn / 512 = bn
    omega
  have hblock : ∀ bn, bn < k → blockAt T' τ (place newFile.inum bn) ≠ 0 := by
    intro bn hbn
    have h := hpres.present (512 * bn) (by omega)
    unfold Present at h
    rw [hat bn hbn] at h
    exact h
  refine ⟨(Finset.range k).image fun bn => blockAt T' τ (place newFile.inum bn), ?_, ?_⟩
  · rw [Finset.card_image_of_injOn, Finset.card_range]
    intro bn hbn bm hbm heq
    have hbn' : bn < k := Finset.mem_range.mp hbn
    have hbm' : bm < k := Finset.mem_range.mp hbm
    have hle := hpres.le
    rw [MAXFILE_BSIZE] at hle
    have hp := hc.owns.uniq _ _ (leaf_place hi bn).valid (leaf_place hi bm).valid
      (hblock bn hbn') heq
    exact (place_inj (by rw [MAXFILE_eq]; omega) (by rw [MAXFILE_eq]; omega) hp).2
  · intro b hb
    obtain ⟨bn, hbn, rfl⟩ := Finset.mem_image.mp hb
    have hbn' := Finset.mem_range.mp hbn
    have hlive := hc.live (leaf_place hi bn).valid (hblock bn hbn')
    intro heq
    rw [blankImage_data hlive.1] at heq
    refine hsrc (512 * bn) (by omega) ?_
    have hbyte : fileByte T' τ newFile.inum (512 * bn) = 0 := by
      unfold fileByte
      rw [hat bn hbn', heq]
      unfold byteAt
      split_ifs <;> rfl
    rw [← hcont, List.getD_eq_getElem _ _ (by rw [length_fileBytes]; omega)]
    simp only [fileBytes, List.getElem_map, List.getElem_range, Nat.zero_add]
    exact hbyte

/-- Ninety blocks of ones, in one call. -/
def largeSource : List Byte := List.replicate (512 * 90) 255

-- A call of `writei` that meets all conditions, and is stopped by the log.
theorem writei_newFile_halts :
    LogInv Superblock.mkfs.area (freshMachine Superblock.mkfs) (blankImage Superblock.mkfs) ∧
    Consistent Superblock.mkfs noAddrs (blankImage Superblock.mkfs) ∧
    newFile.type ≠ T_DEV ∧ NoHoles noAddrs (blankImage Superblock.mkfs) newFile.inum 0 ∧
    largeSource.length = (46080 : BitVec 32).toNat ∧
    0 + (46080 : BitVec 32).toNat ≤ MAXFILE * BSIZE ∧
    need (touched newFile.inum 0 46080) noAddrs (blankImage Superblock.mkfs)
      ≤ freeBlocks Superblock.mkfs (blankImage Superblock.mkfs) ∧
    ((writei Superblock.mkfs (fun _ => ⟨none, none⟩) newFile largeSource 0 46080).run
      (freshMachine Superblock.mkfs)).2 = none := by
  have hc : Consistent Superblock.mkfs noAddrs (blankImage Superblock.mkfs) :=
    consistent_blankImage (by decide)
  have hlog := logInv_freshMachine Superblock.mkfs
  have hlen : largeSource.length = (46080 : BitVec 32).toNat := List.length_replicate
  have hroom : need (touched newFile.inum 0 46080) noAddrs (blankImage Superblock.mkfs)
      ≤ freeBlocks Superblock.mkfs (blankImage Superblock.mkfs) := by
    rw [freeBlocks_blankImage (by decide)]
    exact Nat.le_trans (need_le_length _ _ _) (by decide +kernel)
  refine ⟨hlog, hc, by decide, noHoles_zero _ _ _, hlen, by decide, hroom, ?_⟩
  have hspec : (writei Superblock.mkfs (fun _ => ⟨none, none⟩) newFile largeSource 0 46080).wp
      (fun _ => False) Superblock.mkfs.Logged (fun r τ => r.1 = (46080 : BitVec 32).toNat ∧
        Written Superblock.mkfs noAddrs (blankImage Superblock.mkfs) newFile largeSource
          (0 : BitVec 32).toNat (46080 : BitVec 32).toNat r.2 τ) (blankImage Superblock.mkfs) :=
    writei_spec _ hc rfl (by decide) (by decide) (noHoles_zero _ _ _) (Nat.le_refl _)
      (by decide) hlen (Or.inr hroom)
  obtain ⟨⟨res, ip'⟩, τ, hexec, -, hw⟩ := wp_total hspec
  obtain ⟨F, hcard, hF⟩ := writei_newFile_changes (k := 90) (by decide) hw hlen fun o ho => by
    rw [largeSource, List.getD_eq_getElem _ _ (by rw [List.length_replicate]; exact ho),
      List.getElem_replicate]
    decide
  exact run_eq_none hlog rfl hspec hexec hF (Nat.le_of_eq hcard.symm)

end Xv6.Fs
