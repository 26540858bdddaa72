import Xv6.Fs.Bmap

/-!
# Reading and writing files (project3/fs.c:220-237, 604-663, iupdate, readi, writei)
-/

namespace Xv6.Fs
open Buffer Forest

/-- `struct devsw`; a function may be missing. -/
structure Devsw where
  read : Option (Inode → BitVec 32 → Int × List Byte)
  write : Option (Inode → List Byte → BitVec 32 → Int)

/-- Maximum major device number (param.h). -/
def NDEV : Nat := 10

/-- `devsw[major]`, if `major` is in range. -/
def device (devsw : Fin NDEV → Devsw) (major : BitVec 16) : Option Devsw :=
  if h : 0 ≤ major.toInt ∧ major.toInt.toNat < NDEV then some (devsw ⟨major.toInt.toNat, h.2⟩)
  else none

variable (sb : Superblock) (devsw : Fin NDEV → Devsw)

def iupdate (ip : Inode) : Op Unit := do
  let _ ← bread (sb.iblock ip.inum)
  logWrite (sb.iblock ip.inum) (encodeDinode · ip.inum ip.toDinode)
  brelse (sb.iblock ip.inum)

-- The loop of readi() with `r` bytes left. A turn reads at least one of them, so
-- `r` turns are enough.
def readLoop : Nat → Inode → Nat → Nat → Op (List Byte × Inode)
  | 0, ip, _, _ => pure ([], ip)
  | turns + 1, ip, off, r =>
    if r = 0 then pure ([], ip)
    else do
      let (addr, ip) ← bmap sb ip (off / BSIZE)
      let bp ← bread addr
      let m := min r (BSIZE - off % BSIZE)
      brelse addr
      let (bs, ip) ← readLoop turns ip (off + m) (r - m)
      pure (slice bp (off % BSIZE) m ++ bs, ip)

def readi (ip : Inode) (off n : BitVec 32) : Op (Int × List Byte × Inode) :=
  if ip.type = T_DEV then
    match (device devsw ip.major).bind Devsw.read with
    | none => pure (-1, [], ip)
    | some read => pure ((read ip n).1, (read ip n).2, ip)
  else if ip.size < off ∨ off + n < off then pure (-1, [], ip)
  else do
    let n := if ip.size < off + n then ip.size - off else n
    let (bs, ip) ← readLoop sb n.toNat ip off.toNat n.toNat
    pure (n.toInt, bs, ip)

-- The loop of writei() with `r` bytes left.
def writeLoop : Nat → Inode → List Byte → Nat → Nat → Op Inode
  | 0, ip, _, _, _ => pure ip
  | turns + 1, ip, src, off, r =>
    if r = 0 then pure ip
    else do
      let (addr, ip) ← bmap sb ip (off / BSIZE)
      let _ ← bread addr
      let m := min r (BSIZE - off % BSIZE)
      logWrite addr (patch · (off % BSIZE) (src.take m))
      brelse addr
      writeLoop turns ip (src.drop m) (off + m) (r - m)

def writei (ip : Inode) (src : List Byte) (off n : BitVec 32) : Op (Int × Inode) :=
  if ip.type = T_DEV then
    match (device devsw ip.major).bind Devsw.write with
    | none => pure (-1, ip)
    | some write => pure (write ip src n, ip)
  else if ip.size < off ∨ off + n < off then pure (-1, ip)
  else if BitVec.ofNat 32 (MAXFILE * BSIZE) < off + n then pure (-1, ip)
  else do
    let ip ← writeLoop sb n.toNat ip src off.toNat n.toNat
    -- the loop has moved `off` to `off + n`
    if 0 < n ∧ ip.size < off + n then do
      let ip := { ip with size := off + n }
      iupdate sb ip
      pure (n.toInt, ip)
    else pure (n.toInt, ip)

/-! ### Inodes in the inode blocks -/

/-- Inode `i` on disk. -/
def dinode (σ : Contents) (i : Nat) : Dinode := decodeDinode (σ (sb.iblock i)) i

/-- The contents after `iupdate`. -/
def updated (σ : Contents) (i : Nat) (d : Dinode) : Contents :=
  Function.update σ (sb.iblock i) (encodeDinode (σ (sb.iblock i)) i d)

variable {sb devsw} {σ τ : Contents} {i j : Nat} {H : Panic → Prop} {W : Nat → Prop}

theorem iblock_mod_ne (h : sb.iblock i = sb.iblock j) (hij : i ≠ j) : i % IPB ≠ j % IPB := by
  intro hm
  have hd : i / IPB = j / IPB := by
    unfold Superblock.iblock at h
    omega
  exact hij (by rw [← Nat.div_add_mod i IPB, ← Nat.div_add_mod j IPB, hd, hm])

theorem dinode_congr (h : τ (sb.iblock i) = σ (sb.iblock i)) : dinode sb τ i = dinode sb σ i := by
  unfold dinode
  rw [h]

theorem dinode_updated_self (d : Dinode) : dinode sb (updated sb σ i d) i = d := by
  unfold dinode updated
  rw [Function.update_self]
  exact decodeDinode_encodeDinode _ _ _

theorem dinode_updated_ne (d : Dinode) (h : j ≠ i) :
    dinode sb (updated sb σ i d) j = dinode sb σ j := by
  unfold dinode updated
  by_cases hb : sb.iblock j = sb.iblock i
  · rw [hb, Function.update_self]
    exact decodeDinode_encodeDinode_ne _ _ (iblock_mod_ne hb.symm h.symm)
  · rw [Function.update_of_ne hb]

theorem updated_high {b : Nat} (hi : i < sb.ninodes) (d : Dinode) (hb : sb.bmapstart ≤ b) :
    updated sb σ i d b = σ b := by
  have h := Superblock.iblock_lt hi
  exact Function.update_of_ne (by omega) _ _

theorem iupdate_writes {ip : Inode} (hW : W (sb.iblock ip.inum)) :
    (iupdate sb ip).wp H W (fun _ τ => τ = updated sb σ ip.inum ip.toDinode) σ :=
  wp_bind (wp_bread (wp_bind (wp_logWrite hW (wp_brelse rfl))))

theorem iupdate_spec (ip : Inode) :
    (iupdate sb ip).wp H sb.Logged (fun _ τ => τ = updated sb σ ip.inum ip.toDinode) σ :=
  iupdate_writes (Superblock.logged_iblock _)

/-! ### The bytes of a file -/

variable {S : Finset Place} {D : Place → Nat → Prop} {T T' : AddrTable} {ip : Inode}

/-- Byte `o` of inode `i`. -/
def fileByte (T : AddrTable) (σ : Contents) (i o : Nat) : Byte :=
  byteAt (σ (blockAt T σ (place i (o / BSIZE)))) (o % BSIZE)

def fileBytes (T : AddrTable) (σ : Contents) (i off n : Nat) : List Byte :=
  (List.range n).map fun k => fileByte T σ i (off + k)

/-- The block of byte `o` is there. -/
def Present (T : AddrTable) (σ : Contents) (i o : Nat) : Prop :=
  blockAt T σ (place i (o / BSIZE)) ≠ 0

theorem BSIZE_eq : BSIZE = 512 := rfl

@[simp] theorem length_fileBytes (off n : Nat) : (fileBytes T σ i off n).length = n := by
  simp [fileBytes]

theorem fileBytes_congr {off n : Nat}
    (h : ∀ o, off ≤ o → o < off + n → fileByte T' τ i o = fileByte T σ i o) :
    fileBytes T' τ i off n = fileBytes T σ i off n := by
  unfold fileBytes
  refine List.map_congr_left fun k hk => ?_
  rw [List.mem_range] at hk
  exact h _ (by omega) (by omega)

theorem fileBytes_append (off m n : Nat) :
    fileBytes T σ i off m ++ fileBytes T σ i (off + m) n = fileBytes T σ i off (m + n) := by
  unfold fileBytes
  rw [List.range_add, List.map_append, List.map_map]
  congr 1
  refine List.map_congr_left fun k _ => ?_
  rw [Function.comp_apply, Nat.add_assoc]

theorem fileBytes_take (off n k : Nat) :
    (fileBytes T σ i off n).take k = fileBytes T σ i off (min k n) := by
  unfold fileBytes
  rw [← List.map_take, List.take_range]

theorem fileBytes_drop (off n k : Nat) :
    (fileBytes T σ i off n).drop k = fileBytes T σ i (off + k) (n - k) := by
  by_cases hk : k ≤ n
  · have hsplit := fileBytes_append (T := T) (σ := σ) (i := i) off k (n - k)
    rw [Nat.add_sub_cancel' hk] at hsplit
    rw [← hsplit, List.drop_append_of_le_length (by rw [length_fileBytes]), List.drop_of_length_le
      (by rw [length_fileBytes]), List.nil_append]
  · rw [List.drop_of_length_le (by rw [length_fileBytes]; omega)]
    have h0 : n - k = 0 := by omega
    rw [h0]
    rfl

/-- A piece of one block. -/
theorem slice_eq_fileBytes {off m : Nat} (h : m ≤ BSIZE - off % BSIZE) :
    slice (σ (blockAt T σ (place i (off / BSIZE)))) (off % BSIZE) m = fileBytes T σ i off m := by
  unfold slice fileBytes
  refine List.map_congr_left fun k hk => ?_
  rw [List.mem_range] at hk
  have h' : m ≤ 512 - off % 512 := h
  have hd : (off + k) / BSIZE = off / BSIZE := by
    show (off + k) / 512 = off / 512
    omega
  have hm : (off + k) % BSIZE = off % BSIZE + k := by
    show (off + k) % 512 = off % 512 + k
    omega
  unfold fileByte
  rw [hd, hm]

theorem Extends.present (h : Extends sb S D T σ T' τ) (hi : i < sb.ninodes) {o : Nat}
    (hp : Present T σ i o) : Present T' τ i o := by
  have hk := h.keep _ (leaf_place hi (o / BSIZE)).valid hp
  unfold Present
  rw [hk]
  exact hp

theorem Extends.fileByte_eq (h : Extends sb S D T σ T' τ) (hi : i < sb.ninodes) {o : Nat}
    (hp : Present T σ i o) (hD : ¬ D (place i (o / BSIZE)) (o % BSIZE)) :
    fileByte T' τ i o = fileByte T σ i o := by
  have hleaf : Leaf sb (place i (o / BSIZE)) := leaf_place hi (o / BSIZE)
  unfold fileByte
  rw [h.keep _ hleaf.valid hp]
  exact h.data _ hleaf hp _ hD

theorem slot_found {k : Fin 9} (h : ip.addrs k ≠ 0) :
    (slot sb ip k).wp H W (fun r τ => r = ((ip.addrs k).toNat, ip) ∧ τ = σ) σ := by
  unfold slot
  rw [if_neg h]
  exact wp_pure ⟨rfl, rfl⟩

theorem entry_found {w : Nat} {j : Fin 128} (h : getWord (σ w) (4 * j) ≠ 0) :
    (entry sb w j).wp H W (fun addr τ => addr = (getWord (σ w) (4 * j)).toNat ∧ τ = σ) σ := by
  refine wp_bind (wp_bread ?_)
  rw [if_neg h]
  exact wp_pure ⟨rfl, rfl⟩

/-- A block that is there is found in its entry. -/
theorem entry_of_blockAt {r : Nat × Fin 9} {js : List (Fin 128)} {k : Fin 128}
    (h : blockAt T σ (r, k :: js) ≠ 0) :
    blockAt T σ (r, js) ≠ 0 ∧ getWord (σ (blockAt T σ (r, js))) (4 * k) ≠ 0 ∧
      (getWord (σ (blockAt T σ (r, js))) (4 * k)).toNat = blockAt T σ (r, k :: js) := by
  have htail : blockAt T σ (r, js) ≠ 0 := ref_tail_ne_zero h
  have heq : blockAt T σ (r, k :: js) = (getWord (σ (blockAt T σ (r, js))) (4 * k)).toNat :=
    ref_cons htail
  refine ⟨htail, fun h0 => h ?_, heq.symm⟩
  rw [heq, h0]
  rfl

/-- `bmap` of a block that is there changes nothing. -/
theorem bmap_found (hT : T ip.inum = ip.addrs) {bn : Nat} (hbn : bn < MAXFILE)
    (hp : blockAt T σ (place ip.inum bn) ≠ 0) :
    (bmap sb ip bn).wp H W
      (fun r τ => r = (blockAt T σ (place ip.inum bn), ip) ∧ τ = σ) σ := by
  rw [MAXFILE_eq] at hbn
  have e1 : NDIRECT = 6 := rfl
  have e2 : NINDIRECT = 128 := rfl
  have hroot : ∀ k, blockAt T σ ((ip.inum, k), []) = (ip.addrs k).toNat := by
    intro k
    show (T ip.inum k).toNat = _
    rw [hT]
  have haddr : ∀ k, blockAt T σ ((ip.inum, k), []) ≠ 0 → ip.addrs k ≠ 0 := by
    intro k hk h0
    rw [hroot, h0] at hk
    exact hk rfl
  unfold bmap place at *
  by_cases h1 : bn < NDIRECT
  · rw [path_direct (by omega)] at hp ⊢
    rw [if_pos h1, hroot]
    exact slot_found (haddr _ hp)
  rw [if_neg h1]
  dsimp only
  by_cases h2 : bn - NDIRECT < NINDIRECT
  · obtain ⟨k, hpath, hk⟩ := path_single bn (by omega) (by omega)
    rw [if_pos h2, e1, hk]
    rw [hpath] at hp ⊢
    obtain ⟨hp1, he1, heq1⟩ := entry_of_blockAt hp
    refine wp_seq (slot_found (haddr _ hp1)) ?_
    rintro _ _ ⟨rfl, rfl⟩
    dsimp only
    rw [← hroot]
    refine wp_seq (entry_found he1) ?_
    rintro _ _ ⟨rfl, rfl⟩
    rw [heq1]
    exact wp_bind (wp_brelse (wp_pure ⟨rfl, rfl⟩))
  rw [if_neg h2]
  by_cases h3 : bn - NDIRECT - NINDIRECT < NDINDIRECT
  · have e3 : NDINDIRECT = 16384 := rfl
    obtain ⟨k, d, hpath, hk, hd⟩ := path_double bn (by omega) (by omega)
    rw [if_pos h3, e1, e2, hk, hd]
    rw [hpath] at hp ⊢
    obtain ⟨hp1, he1, heq1⟩ := entry_of_blockAt hp
    obtain ⟨hp2, he2, heq2⟩ := entry_of_blockAt hp1
    refine wp_seq (slot_found (haddr _ hp2)) ?_
    rintro _ _ ⟨rfl, rfl⟩
    dsimp only
    rw [← hroot]
    refine wp_seq (entry_found he2) ?_
    rintro _ _ ⟨rfl, rfl⟩
    rw [heq2]
    refine wp_seq (entry_found he1) ?_
    rintro _ _ ⟨rfl, rfl⟩
    rw [heq1]
    exact wp_bind (wp_brelse (wp_bind (wp_brelse (wp_pure ⟨rfl, rfl⟩))))
  rw [if_neg h3]
  have e3 : NDINDIRECT = 16384 := rfl
  have e4 : NTINDIRECT = 2097152 := rfl
  have h4 : bn - NDIRECT - NINDIRECT - NDINDIRECT < NTINDIRECT := by omega
  obtain ⟨k, d, t, hpath, hk, hd, ht⟩ := path_triple bn (by omega) (by omega)
  rw [if_pos h4, e1, e2, e3, hk, hd, ht]
  rw [hpath] at hp ⊢
  obtain ⟨hp1, he1, heq1⟩ := entry_of_blockAt hp
  obtain ⟨hp2, he2, heq2⟩ := entry_of_blockAt hp1
  obtain ⟨hp3, he3, heq3⟩ := entry_of_blockAt hp2
  refine wp_seq (slot_found (haddr _ hp3)) ?_
  rintro _ _ ⟨rfl, rfl⟩
  dsimp only
  rw [← hroot]
  refine wp_seq (entry_found he3) ?_
  rintro _ _ ⟨rfl, rfl⟩
  rw [heq3]
  refine wp_seq (entry_found he2) ?_
  rintro _ _ ⟨rfl, rfl⟩
  rw [heq2]
  refine wp_seq (entry_found he1) ?_
  rintro _ _ ⟨rfl, rfl⟩
  rw [heq1]
  exact wp_bind (wp_brelse (wp_bind (wp_brelse (wp_bind (wp_brelse (wp_pure ⟨rfl, rfl⟩))))))

theorem readLoop_spec (turns : Nat) {off r : Nat} (hT : T ip.inum = ip.addrs) (hr : r ≤ turns)
    (hmax : off + r ≤ MAXFILE * BSIZE)
    (hp : ∀ o, off ≤ o → o < off + r → Present T σ ip.inum o) :
    (readLoop sb turns ip off r).wp H W
      (fun res τ => res = (fileBytes T σ ip.inum off r, ip) ∧ τ = σ) σ := by
  induction turns generalizing off r with
  | zero =>
    have hr0 : r = 0 := Nat.le_zero.mp hr
    rw [hr0]
    exact wp_pure ⟨rfl, rfl⟩
  | succ turns ih =>
    unfold readLoop
    by_cases hr0 : r = 0
    · rw [if_pos hr0, hr0]
      exact wp_pure ⟨rfl, rfl⟩
    rw [if_neg hr0]
    have hB := BSIZE_eq
    have hbn : off / BSIZE < MAXFILE := by
      rw [hB] at hmax ⊢
      omega
    refine wp_seq (bmap_found hT hbn (hp off (Nat.le_refl _) (by omega))) ?_
    rintro ⟨addr, ip'⟩ τ ⟨hres, rfl⟩
    obtain ⟨rfl, rfl⟩ := Prod.mk.inj hres
    refine wp_bind (wp_bread (wp_bind (wp_brelse ?_)))
    generalize hm : min r (BSIZE - off % BSIZE) = m
    have hlt := Nat.mod_lt off (show 0 < BSIZE by omega)
    refine wp_seq (@ih (off + m) (r - m) (by omega) (by omega)
      fun o ho ho' => hp o (by omega) (by omega)) ?_
    rintro ⟨bs, ip''⟩ τ' ⟨hres', rfl⟩
    obtain ⟨rfl, rfl⟩ := Prod.mk.inj hres'
    refine wp_pure ⟨?_, rfl⟩
    rw [slice_eq_fileBytes (by omega), fileBytes_append]
    have hsum : m + (r - m) = r := by omega
    rw [hsum]

/-- All blocks below `size` are allocated. -/
structure NoHoles (T : AddrTable) (σ : Contents) (i size : Nat) : Prop where
  le : size ≤ MAXFILE * BSIZE
  present : ∀ o, o < size → Present T σ i o

/-- The bytes of the file, as far as its size goes. -/
def fileContents (T : AddrTable) (σ : Contents) (ip : Inode) : List Byte :=
  fileBytes T σ ip.inum 0 ip.size.toNat

theorem MAXFILE_BSIZE : MAXFILE * BSIZE = 1082199040 := by decide

theorem toNat_add_of_lt {x y : BitVec 32} (h : x.toNat + y.toNat < 4294967296) :
    (x + y).toNat = x.toNat + y.toNat := by
  rw [BitVec.toNat_add]
  omega

theorem toInt_of_le {x : BitVec 32} (h : x.toNat ≤ MAXFILE * BSIZE) : x.toInt = x.toNat := by
  rw [MAXFILE_BSIZE] at h
  rw [BitVec.toInt_eq_toNat_cond]
  split_ifs with hx
  · rfl
  · omega

/-- `readi` returns the bytes of the file that are in the range, and changes nothing. -/
theorem readi_spec (sb : Superblock) (devsw : Fin NDEV → Devsw) {off n : BitVec 32} (hT : T ip.inum = ip.addrs)
    (hdev : ip.type ≠ T_DEV)
    (hh : NoHoles T σ ip.inum ip.size.toNat) (hoff : off.toNat ≤ ip.size.toNat)
    (hw : off.toNat + n.toNat < 4294967296) :
    (readi sb devsw ip off n).wp H W (fun r τ =>
      r = (((min n.toNat (ip.size.toNat - off.toNat) : Nat) : Int),
        ((fileContents T σ ip).drop off.toNat).take n.toNat, ip) ∧ τ = σ) σ := by
  have hadd := toNat_add_of_lt hw
  unfold readi
  rw [if_neg hdev, if_neg]
  · have hle := hh.le
    generalize hn' : (if ip.size < off + n then ip.size - off else n) = n'
    have hval : n'.toNat = min n.toNat (ip.size.toNat - off.toNat) := by
      rw [← hn']
      split_ifs with hlt
      · rw [BitVec.lt_def, hadd] at hlt
        rw [BitVec.toNat_sub_of_le (BitVec.le_def.mpr hoff)]
        omega
      · rw [BitVec.lt_def, hadd] at hlt
        omega
    refine wp_seq (readLoop_spec n'.toNat hT (Nat.le_refl _) (by omega)
      fun o ho ho' => hh.present o (by omega)) ?_
    rintro ⟨bs, ip'⟩ τ ⟨hres, rfl⟩
    obtain ⟨rfl, rfl⟩ := Prod.mk.inj hres
    refine wp_pure ⟨?_, rfl⟩
    rw [toInt_of_le (by omega), fileContents, fileBytes_drop, fileBytes_take, hval, Nat.zero_add]
  · rw [BitVec.lt_def, BitVec.lt_def, hadd]
    omega

end Xv6.Fs
