import Xv6.Fs.Contents
import Xv6.Fs.Grow
import Xv6.Fs.Inode
import Xv6.Log.Record

/-!
# The blocks of one write transaction (project3/file.c:127-145, filewrite)

`filewrite` cuts a write into pieces so that each fits into the blocks that
`begin_op` reserves, `MAXOPBLOCKS`. The blocks that a piece logs are counted from the
state before it: data blocks, indirect blocks that are new or get a new entry, bitmap
blocks of the first free blocks, and the inode block if the file grows.
-/

namespace Xv6.Fs
open Buffer Forest

variable (sb : Superblock) (devsw : Fin NDEV → Devsw)

-- int max = ((MAXOPBLOCKS-1-1-2) / 2) * 512;
def maxWrite : Nat := (MAXOPBLOCKS - 1 - 1 - 2) / 2 * 512

/-- `n1`, when `i` of the `n` bytes are written. -/
def turnBytes (n i : Nat) : Nat := if maxWrite < n - i then maxWrite else n - i

-- One turn of the loop of filewrite() between begin_op() and end_op(): the result of
-- writei(), f->off and f->ip.
def filewriteTurn (ip : Inode) (addr : List Byte) (off : BitVec 32) (n i : Nat) :
    Op (Int × BitVec 32 × Inode) := do
  let n1 := turnBytes n i
  let ip ← ilock sb ip
  let (r, ip) ← writei sb devsw ip ((addr.drop i).take n1) off (BitVec.ofNat 32 n1)
  let ip ← iunlock ip
  pure (r, if 0 < r then off + BitVec.ofInt 32 r else off, ip)

/-- The range checks of `writei` fail, or the file is a device. -/
def Refused (d : Dinode) (off n : BitVec 32) : Prop :=
  d.type = T_DEV ∨ d.size < off ∨ off + n < off ∨ BitVec.ofNat 32 (MAXFILE * BSIZE) < off + n

instance (d : Dinode) (off n : BitVec 32) : Decidable (Refused d off n) :=
  inferInstanceAs (Decidable (_ ∨ _ ∨ _ ∨ _))

/-- The bitmap blocks of the blocks that a write of `n` bytes at `off` takes. -/
def mapBlocks (T : AddrTable) (σ : Contents) (i off n : Nat) : Finset Nat :=
  (((freeList sb σ).take (need (pieceTree i off n) T σ)).map sb.bblock).toFinset

/-- The data blocks of the write, and the indirect blocks that are new or get an entry. -/
def treePlaces (T : AddrTable) (σ : Contents) (i off n : Nat) : Finset Place :=
  (pieceTree i off n).filter fun q => Changed (pieceTree i off n) T σ q ∨ q ∈ pieces i off n

/-- The number of blocks that a write to inode `i`, which is `d`, has to log. -/
def writeBlocks (T : AddrTable) (σ : Contents) (i : Nat) (d : Dinode) (off n : BitVec 32) : Nat :=
  (mapBlocks sb T σ i off.toNat n.toNat).card + (treePlaces T σ i off.toNat n.toNat).card +
    if 0 < n ∧ d.size < off + n then 1 else 0

variable {sb devsw} {S E : Finset Place} {T T' : AddrTable} {σ σ' τ : Contents}
  {bs : Finset Nat} {ip : Inode} {off n : Nat}

theorem writeBlocks_eq {i m t g : Nat} {d : Dinode} {off n : BitVec 32}
    (hm : (mapBlocks sb T σ i off.toNat n.toNat).card = m)
    (ht : (treePlaces T σ i off.toNat n.toNat).card = t)
    (hg : (if 0 < n ∧ d.size < off + n then 1 else 0) = g) :
    writeBlocks sb T σ i d off n = m + t + g := by
  rw [writeBlocks, hm, ht, hg]

/-- Bitmap blocks and blocks of the tree are different, and so are the blocks of different
places. -/
theorem Grows.card (hg : Grows sb S E T σ T' σ' bs) :
    bs.card = (((freeList sb σ).take (need S T σ)).map sb.bblock).toFinset.card +
      (S.filter fun q => Changed S T σ q ∨ q ∈ E).card := by
  have hsplit : bs = (((freeList sb σ).take (need S T σ)).map sb.bblock).toFinset ∪
      (S.filter fun q => Changed S T σ q ∨ q ∈ E).image fun q => blockAt T' σ' q := by
    ext b
    rw [hg.logs, Finset.mem_union, List.mem_toFinset, List.mem_map, Finset.mem_image]
    refine or_congr ⟨?_, ?_⟩ ⟨?_, ?_⟩
    · rintro ⟨x, hx, rfl⟩
      exact ⟨x, hx, rfl⟩
    · rintro ⟨x, hx, rfl⟩
      exact ⟨x, hx, rfl⟩
    · rintro ⟨q, hq, hch, rfl⟩
      exact ⟨q, Finset.mem_filter.mpr ⟨hq, hch⟩, rfl⟩
    · rintro ⟨q, hq, rfl⟩
      obtain ⟨hq, hch⟩ := Finset.mem_filter.mp hq
      exact ⟨q, hq, hch, rfl⟩
  rw [hsplit, Finset.card_union_of_disjoint, Finset.card_image_of_injOn]
  · intro q hq q' hq' heq
    have hqS := (Finset.mem_filter.mp (Finset.mem_coe.mp hq)).1
    have hqS' := (Finset.mem_filter.mp (Finset.mem_coe.mp hq')).1
    exact hg.consistent.owns.uniq q q' (hg.upper.valid q hqS) (hg.upper.valid q' hqS')
      (hg.full q hqS) heq
  · rw [Finset.disjoint_left]
    intro b hmap htree
    obtain ⟨x, hx, rfl⟩ := List.mem_map.mp (List.mem_toFinset.mp hmap)
    obtain ⟨q, hq, hb⟩ := Finset.mem_image.mp htree
    have hqS := (Finset.mem_filter.mp hq).1
    have hlive := hg.consistent.live (hg.upper.valid q hqS) (hg.full q hqS)
    have hlt := Superblock.bblock_lt (mem_freeList.mp (List.mem_of_mem_take hx)).1
    have hle := hlive.1
    omega

theorem Grows.bmapstart_le (hg : Grows sb S E T σ T' σ' bs) {b : Nat} (hb : b ∈ bs) :
    sb.bmapstart ≤ b := by
  rcases (hg.logs b).mp hb with ⟨x, -, rfl⟩ | ⟨q, hq, -, rfl⟩
  · exact Superblock.bmapstart_le_bblock x
  · have hlive := hg.consistent.live (hg.upper.valid q hq) (hg.full q hq)
    have hlt := sb.bmapstart_lt_datastart
    have hle := hlive.1
    omega

theorem iupdate_does (ip : Inode) (σ : Contents) :
    Does (iupdate sb ip) σ () (updated sb σ ip.inum ip.toDinode) {sb.iblock ip.inum} := by
  rw [← insert_empty_eq (sb.iblock ip.inum)]
  exact Does.bread (Does.logWrite ⟨rfl, rfl⟩)

theorem not_refused {d : Dinode} {off n : BitVec 32} (h : ¬ Refused d off n) :
    d.type ≠ T_DEV ∧ ¬ (d.size < off ∨ off + n < off) ∧
      ¬ BitVec.ofNat 32 (MAXFILE * BSIZE) < off + n ∧
      off.toNat + n.toNat ≤ MAXFILE * BSIZE := by
  unfold Refused at h
  push Not at h
  obtain ⟨h1, h2, h3, h4⟩ := h
  refine ⟨h1, not_or.mpr ⟨h2, h3⟩, h4, ?_⟩
  have hM : (BitVec.ofNat 32 (MAXFILE * BSIZE)).toNat = 1082199040 := by decide
  rw [BitVec.lt_def, BitVec.toNat_add] at h3
  rw [BitVec.lt_def, BitVec.toNat_add, hM] at h4
  rw [MAXFILE_BSIZE]
  have hoff := off.isLt
  have hn := n.isLt
  omega

/-- How many blocks `writei` logs. -/
theorem writei_does (ip : Inode) (devsw : Fin NDEV → Devsw) (src : List Byte) {off n : BitVec 32}
    (h : Consistent sb T σ) (hT : T ip.inum = ip.addrs) (hi : ip.inum < sb.ninodes)
    (hroom : ¬ Refused ip.toDinode off n →
      need (pieceTree ip.inum off.toNat n.toNat) T σ ≤ freeBlocks sb σ) :
    ∃ res ip' τ bs, Does (writei sb devsw ip src off n) σ (res, ip') τ bs ∧
      ip'.ref = ip.ref ∧ ip'.locked = ip.locked ∧
      bs.card = if Refused ip.toDinode off n then 0
        else writeBlocks sb T σ ip.inum ip.toDinode off n := by
  have hnone : ∀ res : Int, Refused ip.toDinode off n →
      writei sb devsw ip src off n = pure (res, ip) →
      ∃ res ip' τ bs, Does (writei sb devsw ip src off n) σ (res, ip') τ bs ∧
        ip'.ref = ip.ref ∧ ip'.locked = ip.locked ∧
        bs.card = if Refused ip.toDinode off n then 0
          else writeBlocks sb T σ ip.inum ip.toDinode off n := by
    intro res href hw
    rw [hw, if_pos href]
    exact ⟨res, ip, σ, ∅, Does.pure _ _, rfl, rfl, rfl⟩
  by_cases href : Refused ip.toDinode off n
  · by_cases hdev : ip.type = T_DEV
    · cases hd : (device devsw ip.major).bind Devsw.write with
      | none => exact hnone (-1) href (by unfold writei; rw [if_pos hdev, hd])
      | some write => exact hnone (write ip src n) href (by unfold writei; rw [if_pos hdev, hd])
    · by_cases hrange : ip.size < off ∨ off + n < off
      · exact hnone (-1) href (by unfold writei; rw [if_neg hdev, if_pos hrange])
      · have hfar := ((href.resolve_left hdev).resolve_left (not_or.mp hrange).1).resolve_left
          (not_or.mp hrange).2
        exact hnone (-1) href (by unfold writei; rw [if_neg hdev, if_neg hrange, if_pos hfar])
  · obtain ⟨hdev, hrange, hfar, hmax⟩ := not_refused href
    obtain ⟨a, τ, bs, hdo, hg⟩ := writeLoop_grows n.toNat src h hT hi (Nat.le_refl _) hmax
      (by rw [length_freeList]; exact hroom href)
    have hcard := hg.card
    unfold writei
    rw [if_neg hdev, if_neg hrange, if_neg hfar, if_neg href]
    by_cases hgrow : 0 < n ∧ ip.size < off + n
    · have hrest : Does (do
          iupdate sb { ip with addrs := a, size := off + n }
          pure (n.toInt, ({ ip with addrs := a, size := off + n } : Inode))) τ
          (n.toInt, { ip with addrs := a, size := off + n })
          (updated sb τ ip.inum { ip.toDinode with addrs := a, size := off + n })
          ({sb.iblock ip.inum} ∪ ∅) :=
        (iupdate_does { ip with addrs := a, size := off + n } τ).seq (Does.pure _ _)
      rw [Finset.union_empty] at hrest
      refine ⟨n.toInt, { ip with addrs := a, size := off + n },
        updated sb τ ip.inum { ip.toDinode with addrs := a, size := off + n },
        bs ∪ {sb.iblock ip.inum}, hdo.seq ?_, rfl, rfl, ?_⟩
      · rw [if_pos (show 0 < n ∧ ({ ip with addrs := a } : Inode).size < off + n from hgrow)]
        exact hrest
      · have hnot : Disjoint bs {sb.iblock ip.inum} := by
          rw [Finset.disjoint_singleton_right]
          intro hmem
          have hlt := Superblock.iblock_lt hi
          have hle := hg.bmapstart_le hmem
          omega
        rw [Finset.card_union_of_disjoint hnot, Finset.card_singleton, hcard, writeBlocks,
          if_pos hgrow]
        rfl
    · refine ⟨n.toInt, { ip with addrs := a }, τ, bs ∪ ∅, hdo.seq ?_, rfl, rfl, ?_⟩
      · rw [if_neg (show ¬ (0 < n ∧ ({ ip with addrs := a } : Inode).size < off + n) from hgrow)]
        exact Does.pure _ _
      · rw [Finset.union_empty, hcard, writeBlocks, if_neg hgrow]
        rfl

theorem filewriteTurn_does (ip : Inode) (devsw : Fin NDEV → Devsw) (addr : List Byte) (off : BitVec 32)
    (n i : Nat) (h : Consistent sb T σ) (hT : T ip.inum = (ip.current sb σ).addrs)
    (hi : ip.inum < sb.ninodes) (href : 1 ≤ ip.ref) (hfree : ip.locked = false)
    (htype : ip.valid ∨ (ip.current sb σ).type ≠ 0)
    (hroom : ¬ Refused (ip.current sb σ) off (BitVec.ofNat 32 (turnBytes n i)) →
      need (pieceTree ip.inum off.toNat (BitVec.ofNat 32 (turnBytes n i)).toNat) T σ
        ≤ freeBlocks sb σ) :
    ((filewriteTurn sb devsw ip addr off n i).logs σ).card =
      if Refused (ip.current sb σ) off (BitVec.ofNat 32 (turnBytes n i)) then 0
      else writeBlocks sb T σ ip.inum (ip.current sb σ) off (BitVec.ofNat 32 (turnBytes n i)) := by
  obtain ⟨res, ip', τ, bs, hdo, hr, hl, hcard⟩ := writei_does (ip.held sb σ) devsw
    ((addr.drop i).take (turnBytes n i)) h hT hi hroom
  have hunlock : Does (iunlock ip') τ { ip' with locked := false } τ ∅ :=
    iunlock_does (by rw [hr]; exact href) hl τ
  have hturn : Does (filewriteTurn sb devsw ip addr off n i) σ
      (res, (if 0 < res then off + BitVec.ofInt 32 res else off), { ip' with locked := false }) τ
      (∅ ∪ (bs ∪ (∅ ∪ ∅))) :=
    (ilock_does href hfree htype).seq (hdo.seq (hunlock.seq (Does.pure _ _)))
  rw [Finset.union_empty, Finset.union_empty, Finset.empty_union] at hturn
  rw [hturn.logs, hcard]
  rfl

/-! ### A disk that is full but for one block for each bitmap block

Inode 2 has 127 data blocks, so that the next 13 need the double indirect tree. The
inodes 3 to 9 have the other blocks in their double indirect trees. -/

namespace Scattered

/-- An indirect block. -/
def words (f : Nat → Nat) : Block :=
  setWords (fun _ => 0) 0 (List.ofFn fun j : Fin 128 => BitVec.ofNat 32 (f j))

theorem getWord_words (f : Nat → Nat) (j : Fin 128) :
    getWord (words f) (4 * j) = BitVec.ofNat 32 (f j) := by
  have hB := BSIZE_eq
  have hj := j.isLt
  have h := getWord_setWords (fun _ => 0 : Block) 0
    (List.ofFn fun j : Fin 128 => BitVec.ofNat 32 (f j))
    (by rw [List.length_ofFn]; omega) j (by rw [List.length_ofFn]; exact hj)
  rw [Nat.zero_add, List.getElem_ofFn] at h
  exact h

/-- The double indirect block of inode `i`, before the 128 blocks below it. -/
def base (i : Nat) : Nat := 271 + 16513 * (i - 3)

/-- Entry `j` of the block under entry `d`, unless it is beyond the disk or free. -/
def leaf (b d j : Nat) : Nat :=
  if b + 129 + 128 * d + j < 100000 ∧ (b + 129 + 128 * d + j) % 4096 ≠ 1650
  then b + 129 + 128 * d + j else 0

def addrs : AddrTable := fun i k =>
  if i = 2 ∧ k.val ≤ 6 then BitVec.ofNat 32 (143 + k)
  else if 3 ≤ i ∧ i ≤ 9 ∧ k.val = 7 then BitVec.ofNat 32 (base i)
  else 0

def contents : Contents := fun b =>
  if b < 118 then fun _ => 0
  else if b < 143 then fun k => if k.val = 206 then 251 else 255
  else if b = 149 then words fun j => if j < 121 then 150 + j else 0
  else if b < 271 then fun _ => 0
  else if (b - 271) % 16513 = 0 then words fun d => b + 1 + d
  else if (b - 271) % 16513 ≤ 128 then
    words fun j => leaf (b - (b - 271) % 16513) ((b - 271) % 16513 - 1) j
  else fun _ => 0

/-- The block at a place. -/
def spot : Place → Nat
  | ((i, k), []) =>
    if i = 2 ∧ k.val ≤ 6 then 143 + k else if 3 ≤ i ∧ i ≤ 9 ∧ k.val = 7 then base i else 0
  | ((i, k), [j]) =>
    if i = 2 ∧ k.val = 6 ∧ j.val < 121 then 150 + j
    else if 3 ≤ i ∧ i ≤ 9 ∧ k.val = 7 then base i + 1 + j else 0
  | ((i, k), [j, d]) => if 3 ≤ i ∧ i ≤ 9 ∧ k.val = 7 then leaf (base i) d j else 0
  | _ => 0

theorem spot_root (i : Nat) (k : Fin 9) : spot ((i, k), []) =
    if i = 2 ∧ k.val ≤ 6 then 143 + k.val else if 3 ≤ i ∧ i ≤ 9 ∧ k.val = 7 then base i else 0 :=
  rfl

theorem spot_single (i : Nat) (k : Fin 9) (j : Fin 128) : spot ((i, k), [j]) =
    if i = 2 ∧ k.val = 6 ∧ j.val < 121 then 150 + j.val
    else if 3 ≤ i ∧ i ≤ 9 ∧ k.val = 7 then base i + 1 + j.val else 0 := rfl

theorem spot_double (i : Nat) (k : Fin 9) (j d : Fin 128) : spot ((i, k), [j, d]) =
    if 3 ≤ i ∧ i ≤ 9 ∧ k.val = 7 then leaf (base i) d j else 0 := rfl

theorem toNat_ofNat {x : Nat} (h : x < 4294967296) : (BitVec.ofNat 32 x).toNat = x := by
  rw [BitVec.toNat_ofNat]
  omega

theorem base_le {i : Nat} (h : i ≤ 9) : base i ≤ 99349 := by
  unfold base
  omega

theorem root_eq (i : Nat) (k : Fin 9) : (addrs i k).toNat = spot ((i, k), []) := by
  have hk := k.isLt
  rw [spot_root]
  unfold addrs
  split_ifs with h1 h2
  · exact toNat_ofNat (show 143 + k.val < 4294967296 by omega)
  · have hb := base_le h2.2.1
    exact toNat_ofNat (show base i < 4294967296 by omega)
  · rfl

theorem child_single (j : Fin 128) :
    (getWord (contents 149) (4 * j)).toNat = if j.val < 121 then 150 + j.val else 0 := by
  have h : contents 149 = words fun j => if j < 121 then 150 + j else 0 := by
    unfold contents
    rw [if_neg (by omega), if_neg (by omega), if_pos rfl]
  have hj := j.isLt
  rw [h, getWord_words]
  refine toNat_ofNat ?_
  split_ifs <;> omega

theorem child_base {i : Nat} (h9 : i ≤ 9) (d : Fin 128) :
    (getWord (contents (base i)) (4 * d)).toNat = base i + 1 + d := by
  have hb := base_le h9
  have hmod : (base i - 271) % 16513 = 0 := by
    unfold base
    omega
  have hge : 271 ≤ base i := by
    unfold base
    omega
  have h : contents (base i) = words fun d => base i + 1 + d := by
    unfold contents
    rw [if_neg (by omega), if_neg (by omega), if_neg (by omega), if_neg (by omega), if_pos hmod]
  have hd := d.isLt
  rw [h, getWord_words]
  exact toNat_ofNat (by omega)

theorem leaf_lt (b d j : Nat) : leaf b d j < 100000 := by
  unfold leaf
  split_ifs with h
  · exact h.1
  · omega

theorem child_inner (i : Nat) (d j : Fin 128) :
    (getWord (contents (base i + 1 + d)) (4 * j)).toNat = leaf (base i) d j := by
  have hd := d.isLt
  have hge : 271 ≤ base i := by
    unfold base
    omega
  have hmod : (base i + 1 + d - 271) % 16513 = d + 1 := by
    unfold base
    omega
  have h : contents (base i + 1 + d) = words fun j => leaf (base i) d j := by
    unfold contents
    rw [if_neg (by omega), if_neg (by omega), if_neg (by omega), if_neg (by omega), hmod,
      if_neg (by omega), if_pos (by omega)]
    have e1 : base i + 1 + d - (d + 1) = base i := by omega
    have e2 : d.val + 1 - 1 = d := by omega
    rw [e1, e2]
  rw [h, getWord_words]
  exact toNat_ofNat (Nat.lt_trans (leaf_lt _ _ _) (by omega))

theorem blockAt_eq {p : Place} (hp : (shape Superblock.mkfs).Valid p) :
    blockAt addrs contents p = spot p := by
  obtain ⟨⟨i, k⟩, js⟩ := p
  have hlen : js.length ≤ k.val - 5 := hp.2
  have hk := k.isLt
  have h0 : blockAt addrs contents ((i, k), []) = spot ((i, k), []) := root_eq i k
  have h1 : ∀ d, 1 ≤ k.val - 5 → blockAt addrs contents ((i, k), [d]) = spot ((i, k), [d]) := by
    intro d hk1
    show (if blockAt addrs contents ((i, k), []) = 0 then 0
      else (getWord (contents (blockAt addrs contents ((i, k), []))) (4 * d)).toNat) = _
    rw [h0, spot_root, spot_single]
    by_cases hi2 : i = 2 ∧ k.val ≤ 6
    · have hk6 : k.val = 6 := by omega
      rw [if_pos hi2, hk6, if_neg (by omega)]
      have hc := child_single d
      show (getWord (contents 149) (4 * d)).toNat = _
      rw [hc]
      split_ifs <;> omega
    · rw [if_neg hi2]
      by_cases hi : 3 ≤ i ∧ i ≤ 9 ∧ k.val = 7
      · have hb : base i ≠ 0 := by
          unfold base
          omega
        rw [if_pos hi, if_neg hb, if_pos hi, if_neg (by omega), child_base hi.2.1]
      · rw [if_neg hi, if_pos rfl, if_neg (by omega), if_neg hi]
  have h2 : ∀ j d, 2 ≤ k.val - 5 →
      blockAt addrs contents ((i, k), [j, d]) = spot ((i, k), [j, d]) := by
    intro j d hk2
    show (if blockAt addrs contents ((i, k), [d]) = 0 then 0
      else (getWord (contents (blockAt addrs contents ((i, k), [d]))) (4 * j)).toNat) = _
    have hk6 : ¬ (i = 2 ∧ k.val = 6 ∧ d.val < 121) := by omega
    rw [h1 d (by omega), spot_double, spot_single, if_neg hk6]
    by_cases hi : 3 ≤ i ∧ i ≤ 9 ∧ k.val = 7
    · rw [if_pos hi, if_neg (by omega), if_pos hi, child_inner]
    · rw [if_neg hi, if_pos rfl, if_neg hi]
  rcases js with _ | ⟨d, js⟩
  · exact h0
  rcases js with _ | ⟨e, js⟩
  · exact h1 d hlen
  rcases js with _ | ⟨t, js⟩
  · exact h2 d e hlen
  · -- the triple indirect slot is empty
    have hk8 : k.val = 8 := by
      simp only [List.length_cons] at hlen
      omega
    have hjs : js = [] := by
      simp only [List.length_cons] at hlen
      exact List.length_eq_zero_iff.mp (by omega)
    have hroot : blockAt addrs contents ((i, k), []) = 0 := by
      rw [h0, spot_root, if_neg (by omega), if_neg (by omega)]
    rw [hjs]
    exact ref_of_root_zero hroot _

theorem getBit_map {i : Nat} (h : i < 4096) :
    getBit (fun k => if k.val = 206 then 251 else 255 : Block) i = decide (i ≠ 1650) := by
  have hB := BSIZE_eq
  unfold getBit
  rw [and_bitMask_ne_zero, byteAt, dif_pos (by omega)]
  dsimp only
  have hlt : i % 8 < 8 := Nat.mod_lt _ (by omega)
  by_cases h206 : i / 8 = 206
  · rw [if_pos h206]
    obtain hm | hm : i % 8 = 2 ∨ i % 8 ≠ 2 := eq_or_ne _ _
    · have hi : i = 1650 := by omega
      rw [hm, hi]
      decide
    · have hi : i ≠ 1650 := by omega
      rw [decide_eq_true hi]
      have hcase : ∀ m : Fin 8, m.val ≠ 2 → (251 : Byte).getLsbD m = true := by decide
      exact hcase ⟨i % 8, hlt⟩ hm
  · have hi : i ≠ 1650 := by omega
    rw [if_neg h206, decide_eq_true hi]
    have hcase : ∀ m : Fin 8, (255 : Byte).getLsbD m = true := by decide
    exact hcase ⟨i % 8, hlt⟩

theorem bit_eq {b : Nat} (h : b < 100000) :
    bit Superblock.mkfs contents b = decide (b % 4096 ≠ 1650) := by
  have hblk : Superblock.mkfs.bblock b = b / 4096 + 118 := rfl
  have hmap : contents (b / 4096 + 118) = fun k => if k.val = 206 then 251 else 255 := by
    have hlt : b / 4096 + 118 < 143 := by omega
    have hge : ¬ b / 4096 + 118 < 118 := by omega
    unfold contents
    rw [if_neg hge, if_pos hlt]
  unfold bit
  rw [hblk, hmap]
  exact getBit_map (Nat.mod_lt b BPB_pos)

/-- Where a block is. -/
def owner (b : Nat) : Place :=
  if b < 150 then ((2, slotOf (b - 143)), [])
  else if b < 271 then ((2, slotOf 6), [entryOf (b - 150)])
  else if (b - 271) % 16513 = 0 then (((b - 271) / 16513 + 3, slotOf 7), [])
  else if (b - 271) % 16513 ≤ 128 then
    (((b - 271) / 16513 + 3, slotOf 7), [entryOf ((b - 271) % 16513 - 1)])
  else (((b - 271) / 16513 + 3, slotOf 7), [entryOf (((b - 271) % 16513 - 129) % 128),
    entryOf (((b - 271) % 16513 - 129) / 128)])

theorem owner_spot {p : Place} (hp : (shape Superblock.mkfs).Valid p) (h0 : spot p ≠ 0) :
    143 ≤ spot p ∧ spot p < 100000 ∧ spot p % 4096 ≠ 1650 ∧ owner (spot p) = p := by
  obtain ⟨⟨i, k⟩, js⟩ := p
  have hk := k.isLt
  rcases js with _ | ⟨j, js⟩
  · rw [spot_root] at h0 ⊢
    by_cases h2 : i = 2 ∧ k.val ≤ 6
    · rw [if_pos h2]
      refine ⟨by omega, by omega, by omega, ?_⟩
      unfold owner
      rw [if_pos (by omega), h2.1, slotOf_eq (k := k) (by omega)]
    · rw [if_neg h2] at h0 ⊢
      by_cases hi : 3 ≤ i ∧ i ≤ 9 ∧ k.val = 7
      · rw [if_pos hi]
        have hb : base i = 271 + 16513 * (i - 3) := rfl
        have hdiv : (base i - 271) / 16513 + 3 = i := by omega
        refine ⟨by omega, by omega, by omega, ?_⟩
        unfold owner
        rw [if_neg (by omega), if_neg (by omega), if_pos (by omega), hdiv,
          slotOf_eq (k := k) hi.2.2.symm]
      · rw [if_neg hi] at h0
        exact absurd rfl h0
  rcases js with _ | ⟨d, js⟩
  · have hj := j.isLt
    rw [spot_single] at h0 ⊢
    by_cases h2 : i = 2 ∧ k.val = 6 ∧ j.val < 121
    · rw [if_pos h2]
      refine ⟨by omega, by omega, by omega, ?_⟩
      unfold owner
      rw [if_neg (by omega), if_pos (by omega), h2.1,
        slotOf_eq (k := k) h2.2.1.symm, entryOf_eq (j := j) (by omega)]
    · rw [if_neg h2] at h0 ⊢
      by_cases hi : 3 ≤ i ∧ i ≤ 9 ∧ k.val = 7
      · rw [if_pos hi]
        have hb : base i = 271 + 16513 * (i - 3) := rfl
        have hdiv : (base i + 1 + j.val - 271) / 16513 + 3 = i := by omega
        have hfree : (base i + 1 + j.val) % 4096 ≠ 1650 := by
          obtain h | h | h | h | h | h | h : i = 3 ∨ i = 4 ∨ i = 5 ∨ i = 6 ∨ i = 7 ∨ i = 8 ∨ i = 9 := by
            omega
          all_goals
            rw [hb, h]
            omega
        refine ⟨by omega, by omega, hfree, ?_⟩
        unfold owner
        rw [if_neg (by omega), if_neg (by omega), if_neg (by omega), if_pos (by omega), hdiv,
          slotOf_eq (k := k) hi.2.2.symm, entryOf_eq (j := j) (by omega)]
      · rw [if_neg hi] at h0
        exact absurd rfl h0
  rcases js with _ | ⟨t, js⟩
  · have hj := j.isLt
    have hd := d.isLt
    rw [spot_double] at h0 ⊢
    by_cases hi : 3 ≤ i ∧ i ≤ 9 ∧ k.val = 7
    · rw [if_pos hi] at h0 ⊢
      unfold leaf at h0 ⊢
      by_cases hl : base i + 129 + 128 * d.val + j.val < 100000 ∧
          (base i + 129 + 128 * d.val + j.val) % 4096 ≠ 1650
      · rw [if_pos hl]
        have hb : base i = 271 + 16513 * (i - 3) := rfl
        have hmod : (base i + 129 + 128 * d.val + j.val - 271) % 16513 = 129 + 128 * d.val + j.val := by
          omega
        have hdiv : (base i + 129 + 128 * d.val + j.val - 271) / 16513 + 3 = i := by omega
        refine ⟨by omega, hl.1, hl.2, ?_⟩
        unfold owner
        rw [if_neg (by omega), if_neg (by omega), hmod, if_neg (by omega), if_neg (by omega), hdiv,
          slotOf_eq (k := k) hi.2.2.symm, entryOf_eq (j := j) (by omega),
          entryOf_eq (j := d) (by omega)]
      · rw [if_neg hl] at h0
        exact absurd rfl h0
    · rw [if_neg hi] at h0
      exact absurd rfl h0
  · exact absurd rfl h0

theorem spot_owner {b : Nat} (h143 : 143 ≤ b) (hb : b < 100000) (hfree : b % 4096 ≠ 1650) :
    (shape Superblock.mkfs).Valid (owner b) ∧ spot (owner b) = b := by
  have h2dom : 2 < Superblock.mkfs.ninodes := by decide
  unfold owner
  by_cases h1 : b < 150
  · rw [if_pos h1]
    have hk : (slotOf (b - 143)).val = b - 143 := Nat.mod_eq_of_lt (by omega)
    refine ⟨⟨h2dom, Nat.zero_le _⟩, ?_⟩
    rw [spot_root, hk, if_pos ⟨rfl, by omega⟩]
    omega
  rw [if_neg h1]
  by_cases h2 : b < 271
  · rw [if_pos h2]
    have hj : (entryOf (b - 150)).val = b - 150 := Nat.mod_eq_of_lt (by omega)
    refine ⟨⟨h2dom, Nat.le_refl 1⟩, ?_⟩
    rw [spot_single, hj, if_pos ⟨rfl, rfl, by omega⟩]
    omega
  rw [if_neg h2]
  generalize hi : (b - 271) / 16513 + 3 = i
  have hi9 : 3 ≤ i ∧ i ≤ 9 ∧ (slotOf 7).val = 7 := ⟨by omega, by omega, rfl⟩
  have hdom : i < Superblock.mkfs.ninodes := Nat.lt_of_le_of_lt hi9.2.1 (by decide)
  have hbase : base i + (b - 271) % 16513 = b := by
    unfold base
    omega
  by_cases h3 : (b - 271) % 16513 = 0
  · rw [if_pos h3]
    refine ⟨⟨hdom, Nat.zero_le _⟩, ?_⟩
    rw [spot_root, if_neg (by omega), if_pos hi9]
    omega
  rw [if_neg h3]
  by_cases h4 : (b - 271) % 16513 ≤ 128
  · rw [if_pos h4]
    have hd : (entryOf ((b - 271) % 16513 - 1)).val = (b - 271) % 16513 - 1 :=
      Nat.mod_eq_of_lt (by omega)
    refine ⟨⟨hdom, Nat.le_succ 1⟩, ?_⟩
    rw [spot_single, if_neg (by omega), if_pos hi9, hd]
    omega
  · rw [if_neg h4]
    have hj : (entryOf (((b - 271) % 16513 - 129) % 128)).val
        = ((b - 271) % 16513 - 129) % 128 := Nat.mod_eq_of_lt (by omega)
    have hd : (entryOf (((b - 271) % 16513 - 129) / 128)).val
        = ((b - 271) % 16513 - 129) / 128 := Nat.mod_eq_of_lt (by omega)
    refine ⟨⟨hdom, Nat.le_refl 2⟩, ?_⟩
    rw [spot_double, if_pos hi9, hj, hd]
    have hsum : base i + 129 + 128 * (((b - 271) % 16513 - 129) / 128)
        + ((b - 271) % 16513 - 129) % 128 = b := by omega
    unfold leaf
    rw [hsum, if_pos ⟨hb, hfree⟩]

theorem live_iff (b : Nat) :
    Live Superblock.mkfs contents b ↔ 143 ≤ b ∧ b < 100000 ∧ b % 4096 ≠ 1650 := by
  have hstart : Superblock.mkfs.datastart = 143 := by decide
  have hsize : Superblock.mkfs.size = 100000 := rfl
  unfold Live
  rw [hstart, hsize]
  refine and_congr_right fun _ => and_congr_right fun hb => ?_
  rw [bit_eq hb, decide_eq_true_eq]

theorem consistent : Consistent Superblock.mkfs addrs contents where
  owns := by
    refine Owns.of_owner owner ?_ ?_ ?_
    · rw [live_iff]
      omega
    · intro p hp h0
      have heq : (forest addrs contents).ref p.1 p.2 = spot p := blockAt_eq hp
      rw [heq] at h0 ⊢
      obtain ⟨h1, h2, h3, h4⟩ := owner_spot hp h0
      exact ⟨(live_iff _).mpr ⟨h1, h2, h3⟩, h4⟩
    · intro b hb
      obtain ⟨h1, h2, h3⟩ := (live_iff b).mp hb
      obtain ⟨hv, hs⟩ := spot_owner h1 h2 h3
      have heq : (forest addrs contents).ref (owner b).1 (owner b).2 = spot (owner b) := blockAt_eq hv
      exact ⟨hv, heq.trans hs⟩
  marked b hb := by
    have hstart : Superblock.mkfs.datastart = 143 := by decide
    rw [hstart] at hb
    rw [bit_eq (by omega)]
    exact decide_eq_true (by omega)

theorem freeList_eq :
    freeList Superblock.mkfs contents = (List.range 25).map fun m => 1650 + 4096 * m := by
  have hlist : ∀ b, b < 100000 →
      (b ∈ (List.range 25).map (fun m => 1650 + 4096 * m) ↔ b % 4096 = 1650) := by
    intro b hb
    rw [List.mem_map]
    constructor
    · rintro ⟨m, -, rfl⟩
      omega
    · intro hm
      exact ⟨b / 4096, List.mem_range.mpr (by omega), by omega⟩
  have hsorted : ((List.range 25).map fun m => 1650 + 4096 * m).Pairwise (· < ·) := by
    decide
  refine List.Perm.eq_of_pairwise' (pairwise_freeList _ _) hsorted ?_
  rw [List.perm_ext_iff_of_nodup ((pairwise_freeList _ _).imp fun h => Nat.ne_of_lt h)
    (hsorted.imp fun h => Nat.ne_of_lt h)]
  intro b
  rw [mem_freeList]
  have hsize : Superblock.mkfs.size = 100000 := rfl
  rw [hsize]
  constructor
  · rintro ⟨hb, hbit⟩
    rw [bit_eq hb, decide_eq_false_iff_not, not_not] at hbit
    exact (hlist b hb).mpr hbit
  · intro hmem
    have hb : b < 100000 := by
      obtain ⟨m, hm, rfl⟩ := List.mem_map.mp hmem
      have := List.mem_range.mp hm
      omega
    refine ⟨hb, ?_⟩
    rw [bit_eq hb, decide_eq_false_iff_not, not_not]
    exact (hlist b hb).mp hmem

/-- Inode 2 in the cache. -/
def file : Inode :=
  { newFile with size := 64513, addrs := addrs 2, locked := false }

section Turn

variable {bns : List Nat} {q : Place} {off n : Nat}

theorem blockAt_branches (hq : q ∈ (bns.flatMap (branch 2)).toFinset) :
    blockAt addrs contents q = spot q := by
  have h2 : 2 < Superblock.mkfs.ninodes := by decide
  obtain ⟨bn, -, hq⟩ := List.mem_flatMap.mp (List.mem_toFinset.mp hq)
  exact blockAt_eq (valid_of_mem_branch h2 hq)

theorem need_branches (htree : pieceTree 2 off n = (bns.flatMap (branch 2)).toFinset) :
    need (pieceTree 2 off n) addrs contents =
      ((bns.flatMap (branch 2)).toFinset.filter fun q => spot q = 0).card := by
  rw [htree]
  exact congrArg Finset.card (Finset.filter_congr fun q hq => by rw [blockAt_branches hq])

theorem card_treePlaces_branches
    (htree : pieceTree 2 off n = (bns.flatMap (branch 2)).toFinset)
    (hpieces : pieces 2 off n = (bns.map (place 2)).toFinset) :
    (treePlaces addrs contents 2 off n).card =
      ((bns.flatMap (branch 2)).toFinset.filter fun q =>
        (spot q = 0 ∨ ∃ j, ((q.1, j :: q.2) : Place) ∈ (bns.flatMap (branch 2)).toFinset ∧
          spot (q.1, j :: q.2) = 0) ∨ q ∈ (bns.map (place 2)).toFinset).card := by
  unfold treePlaces
  rw [htree, hpieces]
  refine congrArg Finset.card (Finset.filter_congr fun q hq => or_congr_left (or_congr ?_ ?_))
  · rw [blockAt_branches hq]
  · refine exists_congr fun j => and_congr_right fun hj => ?_
    rw [blockAt_branches hj]

theorem card_mapBlocks_need {m : Nat} (hneed : need (pieceTree 2 off n) addrs contents = m) :
    (mapBlocks Superblock.mkfs addrs contents 2 off n).card =
      ((((List.range 25).map fun m => 1650 + 4096 * m).take m).map
        Superblock.mkfs.bblock).toFinset.card := by
  unfold mapBlocks
  rw [hneed, freeList_eq]

theorem need_le_free {m : Nat} (hneed : need (pieceTree 2 off n) addrs contents = m)
    (hm : m ≤ 25) : need (pieceTree 2 off n) addrs contents
      ≤ freeBlocks Superblock.mkfs contents := by
  rw [hneed, ← length_freeList, freeList_eq, List.length_map, List.length_range]
  exact hm

end Turn

theorem toNat_off : (64513 : BitVec 32).toNat = 64513 := by decide

theorem toNat_six : (3072 : BitVec 32).toNat = 3072 := by decide

theorem toNat_thirteen : (6656 : BitVec 32).toNat = 6656 := by decide

theorem need_six : need (pieceTree 2 64513 3072) addrs contents = 6 := by
  rw [@need_branches (List.range' 126 7) _ _ (pieceTree_eq (by omega))]
  decide +kernel

theorem need_thirteen : need (pieceTree 2 64513 6656) addrs contents = 15 := by
  rw [@need_branches (List.range' 126 14) _ _ (pieceTree_eq (by omega))]
  decide +kernel

theorem writeBlocks_six :
    writeBlocks Superblock.mkfs addrs contents 2 file.toDinode 64513 3072 = 6 + 8 + 1 := by
  refine writeBlocks_eq ?_ ?_ (by decide)
  · rw [toNat_off, toNat_six, card_mapBlocks_need need_six]
    decide
  · rw [toNat_off, toNat_six, @card_treePlaces_branches (List.range' 126 7) _ _
      (pieceTree_eq (by omega)) (pieces_eq (by omega))]
    decide +kernel

theorem writeBlocks_thirteen :
    writeBlocks Superblock.mkfs addrs contents 2 file.toDinode 64513 6656 = 15 + 17 + 1 := by
  refine writeBlocks_eq ?_ ?_ (by decide)
  · rw [toNat_off, toNat_thirteen, card_mapBlocks_need need_thirteen]
    decide
  · rw [toNat_off, toNat_thirteen, @card_treePlaces_branches (List.range' 126 14) _ _
      (pieceTree_eq (by omega)) (pieces_eq (by omega))]
    decide +kernel

end Scattered

/-- One turn stays within the blocks that it has reserved exactly if these are not more than
`MAXOPBLOCKS`: the data blocks, the indirect blocks that are new or get an entry, the
bitmap blocks of the blocks that it takes, and the inode block of a file that grows. -/
theorem filewriteTurn_le (ip : Inode) (devsw : Fin NDEV → Devsw) (addr : List Byte) (off : BitVec 32)
    (n i : Nat) (h : Consistent sb T σ) (hT : T ip.inum = (ip.current sb σ).addrs)
    (hi : ip.inum < sb.ninodes) (href : 1 ≤ ip.ref) (hfree : ip.locked = false)
    (htype : ip.valid ∨ (ip.current sb σ).type ≠ 0)
    (hroom : ¬ Refused (ip.current sb σ) off (BitVec.ofNat 32 (turnBytes n i)) →
      need (pieceTree ip.inum off.toNat (BitVec.ofNat 32 (turnBytes n i)).toNat) T σ
        ≤ freeBlocks sb σ) :
    ((filewriteTurn sb devsw ip addr off n i).logs σ).card ≤ MAXOPBLOCKS ↔
      Refused (ip.current sb σ) off (BitVec.ofNat 32 (turnBytes n i)) ∨
      writeBlocks sb T σ ip.inum (ip.current sb σ) off (BitVec.ofNat 32 (turnBytes n i))
        ≤ MAXOPBLOCKS := by
  rw [filewriteTurn_does ip devsw addr off n i h hT hi href hfree htype hroom]
  split_ifs with hr
  · exact ⟨fun _ => Or.inl hr, fun _ => Nat.zero_le _⟩
  · exact ⟨fun hle => Or.inr hle, fun hor => hor.resolve_left hr⟩

/-- Six blocks from the 127th block on, not aligned: 7 data blocks, an indirect block, 6
bitmap blocks and the inode. -/
theorem filewriteTurn_le_six :
    ((filewriteTurn Superblock.mkfs (fun _ => ⟨none, none⟩) Scattered.file
      (List.replicate 3072 1) 64513 3072 0).logs Scattered.contents).card ≤ MAXOPBLOCKS := by
  have hn : BitVec.ofNat 32 (turnBytes 3072 0) = 3072 := by decide
  have hroom : need (pieceTree 2 (64513 : BitVec 32).toNat
      (BitVec.ofNat 32 (turnBytes 3072 0)).toNat) Scattered.addrs Scattered.contents
        ≤ freeBlocks Superblock.mkfs Scattered.contents := by
    rw [hn, Scattered.toNat_off, Scattered.toNat_six]
    exact Scattered.need_le_free Scattered.need_six (by decide)
  have hblocks : writeBlocks Superblock.mkfs Scattered.addrs Scattered.contents 2
      Scattered.file.toDinode 64513 (BitVec.ofNat 32 (turnBytes 3072 0)) ≤ MAXOPBLOCKS := by
    rw [hn, Scattered.writeBlocks_six]
    decide
  exact (filewriteTurn_le Scattered.file _ _ 64513 3072 0 Scattered.consistent rfl (by decide)
    (by decide) rfl (Or.inl rfl) fun _ => hroom).mpr (Or.inr hblocks)

/-- 13 blocks from the 127th block on, not aligned: 14 data blocks, 3 indirect blocks, 15
bitmap blocks and the inode. -/
theorem not_filewriteTurn_le :
    Consistent Superblock.mkfs Scattered.addrs Scattered.contents ∧
    Scattered.addrs 2 = (Scattered.file.current Superblock.mkfs Scattered.contents).addrs ∧
    Scattered.file.inum = 2 ∧ Scattered.file.ref = 1 ∧ Scattered.file.locked = false ∧
    Scattered.file.type = T_FILE ∧ Scattered.file.size = 64513 ∧
    need (pieceTree 2 64513 6656) Scattered.addrs Scattered.contents
      ≤ freeBlocks Superblock.mkfs Scattered.contents ∧
    ¬ ((filewriteTurn Superblock.mkfs (fun _ => ⟨none, none⟩) Scattered.file
      (List.replicate 6656 1) 64513 6656 0).logs Scattered.contents).card ≤ MAXOPBLOCKS := by
  refine ⟨Scattered.consistent, rfl, rfl, rfl, rfl, rfl, rfl,
    Scattered.need_le_free Scattered.need_thirteen (by decide), ?_⟩
  have hn : BitVec.ofNat 32 (turnBytes 6656 0) = 6656 := by decide
  have hcard := filewriteTurn_does Scattered.file (fun _ => ⟨none, none⟩)
    (List.replicate 6656 1) 64513 6656 0 Scattered.consistent rfl (by decide) (by decide) rfl
    (Or.inl rfl) fun _ => by
      rw [hn, Scattered.toNat_off, Scattered.toNat_thirteen]
      exact Scattered.need_le_free Scattered.need_thirteen (by decide)
  have hcur : Scattered.file.current Superblock.mkfs Scattered.contents = Scattered.file.toDinode := rfl
  have hinum : Scattered.file.inum = 2 := rfl
  rw [hcur, hinum, hn, Scattered.writeBlocks_thirteen, if_neg (by decide)] at hcard
  rw [hcard]
  decide

end Xv6.Fs
