import Xv6.Fs.Icache

/-!
# Directories (project3/fs.c:668-700, namecmp, dirlookup)

A directory is a file of entries of 16 bytes: the number of an inode, 0 for none, and a name.
-/

namespace Xv6.Fs
open Buffer Forest

/-- `struct dirent`. -/
structure Dirent where
  inum : BitVec 16
  name : List Byte
  deriving DecidableEq

/-- `sizeof(struct dirent)`. -/
def direntSize : Nat := 16

def decodeDirent (bs : List Byte) : Dirent where
  inum := BitVec.ofNat 16 (leNat (bs.take 2))
  name := (bs.drop 2).take DIRSIZ

/-- A name in an array of DIRSIZ bytes: up to the first NUL, if there is one. -/
def nameOf (bs : List Byte) : List Byte := (bs.take DIRSIZ).takeWhile (· ≠ 0)

/-- `namecmp(s, t) == 0`. -/
def namecmp (s t : List Byte) : Bool := nameOf s = nameOf t

variable (sb : Superblock) (devsw : Fin NDEV → Devsw)

-- for(off = 0; off < dp->size; off += sizeof(de))
def direntOffs (dp : Inode) : List Nat :=
  (List.range ((dp.size.toNat + 15) / direntSize)).map (direntSize * ·)

def dirlookupLoop (dp : Inode) (name : List Byte) : List Nat → Op (Option (Nat × Nat) × Inode)
  | [] => pure (none, dp)
  | off :: offs => do
    let (n, bs, dp) ← readi sb devsw dp (BitVec.ofNat 32 off) (BitVec.ofNat 32 direntSize)
    if n ≠ direntSize then .panic .dirlookupRead
    else if (decodeDirent bs).inum = 0 then dirlookupLoop dp name offs
    else if namecmp name (decodeDirent bs).name then
      pure (some ((decodeDirent bs).inum.toNat, off), dp)
    else dirlookupLoop dp name offs

/-- `dirlookup` up to `iget`: the number of the inode and the offset of the entry. -/
def dirlookup (dp : Inode) (name : List Byte) : Op (Option (Nat × Nat) × Inode) :=
  if dp.type ≠ T_DIR then .panic .dirlookupNotDir
  else dirlookupLoop sb devsw dp name (direntOffs dp)

-- The loop of isdirempty(), which starts behind "." and "..".
def isdiremptyLoop (dp : Inode) : List Nat → Op (Bool × Inode)
  | [] => pure (true, dp)
  | off :: offs => do
    let (n, bs, dp) ← readi sb devsw dp (BitVec.ofNat 32 off) (BitVec.ofNat 32 direntSize)
    if n ≠ direntSize then .panic .isdirempty
    else if (decodeDirent bs).inum ≠ 0 then pure (false, dp)
    else isdiremptyLoop dp offs

def isdirempty (dp : Inode) : Op (Bool × Inode) :=
  isdiremptyLoop sb devsw dp ((direntOffs dp).drop 2)

/-! ### Entries -/

/-- Entry `k` of the directory `i`. -/
def direntAt (T : AddrTable) (σ : Contents) (i k : Nat) : Dirent :=
  decodeDirent (fileBytes T σ i (direntSize * k) direntSize)

theorem direntAt_eq (T : AddrTable) (σ : Contents) (i k : Nat) :
    decodeDirent (fileBytes T σ i (direntSize * k) direntSize) = direntAt T σ i k := rfl

/-- Entry `k` is there: it is below `size`, in an allocated block. -/
structure HasEntry (T : AddrTable) (σ : Contents) (dp : Inode) (k : Nat) : Prop where
  le : direntSize * (k + 1) ≤ dp.size.toNat
  max : direntSize * (k + 1) ≤ MAXFILE * BSIZE
  present : Present T σ dp.inum (direntSize * k)

variable {sb devsw} {T : AddrTable} {σ : Contents} {dp : Inode} {name : List Byte} {k : Nat}
  {H : Panic → Prop} {W : Nat → Prop}

theorem direntSize_eq : direntSize = 16 := rfl

/-- The bytes of an entry are in one block. -/
theorem HasEntry.present_of_le (h : HasEntry T σ dp k) {o : Nat} (ho : direntSize * k ≤ o)
    (ho' : o < direntSize * k + direntSize) : Present T σ dp.inum o := by
  have hblk : o / BSIZE = direntSize * k / BSIZE := by
    show o / 512 = 16 * k / 512
    have h1 : 16 * k ≤ o := ho
    have h2 : o < 16 * k + 16 := ho'
    omega
  unfold Present
  rw [hblk]
  exact h.present

theorem readi_dirent (hT : T dp.inum = dp.addrs) (hdev : dp.type ≠ T_DEV)
    (h : HasEntry T σ dp k) :
    (readi sb devsw dp (BitVec.ofNat 32 (direntSize * k)) (BitVec.ofNat 32 direntSize)).wp H W
      (fun r τ => r = ((direntSize : Int), fileBytes T σ dp.inum (direntSize * k) direntSize, dp) ∧
        τ = σ) σ := by
  have hle := h.le
  have hmax := h.max
  rw [MAXFILE_BSIZE] at hmax
  rw [direntSize_eq] at *
  have hoff : (BitVec.ofNat 32 (16 * k)).toNat = 16 * k := by
    rw [BitVec.toNat_ofNat]
    omega
  have hn : (BitVec.ofNat 32 16).toNat = 16 := rfl
  have hadd : (BitVec.ofNat 32 (16 * k) + BitVec.ofNat 32 16).toNat = 16 * k + 16 := by
    rw [toNat_add_of_lt (by omega), hoff, hn]
  unfold readi
  rw [if_neg hdev, if_neg]
  · have hfull : ¬ dp.size < BitVec.ofNat 32 (16 * k) + BitVec.ofNat 32 16 := by
      rw [BitVec.lt_def, hadd]
      omega
    rw [if_neg hfull]
    dsimp only
    rw [hoff, hn]
    refine wp_seq (readLoop_spec 16 hT (Nat.le_refl _) (by rw [MAXFILE_BSIZE]; omega) ?_) ?_
    · intro o ho ho'
      exact h.present_of_le ho ho'
    rintro ⟨bs, ip'⟩ τ ⟨hres, rfl⟩
    obtain ⟨rfl, rfl⟩ := Prod.mk.inj hres
    exact wp_pure ⟨rfl, rfl⟩
  · rw [BitVec.lt_def, BitVec.lt_def, hadd, hoff]
    omega

theorem mul_lt_of_hasEntry (h : HasEntry T σ dp k) : k < (dp.size.toNat + 15) / direntSize := by
  have hle := h.le
  rw [direntSize_eq] at *
  omega

/-- The entries before the one with the name do not match it. -/
structure FirstEntry (T : AddrTable) (σ : Contents) (dp : Inode) (name : List Byte) (k : Nat) :
    Prop where
  here : ∀ m, m ≤ k → HasEntry T σ dp m
  before : ∀ m, m < k → (direntAt T σ dp.inum m).inum = 0 ∨
    namecmp name (direntAt T σ dp.inum m).name = false
  inum : (direntAt T σ dp.inum k).inum ≠ 0
  name_eq : namecmp name (direntAt T σ dp.inum k).name = true

theorem dirlookupLoop_found (hT : T dp.inum = dp.addrs) (hdev : dp.type ≠ T_DEV)
    (h : FirstEntry T σ dp name k) (m n : Nat) (hm : m ≤ k) (hn : k < m + n) :
    (dirlookupLoop sb devsw dp name ((List.range' m n).map (direntSize * ·))).wp H W
      (fun r τ => r = (some ((direntAt T σ dp.inum k).inum.toNat, direntSize * k), dp) ∧ τ = σ)
      σ := by
  induction n generalizing m with
  | zero => omega
  | succ n ih =>
    rw [List.range'_succ, List.map_cons]
    unfold dirlookupLoop
    refine wp_seq (readi_dirent hT hdev (h.here m hm)) ?_
    rintro _ τ ⟨rfl, rfl⟩
    dsimp only
    rw [if_neg (not_not.mpr rfl), direntAt_eq]
    by_cases hmk : m = k
    · rw [hmk, if_neg h.inum, if_pos h.name_eq]
      exact wp_pure ⟨rfl, rfl⟩
    · have hlt : m < k := by omega
      have hrest := ih (m + 1) (by omega) (by omega)
      by_cases hz : (direntAt T τ dp.inum m).inum = 0
      · rw [if_pos hz]
        exact hrest
      · rw [if_neg hz, if_neg (by rw [(h.before m hlt).resolve_left hz]; exact Bool.false_ne_true)]
        exact hrest

/-- `dirlookup` finds the first entry with the name. -/
theorem dirlookup_found (hT : T dp.inum = dp.addrs) (htype : dp.type = T_DIR)
    (h : FirstEntry T σ dp name k) :
    (dirlookup sb devsw dp name).wp H W
      (fun r τ => r = (some ((direntAt T σ dp.inum k).inum.toNat, direntSize * k), dp) ∧ τ = σ)
      σ := by
  have hdev : dp.type ≠ T_DEV := by
    rw [htype]
    decide
  have hlt := mul_lt_of_hasEntry (h.here k (Nat.le_refl k))
  unfold dirlookup direntOffs
  rw [if_neg (not_not.mpr htype), List.range_eq_range']
  exact dirlookupLoop_found hT hdev h 0 _ (Nat.zero_le k) (by omega)

end Xv6.Fs
