import Xv6.Fs.Namex

/-!
# What the code leaves of an entry (project3/fs.c)

`All` is about the results that code may have, whatever the blocks it reads hold: only the
fields of `struct dinode` are changed, and one reference goes in `iput`.
-/

namespace Xv6.Fs

namespace Op

variable {α β : Type} {Q : α → Prop} {R : β → Prop} {σ τ : Contents}

def All (Q : α → Prop) : Op α → Prop
  | done a => Q a
  | panic _ => True
  | bread _ k => ∀ v, (k v).All Q
  | logWrite _ _ k => k.All Q
  | brelse _ k => k.All Q

theorem All.pure {a : α} (h : Q a) : (pure a : Op α).All Q := h

theorem All.panic (e : Panic) : (Op.panic e : Op α).All Q := trivial

theorem All.bind {p : Op α} {k : α → Op β} (h : p.All Q) (hk : ∀ a, Q a → (k a).All R) :
    (p >>= k).All R := by
  show (p.bind k).All R
  induction p with
  | done a => exact hk a h
  | panic e => trivial
  | bread b q ih =>
    intro v
    exact ih v (h v)
  | logWrite b f q ih => exact ih h
  | brelse b q ih => exact ih h

theorem All.mono {p : Op α} {Q' : α → Prop} (h : p.All Q) (himp : ∀ a, Q a → Q' a) :
    p.All Q' := by
  induction p with
  | done a => exact himp a h
  | panic e => trivial
  | bread b q ih =>
    intro v
    exact ih v (h v)
  | logWrite b f q ih => exact ih h
  | brelse b q ih => exact ih h

theorem all_true (p : Op α) : p.All fun _ => True := by
  induction p with
  | done a => trivial
  | panic e => trivial
  | bread b q ih => exact ih
  | logWrite b f q ih => exact ih
  | brelse b q ih => exact ih

theorem All.seq {p : Op α} {k : α → Op β} (hk : ∀ a, (k a).All R) : (p >>= k).All R :=
  p.all_true.bind fun a _ => hk a

theorem All.exec {p : Op α} (h : p.All Q) {a : α} (hp : p.exec σ = .ok (a, τ)) : Q a := by
  induction p generalizing σ with
  | done b =>
    cases hp
    exact h
  | panic e => cases hp
  | bread b q ih => exact ih (σ b) (h _) hp
  | logWrite b f q ih => exact ih h hp
  | brelse b q ih => exact ih h hp

-- Only the rules above look into `All`.
attribute [irreducible] All

end Op

open Op

/-- The entry is for the same inode, with the same references and the same path. -/
structure Inode.Keeps (ip ip' : Inode) : Prop where
  inum : ip'.inum = ip.inum
  ref : ip'.ref = ip.ref
  path : ip'.path = ip.path

namespace Inode

theorem Keeps.refl (ip : Inode) : ip.Keeps ip := ⟨rfl, rfl, rfl⟩

theorem Keeps.trans {a b c : Inode} (h : a.Keeps b) (h' : b.Keeps c) : a.Keeps c :=
  ⟨h'.inum.trans h.inum, h'.ref.trans h.ref, h'.path.trans h.path⟩

end Inode

open Inode (Keeps)

variable {sb : Superblock} {devsw : Fin NDEV → Devsw} {σ τ : Contents} {ip : Inode}

/-! ### Reading and writing -/

theorem slot_all (ip : Inode) (k : Fin 9) : (slot sb ip k).All fun r => ip.Keeps r.2 := by
  unfold slot
  split_ifs
  · apply All.seq
    intro addr
    exact All.pure ⟨rfl, rfl, rfl⟩
  · exact All.pure (Keeps.refl ip)

theorem bmap_all (ip : Inode) (bn : Nat) : (bmap sb ip bn).All fun r => ip.Keeps r.2 := by
  unfold bmap
  by_cases h1 : bn < NDIRECT
  · rw [if_pos h1]
    exact slot_all ip _
  rw [if_neg h1]
  dsimp only
  by_cases h2 : bn - NDIRECT < NINDIRECT
  · rw [if_pos h2]
    apply (slot_all ip 6).bind
    rintro ⟨addr, ip'⟩ hk
    apply All.seq
    intro _
    apply All.seq
    intro _
    exact All.pure hk
  rw [if_neg h2]
  by_cases h3 : bn - NDIRECT - NINDIRECT < NDINDIRECT
  · rw [if_pos h3]
    apply (slot_all ip 7).bind
    rintro ⟨addr, ip'⟩ hk
    apply All.seq
    intro _
    apply All.seq
    intro _
    apply All.seq
    intro _
    apply All.seq
    intro _
    exact All.pure hk
  rw [if_neg h3]
  by_cases h4 : bn - NDIRECT - NINDIRECT - NDINDIRECT < NTINDIRECT
  · rw [if_pos h4]
    apply (slot_all ip 8).bind
    rintro ⟨addr, ip'⟩ hk
    apply All.seq
    intro _
    apply All.seq
    intro _
    apply All.seq
    intro _
    apply All.seq
    intro _
    apply All.seq
    intro _
    apply All.seq
    intro _
    exact All.pure hk
  · rw [if_neg h4]
    exact All.panic _

theorem readLoop_all (turns : Nat) (ip : Inode) (off r : Nat) :
    (readLoop sb turns ip off r).All fun res => ip.Keeps res.2 := by
  induction turns generalizing ip off r with
  | zero => exact All.pure (Keeps.refl ip)
  | succ turns ih =>
    unfold readLoop
    split_ifs
    · exact All.pure (Keeps.refl ip)
    · apply (bmap_all ip _).bind
      rintro ⟨addr, ip1⟩ h1
      apply All.seq
      intro bp
      apply All.seq
      intro _
      apply (ih ip1 _ _).bind
      rintro ⟨bs, ip2⟩ h2
      exact All.pure (h1.trans h2)

theorem readi_all (ip : Inode) (off n : BitVec 32) :
    (readi sb devsw ip off n).All fun res => ip.Keeps res.2.2 := by
  unfold readi
  split_ifs
  · cases (device devsw ip.major).bind Devsw.read with
    | none => exact All.pure (Keeps.refl ip)
    | some read => exact All.pure (Keeps.refl ip)
  · exact All.pure (Keeps.refl ip)
  · apply (readLoop_all _ ip _ _).bind
    rintro ⟨bs, ip1⟩ h1
    exact All.pure h1
  · apply (readLoop_all _ ip _ _).bind
    rintro ⟨bs, ip1⟩ h1
    exact All.pure h1

theorem writeLoop_all (turns : Nat) (ip : Inode) (src : List Byte) (off r : Nat) :
    (writeLoop sb turns ip src off r).All fun ip' => ip.Keeps ip' := by
  induction turns generalizing ip src off r with
  | zero => exact All.pure (Keeps.refl ip)
  | succ turns ih =>
    unfold writeLoop
    split_ifs
    · exact All.pure (Keeps.refl ip)
    · apply (bmap_all ip _).bind
      rintro ⟨addr, ip1⟩ h1
      apply All.seq
      intro _
      apply All.seq
      intro _
      apply All.seq
      intro _
      apply (ih ip1 _ _ _).mono
      intro ip2 h2
      exact h1.trans h2

theorem writei_all (ip : Inode) (src : List Byte) (off n : BitVec 32) :
    (writei sb devsw ip src off n).All fun res => ip.Keeps res.2 := by
  unfold writei
  split_ifs
  · cases (device devsw ip.major).bind Devsw.write with
    | none => exact All.pure (Keeps.refl ip)
    | some write => exact All.pure (Keeps.refl ip)
  · exact All.pure (Keeps.refl ip)
  · exact All.pure (Keeps.refl ip)
  · apply (writeLoop_all _ ip _ _ _).bind
    intro ip1 h1
    split_ifs
    · apply All.seq
      intro _
      exact All.pure (h1.trans ⟨rfl, rfl, rfl⟩)
    · exact All.pure h1

/-! ### Directories -/

theorem dirlookupLoop_all (dp : Inode) (name : List Byte) (offs : List Nat) :
    (dirlookupLoop sb devsw dp name offs).All fun r => dp.Keeps r.2 := by
  induction offs generalizing dp with
  | nil => exact All.pure (Keeps.refl dp)
  | cons off offs ih =>
    unfold dirlookupLoop
    apply (readi_all dp _ _).bind
    rintro ⟨n, bs, dp1⟩ h1
    dsimp only
    split_ifs
    · exact All.panic _
    · apply (ih dp1).mono
      intro r hr
      exact h1.trans hr
    · exact All.pure h1
    · apply (ih dp1).mono
      intro r hr
      exact h1.trans hr

theorem dirlookup_all (dp : Inode) (name : List Byte) :
    (dirlookup sb devsw dp name).All fun r => dp.Keeps r.2 := by
  unfold dirlookup
  split_ifs
  · exact All.panic _
  · exact dirlookupLoop_all dp name _

theorem isdiremptyLoop_all (dp : Inode) (offs : List Nat) :
    (isdiremptyLoop sb devsw dp offs).All fun r => dp.Keeps r.2 := by
  induction offs generalizing dp with
  | nil => exact All.pure (Keeps.refl dp)
  | cons off offs ih =>
    unfold isdiremptyLoop
    apply (readi_all dp _ _).bind
    rintro ⟨n, bs, dp1⟩ h1
    dsimp only
    split_ifs
    · exact All.panic _
    · exact All.pure h1
    · apply (ih dp1).mono
      intro r hr
      exact h1.trans hr

theorem unlinkRefuses_all (ip : Inode) :
    (unlinkRefuses sb devsw ip).All fun r => ip.Keeps r.2 := by
  unfold unlinkRefuses
  split_ifs
  · apply (isdiremptyLoop_all ip _).bind
    rintro ⟨empty, ip1⟩ h1
    exact All.pure h1
  · exact All.pure (Keeps.refl ip)

theorem emptyDirentLoop_all (dp : Inode) (offs : List Nat) :
    (Call.emptyDirentLoop sb devsw dp offs).All fun r => dp.Keeps r.2 := by
  induction offs generalizing dp with
  | nil => exact All.pure (Keeps.refl dp)
  | cons off offs ih =>
    unfold Call.emptyDirentLoop
    apply (readi_all dp _ _).bind
    rintro ⟨n, bs, dp1⟩ h1
    dsimp only
    split_ifs
    · exact All.panic _
    · exact All.pure h1
    · apply (ih dp1).mono
      intro r hr
      exact h1.trans hr

/-! ### Locks, references and assignments -/

theorem ilock_all (ip : Inode) : (ilock sb ip).All fun ip' => ip.Keeps ip' := by
  unfold ilock
  split_ifs
  · exact All.panic _
  · exact All.panic _
  · exact All.pure ⟨rfl, rfl, rfl⟩
  · apply All.seq
    intro bp
    apply All.seq
    intro _
    dsimp only
    split_ifs
    · exact All.panic _
    · exact All.pure ⟨rfl, rfl, rfl⟩

theorem iunlock_all (ip : Inode) : (iunlock ip).All fun ip' => ip.Keeps ip' := by
  unfold iunlock
  split_ifs
  · exact All.panic _
  · exact All.pure ⟨rfl, rfl, rfl⟩

theorem freeSlots_all (ks : List (Fin 9)) (ip : Inode) :
    (freeSlots sb ks ip).All fun ip' => ip.Keeps ip' := by
  induction ks generalizing ip with
  | nil => exact All.pure (Keeps.refl ip)
  | cons k ks ih =>
    unfold freeSlots
    split_ifs
    · exact ih ip
    · apply All.seq
      intro _
      apply (ih (ip.setAddr k 0)).mono
      intro ip' h
      exact ⟨h.inum, h.ref, h.path⟩

theorem itrunc_all (ip : Inode) : (itrunc sb ip).All fun ip' => ip.Keeps ip' := by
  unfold itrunc
  apply (freeSlots_all _ ip).bind
  intro ip1 h1
  apply All.seq
  intro _
  exact All.pure ⟨h1.inum, h1.ref, h1.path⟩

theorem iput_all (ip : Inode) : (iput sb ip).All fun ip' =>
    ip'.inum = ip.inum ∧ ip'.ref = ip.ref - 1 ∧ ip'.path = ip.path := by
  unfold iput
  split_ifs
  · exact All.panic _
  · apply (itrunc_all ip).bind
    intro ip1 h1
    apply All.seq
    intro _
    apply All.pure
    refine ⟨h1.inum, ?_, h1.path⟩
    show ip1.ref - 1 = ip.ref - 1
    rw [h1.ref]
  · exact All.pure ⟨rfl, rfl, rfl⟩

theorem assign_all (a : Assign) (ip : Inode) : (assign sb a ip).All fun ip' =>
    ip'.inum = ip.inum ∧ ip'.ref = ip.ref ∧ ip'.path = (a.apply ip).path := by
  unfold assign
  apply All.seq
  intro _
  apply All.pure
  cases a with
  | link => exact ⟨rfl, rfl, rfl⟩
  | unlink => exact ⟨rfl, rfl, rfl⟩
  | create major minor => exact ⟨rfl, rfl, rfl⟩
  | slink old => exact ⟨rfl, rfl, rfl⟩

end Xv6.Fs
