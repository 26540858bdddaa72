import Xv6.Fs.Removing

/-!
# The panic of sys_unlink (project3/sysfile.c:213-214)

No function that `sys_unlink` calls has the panic "unlink: nlink < 1", and `sys_unlink` itself
does not come to it where the law of the directories holds.
-/

namespace Xv6.Fs
open Code

namespace Op

variable {α β : Type} {e : Panic}

/-- No run of the code ends in the panic `e`. -/
def Avoids (e : Panic) : Op α → Prop
  | done _ => True
  | panic e' => e' ≠ e
  | bread _ k => ∀ v, (k v).Avoids e
  | logWrite _ _ k => k.Avoids e
  | brelse _ k => k.Avoids e

theorem Avoids.pure (a : α) : (pure a : Op α).Avoids e := trivial

theorem Avoids.panic {e' : Panic} (h : e' ≠ e) : (Op.panic e' : Op α).Avoids e := h

theorem Avoids.bread (b : Nat) : (Fs.bread b).Avoids e := fun _ => trivial

theorem Avoids.logWrite (b : Nat) (f : Block → Block) : (Fs.logWrite b f).Avoids e := trivial

theorem Avoids.brelse (b : Nat) : (Fs.brelse b).Avoids e := trivial

theorem Avoids.bind {p : Op α} {k : α → Op β} (h : p.Avoids e) (hk : ∀ a, (k a).Avoids e) :
    (p >>= k).Avoids e := by
  show (p.bind k).Avoids e
  induction p with
  | done a => exact hk a
  | panic e' => exact h
  | bread b q ih =>
    intro v
    exact ih v (h v)
  | logWrite b f q ih => exact ih h
  | brelse b q ih => exact ih h

theorem Avoids.exec {p : Op α} (h : p.Avoids e) (σ : Contents) : p.exec σ ≠ .error e := by
  induction p generalizing σ with
  | done a =>
    intro hexec
    cases hexec
  | panic e' =>
    intro hexec
    cases hexec
    exact h rfl
  | bread b q ih => exact ih (σ b) (h _) σ
  | logWrite b f q ih => exact ih h _
  | brelse b q ih => exact ih h σ

-- Only the rules above look into `Avoids`.
attribute [irreducible] Avoids

end Op

open Op

variable {sb : Superblock} {devsw : Fin NDEV → Devsw} {t : Tree} {k k' : Kernel}
  {dp cwd : CacheSlot} {m : Nat} {o : Dirent}

/-! ### fs.c -/

theorem bzero_avoids (b : Nat) : (bzero b).Avoids .unlinkNlink := by
  apply (Avoids.bread b).bind
  intro _
  apply (Avoids.logWrite b _).bind
  intro _
  exact Avoids.brelse b

theorem ballocFrom_avoids (bs : List Nat) : (ballocFrom sb bs).Avoids .unlinkNlink := by
  induction bs with
  | nil => exact Avoids.panic (by decide)
  | cons b bs ih =>
    unfold ballocFrom
    apply (Avoids.bread _).bind
    intro bp
    cases firstClear bp (min BPB (sb.size - b)) with
    | none =>
      apply (Avoids.brelse _).bind
      intro _
      exact ih
    | some bi =>
      apply (Avoids.logWrite _ _).bind
      intro _
      apply (Avoids.brelse _).bind
      intro _
      apply (bzero_avoids _).bind
      intro _
      exact Avoids.pure _

theorem bfree_avoids (b : Nat) : (bfree sb b).Avoids .unlinkNlink := by
  apply (Avoids.bread _).bind
  intro bp
  split_ifs
  · apply (Avoids.logWrite _ _).bind
    intro _
    exact Avoids.brelse _
  · exact Avoids.panic (by decide)

theorem slot_avoids (ip : Inode) (k : Fin 9) : (slot sb ip k).Avoids .unlinkNlink := by
  unfold slot
  split_ifs
  · apply (ballocFrom_avoids _).bind
    intro addr
    exact Avoids.pure _
  · exact Avoids.pure _

theorem entry_avoids (b j : Nat) : (entry sb b j).Avoids .unlinkNlink := by
  apply (Avoids.bread _).bind
  intro a
  split_ifs
  · apply (ballocFrom_avoids _).bind
    intro addr
    apply (Avoids.logWrite _ _).bind
    intro _
    exact Avoids.pure _
  · exact Avoids.pure _

theorem bmap_avoids (ip : Inode) (bn : Nat) : (bmap sb ip bn).Avoids .unlinkNlink := by
  have hrelse : ∀ (b : Nat) {α : Type} {q : Op α}, q.Avoids .unlinkNlink →
      (brelse b >>= fun _ => q).Avoids .unlinkNlink :=
    fun b _ _ hq => (Avoids.brelse b).bind fun _ => hq
  unfold bmap
  by_cases h1 : bn < NDIRECT
  · rw [if_pos h1]
    exact slot_avoids ip _
  rw [if_neg h1]
  dsimp only
  by_cases h2 : bn - NDIRECT < NINDIRECT
  · rw [if_pos h2]
    apply (slot_avoids ip 6).bind
    intro r
    apply (entry_avoids _ _).bind
    intro addr
    exact hrelse _ (Avoids.pure _)
  rw [if_neg h2]
  by_cases h3 : bn - NDIRECT - NINDIRECT < NDINDIRECT
  · rw [if_pos h3]
    apply (slot_avoids ip 7).bind
    intro r
    apply (entry_avoids _ _).bind
    intro bp
    apply (entry_avoids _ _).bind
    intro addr
    exact hrelse _ (hrelse _ (Avoids.pure _))
  rw [if_neg h3]
  by_cases h4 : bn - NDIRECT - NINDIRECT - NDINDIRECT < NTINDIRECT
  · rw [if_pos h4]
    apply (slot_avoids ip 8).bind
    intro r
    apply (entry_avoids _ _).bind
    intro dbp
    apply (entry_avoids _ _).bind
    intro bp
    apply (entry_avoids _ _).bind
    intro addr
    exact hrelse _ (hrelse _ (hrelse _ (Avoids.pure _)))
  · rw [if_neg h4]
    exact Avoids.panic (by decide)

theorem iupdate_avoids (ip : Inode) : (iupdate sb ip).Avoids .unlinkNlink := by
  apply (Avoids.bread _).bind
  intro _
  apply (Avoids.logWrite _ _).bind
  intro _
  exact Avoids.brelse _

theorem readLoop_avoids (turns : Nat) (ip : Inode) (off r : Nat) :
    (readLoop sb turns ip off r).Avoids .unlinkNlink := by
  induction turns generalizing ip off r with
  | zero => exact Avoids.pure _
  | succ turns ih =>
    unfold readLoop
    split_ifs
    · exact Avoids.pure _
    · apply (bmap_avoids ip _).bind
      intro addr
      apply (Avoids.bread _).bind
      intro bp
      apply (Avoids.brelse _).bind
      intro _
      apply (ih _ _ _).bind
      intro bs
      exact Avoids.pure _

theorem readi_avoids (ip : Inode) (off n : BitVec 32) :
    (readi sb devsw ip off n).Avoids .unlinkNlink := by
  unfold readi
  by_cases hdev : ip.type = T_DEV
  · rw [if_pos hdev]
    cases (device devsw ip.major).bind Devsw.read with
    | none => exact Avoids.pure _
    | some read => exact Avoids.pure _
  rw [if_neg hdev]
  by_cases hbad : ip.size < off ∨ off + n < off
  · rw [if_pos hbad]
    exact Avoids.pure _
  rw [if_neg hbad]
  apply (readLoop_avoids _ ip _ _).bind
  intro r
  exact Avoids.pure _

theorem writeLoop_avoids (turns : Nat) (ip : Inode) (src : List Byte) (off r : Nat) :
    (writeLoop sb turns ip src off r).Avoids .unlinkNlink := by
  induction turns generalizing ip src off r with
  | zero => exact Avoids.pure _
  | succ turns ih =>
    unfold writeLoop
    split_ifs
    · exact Avoids.pure _
    · apply (bmap_avoids ip _).bind
      intro addr
      apply (Avoids.bread _).bind
      intro _
      apply (Avoids.logWrite _ _).bind
      intro _
      apply (Avoids.brelse _).bind
      intro _
      exact ih _ _ _ _

theorem writei_avoids (ip : Inode) (src : List Byte) (off n : BitVec 32) :
    (writei sb devsw ip src off n).Avoids .unlinkNlink := by
  unfold writei
  by_cases hdev : ip.type = T_DEV
  · rw [if_pos hdev]
    cases (device devsw ip.major).bind Devsw.write with
    | none => exact Avoids.pure _
    | some write => exact Avoids.pure _
  rw [if_neg hdev]
  split_ifs
  · exact Avoids.pure _
  · exact Avoids.pure _
  · apply (writeLoop_avoids _ ip _ _ _).bind
    intro ip1
    split_ifs
    · apply (iupdate_avoids _).bind
      intro _
      exact Avoids.pure _
    · exact Avoids.pure _

theorem freeEach_avoids {free : Nat → Op Unit} (h : ∀ b, (free b).Avoids .unlinkNlink)
    (ws : List (BitVec 32)) : (freeEach free ws).Avoids .unlinkNlink := by
  induction ws with
  | nil => exact Avoids.pure _
  | cons w ws ih =>
    unfold freeEach
    split_ifs
    · exact ih
    · apply (h _).bind
      intro _
      exact ih

theorem freeBelow_avoids (depth b : Nat) : (freeBelow sb depth b).Avoids .unlinkNlink := by
  induction depth generalizing b with
  | zero => exact bfree_avoids b
  | succ depth ih =>
    apply (Avoids.bread _).bind
    intro bp
    apply (freeEach_avoids ih _).bind
    intro _
    apply (Avoids.brelse _).bind
    intro _
    exact bfree_avoids b

theorem freeSlots_avoids (ks : List (Fin 9)) (ip : Inode) :
    (freeSlots sb ks ip).Avoids .unlinkNlink := by
  induction ks generalizing ip with
  | nil => exact Avoids.pure _
  | cons k ks ih =>
    unfold freeSlots
    split_ifs
    · exact ih ip
    · apply (freeBelow_avoids _ _).bind
      intro _
      exact ih _

theorem itrunc_avoids (ip : Inode) : (itrunc sb ip).Avoids .unlinkNlink := by
  apply (freeSlots_avoids _ ip).bind
  intro ip1
  apply (iupdate_avoids _).bind
  intro _
  exact Avoids.pure _

theorem ilock_avoids (ip : Inode) : (ilock sb ip).Avoids .unlinkNlink := by
  unfold ilock
  split_ifs
  · exact Avoids.panic (by decide)
  · exact Avoids.panic (by decide)
  · exact Avoids.pure _
  · apply (Avoids.bread _).bind
    intro bp
    apply (Avoids.brelse _).bind
    intro _
    dsimp only
    split_ifs
    · exact Avoids.panic (by decide)
    · exact Avoids.pure _

theorem iunlock_avoids (ip : Inode) : (iunlock ip).Avoids .unlinkNlink := by
  unfold iunlock
  split_ifs
  · exact Avoids.panic (by decide)
  · exact Avoids.pure _

theorem iput_avoids (ip : Inode) : (iput sb ip).Avoids .unlinkNlink := by
  unfold iput
  split_ifs
  · exact Avoids.panic (by decide)
  · apply (itrunc_avoids ip).bind
    intro ip1
    apply (iupdate_avoids _).bind
    intro _
    exact Avoids.pure _
  · exact Avoids.pure _

theorem assign_avoids (a : Assign) (ip : Inode) : (assign sb a ip).Avoids .unlinkNlink := by
  apply (iupdate_avoids _).bind
  intro _
  exact Avoids.pure _

theorem dirlookupLoop_avoids (dp : Inode) (name : List Byte) (offs : List Nat) :
    (dirlookupLoop sb devsw dp name offs).Avoids .unlinkNlink := by
  induction offs generalizing dp with
  | nil => exact Avoids.pure _
  | cons off offs ih =>
    unfold dirlookupLoop
    apply (readi_avoids dp _ _).bind
    intro r
    dsimp only
    split_ifs
    · exact Avoids.panic (by decide)
    · exact ih _
    · exact Avoids.pure _
    · exact ih _

theorem dirlookup_avoids (dp : Inode) (name : List Byte) :
    (dirlookup sb devsw dp name).Avoids .unlinkNlink := by
  unfold dirlookup
  split_ifs
  · exact Avoids.panic (by decide)
  · exact dirlookupLoop_avoids dp name _

theorem isdiremptyLoop_avoids (dp : Inode) (offs : List Nat) :
    (isdiremptyLoop sb devsw dp offs).Avoids .unlinkNlink := by
  induction offs generalizing dp with
  | nil => exact Avoids.pure _
  | cons off offs ih =>
    unfold isdiremptyLoop
    apply (readi_avoids dp _ _).bind
    intro r
    dsimp only
    split_ifs
    · exact Avoids.panic (by decide)
    · exact Avoids.pure _
    · exact ih _

theorem unlinkRefuses_avoids (ip : Inode) :
    (unlinkRefuses sb devsw ip).Avoids .unlinkNlink := by
  unfold unlinkRefuses
  split_ifs
  · apply (isdiremptyLoop_avoids ip _).bind
    intro r
    exact Avoids.pure _
  · exact Avoids.pure _

/-! ### Calls -/

/-- A call that never stops with the panic. -/
def Call.Quiet {α : Type} (p : Call α) : Prop := ∀ k, p k ≠ .error (.panic .unlinkNlink)

namespace Call

theorem Quiet.pure {α : Type} (a : α) : Quiet (pure a : Call α) := by
  intro k h
  cases h

theorem Quiet.bind {α β : Type} {p : Call α} {q : α → Call β} (hp : Quiet p)
    (hq : ∀ a, Quiet (q a)) : Quiet (p >>= q) := by
  intro k h
  cases bind_eq_error.mp h with
  | inl h => exact hp k h
  | inr h =>
    obtain ⟨a, k', -, h⟩ := h
    exact hq a k' h

theorem onInode_quiet {α : Type} (ip : CacheSlot) {p : Inode → Op (α × Inode)}
    (hp : ∀ entry, (p entry).Avoids .unlinkNlink) : Quiet (onInode ip p) := by
  intro k h
  unfold onInode at h
  cases hexec : (p (k.icache ip)).exec k.disk with
  | error e =>
    rw [hexec] at h
    cases h
    exact (hp _).exec _ hexec
  | ok r =>
    rw [hexec] at h
    cases h

theorem update_quiet (ip : CacheSlot) {p : Inode → Op Inode}
    (hp : ∀ entry, (p entry).Avoids .unlinkNlink) : Quiet (update ip p) :=
  onInode_quiet ip fun entry => (hp entry).bind fun _ => Avoids.pure _

theorem inode_quiet (ip : CacheSlot) : Quiet (inode ip) := by
  intro k h
  cases h

theorem iget_quiet (inum : Nat) : Quiet (iget inum) := by
  intro k h
  unfold iget Kernel.iget at h
  cases hfind : (List.finRange NINODE).find? fun s =>
      0 < (k.icache s).ref ∧ (k.icache s).inum = inum with
  | some s =>
    rw [hfind] at h
    cases h
  | none =>
    rw [hfind] at h
    cases hempty : (List.finRange NINODE).find? fun s => (k.icache s).ref = 0 with
    | some s =>
      rw [hempty] at h
      cases h
    | none =>
      rw [hempty] at h
      cases h

theorem iunlockput_quiet (ip : CacheSlot) : Quiet (iunlockput sb ip) :=
  (update_quiet ip iunlock_avoids).bind fun _ => update_quiet ip iput_avoids

theorem dirlookup_quiet (dp : CacheSlot) (name : List Byte) :
    Quiet (dirlookup sb devsw dp name) := by
  apply (onInode_quiet dp fun entry => dirlookup_avoids entry name).bind
  intro found
  cases found with
  | none => exact Quiet.pure _
  | some f =>
    apply (iget_quiet f.1).bind
    intro ip
    exact Quiet.pure _

theorem namexLoop_quiet (parent : Bool) (path : List (List Byte)) (ip : CacheSlot) :
    Quiet (namexLoop sb devsw parent path ip) := by
  have hput : Quiet (iunlockput sb ip >>= fun _ => pure none :
      Call (Option (CacheSlot × List Byte))) := (iunlockput_quiet ip).bind fun _ => Quiet.pure _
  induction path generalizing ip with
  | nil =>
    unfold namexLoop
    split_ifs
    · exact (update_quiet ip iput_avoids).bind fun _ => Quiet.pure _
    · exact Quiet.pure _
  | cons name path ih =>
    unfold namexLoop
    apply (update_quiet ip ilock_avoids).bind
    intro _
    apply (inode_quiet ip).bind
    intro entry
    split_ifs
    · exact hput
    · exact (update_quiet ip iunlock_avoids).bind fun _ => Quiet.pure _
    · apply (dirlookup_quiet ip name).bind
      intro found
      cases found with
      | none => exact hput
      | some next =>
        apply (iunlockput_quiet ip).bind
        intro _
        exact ih next.1 ((iunlockput_quiet _).bind fun _ => Quiet.pure _)

theorem nameiparent_quiet (cwd : CacheSlot) (path : List Byte) :
    Quiet (nameiparent sb devsw cwd path) := by
  have hstart : Quiet (namexStart cwd path) := by
    unfold namexStart
    split_ifs
    · exact iget_quiet _
    · exact (update_quiet cwd fun _ => Avoids.pure _).bind fun _ => Quiet.pure _
  exact hstart.bind fun ip => namexLoop_quiet true _ ip

theorem unlinkBad_quiet (dp : CacheSlot) : Quiet (unlinkBad sb dp) :=
  (iunlockput_quiet dp).bind fun _ => Quiet.pure _

/-- What `sys_unlink` does after its check. -/
theorem unlinkRest_quiet (dp ip : CacheSlot) (off : Nat) (entry : Inode) : Quiet (do
    let refused ← onInode ip fun entry => unlinkRefuses sb devsw entry
    if refused then do
      iunlockput sb ip
      unlinkBad sb dp
    else do
      let n ← writei sb devsw dp (List.replicate direntSize 0) off
      if n ≠ direntSize then panic .unlinkWritei
      else do
        unlinkParent sb dp entry
        iunlockput sb dp
        assign sb ip .unlink
        iunlockput sb ip
        pure 0 : Call Int) := by
  apply (onInode_quiet ip fun entry => unlinkRefuses_avoids entry).bind
  intro refused
  split_ifs
  · exact (iunlockput_quiet ip).bind fun _ => unlinkBad_quiet dp
  · apply (onInode_quiet dp fun entry => writei_avoids entry _ _ _).bind
    intro n
    split_ifs
    · intro k h
      cases h
    · have hparent : Quiet (unlinkParent sb dp entry) := by
        unfold unlinkParent
        split_ifs
        · exact update_quiet dp (assign_avoids _)
        · exact Quiet.pure _
      apply hparent.bind
      intro _
      apply (iunlockput_quiet dp).bind
      intro _
      apply (update_quiet ip (assign_avoids _)).bind
      intro _
      apply (iunlockput_quiet ip).bind
      intro _
      exact Quiet.pure _

theorem unlinkEntry_quiet {ip : CacheSlot} (h : Unlinks sb t k dp ip m o) (off : Nat) :
    unlinkEntry sb devsw dp ip off k ≠ .error (.panic .unlinkNlink) := by
  intro hrun
  cases bind_eq_error.mp hrun with
  | inl hlock => exact update_quiet ip ilock_avoids k hlock
  | inr hrest =>
    obtain ⟨u, k1, hlock, hrest⟩ := hrest
    obtain ⟨h1, hp1, -⟩ := h.lock hlock
    cases bind_eq_error.mp hrest with
    | inl hentry => exact inode_quiet ip k1 hentry
    | inr hrest =>
      obtain ⟨entry, k2, hentry, hrest⟩ := hrest
      cases hentry
      rw [if_neg (h1.one_le hp1).2] at hrest
      exact unlinkRest_quiet dp ip off _ _ hrest

/-- Under the law `sys_unlink` does not find an entry for an inode without links. -/
theorem sysUnlink_quiet {path : List Byte} (h : Lawful sb cwd t k) (hroot : ROOTINO < sb.ninodes) :
    sysUnlink sb devsw cwd path k ≠ .error (.panic .unlinkNlink) := by
  intro hrun
  cases bind_eq_error.mp hrun with
  | inl hpath => exact nameiparent_quiet cwd path k hpath
  | inr hrest =>
    obtain ⟨found, k1, hpath, hrest⟩ := hrest
    obtain ⟨t1, h1, -, -⟩ := h.lookup (nameiparent_calm hroot own_self_pos path) hpath
    cases found with
    | none => exact Quiet.pure _ k1 hrest
    | some f =>
      obtain ⟨dp, name⟩ := f
      cases bind_eq_error.mp hrest with
      | inl hlock => exact update_quiet dp ilock_avoids k1 hlock
      | inr hrest =>
        obtain ⟨u, k2, hlock, hrest⟩ := hrest
        obtain ⟨h2, hd2, -, -, -, -⟩ := ilock_shows h1.shows hlock
        by_cases hname : namecmp name [46] = true ∨ namecmp name [46, 46] = true
        · rw [if_pos hname] at hrest
          exact unlinkBad_quiet dp k2 hrest
        rw [if_neg hname] at hrest
        cases bind_eq_error.mp hrest with
        | inl hlook => exact dirlookup_quiet dp name k2 hlook
        | inr hrest =>
          obtain ⟨found3, k3, hlook, hrest⟩ := hrest
          obtain ⟨h3, hentry⟩ := unlinks_of_found h2 h1.law hd2 hname hlook
          cases found3 with
          | none => exact unlinkBad_quiet dp k3 hrest
          | some f3 =>
            obtain ⟨ip, off⟩ := f3
            obtain ⟨m, o, -, h4⟩ := hentry ip off rfl
            exact unlinkEntry_quiet h4 off hrest

end Call

end Xv6.Fs
