import Xv6.Fs.Keeps
import Xv6.Fs.Syscall
import Xv6.Lib.Tally

/-!
# References to inodes (project3/fs.c, file.c, sysfile.c)

What each function takes and gives back of the references in the inode cache, and from it the
balance between them and the files and processes that hold them.
-/

namespace Xv6.Fs
open Code

/-- The references of an entry. -/
def refs (k : Kernel) (i : CacheSlot) : Nat := (k.icache i).ref

/-- One reference. -/
def own (ip : CacheSlot) : CacheSlot → Nat := fun i => if i = ip then 1 else 0

def held : Option CacheSlot → CacheSlot → Nat
  | none => nil
  | some ip => own ip

variable {sb : Superblock} {devsw : Fin NDEV → Devsw}

namespace Call

/-! ### Entries -/

theorem onInode_eq_ok {α : Type} {ip : CacheSlot} {p : Inode → Op (α × Inode)} {a : α}
    {k k' : Kernel} (h : onInode ip p k = .ok (a, k')) : ∃ entry σ,
      (p (k.icache ip)).exec k.disk = .ok ((a, entry), σ) ∧
      k' = (k.setInode ip entry).setDisk σ := by
  unfold onInode at h
  cases hp : (p (k.icache ip)).exec k.disk with
  | error e =>
    rw [hp] at h
    cases h
  | ok r =>
    rw [hp] at h
    cases h
    exact ⟨_, _, rfl, rfl⟩

theorem update_eq_ok {ip : CacheSlot} {p : Inode → Op Inode} {a : Unit} {k k' : Kernel}
    (h : update ip p k = .ok (a, k')) : ∃ entry σ,
      (p (k.icache ip)).exec k.disk = .ok (entry, σ) ∧
      k' = (k.setInode ip entry).setDisk σ := by
  obtain ⟨entry, σ, hexec, rfl⟩ := onInode_eq_ok h
  obtain ⟨entry', τ, hp, hpure⟩ := exec_bind_ok hexec
  cases hpure
  exact ⟨entry, σ, hp, rfl⟩

theorem onInode_trades {α : Type} (ip : CacheSlot) {p : Inode → Op (α × Inode)}
    (hp : ∀ entry, (p entry).All fun r => entry.Keeps r.2) :
    Trades refs (onInode ip p) nil fun _ => nil := by
  intro k a k' _ h i
  obtain ⟨entry, σ, hexec, rfl⟩ := onInode_eq_ok h
  have hkeeps := (hp (k.icache ip)).exec hexec
  show ((k.setInode ip entry).icache i).ref = (k.icache i).ref
  by_cases hi : i = ip
  · rw [hi, Kernel.setInode_self]
    exact hkeeps.ref
  · rw [Kernel.setInode_ne k entry hi]

/-- Code that returns only the entry, and may change how many references it has. -/
theorem update_trades (ip : CacheSlot) {p : Inode → Op Inode} {give take : Nat}
    (hp : ∀ entry, (p entry).All fun entry' =>
      give ≤ entry.ref → entry'.ref + give = entry.ref + take) :
    Trades refs (update ip p) (fun i => if i = ip then give else 0)
      fun _ i => if i = ip then take else 0 := by
  intro k a k' hgive h i
  obtain ⟨entry, σ, hexec, rfl⟩ := update_eq_ok h
  have hentry := (hp (k.icache ip)).exec hexec
  have hle : give ≤ (k.icache ip).ref := by
    have h := hgive ip
    dsimp only at h
    rw [if_pos rfl] at h
    exact h
  dsimp only
  show ((k.setInode ip entry).icache i).ref + _ = (k.icache i).ref + _
  by_cases hi : i = ip
  · rw [if_pos hi, if_pos hi, hi, Kernel.setInode_self]
    exact hentry hle
  · rw [if_neg hi, if_neg hi, Kernel.setInode_ne k entry hi]

theorem update_keeps (ip : CacheSlot) {p : Inode → Op Inode}
    (hp : ∀ entry, (p entry).All fun entry' => entry'.ref = entry.ref) :
    Trades refs (update ip p) nil fun _ => nil := by
  have h0 : Trades refs (update ip p) (fun i => if i = ip then 0 else 0)
      fun _ i => if i = ip then 0 else 0 := by
    apply update_trades
    intro entry
    apply (hp entry).mono
    intro entry' h _
    exact h
  apply h0.congr
  · intro i
    exact (ite_self 0).symm
  · intro _ i
    exact (ite_self 0).symm

theorem inode_trades (ip : CacheSlot) : Trades refs (inode ip) nil fun _ => nil := by
  intro k a k' _ h i
  cases h
  rfl

theorem ilock_trades (ip : CacheSlot) : Trades refs (ilock sb ip) nil fun _ => nil :=
  update_keeps ip fun entry => (ilock_all entry).mono fun _ h => h.ref

theorem iunlock_trades (ip : CacheSlot) : Trades refs (iunlock ip) nil fun _ => nil :=
  update_keeps ip fun entry => (iunlock_all entry).mono fun _ h => h.ref

theorem assign_trades (ip : CacheSlot) (a : Assign) :
    Trades refs (assign sb ip a) nil fun _ => nil :=
  update_keeps ip fun entry => (assign_all a entry).mono fun _ h => h.2.1

theorem writei_trades (ip : CacheSlot) (src : List Byte) (off : Nat) :
    Trades refs (writei sb devsw ip src off) nil fun _ => nil :=
  onInode_trades ip fun entry => writei_all entry _ _ _

theorem iput_trades (ip : CacheSlot) : Trades refs (iput sb ip) (own ip) fun _ => nil := by
  have h1 : Trades refs (iput sb ip) (fun i => if i = ip then 1 else 0)
      fun _ i => if i = ip then 0 else 0 := by
    apply update_trades
    intro entry
    apply (iput_all entry).mono
    intro entry' h hle
    rw [h.2.1]
    omega
  apply h1.congr
  · intro i
    rfl
  · intro _ i
    exact (ite_self 0).symm

theorem idup_trades (ip : CacheSlot) : Trades refs (idup ip) nil fun _ => own ip := by
  have h1 : Trades refs (idup ip) (fun i => if i = ip then 0 else 0)
      fun _ i => if i = ip then 1 else 0 := by
    apply update_trades
    intro entry
    apply Op.All.pure
    intro _
    rfl
  apply h1.congr
  · intro i
    exact (ite_self 0).symm
  · intro _ i
    rfl

theorem iget_trades (inum : Nat) : Trades refs (iget inum) nil own := by
  intro k ip k' _ h i
  have hget : k.iget inum = .ok (ip, k') := by
    unfold iget at h
    cases hk : k.iget inum with
    | error e =>
      rw [hk] at h
      cases h
    | ok r =>
      rw [hk] at h
      cases h
      rfl
  have hself : ∀ entry, entry.ref = (k.icache ip).ref + 1 →
      ((k.setInode ip entry).icache i).ref = (k.icache i).ref + own ip i := by
    intro entry href
    unfold own
    by_cases hi : i = ip
    · rw [if_pos hi, hi, Kernel.setInode_self]
      exact href
    · rw [if_neg hi, Kernel.setInode_ne k entry hi]
      rfl
  rcases Kernel.iget_eq_ok hget with ⟨-, -, rfl⟩ | ⟨hfree, -, rfl⟩
  · exact hself _ rfl
  · apply hself
    rw [hfree]

theorem onDisk_trades {α : Type} (p : Op α) : Trades refs (onDisk p) nil fun _ => nil := by
  intro k a k' _ h i
  unfold onDisk at h
  cases hp : p.exec k.disk with
  | error e =>
    rw [hp] at h
    cases h
  | ok r =>
    rw [hp] at h
    cases h
    rfl

theorem ialloc_trades (type : BitVec 16) : Trades refs (ialloc sb type) nil own :=
  (onDisk_trades _).bind fun inum => iget_trades inum

theorem panic_trades {α : Type} (e : Panic) {give : CacheSlot → Nat} {take : α → CacheSlot → Nat} :
    Trades refs (panic e : Call α) give take := Trades.fail _

theorem iunlockput_trades (ip : CacheSlot) :
    Trades refs (iunlockput sb ip) (own ip) fun _ => nil :=
  ((iunlock_trades ip).keeps (own ip)).bind fun _ => iput_trades ip

/-! ### Directories and paths -/

theorem dirlookup_trades (dp : CacheSlot) (name : List Byte) :
    Trades refs (dirlookup sb devsw dp name) nil fun r => held (r.map Prod.fst) := by
  apply Trades.bind (onInode_trades dp fun entry => dirlookup_all entry name)
  intro found
  cases found with
  | none => exact Trades.pure fun _ => rfl
  | some r =>
    apply Trades.bind (iget_trades r.1)
    intro ip
    exact Trades.pure fun _ => rfl

theorem dirlink_trades (dp : CacheSlot) (name : List Byte) (inum : Nat) :
    Trades refs (dirlink sb devsw dp name inum) nil fun _ => nil := by
  apply Trades.bind (dirlookup_trades dp name)
  intro r
  cases r with
  | some found =>
    apply Trades.bind (iput_trades found.1)
    intro _
    exact Trades.pure fun _ => rfl
  | none =>
    apply Trades.bind (onInode_trades dp fun entry => emptyDirentLoop_all entry _)
    intro off
    apply Trades.bind (writei_trades dp _ off)
    intro n
    split_ifs
    · exact panic_trades _
    · exact Trades.pure fun _ => rfl

theorem namexLoop_trades (parent : Bool) (path : List (List Byte)) (ip : CacheSlot) :
    Trades refs (namexLoop sb devsw parent path ip) (own ip)
      fun r => held (r.map Prod.fst) := by
  induction path generalizing ip with
  | nil =>
    unfold namexLoop
    split_ifs
    · apply Trades.bind (iput_trades ip)
      intro _
      exact Trades.pure fun _ => rfl
    · exact Trades.pure fun _ => rfl
  | cons name path ih =>
    unfold namexLoop
    apply Trades.bind ((ilock_trades ip).keeps (own ip))
    intro _
    apply Trades.bind ((inode_trades ip).keeps (own ip))
    intro entry
    split_ifs
    · apply Trades.bind (iunlockput_trades ip)
      intro _
      exact Trades.pure fun _ => rfl
    · apply Trades.bind ((iunlock_trades ip).keeps (own ip))
      intro _
      exact Trades.pure fun _ => rfl
    · apply Trades.bind ((dirlookup_trades ip name).frame (own ip) fun i => (Nat.zero_add _).symm)
      intro r
      cases r with
      | none =>
        apply Trades.bind ((iunlockput_trades ip).congr (fun i => Nat.zero_add _) fun _ _ => rfl)
        intro _
        exact Trades.pure fun _ => rfl
      | some next =>
        -- The directory is put, and the next inode is held.
        apply Trades.bind
          ((iunlockput_trades ip).frame (own next.1) fun i => Nat.add_comm _ _)
        intro _
        exact (ih next.1).congr (fun i => Nat.zero_add _) fun _ _ => rfl

theorem namexStart_trades (cwd : CacheSlot) (path : List Byte) :
    Trades refs (namexStart cwd path) nil own := by
  unfold namexStart
  split_ifs
  · exact iget_trades ROOTINO
  · apply Trades.bind (idup_trades cwd)
    intro _
    exact Trades.pure fun _ => rfl

theorem namex_trades (cwd : CacheSlot) (path : List Byte) (parent : Bool) :
    Trades refs (namex sb devsw cwd path parent) nil fun r => held (r.map Prod.fst) :=
  (namexStart_trades cwd path).bind fun ip => namexLoop_trades parent (elems path) ip

theorem namei_trades (cwd : CacheSlot) (path : List Byte) :
    Trades refs (namei sb devsw cwd path) nil held := by
  apply Trades.bind (namex_trades cwd path false)
  intro r
  exact Trades.pure fun _ => rfl

theorem nameiparent_trades (cwd : CacheSlot) (path : List Byte) :
    Trades refs (nameiparent sb devsw cwd path) nil fun r => held (r.map Prod.fst) :=
  namex_trades cwd path true

/-! ### sysfile.c -/

/-- `p` is done while `own ip` is kept. -/
theorem with_own {α β : Type} (ip : CacheSlot) {p : Call α} {k : α → Call β}
    {take : β → CacheSlot → Nat} (hp : Trades refs p nil fun _ => nil)
    (hk : ∀ a, Trades refs (k a) (own ip) take) : Trades refs (p >>= k) (own ip) take :=
  (hp.keeps (own ip)).bind hk

theorem put_return {α : Type} (ip : CacheSlot) (a : α) {take : α → CacheSlot → Nat}
    (h : ∀ i, take a i = 0) : Trades refs (iunlockput sb ip >>= fun _ => pure a) (own ip) take :=
  (iunlockput_trades ip).bind fun _ => Trades.pure fun i => (h i).symm

theorem linkBad_trades (ip : CacheSlot) : Trades refs (linkBad sb ip) (own ip) fun _ => nil := by
  apply with_own ip (ilock_trades ip)
  intro _
  apply with_own ip (assign_trades ip _)
  intro _
  exact put_return ip _ fun _ => rfl

theorem sysLink_trades (cwd : CacheSlot) (old new : List Byte) :
    Trades refs (sysLink sb devsw cwd old new) nil fun _ => nil := by
  apply Trades.bind (namei_trades cwd old)
  intro r
  cases r with
  | none => exact Trades.pure fun _ => rfl
  | some ip =>
    apply with_own ip (ilock_trades ip)
    intro _
    apply with_own ip (inode_trades ip)
    intro entry
    split_ifs
    · exact put_return ip _ fun _ => rfl
    · apply with_own ip (assign_trades ip _)
      intro _
      apply with_own ip (iunlock_trades ip)
      intro _
      apply Trades.bind
        ((nameiparent_trades cwd new).frame (own ip) fun i => (Nat.zero_add _).symm)
      intro r
      cases r with
      | none => exact (linkBad_trades ip).congr (fun i => Nat.zero_add _) fun _ _ => rfl
      | some dp =>
        -- Both inodes are held.
        apply Trades.bind ((ilock_trades dp.1).keeps _)
        intro _
        apply Trades.bind ((dirlink_trades dp.1 dp.2 entry.inum).keeps _)
        intro n
        split_ifs
        · apply Trades.bind ((iunlockput_trades dp.1).frame (own ip) fun _ => rfl)
          intro _
          exact (linkBad_trades ip).congr (fun i => Nat.zero_add _) fun _ _ => rfl
        · apply Trades.bind ((iunlockput_trades dp.1).frame (own ip) fun _ => rfl)
          intro _
          apply Trades.bind ((iput_trades ip).congr (fun i => Nat.zero_add _) fun _ _ => rfl)
          intro _
          exact Trades.pure fun _ => rfl

theorem unlinkBad_trades (dp : CacheSlot) :
    Trades refs (unlinkBad sb dp) (own dp) fun _ => nil := put_return dp _ fun _ => rfl

theorem unlinkParent_trades (dp : CacheSlot) (entry : Inode) :
    Trades refs (unlinkParent sb dp entry) nil fun _ => nil := by
  unfold unlinkParent
  split_ifs
  · exact assign_trades dp _
  · exact Trades.pure fun _ => rfl

theorem sysUnlink_trades (cwd : CacheSlot) (path : List Byte) :
    Trades refs (sysUnlink sb devsw cwd path) nil fun _ => nil := by
  apply Trades.bind (nameiparent_trades cwd path)
  intro r
  cases r with
  | none => exact Trades.pure fun _ => rfl
  | some r =>
    obtain ⟨dp, name⟩ := r
    apply with_own dp (ilock_trades dp)
    intro _
    split_ifs
    · exact unlinkBad_trades dp
    · apply Trades.bind ((dirlookup_trades dp name).frame (own dp) fun i => (Nat.zero_add _).symm)
      intro r
      cases r with
      | none => exact (unlinkBad_trades dp).congr (fun i => Nat.zero_add _) fun _ _ => rfl
      | some r =>
        obtain ⟨ip, off⟩ := r
        -- The file and its directory are held.
        apply Trades.bind ((ilock_trades ip).keeps _)
        intro _
        apply Trades.bind ((inode_trades ip).keeps _)
        intro entry
        split_ifs
        · exact panic_trades _
        · apply Trades.bind ((onInode_trades ip fun entry => unlinkRefuses_all entry).keeps _)
          intro refused
          split_ifs
          · apply Trades.bind ((iunlockput_trades ip).frame (own dp) fun _ => rfl)
            intro _
            exact (unlinkBad_trades dp).congr (fun i => Nat.zero_add _) fun _ _ => rfl
          · apply Trades.bind ((writei_trades dp _ off).keeps _)
            intro n
            split_ifs
            · exact panic_trades _
            · apply Trades.bind ((unlinkParent_trades dp entry).keeps _)
              intro _
              apply Trades.bind
                ((iunlockput_trades dp).frame (own ip) fun i => Nat.add_comm _ _)
              intro _
              apply Trades.bind
                (((assign_trades ip _).keeps (own ip)).congr (fun i => Nat.zero_add _)
                  fun _ _ => rfl)
              intro _
              exact put_return ip _ fun _ => rfl

theorem createDots_trades (type : BitVec 16) (dp ip : CacheSlot) :
    Trades refs (createDots sb devsw type dp ip) nil fun _ => nil := by
  unfold createDots
  split_ifs
  · apply Trades.bind (assign_trades dp _)
    intro _
    apply Trades.bind (inode_trades ip)
    intro child
    apply Trades.bind (inode_trades dp)
    intro parent
    apply Trades.bind (dirlink_trades ip _ _)
    intro r
    split_ifs
    · exact panic_trades _
    · apply Trades.bind (dirlink_trades ip _ _)
      intro r
      split_ifs
      · exact panic_trades _
      · exact Trades.pure fun _ => rfl
  · exact Trades.pure fun _ => rfl

theorem create_trades (cwd : CacheSlot) (path : List Byte) (type major minor : BitVec 16) :
    Trades refs (create sb devsw cwd path type major minor) nil held := by
  apply Trades.bind (nameiparent_trades cwd path)
  intro r
  cases r with
  | none => exact Trades.pure fun _ => rfl
  | some r =>
    obtain ⟨dp, name⟩ := r
    apply with_own dp (ilock_trades dp)
    intro _
    apply Trades.bind ((dirlookup_trades dp name).frame (own dp) fun i => (Nat.zero_add _).symm)
    intro r
    cases r with
    | some found =>
      apply Trades.bind ((iunlockput_trades dp).frame (own found.1) fun i => Nat.add_comm _ _)
      intro _
      apply Trades.bind
        (((ilock_trades found.1).keeps (own found.1)).congr (fun i => Nat.zero_add _)
          fun _ _ => rfl)
      intro _
      apply with_own found.1 (inode_trades found.1)
      intro entry
      split_ifs
      · exact Trades.pure fun _ => rfl
      · exact put_return found.1 _ fun _ => rfl
    | none =>
      apply Trades.bind ((ialloc_trades type).frame (own dp) fun i => rfl)
      intro ip
      apply Trades.bind ((ilock_trades ip).keeps _)
      intro _
      apply Trades.bind ((assign_trades ip _).keeps _)
      intro _
      apply Trades.bind ((createDots_trades type dp ip).keeps _)
      intro _
      apply Trades.bind ((inode_trades ip).keeps _)
      intro entry
      apply Trades.bind ((dirlink_trades dp name entry.inum).keeps _)
      intro r
      split_ifs
      · exact panic_trades _
      · apply Trades.bind ((iunlockput_trades dp).frame (own ip) fun i => Nat.add_comm _ _)
        intro _
        exact Trades.pure fun i => Nat.zero_add _

theorem redirect_trades (cwd : CacheSlot) (turns : Nat) (ip : CacheSlot) :
    Trades refs (redirect sb devsw cwd turns ip) (own ip) held := by
  induction turns generalizing ip with
  | zero =>
    apply with_own ip (inode_trades ip)
    intro entry
    split_ifs
    · exact Trades.fail _
    · exact Trades.pure fun _ => rfl
  | succ turns ih =>
    apply with_own ip (inode_trades ip)
    intro entry
    split_ifs
    · apply Trades.bind ((namei_trades cwd _).frame (own ip) fun i => (Nat.zero_add _).symm)
      intro r
      cases r with
      | none =>
        apply Trades.bind ((iunlockput_trades ip).congr (fun i => Nat.zero_add _) fun _ _ => rfl)
        intro _
        exact Trades.pure fun _ => rfl
      | some rp =>
        apply Trades.bind ((iunlockput_trades ip).frame (own rp) fun i => Nat.add_comm _ _)
        intro _
        apply Trades.bind
          (((ilock_trades rp).keeps (own rp)).congr (fun i => Nat.zero_add _) fun _ _ => rfl)
        intro _
        exact ih rp
    · exact Trades.pure fun _ => rfl

theorem openable_trades (omode : Nat) (ip : CacheSlot) :
    Trades refs (openable sb omode ip) (own ip) held := by
  apply with_own ip (inode_trades ip)
  intro entry
  split_ifs
  · exact put_return ip _ fun _ => rfl
  · exact Trades.pure fun _ => rfl

theorem openInode_trades (turns : Nat) (cwd : CacheSlot) (path : List Byte) (omode : Nat) :
    Trades refs (openInode sb devsw turns cwd path omode) nil held := by
  unfold openInode
  split_ifs
  · exact create_trades cwd path _ _ _
  · apply Trades.bind (namei_trades cwd path)
    intro r
    cases r with
    | none => exact Trades.pure fun _ => rfl
    | some ip =>
      apply with_own ip (ilock_trades ip)
      intro _
      apply Trades.bind (redirect_trades cwd turns ip)
      intro r
      cases r with
      | none => exact Trades.pure fun _ => rfl
      | some rp => exact openable_trades omode rp

theorem lsopenInode_trades (cwd : CacheSlot) (path : List Byte) (omode : Nat) :
    Trades refs (lsopenInode sb devsw cwd path omode) nil held := by
  unfold lsopenInode
  split_ifs
  · exact create_trades cwd path _ _ _
  · apply Trades.bind (namei_trades cwd path)
    intro r
    cases r with
    | none => exact Trades.pure fun _ => rfl
    | some ip =>
      apply with_own ip (ilock_trades ip)
      intro _
      exact openable_trades omode ip

theorem make_trades (cwd : CacheSlot) (path : List Byte) (type major minor : BitVec 16) :
    Trades refs (make sb devsw cwd path type major minor) nil fun _ => nil := by
  apply Trades.bind (create_trades cwd path type major minor)
  intro r
  cases r with
  | none => exact Trades.pure fun _ => rfl
  | some ip => exact put_return ip _ fun _ => rfl

theorem chdirInode_trades (cwd : CacheSlot) (path : List Byte) :
    Trades refs (chdirInode sb devsw cwd path) (own cwd) fun r => own (r.getD cwd) := by
  apply Trades.bind ((namei_trades cwd path).frame (own cwd) fun i => (Nat.zero_add _).symm)
  intro r
  cases r with
  | none => exact Trades.pure fun i => Nat.zero_add _
  | some ip =>
    apply Trades.bind ((ilock_trades ip).keeps _)
    intro _
    apply Trades.bind ((inode_trades ip).keeps _)
    intro entry
    split_ifs
    · apply Trades.bind ((iunlockput_trades ip).frame (own cwd) fun _ => rfl)
      intro _
      exact Trades.pure fun i => Nat.zero_add _
    · apply Trades.bind ((iunlock_trades ip).keeps _)
      intro _
      apply Trades.bind ((iput_trades cwd).frame (own ip) fun i => Nat.add_comm _ _)
      intro _
      exact Trades.pure fun i => Nat.zero_add _

/-- `old` names something that is no directory, as far as `sys_slink` looks at it. -/
def NamesFile (sb : Superblock) (devsw : Fin NDEV → Devsw) (k : Kernel) (cwd : CacheSlot)
    (old : List Byte) : Prop :=
  ∃ ip k1 k2, namei sb devsw cwd old k = .ok (some ip, k1) ∧ ilock sb ip k1 = .ok ((), k2) ∧
    (k2.icache ip).type ≠ T_DIR

/-- The reference to `old` is given back only where there is no file to link to. -/
theorem sysSlink_refs {cwd : CacheSlot} {old new : List Byte} {k k' : Kernel} {r : Int}
    (hno : ¬ NamesFile sb devsw k cwd old)
    (h : sysSlink sb devsw cwd old new k = .ok (r, k')) (i : CacheSlot) :
    refs k' i = refs k i := by
  have hnil : ∀ j, (nil : CacheSlot → Nat) j ≤ refs k j := fun j => Nat.zero_le _
  obtain ⟨found, k1, hnamei, h1⟩ := bind_eq_ok.mp h
  have href1 := namei_trades cwd old k found k1 hnil hnamei
  cases found with
  | none =>
    obtain ⟨-, rfl⟩ := pure_eq_ok.mp h1
    exact href1 i
  | some ip =>
    obtain ⟨u, k2, hlock, h2⟩ := bind_eq_ok.mp h1
    obtain ⟨entry, k3, hentry, h3⟩ := bind_eq_ok.mp h2
    cases hentry
    by_cases htype : (k2.icache ip).type = T_DIR
    · rw [if_pos htype] at h3
      have hput : Trades refs (do
          ilock sb ip
          iunlockput sb ip
          pure (-1) : Call Int) (own ip) fun _ => nil := by
        apply with_own ip (ilock_trades ip)
        intro _
        exact put_return ip _ fun _ => rfl
      have htaken : ∀ j, refs k1 j = refs k j + own ip j := href1
      have hcover : ∀ j, own ip j ≤ refs k1 j := by
        intro j
        have hj := htaken j
        omega
      have hrun : refs k' i + own ip i = refs k1 i :=
        hput k1 r k' hcover (bind_eq_ok.mpr ⟨u, k2, hlock, h3⟩) i
      have hi := htaken i
      omega
    · exact absurd ⟨ip, k1, k2, hnamei, hlock, htype⟩ hno

end Call

end Xv6.Fs
