import Xv6.Fs.Dirents
import Xv6.Fs.Naming
import Xv6.Fs.Refs

/-!
# The directories under the calls of fs.c

`Shows sb t k` says that the disk of a kernel has the directories of `t`. Each call on an entry
of the cache leads to a kernel that shows what the call makes of `t`.
-/

namespace Xv6.Fs
open Code

/-- The disk has the directories of `t`, and each of them has whole entries. -/
structure Shows (sb : Superblock) (t : Tree) (k : Kernel) : Prop where
  inv : k.Inv sb
  whole : ∀ i, i < sb.ninodes → (dinode sb k.disk i).type = T_DIR →
    direntSize ∣ (dinode sb k.disk i).size.toNat
  ranged : t.Ranged sb.ninodes
  tree : tree sb k.disk = t

/-- Only one entry is touched. -/
def Only (s : CacheSlot) (k k' : Kernel) : Prop := ∀ x, x ≠ s → k'.icache x = k.icache x

variable {sb : Superblock} {devsw : Fin NDEV → Devsw} {t t' : Tree} {k k' : Kernel}
  {s ip dp : CacheSlot} {u : Unit} {i j : Nat} {e ip' : Inode} {σ : Contents} {name : List Byte}

theorem only_setInode (k : Kernel) (s : CacheSlot) (e : Inode) : Only s k (k.setInode s e) :=
  fun _ hx => k.setInode_ne e hx

/-- Apart from its references an entry is as before. -/
def Still (x : CacheSlot) (k k' : Kernel) : Prop :=
  ∃ r, (k.icache x).ref ≤ r ∧ k'.icache x = { k.icache x with ref := r }

theorem Still.of_only (h : Only s k k') {x : CacheSlot} (hx : x ≠ s) : Still x k k' :=
  ⟨_, Nat.le_refl _, h x hx⟩

theorem Still.holds {x : CacheSlot} (h : Still x k k') (hx : k.holds x) : k'.holds x := by
  obtain ⟨r, hr, heq⟩ := h
  obtain ⟨h1, h2, h3⟩ := hx
  unfold Kernel.holds
  rw [heq]
  exact ⟨Nat.le_trans h1 hr, h2, h3⟩

theorem Still.toDinode {x : CacheSlot} (h : Still x k k') :
    (k'.icache x).toDinode = (k.icache x).toDinode ∧ (k'.icache x).inum = (k.icache x).inum ∧
      (k'.icache x).locked = (k.icache x).locked := by
  obtain ⟨r, -, heq⟩ := h
  rw [heq]
  exact ⟨rfl, rfl, rfl⟩

/-- What `dirlookup` says of the directory. -/
def LooksUp (t : Tree) (k : Kernel) (dp : CacheSlot) (name : List Byte) (k' : Kernel) :
    Option (CacheSlot × Nat) → Prop
  | none => k' = k ∧ Found (t.dirents (k.icache dp).inum) name none
  | some (ip, off) => Found (t.dirents (k.icache dp).inum) name
      (some ((k'.icache ip).inum, off)) ∧ Only ip k k'

namespace Shows

theorem same (h : Shows sb t k) (hinv : k'.Inv sb) (hdisk : k'.disk = k.disk) : Shows sb t k' := by
  refine ⟨hinv, ?_, h.ranged, ?_⟩
  · rw [hdisk]
    exact h.whole
  · rw [hdisk]
    exact h.tree

/-- A call has changed one inode. -/
theorem leaves (h : Shows sb t k) (href : 1 ≤ (k.icache s).ref)
    (hl : Leaves sb k.disk (k.icache s) ip' σ)
    (hwhole : (dinode sb σ (k.icache s).inum).type = T_DIR →
      direntSize ∣ (dinode sb σ (k.icache s).inum).size.toNat)
    (hr : t'.Ranged sb.ninodes) (ht : Fs.tree sb σ = t') :
    Shows sb t' ((k.setInode s ip').setDisk σ) := by
  refine ⟨h.inv.entry href hl, ?_, hr, ht⟩
  intro i hi htype
  have htype' : (dinode sb σ i).type = T_DIR := htype
  show direntSize ∣ (dinode sb σ i).size.toNat
  by_cases hs : i = (k.icache s).inum
  · rw [hs] at htype' ⊢
    exact hwhole htype'
  · rw [hl.others i hs hi] at htype' ⊢
    exact h.whole i hi htype'

/-! ### Entries that are held -/

theorem lt (h : Shows sb t k) (hs : k.holds s) : (k.icache s).inum < sb.ninodes :=
  h.inv.inum s hs.1

theorem cached (h : Shows sb t k) (hs : k.holds s) : Cached sb k.disk (k.icache s) :=
  h.inv.cached s hs.1 hs.2.2

theorem type_eq (h : Shows sb t k) (hs : k.holds s) :
    t.type (k.icache s).inum = (k.icache s).type := by
  rw [← h.tree, tree_type (h.lt hs), ← (h.cached hs).1]

theorem nlink_eq (h : Shows sb t k) (hs : k.holds s) :
    t.nlink (k.icache s).inum = (k.icache s).nlink := by
  rw [← h.tree, tree_nlink (h.lt hs), ← (h.cached hs).1]

theorem directory (h : Shows sb t k) (hs : k.holds s) (hdir : (k.icache s).type = T_DIR) :
    Directory sb k.disk (k.icache s) := by
  have hc := h.cached hs
  refine ⟨h.inv.disk, hc, h.lt hs, hdir, ?_⟩
  have hwhole := h.whole _ (h.lt hs)
  rw [← hc.1] at hwhole
  exact hwhole hdir

theorem inum_ne (h : Shows sb t k) (hs : k.holds s) (hd : k.holds dp) (hne : s ≠ dp) :
    (k.icache s).inum ≠ (k.icache dp).inum :=
  fun heq => hne (h.inv.uniq s dp hs.1 hd.1 heq)

end Shows

namespace Call

theorem update_only {p : Inode → Op Inode} (hrun : update ip p k = .ok (u, k')) :
    ∃ e σ, (p (k.icache ip)).exec k.disk = .ok (e, σ) ∧ k'.icache ip = e ∧ k'.disk = σ ∧
      Only ip k k' ∧ k' = (k.setInode ip e).setDisk σ := by
  obtain ⟨e, σ, hexec, rfl⟩ := update_eq_ok hrun
  exact ⟨e, σ, hexec, k.setInode_self ip e, rfl, only_setInode k ip e, rfl⟩

theorem ilock_shows (h : Shows sb t k) (hrun : ilock sb ip k = .ok (u, k')) :
    Shows sb t k' ∧ k'.holds ip ∧ (k'.icache ip).inum = (k.icache ip).inum ∧
      (k'.icache ip).ref = (k.icache ip).ref ∧ (k.icache ip).locked = false ∧ Only ip k k' := by
  obtain ⟨e, σ, hexec, hself, hdisk, honly, rfl⟩ := update_only hrun
  have hfree : (k.icache ip).locked = false := by
    by_contra hl
    unfold Fs.ilock at hexec
    by_cases href : (k.icache ip).ref < 1
    · rw [if_pos href] at hexec
      cases hexec
    · rw [if_neg href, if_pos (Bool.not_eq_false _ ▸ hl)] at hexec
      cases hexec
  obtain ⟨he, rfl, href, -⟩ := ilock_exec hexec
  have hinv := h.inv.entry href (h.inv.disk.after_ilock (h.inv.cached ip href) hexec)
  refine ⟨h.same hinv rfl, ?_, ?_, ?_, hfree, honly⟩
  · unfold Kernel.holds
    rw [hself, he]
    exact ⟨href, rfl, rfl⟩
  · rw [hself, he]
    rfl
  · rw [hself, he]
    rfl

theorem iunlock_shows (h : Shows sb t k) (hrun : iunlock ip k = .ok (u, k')) :
    Shows sb t k' ∧ k'.icache ip = { k.icache ip with locked := false } ∧
      1 ≤ (k.icache ip).ref ∧ Only ip k k' := by
  obtain ⟨e, σ, hexec, hself, hdisk, honly, rfl⟩ := update_only hrun
  obtain ⟨rfl, rfl, href⟩ := iunlock_exec hexec
  refine ⟨h.same ?_ rfl, hself, href, honly⟩
  apply h.inv.entry href
  refine Leaves.same _ h.inv.disk rfl ?_
  intro hv
  exact h.inv.cached ip href hv

theorem idup_shows (h : Shows sb t k) (href : 1 ≤ (k.icache ip).ref)
    (hrun : idup ip k = .ok (u, k')) :
    Shows sb t k' ∧ (k'.icache ip).inum = (k.icache ip).inum ∧ Only ip k k' := by
  obtain ⟨e, σ, hexec, hself, hdisk, honly, rfl⟩ := update_only hrun
  cases hexec
  refine ⟨h.same ?_ rfl, ?_, honly⟩
  · apply h.inv.entry href
    refine Leaves.same _ h.inv.disk rfl ?_
    intro hv
    exact h.inv.cached ip href hv
  · rw [hself]

theorem unused_pred (href : ¬ 1 ≤ e.ref) : ({ e with ref := e.ref - 1 } : Inode) = e := by
  obtain ⟨d, inum, ref, locked, valid, path⟩ := e
  dsimp only at href
  have hzero : ref = 0 := by omega
  subst hzero
  rfl

/-- `iput` frees an inode without links, or changes nothing. -/
theorem iput_shows (h : Shows sb t k) (hrun : iput sb ip k = .ok (u, k')) :
    (Shows sb t k' ∨ ((k.icache ip).nlink = 0 ∧ t.type (k.icache ip).inum ≠ 0 ∧
      t.nlink (k.icache ip).inum = 0 ∧ Shows sb (t.free (k.icache ip).inum) k')) ∧
    (k.icache ip).locked = false ∧ (k'.icache ip).inum = (k.icache ip).inum ∧ Only ip k k' := by
  obtain ⟨e, σ, hexec, hself, hdisk, honly, rfl⟩ := update_only hrun
  have hfree : (k.icache ip).locked = false := by
    by_contra hl
    unfold Fs.iput at hexec
    rw [if_pos (Bool.not_eq_false _ ▸ hl)] at hexec
    cases hexec
  have hinum : e.inum = (k.icache ip).inum := ((iput_all (k.icache ip)).exec hexec).1
  refine ⟨?_, hfree, by rw [hself, hinum], honly⟩
  by_cases href : 1 ≤ (k.icache ip).ref
  · have hi := h.inv.inum ip href
    have hcached := h.inv.cached ip href
    have hl := h.inv.disk.after_iput hi hcached hexec
    cases tree_iput h.inv.disk hi hcached hexec with
    | inl hsame =>
      left
      subst hsame
      exact h.leaves href hl (h.whole _ hi) h.ranged h.tree
    | inr hgone =>
      right
      obtain ⟨hz, htype, hnlink, hzero, ht⟩ := hgone
      rw [h.tree] at htype hnlink ht
      refine ⟨hz, htype, hnlink, h.leaves href hl ?_ (h.ranged.free _) ht⟩
      intro hdir
      rw [hzero] at hdir
      cases hdir
  · -- An entry that nobody has stays as it is.
    left
    have hno : ¬ ((k.icache ip).valid = true ∧ (k.icache ip).nlink = 0 ∧
        (k.icache ip).ref = 1) := fun hgone => href (by omega)
    unfold Fs.iput at hexec
    rw [if_neg (by rw [hfree]; exact Bool.false_ne_true), if_neg hno] at hexec
    cases hexec
    have hk : (k.setInode ip { k.icache ip with ref := (k.icache ip).ref - 1 }).setDisk
        k.disk = k := by
      unfold Kernel.setInode Kernel.setDisk
      rw [unused_pred href, Function.update_eq_self]
    rw [hk]
    exact h

/-! ### Entries that are taken -/

theorem iget_shows (h : Shows sb t k) (hi : i < sb.ninodes) (hrun : iget i k = .ok (s, k')) :
    Shows sb t k' ∧ (k'.icache s).inum = i ∧ Only s k k' ∧
      (1 ≤ (k.icache s).ref → (k.icache s).inum = i ∧ Still s k k') := by
  have hget : k.iget i = .ok (s, k') := by
    unfold iget at hrun
    cases hk : k.iget i with
    | error e =>
      rw [hk] at hrun
      cases hrun
    | ok r =>
      rw [hk] at hrun
      cases hrun
      rfl
  have hinv := h.inv.iget hi hget
  cases Kernel.iget_eq_ok hget with
  | inl hused =>
    obtain ⟨href, hinum, rfl⟩ := hused
    refine ⟨h.same hinv rfl, ?_, only_setInode k s _, ?_⟩
    · rw [Kernel.setInode_self]
      exact hinum
    · intro _
      refine ⟨hinum, (k.icache s).ref + 1, Nat.le_succ _, ?_⟩
      rw [Kernel.setInode_self]
  | inr hfree =>
    obtain ⟨hzero, -, rfl⟩ := hfree
    refine ⟨h.same hinv rfl, ?_, only_setInode k s _, ?_⟩
    · rw [Kernel.setInode_self]
    · intro href
      omega

theorem iget_still (h : Shows sb t k) (hi : i < sb.ninodes) (hrun : iget i k = .ok (s, k'))
    {x : CacheSlot} (href : 1 ≤ (k.icache x).ref) : Still x k k' := by
  obtain ⟨-, -, honly, hsame⟩ := iget_shows h hi hrun
  by_cases hx : x = s
  · subst hx
    exact (hsame href).2
  · exact Still.of_only honly hx

/-- Code that leaves the entry and the disk alone. -/
theorem onInode_reads {α : Type} {p : Inode → Op (α × Inode)} {Q : α → Prop} {a : α}
    (hp : (p (k.icache ip)).wp (fun _ => True) (fun _ => True)
      (fun r υ => υ = k.disk ∧ r.2 = k.icache ip ∧ Q r.1) k.disk)
    (hrun : onInode ip p k = .ok (a, k')) : k' = k ∧ Q a := by
  obtain ⟨entry, σ, hexec, rfl⟩ := onInode_eq_ok hrun
  obtain ⟨rfl, hentry, hQ⟩ := wp_result hp hexec
  dsimp only at hentry hQ
  refine ⟨?_, hQ⟩
  unfold Kernel.setInode Kernel.setDisk
  rw [hentry, Function.update_eq_self]

theorem dirlookup_shows {r : Option (CacheSlot × Nat)} (h : Shows sb t k) (hd : k.holds dp)
    (hrun : dirlookup sb devsw dp name k = .ok (r, k')) :
    (k.icache dp).type = T_DIR ∧ Shows sb t k' ∧ LooksUp t k dp name k' r ∧
      ∀ x, 1 ≤ (k.icache x).ref → Still x k k' := by
  have hdir : (k.icache dp).type = T_DIR := by
    by_contra hno
    obtain ⟨found, k1, hlook, -⟩ := bind_eq_ok.mp hrun
    obtain ⟨entry, σ, hexec, -⟩ := onInode_eq_ok hlook
    unfold Fs.dirlookup at hexec
    rw [if_pos hno] at hexec
    cases hexec
  obtain ⟨found, k1, hlook, hrest⟩ := bind_eq_ok.mp hrun
  have hreads := @Directory.dirlookup_reads sb devsw _ _ (fun _ => True) (fun _ => True)
    (h.directory hd hdir) name
  rw [h.tree] at hreads
  obtain ⟨rfl, hfound⟩ := onInode_reads hreads hlook
  refine ⟨hdir, ?_⟩
  cases found with
  | none =>
    obtain ⟨rfl, rfl⟩ := pure_eq_ok.mp hrest
    exact ⟨h, ⟨rfl, hfound⟩, fun x _ => ⟨_, Nat.le_refl _, rfl⟩⟩
  | some f =>
    obtain ⟨inum, off⟩ := f
    obtain ⟨ip, k2, hget, hpure⟩ := bind_eq_ok.mp hrest
    obtain ⟨rfl, rfl⟩ := pure_eq_ok.mp hpure
    have hlt : inum < sb.ninodes := by
      obtain ⟨m, e, -, he, -, -, rfl⟩ := hfound
      have hty : t.type (k1.icache dp).inum = T_DIR := (h.type_eq hd).trans hdir
      exact (h.ranged _ hty).2 e (List.mem_of_getElem? he)
    obtain ⟨hshows, hinum, honly, -⟩ := iget_shows h hlt hget
    refine ⟨hshows, ⟨?_, honly⟩, fun x hx => iget_still h hlt hget hx⟩
    rw [hinum]
    exact hfound

/-! ### What is written -/

theorem assign_shows {a : Assign} (h : Shows sb t k) (hs : k.holds ip)
    (hrun : assign sb ip a k = .ok (u, k')) :
    Shows sb (t.setNlink (k.icache ip).inum (a.apply (k.icache ip)).nlink) k' ∧
      k'.icache ip = a.apply (k.icache ip) ∧ k'.holds ip ∧ Only ip k k' := by
  obtain ⟨e, σ, hexec, hself, hdisk, honly, rfl⟩ := update_only hrun
  have hi := h.lt hs
  have hc := h.cached hs
  obtain ⟨hl, rfl⟩ := h.inv.disk.after_assign hi hc a hexec
  have ht := tree_assign h.inv.disk hi hc hexec
  rw [h.tree] at ht
  have hdinode : dinode sb σ (k.icache ip).inum = (a.apply (k.icache ip)).toDinode := by
    have hσ : σ = updated sb k.disk (a.apply (k.icache ip)).inum
        (a.apply (k.icache ip)).toDinode := by
      cases hexec
      rfl
    rw [hσ, ← hl.inum, dinode_updated_self]
  refine ⟨h.leaves hs.1 hl ?_ h.ranged ht, hself, ?_, honly⟩
  · have hwhole := h.whole _ hi
    rw [← hc.1] at hwhole
    rw [hdinode]
    intro hdir
    cases a <;> exact hwhole hdir
  · unfold Kernel.holds
    rw [hself]
    cases a <;> exact hs

/-- An entry is written. -/
theorem writei_shows {src : List Byte} {m : Nat} {n : Int} (h : Shows sb t k) (hd : k.holds dp)
    (hdir : (k.icache dp).type = T_DIR) (hm : m ≤ (t.dirents (k.icache dp).inum).length)
    (hsrc : src.length = direntSize) (hlt : (decodeDirent src).inum.toNat < sb.ninodes)
    (hrun : writei sb devsw dp src (direntSize * m) k = .ok (n, k')) (hn : n = direntSize) :
    Shows sb (t.put (k.icache dp).inum m (decodeDirent src)) k' ∧ k'.holds dp ∧
      (k'.icache dp).inum = (k.icache dp).inum ∧ (k'.icache dp).nlink = (k.icache dp).nlink ∧
      (k'.icache dp).type = T_DIR ∧ Only dp k k' := by
  obtain ⟨e, σ, hexec, rfl⟩ := onInode_eq_ok hrun
  have hi := h.lt hd
  have hc := h.cached hd
  obtain ⟨hl, he⟩ := h.inv.disk.after_writei hi hc (length_eq_toNat (by rw [hsrc]; decide)) hexec
  rw [hn] at hexec
  have hdirectory := h.directory hd hdir
  have hm' : m ≤ ((tree sb k.disk).dirents (k.icache dp).inum).length := by
    rw [h.tree]
    exact hm
  obtain ⟨ht, hdirectory'⟩ := hdirectory.tree_writei hm' hsrc hexec
  rw [h.tree] at ht
  have hself : ((k.setInode dp e).setDisk σ).icache dp = e := k.setInode_self dp e
  have hinum : e.inum = (k.icache dp).inum := hl.inum
  refine ⟨h.leaves hd.1 hl ?_ (h.ranged.put hlt) ht, ?_, ?_, ?_, ?_, only_setInode k dp e⟩
  · intro _
    have hsize := hdirectory'.size_eq
    rw [hinum] at hsize
    rw [hsize]
    exact hdirectory'.whole
  · unfold Kernel.holds
    rw [hself, he]
    exact hd
  · rw [hself, hinum]
  · rw [hself, he]
  · rw [hself]
    exact hdirectory'.type

theorem iallocLoop_all (type : BitVec 16) (inums : List Nat) :
    (iallocLoop sb type inums).All fun i => i ∈ inums := by
  induction inums with
  | nil => exact Op.All.panic _
  | cons inum inums ih =>
    unfold iallocLoop
    apply Op.All.seq
    intro bp
    split_ifs
    · apply Op.All.seq
      intro _
      apply Op.All.seq
      intro _
      exact Op.All.pure List.mem_cons_self
    · apply Op.All.seq
      intro _
      apply ih.mono
      intro i hi
      exact List.mem_cons_of_mem _ hi

theorem ialloc_shows {type : BitVec 16} (h : Shows sb t k)
    (hrun : ialloc sb type k = .ok (s, k')) : ∃ i, t.type i = 0 ∧ i ≠ 0 ∧ i < sb.ninodes ∧
      Shows sb (t.make i type) k' ∧ (k'.icache s).inum = i ∧ Only s k k' ∧
      ∀ x, k.holds x → x ≠ s := by
  obtain ⟨i, k1, hdisk, hget⟩ := bind_eq_ok.mp hrun
  unfold onDisk at hdisk
  cases hexec : (Fs.ialloc sb type).exec k.disk with
  | error e =>
    rw [hexec] at hdisk
    cases hdisk
  | ok r =>
    obtain ⟨inum, σ⟩ := r
    rw [hexec] at hdisk
    cases hdisk
    obtain ⟨-, hi, hfree, hself, hother⟩ := h.inv.disk.after_ialloc hexec
    obtain ⟨hinv, -⟩ := h.inv.ialloc hexec
    have ht := tree_ialloc h.inv.disk hexec
    rw [h.tree] at ht
    have hpos : i ≠ 0 := by
      have hmem := (iallocLoop_all type _).exec hexec
      rw [List.mem_range'_1] at hmem
      omega
    have hshows : Shows sb (t.make i type) (k.setDisk σ) := by
      refine ⟨hinv, ?_, h.ranged.make hi, ht⟩
      intro j hj hdir
      have hdir' : (dinode sb σ j).type = T_DIR := hdir
      show direntSize ∣ (dinode sb σ j).size.toNat
      by_cases hji : j = i
      · rw [hji, hself]
        exact Nat.dvd_zero direntSize
      · rw [hother j hji] at hdir' ⊢
        exact h.whole j hj hdir'
    obtain ⟨hshows', hinum, honly, hused⟩ := iget_shows hshows hi hget
    refine ⟨i, ?_, hpos, hi, hshows', hinum, honly, ?_⟩
    · rw [← h.tree, tree_type hi]
      exact hfree
    · intro x hx heq
      rw [← heq] at hused
      have hxi := (hused hx.1).1
      have hc := h.cached hx
      have hne := hc.2
      have hx' : (k.icache x).inum = i := hxi
      rw [hc.1, hx'] at hne
      exact hne hfree

end Call

end Xv6.Fs
