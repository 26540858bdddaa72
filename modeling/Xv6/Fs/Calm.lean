import Xv6.Fs.Shows

/-!
# Calls that only look at directories (project3/fs.c:782-828, namex)

Such a call frees inodes without links at most. It is followed beside the references that others
hold: an entry that they hold stays the entry of its inode.
-/

namespace Xv6.Fs
open Code

/-- Beside the references `f` of others the call leaves the directories alone. -/
structure Calm (sb : Superblock) (f : CacheSlot → Nat) (P : Kernel → Prop) {α : Type}
    (p : Call α) (give : CacheSlot → Nat) (take : α → CacheSlot → Nat)
    (Q : α → Kernel → Prop) : Prop where
  trades : Trades refs p give take
  run : ∀ t k a k', Shows sb t k → P k → (∀ i, give i + f i ≤ refs k i) → p k = .ok (a, k') →
    (∃ t', t.Frees t' ∧ Shows sb t' k') ∧ Q a k' ∧
      ∀ i, 0 < f i → (k'.icache i).inum = (k.icache i).inum

/-- Nothing is known of the kernel. -/
def Any : Kernel → Prop := fun _ => True

variable {sb : Superblock} {devsw : Fin NDEV → Devsw} {f g give give' : CacheSlot → Nat}
  {P P' : Kernel → Prop} {α β : Type} {p : Call α} {take take' : α → CacheSlot → Nat}
  {Q : α → Kernel → Prop}

namespace Calm

theorem pure {a : α} (hg : ∀ i, give i = take a i) (hQ : ∀ k, P k → Q a k) :
    Calm sb f P (pure a : Call α) give take Q := by
  refine ⟨Trades.pure hg, ?_⟩
  intro t k b k' h hP _ hrun
  obtain ⟨rfl, rfl⟩ := pure_eq_ok.mp hrun
  exact ⟨⟨t, Tree.Frees.refl, h⟩, hQ _ hP, fun _ _ => rfl⟩

theorem fail (e : Stop) : Calm sb f P (Code.fail e : Call α) give take Q := by
  refine ⟨Trades.fail e, ?_⟩
  intro t k a k' _ _ _ hrun
  cases hrun

theorem bind {q : α → Call β} {last : β → CacheSlot → Nat} {R : β → Kernel → Prop}
    (hp : Calm sb f P p give take Q) (hq : ∀ a, Calm sb f (Q a) (q a) (take a) last R) :
    Calm sb f P (p >>= q) give last R := by
  refine ⟨hp.trades.bind fun a => (hq a).trades, ?_⟩
  intro t k b k' h hP hcover hrun
  obtain ⟨a, k1, hpa, hqa⟩ := bind_eq_ok.mp hrun
  obtain ⟨⟨t1, hfrees1, h1⟩, hQ, hinum1⟩ := hp.run t k a k1 h hP hcover hpa
  have hgive : ∀ i, give i ≤ refs k i := fun i => Nat.le_trans (Nat.le_add_right _ _) (hcover i)
  have htrade := hp.trades k a k1 hgive hpa
  have hcover1 : ∀ i, take a i + f i ≤ refs k1 i := by
    intro i
    have h1 := hcover i
    have h2 := htrade i
    omega
  obtain ⟨⟨t2, hfrees2, h2⟩, hR, hinum2⟩ := (hq a).run t1 k1 b k' h1 hQ hcover1 hqa
  refine ⟨⟨t2, hfrees1.trans hfrees2, h2⟩, hR, ?_⟩
  intro i hi
  rw [hinum2 i hi, hinum1 i hi]

theorem pre (hp : Calm sb f P p give take Q) (h : ∀ k, P' k → P k) :
    Calm sb f P' p give take Q := by
  refine ⟨hp.trades, ?_⟩
  intro t k a k' hs hP
  exact hp.run t k a k' hs (h k hP)

theorem congr (hp : Calm sb f P p give take Q) (hg : ∀ i, give' i = give i)
    (ht : ∀ a i, take' a i = take a i) : Calm sb f P p give' take' Q := by
  refine ⟨hp.trades.congr hg ht, ?_⟩
  intro t k a k' h hP hcover hrun
  have hcover' : ∀ i, give i + f i ≤ refs k i := by
    intro i
    rw [← hg]
    exact hcover i
  exact hp.run t k a k' h hP hcover' hrun

/-- References that the call does not need are those of others. -/
theorem frame (g : CacheSlot → Nat) (hp : Calm sb (fun i => g i + f i) P p give take Q)
    (hg : ∀ i, give' i = give i + g i) :
    Calm sb f P p give' (fun a i => take a i + g i) Q := by
  refine ⟨hp.trades.frame g hg, ?_⟩
  intro t k a k' h hP hcover hrun
  have hcover' : ∀ i, give i + (g i + f i) ≤ refs k i := by
    intro i
    have hi := hcover i
    rw [hg] at hi
    omega
  obtain ⟨ht, hQ, hinum⟩ := hp.run t k a k' h hP hcover' hrun
  refine ⟨ht, hQ, ?_⟩
  intro i hi
  exact hinum i (Nat.lt_of_lt_of_le hi (Nat.le_add_left _ _))

theorem keeps (g : CacheSlot → Nat)
    (hp : Calm sb (fun i => g i + f i) P p nil (fun _ => nil) Q) :
    Calm sb f P p g (fun _ => g) Q :=
  (hp.frame g fun i => (Nat.zero_add (g i)).symm).congr (fun _ => rfl) fun _ i =>
    (Nat.zero_add (g i)).symm

end Calm

namespace Call

variable {ip dp cwd : CacheSlot} {name : List Byte}

theorem ilock_calm (ip : CacheSlot) :
    Calm sb f Any (ilock sb ip) nil (fun _ => nil) fun _ k => k.holds ip := by
  refine ⟨ilock_trades ip, ?_⟩
  intro t k a k' h _ _ hrun
  obtain ⟨hs, hholds, hinum, -, -, honly⟩ := ilock_shows h hrun
  refine ⟨⟨t, Tree.Frees.refl, hs⟩, hholds, ?_⟩
  intro i _
  by_cases hi : i = ip
  · rw [hi, hinum]
  · rw [honly i hi]

theorem inode_calm (ip : CacheSlot) :
    Calm sb f P (inode ip) nil (fun _ => nil) fun e k => P k ∧ e = k.icache ip := by
  refine ⟨inode_trades ip, ?_⟩
  intro t k a k' h hP _ hrun
  cases hrun
  exact ⟨⟨t, Tree.Frees.refl, h⟩, ⟨hP, rfl⟩, fun _ _ => rfl⟩

theorem iunlock_calm (ip : CacheSlot) :
    Calm sb f Any (iunlock ip) nil (fun _ => nil) fun _ => Any := by
  refine ⟨iunlock_trades ip, ?_⟩
  intro t k a k' h _ _ hrun
  obtain ⟨hs, heq, -, honly⟩ := iunlock_shows h hrun
  refine ⟨⟨t, Tree.Frees.refl, hs⟩, trivial, ?_⟩
  intro i _
  by_cases hi : i = ip
  · rw [hi, heq]
  · rw [honly i hi]

theorem iput_calm (ip : CacheSlot) :
    Calm sb f Any (iput sb ip) (own ip) (fun _ => nil) fun _ => Any := by
  refine ⟨iput_trades ip, ?_⟩
  intro t k a k' h _ _ hrun
  obtain ⟨hcases, -, hinum, honly⟩ := iput_shows h hrun
  refine ⟨?_, trivial, ?_⟩
  · cases hcases with
    | inl hs => exact ⟨t, Tree.Frees.refl, hs⟩
    | inr hfree =>
      obtain ⟨-, htype, hzero, hs⟩ := hfree
      exact ⟨_, Tree.Frees.tail t _ Tree.Frees.refl htype hzero, hs⟩
  · intro i _
    by_cases hi : i = ip
    · rw [hi, hinum]
    · rw [honly i hi]

theorem iunlockput_calm (ip : CacheSlot) :
    Calm sb f Any (iunlockput sb ip) (own ip) (fun _ => nil) fun _ => Any :=
  ((iunlock_calm ip).keeps (own ip)).bind fun _ => iput_calm ip

theorem idup_calm (ip : CacheSlot) (hip : 0 < f ip) :
    Calm sb f Any (idup ip) nil (fun _ => own ip) fun _ => Any := by
  refine ⟨idup_trades ip, ?_⟩
  intro t k a k' h _ hcover hrun
  have href : 1 ≤ (k.icache ip).ref := by
    have hle := hcover ip
    exact Nat.le_trans (Nat.le_trans hip (Nat.le_add_left _ _)) hle
  obtain ⟨hs, hinum, honly⟩ := idup_shows h href hrun
  refine ⟨⟨t, Tree.Frees.refl, hs⟩, trivial, ?_⟩
  intro i _
  by_cases hi : i = ip
  · rw [hi, hinum]
  · rw [honly i hi]

theorem iget_calm {inum : Nat} (hi : inum < sb.ninodes) :
    Calm sb f Any (iget inum) nil own fun _ => Any := by
  refine ⟨iget_trades inum, ?_⟩
  intro t k a k' h _ hcover hrun
  obtain ⟨hs, -, -, -⟩ := iget_shows h hi hrun
  refine ⟨⟨t, Tree.Frees.refl, hs⟩, trivial, ?_⟩
  intro i hpos
  have href : 1 ≤ (k.icache i).ref := by
    have hle := hcover i
    exact Nat.le_trans (Nat.le_trans hpos (Nat.le_add_left _ _)) hle
  exact (iget_still h hi hrun href).toDinode.2.1

theorem dirlookup_calm (dp : CacheSlot) (name : List Byte) :
    Calm sb f (fun k => k.holds dp) (dirlookup sb devsw dp name) nil
      (fun r => held (r.map Prod.fst)) fun _ => Any := by
  refine ⟨dirlookup_trades dp name, ?_⟩
  intro t k a k' h hd hcover hrun
  obtain ⟨-, hs, -, hstill⟩ := dirlookup_shows h hd hrun
  refine ⟨⟨t, Tree.Frees.refl, hs⟩, trivial, ?_⟩
  intro i hpos
  have href : 1 ≤ (k.icache i).ref := by
    have hle := hcover i
    exact Nat.le_trans (Nat.le_trans hpos (Nat.le_add_left _ _)) hle
  exact (hstill i href).toDinode.2.1

theorem put_return_calm (ip : CacheSlot) (a : α) (h : ∀ i, take a i = 0) :
    Calm sb f Any (iunlockput sb ip >>= fun _ => pure a) (own ip) take fun _ => Any :=
  (iunlockput_calm ip).bind fun _ => Calm.pure (fun i => (h i).symm) fun _ h => h

theorem namexLoop_calm (parent : Bool) (path : List (List Byte)) (ip : CacheSlot) :
    Calm sb f Any (namexLoop sb devsw parent path ip) (own ip)
      (fun r => held (r.map Prod.fst)) fun _ => Any := by
  induction path generalizing ip with
  | nil =>
    unfold namexLoop
    split_ifs
    · apply Calm.bind (iput_calm ip)
      intro _
      exact Calm.pure (fun _ => rfl) fun _ h => h
    · exact Calm.pure (fun _ => rfl) fun _ h => h
  | cons name path ih =>
    unfold namexLoop
    apply Calm.bind ((ilock_calm ip).keeps (own ip))
    intro _
    apply Calm.bind ((inode_calm ip).keeps (own ip))
    intro entry
    split_ifs
    · exact (put_return_calm ip _ fun _ => rfl).pre fun _ _ => trivial
    · apply Calm.bind (((iunlock_calm ip).keeps (own ip)).pre fun _ _ => trivial)
      intro _
      exact Calm.pure (fun _ => rfl) fun _ h => h
    · apply Calm.bind (((dirlookup_calm ip name).frame (own ip)
        fun i => (Nat.zero_add _).symm).pre fun _ h => h.1)
      intro r
      cases r with
      | none => exact (put_return_calm ip _ fun _ => rfl).congr (fun i => Nat.zero_add _) fun _ _ => rfl
      | some next =>
        -- The directory is put, and the next inode is held.
        apply Calm.bind ((iunlockput_calm ip).frame (own next.1) fun i => Nat.add_comm _ _)
        intro _
        exact (ih next.1).congr (fun i => Nat.zero_add _) fun _ _ => rfl

theorem namex_calm (hroot : ROOTINO < sb.ninodes) (hcwd : 0 < f cwd) (path : List Byte)
    (parent : Bool) : Calm sb f Any (namex sb devsw cwd path parent) nil
      (fun r => held (r.map Prod.fst)) fun _ => Any := by
  have hstart : Calm sb f Any (namexStart cwd path) nil own fun _ => Any := by
    unfold namexStart
    split_ifs
    · exact iget_calm hroot
    · apply Calm.bind (idup_calm cwd hcwd)
      intro _
      exact Calm.pure (fun _ => rfl) fun _ h => h
  exact hstart.bind fun ip => namexLoop_calm parent (elems path) ip

theorem namei_calm (hroot : ROOTINO < sb.ninodes) (hcwd : 0 < f cwd) (path : List Byte) :
    Calm sb f Any (namei sb devsw cwd path) nil held fun _ => Any := by
  apply Calm.bind (namex_calm hroot hcwd path false)
  intro r
  exact Calm.pure (fun _ => rfl) fun _ h => h

theorem nameiparent_calm (hroot : ROOTINO < sb.ninodes) (hcwd : 0 < f cwd) (path : List Byte) :
    Calm sb f Any (nameiparent sb devsw cwd path) nil (fun r => held (r.map Prod.fst))
      fun _ => Any := namex_calm hroot hcwd path true

/-! ### sysfile.c -/

theorem redirect_calm (hroot : ROOTINO < sb.ninodes) (hcwd : 0 < f cwd) (turns : Nat)
    (ip : CacheSlot) :
    Calm sb f Any (redirect sb devsw cwd turns ip) (own ip) held fun _ => Any := by
  induction turns generalizing ip with
  | zero =>
    apply Calm.bind ((inode_calm ip).keeps (own ip))
    intro entry
    split_ifs
    · exact Calm.fail _
    · exact Calm.pure (fun _ => rfl) fun _ h => h.1
  | succ turns ih =>
    apply Calm.bind ((inode_calm ip).keeps (own ip))
    intro entry
    split_ifs
    · apply Calm.bind (((namei_calm hroot (Nat.lt_of_lt_of_le hcwd (Nat.le_add_left _ _))
        _).frame (own ip) fun i => (Nat.zero_add _).symm).pre fun _ h => h.1)
      intro r
      cases r with
      | none =>
        exact (put_return_calm ip _ fun _ => rfl).congr (fun i => Nat.zero_add _) fun _ _ => rfl
      | some rp =>
        apply Calm.bind ((iunlockput_calm ip).frame (own rp) fun i => Nat.add_comm _ _)
        intro _
        apply Calm.bind (((ilock_calm rp).keeps (own rp)).congr (fun i => Nat.zero_add _)
          fun _ _ => rfl)
        intro _
        exact (ih rp).pre fun _ _ => trivial
    · exact Calm.pure (fun _ => rfl) fun _ h => h.1

theorem openable_calm (omode : Nat) (ip : CacheSlot) :
    Calm sb f Any (openable sb omode ip) (own ip) held fun _ => Any := by
  apply Calm.bind ((inode_calm ip).keeps (own ip))
  intro entry
  split_ifs
  · exact (put_return_calm ip _ fun _ => rfl).pre fun _ _ => trivial
  · exact Calm.pure (fun _ => rfl) fun _ h => h.1

/-- `sys_open` and `sys_lsopen` of a path that is there. -/
theorem found_calm (hroot : ROOTINO < sb.ninodes) (hcwd : 0 < f cwd) (path : List Byte)
    {q : CacheSlot → Call (Option CacheSlot)}
    (hq : ∀ ip, Calm sb f Any (q ip) (own ip) held fun _ => Any) :
    Calm sb f Any (do
      match ← namei sb devsw cwd path with
      | none => pure none
      | some ip => do
        ilock sb ip
        q ip : Call (Option CacheSlot)) nil held fun _ => Any := by
  apply Calm.bind (namei_calm hroot hcwd path)
  intro r
  cases r with
  | none => exact Calm.pure (fun _ => rfl) fun _ h => h
  | some ip =>
    apply Calm.bind ((ilock_calm ip).keeps (own ip))
    intro _
    exact (hq ip).pre fun _ _ => trivial

theorem chdirInode_calm (hroot : ROOTINO < sb.ninodes) (path : List Byte) :
    Calm sb f Any (chdirInode sb devsw cwd path) (own cwd) (fun r => own (r.getD cwd))
      fun _ => Any := by
  have hcwd : 0 < own cwd cwd + f cwd := by
    have hone : own cwd cwd = 1 := if_pos rfl
    omega
  apply Calm.bind ((namei_calm hroot hcwd path).frame (own cwd) fun i => (Nat.zero_add _).symm)
  intro r
  cases r with
  | none => exact Calm.pure (fun i => Nat.zero_add _) fun _ h => h
  | some ip =>
    apply Calm.bind ((ilock_calm ip).keeps _)
    intro _
    apply Calm.bind ((inode_calm ip).keeps _)
    intro entry
    split_ifs
    · apply Calm.bind (((iunlockput_calm ip).frame (own cwd) fun _ => rfl).pre fun _ _ => trivial)
      intro _
      exact Calm.pure (fun i => Nat.zero_add _) fun _ h => h
    · apply Calm.bind (((iunlock_calm ip).keeps _).pre fun _ _ => trivial)
      intro _
      apply Calm.bind ((iput_calm cwd).frame (own ip) fun i => Nat.add_comm _ _)
      intro _
      exact Calm.pure (fun i => Nat.zero_add _) fun _ h => h

end Call

end Xv6.Fs
