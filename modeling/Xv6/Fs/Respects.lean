import Xv6.Fs.Holders

/-!
# Relations that every call keeps (project3/fs.c, sysfile.c)

A relation between states of the inode cache that the functions on single entries keep is kept by
every call, since the calls are made of them. Only `sys_slink` does more: it assigns the path.
-/

namespace Xv6.Fs
open Code

/-- Kept when inodes are unlocked and put. -/
structure Puts (sb : Superblock) (R : Kernel → Kernel → Prop) : Prop where
  refl : ∀ k, R k k
  trans : ∀ k k1 k2, R k k1 → R k1 k2 → R k k2
  iunlock : ∀ ip, Steps R (Call.iunlock ip)
  iput : ∀ ip, Steps R (Call.iput sb ip)

/-- Kept by the functions on single entries. -/
structure Respects (sb : Superblock) (R : Kernel → Kernel → Prop) : Prop where
  refl : ∀ k, R k k
  trans : ∀ k k1 k2, R k k1 → R k1 k2 → R k k2
  entry : ∀ {α : Type} (ip : CacheSlot) (p : Inode → Op (α × Inode)),
    (∀ entry, (p entry).All fun r => entry.Keeps r.2) → Steps R (Call.onInode ip p)
  disk : ∀ {α : Type} (p : Op α), Steps R (Call.onDisk p)
  iget : ∀ inum, Steps R (Call.iget inum)
  idup : ∀ ip, Steps R (Call.idup ip)
  iput : ∀ ip, Steps R (Call.iput sb ip)
  assign : ∀ ip a, (∀ old, a ≠ .slink old) → Steps R (Call.assign sb ip a)

variable {sb : Superblock} {devsw : Fin NDEV → Devsw} {R : Kernel → Kernel → Prop}

/-! ### Calls on files and processes -/

/-- The relation between the inode caches. -/
def Inside (R : Kernel → Kernel → Prop) (s t : Sys) : Prop := R s.kernel t.kernel

theorem steps_kernel {α : Type} {p : Call α} (hp : Steps R p) :
    Steps (Inside R) (Syscall.kernel p) := by
  intro s a t hrun
  obtain ⟨k, hk, rfl⟩ := lift_eq_ok.mp hrun
  exact hp s.kernel a k hk

theorem steps_inside {α : Type} {cur : Fin NPROC} {p : CacheSlot → Call α}
    (hp : ∀ cwd, Steps R (p cwd)) : Steps (Inside R) (Syscall.inside cur p) := by
  intro s a t hrun
  exact steps_kernel (hp (Syscall.cwd cur s)) s a t hrun

theorem filealloc_kernel : Steps (fun s t : Sys => t.kernel = s.kernel) Syscall.filealloc := by
  intro s a t hrun
  unfold Syscall.filealloc at hrun
  split at hrun
  · cases hrun
    rfl
  · cases hrun
    rfl

theorem filedup_kernel (f : Fin NFILE) :
    Steps (fun s t : Sys => t.kernel = s.kernel) (Syscall.filedup f) := by
  intro s a t hrun
  unfold Syscall.filedup at hrun
  split at hrun
  · cases hrun
  · cases hrun
    rfl

theorem filedrop_kernel (f : Fin NFILE) :
    Steps (fun s t : Sys => t.kernel = s.kernel) (Syscall.filedrop f) := by
  intro s a t hrun
  unfold Syscall.filedrop at hrun
  split at hrun
  · cases hrun
  · split at hrun
    · cases hrun
      rfl
    · cases hrun
      rfl

theorem fdalloc_kernel (cur : Fin NPROC) (f : Fin NFILE) :
    Steps (fun s t : Sys => t.kernel = s.kernel) (Syscall.fdalloc cur f) := by
  intro s a t hrun
  unfold Syscall.fdalloc at hrun
  split at hrun
  · cases hrun
    rfl
  · cases hrun
    rfl

theorem set_kernel {f : Sys → Sys} (hf : ∀ s, (f s).kernel = s.kernel) :
    Steps (fun s t : Sys => t.kernel = s.kernel) (fun s => .ok ((), f s) : Syscall Unit) := by
  intro s a t hrun
  cases hrun
  exact hf s

theorem reap_kernel (p : Fin NPROC) :
    Steps (fun s t : Sys => t.kernel = s.kernel) (Syscall.reap p) := by
  intro s a t hrun
  unfold Syscall.reap at hrun
  split at hrun
  · cases hrun
    rfl
  · cases hrun
    rfl

theorem dupFiles_kernel (cur np : Fin NPROC) (fds : List (Fin NOFILE)) :
    Steps (fun s t : Sys => t.kernel = s.kernel) (Syscall.dupFiles cur np fds) := by
  have hrefl : ∀ s : Sys, s.kernel = s.kernel := fun _ => rfl
  have htrans : ∀ s t u : Sys, t.kernel = s.kernel → u.kernel = t.kernel → u.kernel = s.kernel :=
    fun _ _ _ h h' => h'.trans h
  induction fds with
  | nil => exact Steps.pure hrefl _
  | cons fd fds ih =>
    intro s a t hrun
    obtain ⟨s1, s2, hget, hrest⟩ := bind_eq_ok.mp hrun
    cases hget
    cases hfd : (s.proc cur).ofile fd with
    | none =>
      rw [hfd] at hrest
      exact ih s a t hrest
    | some f =>
      rw [hfd] at hrest
      have hdup : Steps (fun s t : Sys => t.kernel = s.kernel) (do
          Syscall.filedup f
          Code.modify fun s => s.setOfile np fd (some f)
          Syscall.dupFiles cur np fds : Syscall Unit) := by
        apply Steps.bind htrans (filedup_kernel f)
        intro _
        exact Steps.bind htrans (set_kernel fun _ => rfl) fun _ => ih
      exact hdup s a t hrest

namespace Puts

variable (h : Puts sb R)
include h

theorem sysPure {α : Type} (a : α) : Steps (Inside R) (Pure.pure a : Syscall α) :=
  Steps.pure (fun s => h.refl s.kernel) a

theorem sysBind {α β : Type} {p : Syscall α} {k : α → Syscall β} (hp : Steps (Inside R) p)
    (hk : ∀ a, Steps (Inside R) (k a)) : Steps (Inside R) (p >>= k) :=
  Steps.bind (fun s t u => h.trans s.kernel t.kernel u.kernel) hp hk

theorem outside {α : Type} {p : Syscall α} (hp : Steps (fun s t => t.kernel = s.kernel) p) :
    Steps (Inside R) p := by
  intro s a t hrun
  unfold Inside
  rw [hp s a t hrun]
  exact h.refl s.kernel

theorem iunlockput (ip : CacheSlot) : Steps R (Call.iunlockput sb ip) :=
  Steps.bind h.trans (h.iunlock ip) fun _ => h.iput ip

theorem fileclose (f : Fin NFILE) : Steps (Inside R) (Syscall.fileclose sb f) := by
  apply h.sysBind (h.outside (filedrop_kernel f))
  intro r
  cases r with
  | none => exact h.sysPure _
  | some ip => exact steps_kernel (h.iput ip)

theorem openFile (cur : Fin NPROC) (ip : CacheSlot) (omode : Nat) :
    Steps (Inside R) (Syscall.openFile sb cur ip omode) := by
  apply h.sysBind (h.outside filealloc_kernel)
  intro r
  cases r with
  | none => exact h.sysBind (steps_kernel (h.iunlockput ip)) fun _ => h.sysPure _
  | some f =>
    apply h.sysBind (h.outside (fdalloc_kernel cur f))
    intro r
    cases r with
    | none =>
      apply h.sysBind (h.fileclose f)
      intro _
      exact h.sysBind (steps_kernel (h.iunlockput ip)) fun _ => h.sysPure _
    | some fd =>
      apply h.sysBind (steps_kernel (h.iunlock ip))
      intro _
      have hset : Steps (fun s t : Sys => t.kernel = s.kernel)
          (Syscall.setInodeFile f ip omode) := set_kernel fun _ => rfl
      exact h.sysBind (h.outside hset) fun _ => h.sysPure _

theorem opened {cur : Fin NPROC} {p : CacheSlot → Call (Option CacheSlot)} (omode : Nat)
    (hp : ∀ cwd, Steps R (p cwd)) : Steps (Inside R) (do
      match ← Syscall.inside cur p with
      | none => Pure.pure (-1)
      | some ip => Syscall.openFile sb cur ip omode : Syscall Int) := by
  apply h.sysBind (steps_inside hp)
  intro r
  cases r with
  | none => exact h.sysPure _
  | some ip => exact h.openFile cur ip omode

theorem sysClose (cur : Fin NPROC) (fd : Int) : Steps (Inside R) (Syscall.sysClose sb cur fd) := by
  intro s a t hrun
  unfold Syscall.sysClose at hrun
  cases hfd : Syscall.argfd cur fd s with
  | none =>
    rw [hfd] at hrun
    cases hrun
    exact h.refl _
  | some r =>
    rw [hfd] at hrun
    dsimp only at hrun
    cases hclose : Syscall.fileclose sb r.2 (s.setOfile cur r.1 none) with
    | error e =>
      rw [hclose] at hrun
      cases hrun
    | ok q =>
      rw [hclose] at hrun
      cases hrun
      exact h.fileclose r.2 (s.setOfile cur r.1 none) q.1 q.2 hclose

theorem sysDup (cur : Fin NPROC) (fd : Int) : Steps (Inside R) (Syscall.sysDup cur fd) := by
  intro s a t hrun
  unfold Syscall.sysDup at hrun
  cases hfd : Syscall.argfd cur fd s with
  | none =>
    rw [hfd] at hrun
    cases hrun
    exact h.refl _
  | some r =>
    rw [hfd] at hrun
    have hdup : Steps (Inside R) (Syscall.dupFile cur r.2) := by
      apply h.sysBind (h.outside (fdalloc_kernel cur r.2))
      intro found
      cases found with
      | none => exact h.sysPure _
      | some fd => exact h.sysBind (h.outside (filedup_kernel r.2)) fun _ => h.sysPure _
    exact hdup s a t hrun

theorem closeFiles (cur : Fin NPROC) (fds : List (Fin NOFILE)) :
    Steps (Inside R) (Syscall.closeFiles sb cur fds) := by
  induction fds with
  | nil => exact h.sysPure _
  | cons fd fds ih =>
    intro s a t hrun
    obtain ⟨s1, s2, hget, hrest⟩ := bind_eq_ok.mp hrun
    cases hget
    cases hfd : (s.proc cur).ofile fd with
    | none =>
      rw [hfd] at hrest
      exact ih s a t hrest
    | some f =>
      rw [hfd] at hrest
      have hclose : Steps (Inside R) (do
          Syscall.fileclose sb f
          Code.modify fun s => s.setOfile cur fd none
          Syscall.closeFiles sb cur fds : Syscall Unit) := by
        apply h.sysBind (h.fileclose f)
        intro _
        exact h.sysBind (h.outside (set_kernel fun _ => rfl)) fun _ => ih
      exact hclose s a t hrest

theorem exit (cur : Fin NPROC) : Steps (Inside R) (Syscall.exit sb cur) := by
  intro s a t hrun
  have hleave : ∀ ip, Steps (Inside R) (Syscall.leave sb cur ip) := by
    intro ip
    apply h.sysBind (h.closeFiles cur _)
    intro _
    exact h.sysBind (steps_kernel (h.iput ip)) fun _ => h.outside (set_kernel fun _ => rfl)
  unfold Syscall.exit at hrun
  split at hrun
  · cases hrun
  · exact hleave _ s a t hrun

end Puts

namespace Respects

open Call

variable (h : Respects sb R)
include h

theorem pure {α : Type} (a : α) : Steps R (Pure.pure a : Call α) := Steps.pure h.refl a

theorem bind {α β : Type} {p : Call α} {k : α → Call β} (hp : Steps R p)
    (hk : ∀ a, Steps R (k a)) : Steps R (p >>= k) := Steps.bind h.trans hp hk

theorem inode (ip : CacheSlot) : Steps R (Call.inode ip) := by
  intro k a k' hrun
  cases hrun
  exact h.refl k

theorem update (ip : CacheSlot) {p : Inode → Op Inode}
    (hp : ∀ entry, (p entry).All fun entry' => entry.Keeps entry') : Steps R (Call.update ip p) := by
  apply h.entry
  intro entry
  apply (hp entry).bind
  intro entry' hkeeps
  exact Op.All.pure hkeeps

theorem ilock (ip : CacheSlot) : Steps R (Call.ilock sb ip) := h.update ip ilock_all

theorem iunlock (ip : CacheSlot) : Steps R (Call.iunlock ip) := h.update ip iunlock_all

theorem puts : Puts sb R := ⟨h.refl, h.trans, h.iunlock, h.iput⟩

theorem iunlockput (ip : CacheSlot) : Steps R (Call.iunlockput sb ip) := h.puts.iunlockput ip

theorem put_return {α : Type} (ip : CacheSlot) (a : α) :
    Steps R (Call.iunlockput sb ip >>= fun _ => Pure.pure a) :=
  h.bind (h.iunlockput ip) fun _ => h.pure a

theorem writei (ip : CacheSlot) (src : List Byte) (off : Nat) :
    Steps R (Call.writei sb devsw ip src off) :=
  h.entry ip _ fun entry => writei_all entry _ _ _

theorem ialloc (type : BitVec 16) : Steps R (Call.ialloc sb type) :=
  h.bind (h.disk _) h.iget

/-! ### Directories and paths -/

theorem dirlookup (dp : CacheSlot) (name : List Byte) :
    Steps R (Call.dirlookup sb devsw dp name) := by
  apply h.bind (h.entry dp _ fun entry => dirlookup_all entry name)
  intro found
  cases found with
  | none => exact h.pure _
  | some r =>
    apply h.bind (h.iget r.1)
    intro ip
    exact h.pure _

theorem dirlink (dp : CacheSlot) (name : List Byte) (inum : Nat) :
    Steps R (Call.dirlink sb devsw dp name inum) := by
  apply h.bind (h.dirlookup dp name)
  intro r
  cases r with
  | some found =>
    apply h.bind (h.iput found.1)
    intro _
    exact h.pure _
  | none =>
    apply h.bind (h.entry dp _ fun entry => emptyDirentLoop_all entry _)
    intro off
    apply h.bind (h.writei dp _ off)
    intro n
    split_ifs
    · exact Steps.fail _
    · exact h.pure _

theorem namexLoop (parent : Bool) (path : List (List Byte)) (ip : CacheSlot) :
    Steps R (Call.namexLoop sb devsw parent path ip) := by
  induction path generalizing ip with
  | nil =>
    unfold Call.namexLoop
    split_ifs
    · exact h.bind (h.iput ip) fun _ => h.pure _
    · exact h.pure _
  | cons name path ih =>
    unfold Call.namexLoop
    apply h.bind (h.ilock ip)
    intro _
    apply h.bind (h.inode ip)
    intro entry
    split_ifs
    · exact h.put_return ip _
    · exact h.bind (h.iunlock ip) fun _ => h.pure _
    · apply h.bind (h.dirlookup ip name)
      intro r
      cases r with
      | none => exact h.put_return ip _
      | some next => exact h.bind (h.iunlockput ip) fun _ => ih next.1

theorem namexStart (cwd : CacheSlot) (path : List Byte) : Steps R (Call.namexStart cwd path) := by
  unfold Call.namexStart
  split_ifs
  · exact h.iget ROOTINO
  · exact h.bind (h.idup cwd) fun _ => h.pure _

theorem namex (cwd : CacheSlot) (path : List Byte) (parent : Bool) :
    Steps R (Call.namex sb devsw cwd path parent) :=
  h.bind (h.namexStart cwd path) fun ip => h.namexLoop parent (elems path) ip

theorem namei (cwd : CacheSlot) (path : List Byte) : Steps R (Call.namei sb devsw cwd path) :=
  h.bind (h.namex cwd path false) fun _ => h.pure _

theorem nameiparent (cwd : CacheSlot) (path : List Byte) :
    Steps R (Call.nameiparent sb devsw cwd path) := h.namex cwd path true

/-! ### sysfile.c -/

theorem linkBad (ip : CacheSlot) : Steps R (Call.linkBad sb ip) := by
  apply h.bind (h.ilock ip)
  intro _
  apply h.bind (h.assign ip _ fun old => Assign.noConfusion)
  intro _
  exact h.put_return ip _

theorem sysLink (cwd : CacheSlot) (old new : List Byte) :
    Steps R (Call.sysLink sb devsw cwd old new) := by
  apply h.bind (h.namei cwd old)
  intro r
  cases r with
  | none => exact h.pure _
  | some ip =>
    apply h.bind (h.ilock ip)
    intro _
    apply h.bind (h.inode ip)
    intro entry
    split_ifs
    · exact h.put_return ip _
    · apply h.bind (h.assign ip _ fun old => Assign.noConfusion)
      intro _
      apply h.bind (h.iunlock ip)
      intro _
      apply h.bind (h.nameiparent cwd new)
      intro r
      cases r with
      | none => exact h.linkBad ip
      | some dp =>
        apply h.bind (h.ilock dp.1)
        intro _
        apply h.bind (h.dirlink dp.1 dp.2 entry.inum)
        intro n
        split_ifs
        · exact h.bind (h.iunlockput dp.1) fun _ => h.linkBad ip
        · apply h.bind (h.iunlockput dp.1)
          intro _
          exact h.bind (h.iput ip) fun _ => h.pure _

theorem unlinkParent (dp : CacheSlot) (entry : Inode) :
    Steps R (Call.unlinkParent sb dp entry) := by
  unfold Call.unlinkParent
  split_ifs
  · exact h.assign dp _ fun old => Assign.noConfusion
  · exact h.pure _

theorem sysUnlink (cwd : CacheSlot) (path : List Byte) :
    Steps R (Call.sysUnlink sb devsw cwd path) := by
  apply h.bind (h.nameiparent cwd path)
  intro r
  cases r with
  | none => exact h.pure _
  | some r =>
    obtain ⟨dp, name⟩ := r
    apply h.bind (h.ilock dp)
    intro _
    split_ifs
    · exact h.put_return dp _
    · apply h.bind (h.dirlookup dp name)
      intro r
      cases r with
      | none => exact h.put_return dp _
      | some r =>
        obtain ⟨ip, off⟩ := r
        apply h.bind (h.ilock ip)
        intro _
        apply h.bind (h.inode ip)
        intro entry
        split_ifs
        · exact Steps.fail _
        · apply h.bind (h.entry ip _ fun entry => unlinkRefuses_all entry)
          intro refused
          split_ifs
          · exact h.bind (h.iunlockput ip) fun _ => h.put_return dp _
          · apply h.bind (h.writei dp _ off)
            intro n
            split_ifs
            · exact Steps.fail _
            · apply h.bind (h.unlinkParent dp entry)
              intro _
              apply h.bind (h.iunlockput dp)
              intro _
              apply h.bind (h.assign ip _ fun old => Assign.noConfusion)
              intro _
              exact h.put_return ip _

theorem createDots (type : BitVec 16) (dp ip : CacheSlot) :
    Steps R (Call.createDots sb devsw type dp ip) := by
  unfold Call.createDots
  split_ifs
  · apply h.bind (h.assign dp _ fun old => Assign.noConfusion)
    intro _
    apply h.bind (h.inode ip)
    intro child
    apply h.bind (h.inode dp)
    intro parent
    apply h.bind (h.dirlink ip _ _)
    intro r
    split_ifs
    · exact Steps.fail _
    · apply h.bind (h.dirlink ip _ _)
      intro r
      split_ifs
      · exact Steps.fail _
      · exact h.pure _
  · exact h.pure _

theorem create (cwd : CacheSlot) (path : List Byte) (type major minor : BitVec 16) :
    Steps R (Call.create sb devsw cwd path type major minor) := by
  apply h.bind (h.nameiparent cwd path)
  intro r
  cases r with
  | none => exact h.pure _
  | some r =>
    obtain ⟨dp, name⟩ := r
    apply h.bind (h.ilock dp)
    intro _
    apply h.bind (h.dirlookup dp name)
    intro r
    cases r with
    | some found =>
      apply h.bind (h.iunlockput dp)
      intro _
      apply h.bind (h.ilock found.1)
      intro _
      apply h.bind (h.inode found.1)
      intro entry
      split_ifs
      · exact h.pure _
      · exact h.put_return found.1 _
    | none =>
      apply h.bind (h.ialloc type)
      intro ip
      apply h.bind (h.ilock ip)
      intro _
      apply h.bind (h.assign ip _ fun old => Assign.noConfusion)
      intro _
      apply h.bind (h.createDots type dp ip)
      intro _
      apply h.bind (h.inode ip)
      intro entry
      apply h.bind (h.dirlink dp name entry.inum)
      intro r
      split_ifs
      · exact Steps.fail _
      · exact h.bind (h.iunlockput dp) fun _ => h.pure _

theorem redirect (cwd : CacheSlot) (turns : Nat) (ip : CacheSlot) :
    Steps R (Call.redirect sb devsw cwd turns ip) := by
  induction turns generalizing ip with
  | zero =>
    apply h.bind (h.inode ip)
    intro entry
    split_ifs
    · exact Steps.fail _
    · exact h.pure _
  | succ turns ih =>
    apply h.bind (h.inode ip)
    intro entry
    split_ifs
    · apply h.bind (h.namei cwd _)
      intro r
      cases r with
      | none => exact h.put_return ip _
      | some rp =>
        apply h.bind (h.iunlockput ip)
        intro _
        exact h.bind (h.ilock rp) fun _ => ih rp
    · exact h.pure _

theorem openable (omode : Nat) (ip : CacheSlot) : Steps R (Call.openable sb omode ip) := by
  apply h.bind (h.inode ip)
  intro entry
  split_ifs
  · exact h.put_return ip _
  · exact h.pure _

theorem openInode (turns : Nat) (cwd : CacheSlot) (path : List Byte) (omode : Nat) :
    Steps R (Call.openInode sb devsw turns cwd path omode) := by
  unfold Call.openInode
  split_ifs
  · exact h.create cwd path _ _ _
  · apply h.bind (h.namei cwd path)
    intro r
    cases r with
    | none => exact h.pure _
    | some ip =>
      apply h.bind (h.ilock ip)
      intro _
      apply h.bind (h.redirect cwd turns ip)
      intro r
      cases r with
      | none => exact h.pure _
      | some rp => exact h.openable omode rp

theorem lsopenInode (cwd : CacheSlot) (path : List Byte) (omode : Nat) :
    Steps R (Call.lsopenInode sb devsw cwd path omode) := by
  unfold Call.lsopenInode
  split_ifs
  · exact h.create cwd path _ _ _
  · apply h.bind (h.namei cwd path)
    intro r
    cases r with
    | none => exact h.pure _
    | some ip => exact h.bind (h.ilock ip) fun _ => h.openable omode ip

theorem make (cwd : CacheSlot) (path : List Byte) (type major minor : BitVec 16) :
    Steps R (Call.make sb devsw cwd path type major minor) := by
  apply h.bind (h.create cwd path type major minor)
  intro r
  cases r with
  | none => exact h.pure _
  | some ip => exact h.put_return ip _

theorem chdirInode (cwd : CacheSlot) (path : List Byte) :
    Steps R (Call.chdirInode sb devsw cwd path) := by
  apply h.bind (h.namei cwd path)
  intro r
  cases r with
  | none => exact h.pure _
  | some ip =>
    apply h.bind (h.ilock ip)
    intro _
    apply h.bind (h.inode ip)
    intro entry
    split_ifs
    · exact h.put_return ip _
    · apply h.bind (h.iunlock ip)
      intro _
      exact h.bind (h.iput cwd) fun _ => h.pure _

/-! ### Calls of processes -/

theorem sysChdir (cur : Fin NPROC) (path : List Byte) :
    Steps (Inside R) (Syscall.sysChdir sb devsw cur path) := by
  apply h.puts.sysBind (steps_inside fun cwd => h.chdirInode cwd path)
  intro r
  cases r with
  | none => exact h.puts.sysPure _
  | some ip => exact h.puts.sysBind (h.puts.outside (set_kernel fun _ => rfl)) fun _ => h.puts.sysPure _

theorem fork (mem : Bool) (cur : Fin NPROC) : Steps (Inside R) (Syscall.fork mem cur) := by
  intro s a t hrun
  have hinto : ∀ np ip, Steps (Inside R) (Syscall.forkInto cur np ip) := by
    intro np ip
    apply h.puts.sysBind (h.puts.outside (dupFiles_kernel cur np _))
    intro _
    apply h.puts.sysBind (steps_kernel (h.idup ip))
    intro _
    exact h.puts.sysBind (h.puts.outside (set_kernel fun _ => rfl)) fun _ => h.puts.sysPure _
  unfold Syscall.fork at hrun
  split at hrun
  · cases hrun
    exact h.refl _
  · next np _ =>
    split at hrun
    · exact hinto np _ s a t hrun
    · cases hrun
      exact h.refl _

/-- Every system call but `slink` keeps the relation. -/
theorem step {s t : Sys} {cur : Fin NPROC} {a : SysAction} (ha : ∀ old new, a ≠ .slink old new)
    (hrun : s.step sb devsw (cur, a) = some t) : R s.kernel t.kernel := by
  obtain ⟨-, hrun⟩ := Option.ite_none_right_eq_some.mp hrun
  dsimp only at hrun
  cases a with
  | «open» path omode turns =>
    obtain ⟨r, hr⟩ := after_eq_some hrun
    exact h.puts.opened omode (fun cwd => h.openInode turns cwd path omode) s r t hr
  | lsopen path omode =>
    obtain ⟨r, hr⟩ := after_eq_some hrun
    exact h.puts.opened omode (fun cwd => h.lsopenInode cwd path omode) s r t hr
  | close fd =>
    obtain ⟨r, hr⟩ := after_eq_some hrun
    exact h.puts.sysClose cur fd s r t hr
  | dup fd =>
    obtain ⟨r, hr⟩ := after_eq_some hrun
    exact h.puts.sysDup cur fd s r t hr
  | fork mem =>
    obtain ⟨r, hr⟩ := after_eq_some hrun
    exact h.fork mem cur s r t hr
  | exit =>
    obtain ⟨r, hr⟩ := after_eq_some hrun
    exact h.puts.exit cur s r t hr
  | reap p =>
    obtain ⟨r, hr⟩ := after_eq_some hrun
    exact h.puts.outside (reap_kernel p) s r t hr
  | chdir path =>
    obtain ⟨r, hr⟩ := after_eq_some hrun
    exact h.sysChdir cur path s r t hr
  | link old new =>
    obtain ⟨r, hr⟩ := after_eq_some hrun
    exact steps_inside (fun cwd => h.sysLink cwd old new) s r t hr
  | slink old new => exact absurd rfl (ha old new)
  | unlink path =>
    obtain ⟨r, hr⟩ := after_eq_some hrun
    exact steps_inside (fun cwd => h.sysUnlink cwd path) s r t hr
  | mkdir path =>
    obtain ⟨r, hr⟩ := after_eq_some hrun
    exact steps_inside (fun cwd => h.make cwd path _ _ _) s r t hr
  | mknod path major minor =>
    obtain ⟨r, hr⟩ := after_eq_some hrun
    exact steps_inside (fun cwd => h.make cwd path _ _ _) s r t hr

end Respects

end Xv6.Fs
