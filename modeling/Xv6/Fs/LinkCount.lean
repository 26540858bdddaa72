import Xv6.Fs.ImageTree
import Xv6.Fs.Panics
import Xv6.Fs.Respects

/-!
# Counts of links in every run (project3/sysfile.c:118-285)

Between system calls `nlink` is the number of entries that name an inode in the directories
that the root directory reaches, as long as no entry is made in a directory that has been
removed, and no count passes its largest value.
-/

namespace Xv6.Fs
open Code Transition

namespace Tree

/-- The directories that the root directory reaches. -/
inductive Reaches (t : Tree) : Nat → Prop where
  | root : Reaches t ROOTINO
  | entry (d : Nat) (e : Dirent) : Reaches t d → e ∈ t.dirents d → e.inum ≠ 0 →
      t.type e.inum.toNat = T_DIR → Reaches t e.inum.toNat

open Classical in
/-- The entries that name inode `i` in directories that the root directory reaches, apart from
its own ".". -/
noncomputable def linkCount (n : Nat) (t : Tree) (i : Nat) : Nat :=
  ∑ d ∈ Finset.range n, if t.Reaches d then (t.dirents d).countP (names d i) else 0

variable {n d : Nat} {t : Tree}

namespace Law

/-- ".." of a directory that has not been removed names another one. -/
theorem live_parent (h : Law n t) (hr : Ranged n t) (hl : t.Live d) : t.Live (t.parent d) := by
  cases h.linked_cases hr hl with
  | inl hd =>
    rw [hd, h.root.2]
    exact h.root.1
  | inr hsome =>
    obtain ⟨c, o, hc, -, -, -, hp⟩ := hsome
    rw [hp]
    exact hc

/-- The root directory reaches the directories that have not been removed. -/
theorem reaches_iff (h : Law n t) (hr : Ranged n t) : t.Reaches d ↔ t.Live d := by
  constructor
  · intro hd
    induction hd with
    | root => exact h.root.1
    | entry d e _ he hne htype ih =>
      obtain ⟨s, u, hdir, hs, -, -, -, hu⟩ := h.dirents_eq ih.1
      rw [hdir] at he
      cases he with
      | head =>
        rw [hs]
        exact ih
      | tail _ he =>
        cases he with
        | head =>
          rw [hu]
          exact h.live_parent hr ih
        | tail _ he =>
          exact h.live_of_linked hr (Linked.child d e (h.linked d ih) he hne htype)
  · intro hl
    have hlinked := h.linked d hl
    clear hl
    induction hlinked with
    | root => exact Reaches.root
    | child d e _ he hne htype ih => exact Reaches.entry d e ih (mem_rest t he) hne htype

theorem linkCount_eq (h : Law n t) (hr : Ranged n t) (i : Nat) :
    t.linkCount n i = t.count n i := by
  unfold linkCount count
  apply Finset.sum_congr rfl
  intro d _
  by_cases hd : t.Live d
  · rw [if_pos hd, if_pos ((h.reaches_iff hr).mpr hd)]
  · rw [if_neg hd, if_neg fun hreach => hd ((h.reaches_iff hr).mp hreach)]

end Law

end Tree

variable {sb : Superblock} {devsw : Fin NDEV → Devsw} {s s' : Sys} {k k' : Kernel}
  {cur : Fin NPROC} {a : SysAction}

theorem inside_eq_ok {α : Type} {p : CacheSlot → Call α} {r : α} :
    Syscall.inside cur p s = .ok (r, s') ↔
      ∃ k, p (Syscall.cwd cur s) s.kernel = .ok (r, k) ∧ s' = { s with kernel := k } := by
  unfold Syscall.inside Syscall.kernel
  exact lift_eq_ok

theorem inside_eq_error {α : Type} {p : CacheSlot → Call α} {e : Stop} :
    Syscall.inside cur p s = .error e ↔ p (Syscall.cwd cur s) s.kernel = .error e := by
  unfold Syscall.inside Syscall.kernel
  exact lift_eq_error

/-! ### The property -/

/-- `nlink` counts the entries that name an inode, every entry names an inode that is allocated
and that `iput` does not free, and `sys_unlink` does not panic with "unlink: nlink < 1". -/
structure LinksCounted (sb : Superblock) (devsw : Fin NDEV → Devsw) (s : Sys) : Prop where
  nlink : ∀ i, i < sb.ninodes → (dinode sb s.kernel.disk i).type ≠ 0 →
    (dinode sb s.kernel.disk i).nlink.toInt = (tree sb s.kernel.disk).linkCount sb.ninodes i
  named : ∀ d, (tree sb s.kernel.disk).Reaches d → ∀ e ∈ (tree sb s.kernel.disk).dirents d,
    e.inum ≠ 0 → (tree sb s.kernel.disk).type e.inum.toNat ≠ 0
  iput : ∀ ip u k, Call.iput sb ip s.kernel = .ok (u, k) →
    ∀ d, (tree sb s.kernel.disk).Reaches d → ∀ e ∈ (tree sb s.kernel.disk).dirents d,
      e.inum ≠ 0 → (tree sb k.disk).type e.inum.toNat ≠ 0
  check : ∀ cur path, (s.proc cur).state = .live →
    Syscall.inside cur (fun cwd => Call.sysUnlink sb devsw cwd path) s ≠
      .error (.panic .unlinkNlink)

/-- The cache is in order, and the law holds on the disk. -/
def InOrder (sb : Superblock) (k : Kernel) : Prop := ∃ t, Shows sb t k ∧ t.Law sb.ninodes

/-- All references are held by somebody. -/
structure Kept (sb : Superblock) (s : Sys) : Prop where
  held : ∃ extra, Held extra s
  inOrder : InOrder sb s.kernel

theorem Kept.lawful (h : Kept sb s) (hlive : (s.proc cur).state = .live) :
    ∃ t, Call.Lawful sb (Syscall.cwd cur s) t s.kernel := by
  obtain ⟨extra, hheld⟩ := h.held
  obtain ⟨t, hshows, hlaw⟩ := h.inOrder
  exact ⟨t, hshows, hlaw, hheld.one_le hlive⟩

theorem Kept.counted (h : Kept sb s) (hroot : ROOTINO < sb.ninodes) : LinksCounted sb devsw s := by
  obtain ⟨t, hshows, hlaw⟩ := h.inOrder
  have htree := hshows.tree
  refine ⟨?_, ?_, ?_, ?_⟩
  · intro i hi htype
    rw [htree, hlaw.linkCount_eq hshows.ranged]
    have htype' : t.type i ≠ 0 := by
      rw [← htree, tree_type hi]
      exact htype
    have hnlink : t.nlink i = (dinode sb s.kernel.disk i).nlink := by
      rw [← htree, tree_nlink hi]
    obtain ⟨heq, hle⟩ := hlaw.links i htype'
    rw [← hnlink, ← heq]
    exact BitVec.toInt_eq_toNat_of_lt (by omega)
  · intro d hd e he hne
    rw [htree] at hd he ⊢
    exact hlaw.named d ((hlaw.reaches_iff hshows.ranged).mp hd) e he hne
  · intro ip u k hrun d hd e he hne
    rw [htree] at hd he
    have hlive := (hlaw.reaches_iff hshows.ranged).mp hd
    cases (Call.iput_shows hshows hrun).1 with
    | inl hsame =>
      rw [hsame.tree]
      exact hlaw.named d hlive e he hne
    | inr hfree =>
      obtain ⟨-, htype, hzero, hgone⟩ := hfree
      have hd' : d ≠ (s.kernel.icache ip).inum := fun heq => hlive.2 (heq ▸ hzero)
      have hlive' : (t.free (s.kernel.icache ip).inum).Live d := by
        refine ⟨?_, hlive.2⟩
        rw [t.free_type_ne hd']
        exact hlive.1
      rw [hgone.tree]
      apply (hlaw.free hshows.ranged htype hzero).named d hlive' e _ hne
      rw [t.free_dirents_ne hd']
      exact he
  · intro cur path hlive hrun
    obtain ⟨t', hlawful⟩ := h.lawful hlive
    apply @Call.sysUnlink_quiet sb devsw t' s.kernel (Syscall.cwd cur s) path hlawful hroot
    exact inside_eq_error.mp hrun

/-! ### The steps -/

/-- What the process is about to enter goes into a directory that has not been removed, and
there is room for one more link. -/
def LinkRoom (sb : Superblock) (devsw : Fin NDEV → Devsw) (s : Sys) :
    Fin NPROC × SysAction → Prop
  | (cur, .open path omode _) => omode &&& O_CREATE ≠ 0 →
      Call.Enters sb devsw (Syscall.cwd cur s) path (fun k dp => Call.links sb k dp ≠ 0) s.kernel
  | (cur, .lsopen path omode) => omode &&& O_CREATE ≠ 0 →
      Call.Enters sb devsw (Syscall.cwd cur s) path (fun k dp => Call.links sb k dp ≠ 0) s.kernel
  | (cur, .link old new) => ∀ ip k,
      Call.linkOld sb devsw (Syscall.cwd cur s) old s.kernel = .ok (some ip, k) →
      Call.Enters sb devsw (Syscall.cwd cur s) new
        (fun k dp => Call.links sb k dp ≠ 0 ∧ Call.links sb k ip ≠ 32768) k
  | (cur, .slink old new) => ∀ ip k,
      Call.slinkOld sb devsw (Syscall.cwd cur s) old s.kernel = .ok (some ip, k) →
      Call.Enters sb devsw (Syscall.cwd cur s) new (fun k dp => Call.links sb k dp ≠ 0) k
  | (cur, .mkdir path) => Call.Enters sb devsw (Syscall.cwd cur s) path
      (fun k dp => Call.links sb k dp ≠ 0 ∧ Call.links sb k dp ≠ 32767) s.kernel
  | (cur, .mknod path _ _) =>
      Call.Enters sb devsw (Syscall.cwd cur s) path (fun k dp => Call.links sb k dp ≠ 0) s.kernel
  | _ => True

/-- Inodes that are unlocked and put. -/
theorem inOrder_puts (sb : Superblock) : Puts sb fun k k' => InOrder sb k → InOrder sb k' := by
  refine ⟨fun _ h => h, fun _ _ _ h h' hk => h' (h hk), ?_, ?_⟩
  · intro ip k u k' hrun h
    obtain ⟨t, hshows, hlaw⟩ := h
    exact ⟨t, (Call.iunlock_shows hshows hrun).1, hlaw⟩
  · intro ip k u k' hrun h
    obtain ⟨t, hshows, hlaw⟩ := h
    cases (Call.iput_shows hshows hrun).1 with
    | inl hsame => exact ⟨t, hsame, hlaw⟩
    | inr hfree =>
      obtain ⟨-, htype, hzero, hgone⟩ := hfree
      exact ⟨_, hgone, hlaw.free hshows.ranged htype hzero⟩

/-- No call takes references away from others, and `slink` may leave some behind. -/
theorem Held.grows {extra : CacheSlot → Nat} (h : Held extra s)
    (hrun : s.step sb devsw (cur, a) = some s') : ∃ extra', Held extra' s' := by
  by_cases hslink : ∃ old new, a = .slink old new
  · obtain ⟨old, new, rfl⟩ := hslink
    obtain ⟨-, hrun⟩ := Option.ite_none_right_eq_some.mp hrun
    obtain ⟨r, hr⟩ := after_eq_some hrun
    obtain ⟨k, hk, rfl⟩ := inside_eq_ok.mp hr
    refine ⟨fun i => extra i + (Fs.refs k i - Fs.refs s.kernel i), ?_, h.free, h.cwd⟩
    intro i
    have hle := Call.sysSlink_grows hk i
    have hrefs := h.refs i
    show Fs.refs k i = users s i + (extra i + (Fs.refs k i - Fs.refs s.kernel i))
    omega
  · refine ⟨extra, h.step ?_ hrun⟩
    cases a with
    | slink old new => exact absurd ⟨old, new, rfl⟩ hslink
    | _ => trivial

/-- A file is opened: an inode was found or made, and then it is put into the file table. -/
theorem opened_inOrder {p : CacheSlot → Call (Option CacheSlot)} {omode : Nat}
    (hp : ∀ r k, p (Syscall.cwd cur s) s.kernel = .ok (r, k) → InOrder sb k)
    (hrun : SysAction.after (do
      match ← Syscall.inside cur p with
      | none => pure (-1)
      | some ip => Syscall.openFile sb cur ip omode : Syscall Int) s = some s') :
    InOrder sb s'.kernel := by
  obtain ⟨r, hr⟩ := after_eq_some hrun
  obtain ⟨found, s1, hinside, hrest⟩ := bind_eq_ok.mp hr
  obtain ⟨k, hk, rfl⟩ := inside_eq_ok.mp hinside
  have h1 := hp found k hk
  cases found with
  | none =>
    obtain ⟨-, rfl⟩ := pure_eq_ok.mp hrest
    exact h1
  | some ip => exact (inOrder_puts sb).openFile cur ip omode _ r s' hrest h1

theorem inside_inOrder {α : Type} {p : CacheSlot → Call α}
    (hp : ∀ r k, p (Syscall.cwd cur s) s.kernel = .ok (r, k) → InOrder sb k)
    (hrun : SysAction.after (Syscall.inside cur p) s = some s') : InOrder sb s'.kernel := by
  obtain ⟨r, hr⟩ := after_eq_some hrun
  obtain ⟨k, hk, rfl⟩ := inside_eq_ok.mp hr
  exact hp r k hk

/-- `sys_open` and `sys_lsopen` with O_CREATE. -/
theorem create_inOrder {t : Tree} {cwd : CacheSlot} {path : List Byte} {type major minor : BitVec 16}
    {r : Option CacheSlot} (h : Call.Lawful sb cwd t k) (hroot : ROOTINO < sb.ninodes)
    (hshort : sb.ninodes ≤ 65536) (htype : type ≠ 0) (hfile : type ≠ T_DIR)
    (hroom : Call.Enters sb devsw cwd path (fun k dp => Call.links sb k dp ≠ 0) k)
    (hrun : Call.create sb devsw cwd path type major minor k = .ok (r, k')) : InOrder sb k' := by
  obtain ⟨t', hshows, hlaw, -⟩ := Call.create_shows h hroot hshort htype
    (fun dp name k1 hpath hnew => ⟨hroom dp name k1 hpath hnew, fun hdir => absurd hdir hfile⟩) hrun
  exact ⟨t', hshows, hlaw⟩

/-- A path that is there is opened. -/
theorem found_inOrder {t : Tree} {cwd : CacheSlot} {path : List Byte}
    {q : CacheSlot → Call (Option CacheSlot)} {r : Option CacheSlot}
    (h : Call.Lawful sb cwd t k) (hroot : ROOTINO < sb.ninodes)
    (hq : ∀ ip, Calm sb (own cwd) Any (q ip) (own ip) held fun _ => Any)
    (hrun : (do
      match ← Call.namei sb devsw cwd path with
      | none => pure none
      | some ip => do
        Call.ilock sb ip
        q ip : Call (Option CacheSlot)) k = .ok (r, k')) : InOrder sb k' := by
  obtain ⟨t', hlawful, -, -⟩ := h.lookup (Call.found_calm hroot Call.own_self_pos path hq) hrun
  exact ⟨t', hlawful.shows, hlawful.law⟩

theorem chdir_inOrder {t : Tree} {cwd : CacheSlot} {path : List Byte} {r : Option CacheSlot}
    (h : Call.Lawful sb cwd t k) (hroot : ROOTINO < sb.ninodes)
    (hrun : Call.chdirInode sb devsw cwd path k = .ok (r, k')) : InOrder sb k' := by
  have hcalm := @Call.chdirInode_calm sb devsw nil cwd hroot path
  obtain ⟨⟨t', hfrees, hshows⟩, -, -⟩ := hcalm.run t k r k' h.shows trivial h.cover hrun
  exact ⟨t', hshows, (hfrees.law h.law h.shows.ranged).1⟩

theorem fork_inOrder {mem : Bool} {r : Int} {t : Tree}
    (h : Call.Lawful sb (Syscall.cwd cur s) t s.kernel)
    (hrun : Syscall.fork mem cur s = .ok (r, s')) : InOrder sb s'.kernel := by
  have hself : InOrder sb s.kernel := ⟨t, h.shows, h.law⟩
  unfold Syscall.fork at hrun
  split at hrun
  · cases hrun
    exact hself
  · next np _ =>
    split at hrun
    · obtain ⟨u1, s1, hdup, hrun1⟩ := bind_eq_ok.mp hrun
      obtain ⟨u2, s2, hidup, hrun2⟩ := bind_eq_ok.mp hrun1
      obtain ⟨u3, s3, hstart, hpure⟩ := bind_eq_ok.mp hrun2
      obtain ⟨-, rfl⟩ := pure_eq_ok.mp hpure
      cases hstart
      obtain ⟨k, hk, rfl⟩ := lift_eq_ok.mp hidup
      have hsame : s1.kernel = s.kernel := dupFiles_kernel cur np _ s u1 s1 hdup
      rw [hsame] at hk
      obtain ⟨hshows, -, -⟩ := Call.idup_shows h.shows h.cwd hk
      exact ⟨t, hshows, h.law⟩
    · cases hrun
      exact hself

theorem Kept.step (h : Kept sb s) (hroot : ROOTINO < sb.ninodes) (hshort : sb.ninodes ≤ 65536)
    (hok : LinkRoom sb devsw s (cur, a)) (hrun : s.step sb devsw (cur, a) = some s') :
    Kept sb s' := by
  obtain ⟨extra, hheld⟩ := h.held
  refine ⟨hheld.grows hrun, ?_⟩
  obtain ⟨hlive, hrun⟩ := Option.ite_none_right_eq_some.mp hrun
  dsimp only at hlive hrun
  obtain ⟨t, hlawful⟩ := h.lawful hlive
  have hputs := inOrder_puts sb
  cases a with
  | «open» path omode turns =>
    apply opened_inOrder _ hrun
    intro r k hk
    unfold Call.openInode at hk
    by_cases hcreate : omode &&& O_CREATE ≠ 0
    · rw [if_pos hcreate] at hk
      exact create_inOrder hlawful hroot hshort (by decide) (by decide) (hok hcreate) hk
    · rw [if_neg hcreate] at hk
      apply found_inOrder hlawful hroot _ hk
      intro ip
      apply Calm.bind (Call.redirect_calm hroot Call.own_self_pos turns ip)
      intro found
      cases found with
      | none => exact Calm.pure (fun _ => rfl) fun _ h => h
      | some ip => exact Call.openable_calm omode ip
  | lsopen path omode =>
    apply opened_inOrder _ hrun
    intro r k hk
    unfold Call.lsopenInode at hk
    by_cases hcreate : omode &&& O_CREATE ≠ 0
    · rw [if_pos hcreate] at hk
      exact create_inOrder hlawful hroot hshort (by decide) (by decide) (hok hcreate) hk
    · rw [if_neg hcreate] at hk
      exact found_inOrder hlawful hroot (fun ip => Call.openable_calm omode ip) hk
  | close fd =>
    obtain ⟨r, hr⟩ := after_eq_some hrun
    exact hputs.sysClose cur fd s r s' hr h.inOrder
  | dup fd =>
    obtain ⟨r, hr⟩ := after_eq_some hrun
    exact hputs.sysDup cur fd s r s' hr h.inOrder
  | fork mem =>
    obtain ⟨r, hr⟩ := after_eq_some hrun
    exact fork_inOrder hlawful hr
  | exit =>
    obtain ⟨r, hr⟩ := after_eq_some hrun
    exact hputs.exit cur s r s' hr h.inOrder
  | reap p =>
    obtain ⟨r, hr⟩ := after_eq_some hrun
    exact hputs.outside (reap_kernel p) s r s' hr h.inOrder
  | chdir path =>
    obtain ⟨r, hr⟩ := after_eq_some hrun
    obtain ⟨found, s1, hinside, hrest⟩ := bind_eq_ok.mp hr
    obtain ⟨k, hk, rfl⟩ := inside_eq_ok.mp hinside
    have h1 := chdir_inOrder hlawful hroot hk
    cases found with
    | none =>
      obtain ⟨-, rfl⟩ := pure_eq_ok.mp hrest
      exact h1
    | some ip =>
      obtain ⟨u, s2, hset, hpure⟩ := bind_eq_ok.mp hrest
      cases hset
      obtain ⟨-, rfl⟩ := pure_eq_ok.mp hpure
      exact h1
  | link old new =>
    exact inside_inOrder (fun _ _ hk => Call.sysLink_shows hlawful hroot hshort hok hk) hrun
  | slink old new =>
    exact inside_inOrder (fun _ _ hk => Call.sysSlink_shows hlawful hroot hshort hok hk) hrun
  | unlink path =>
    exact inside_inOrder (fun _ _ hk => Call.sysUnlink_shows hlawful hroot hk) hrun
  | mkdir path =>
    apply inside_inOrder _ hrun
    intro r k hk
    apply Call.make_shows hlawful hroot hshort (by decide) _ hk
    intro dp name k1 hpath hnew
    obtain ⟨hlinks, hmax⟩ := hok dp name k1 hpath hnew
    exact ⟨hlinks, fun _ => hmax⟩
  | mknod path major minor =>
    apply inside_inOrder _ hrun
    intro r k hk
    apply Call.make_shows hlawful hroot hshort (by decide) _ hk
    intro dp name k1 hpath hnew
    exact ⟨hok dp name k1 hpath hnew, fun hdir => absurd hdir (by decide)⟩

/-! ### Runs -/

variable {σ : Contents} {files : List ArgFile}

/-- A disk in order, with which the first process may start. -/
structure Checked (sb : Superblock) (σ : Contents) : Prop where
  sound : Sound sb σ
  whole : ∀ i, i < sb.ninodes → (dinode sb σ i).type = T_DIR →
    direntSize ∣ (dinode sb σ i).size.toNat
  ranged : (tree sb σ).Ranged sb.ninodes
  law : (tree sb σ).Law sb.ninodes

theorem Checked.boot (h : Checked sb σ) (hroot : ROOTINO < sb.ninodes) : Kept sb (Sys.boot σ) := by
  have hslot : ∀ i, i ≠ 0 → (Sys.boot σ).kernel.icache i = Inode.unset := fun i hi => if_neg hi
  have hzero : ∀ i, 1 ≤ ((Sys.boot σ).kernel.icache i).ref → i = 0 := by
    intro i href
    by_contra hi
    rw [hslot i hi] at href
    exact absurd href (by decide)
  refine ⟨⟨nil, Held.boot σ⟩, tree sb σ, ⟨⟨h.sound, h.sound, ?_, ?_, ?_⟩, h.whole, h.ranged, rfl⟩,
    h.law⟩
  · intro i href
    rw [hzero i href]
    exact hroot
  · intro i j hi hj _
    rw [hzero i hi, hzero j hj]
  · intro i href hvalid
    rw [hzero i href] at hvalid
    cases hvalid

theorem Checked.kept (h : Checked sb σ) (hroot : ROOTINO < sb.ninodes) (hshort : sb.ninodes ≤ 65536)
    (hr : Reach (Sys.step sb devsw) (LinkRoom sb devsw) (Sys.boot σ) s) : Kept sb s :=
  hr.invariant (h.boot hroot) fun _ _ _ hk hok hrun => hk.step hroot hshort hok hrun

/-- The images of mkfs.c are in order. -/
theorem Planted.checked (h : Planted sb (files.length + 2) (encoded (rootEntries files)).flatten σ)
    (hlen : files.length + 2 ≤ sb.ninodes) (hshort : sb.ninodes ≤ 65536) : Checked sb σ := by
  obtain ⟨s, u, l, hflat⟩ := h.flat hlen hshort
  have hroot : ROOTINO < sb.ninodes := by
    show 1 < _
    omega
  have hdir : ∀ d, (tree sb σ).type d = T_DIR → d = ROOTINO := by
    intro d hd
    by_contra hne
    exact (hflat.file d hne (by rw [hd]; decide)).1 hd
  refine ⟨h.sound, ?_, ?_, hflat.law hroot⟩
  · intro i hi htype
    rw [hdir i (by rw [tree_type hi]; exact htype), h.size, direntSize_eq, BSIZE_eq]
    omega
  · intro d hd
    have hlaw := hflat.law hroot
    rw [hdir d hd]
    refine ⟨hroot, ?_⟩
    intro e he
    by_cases hne : e.inum = 0
    · rw [hne]
      exact Nat.lt_trans (by decide) hroot
    · have htype := hlaw.named ROOTINO hlaw.root.1 e he hne
      by_contra hge
      exact htype (tree_outside hge).1

/-- From an image of mkfs.c, entries are counted, named inodes are kept and the check of `nlink`
passes, as long as no entry goes into a removed directory and no count passes 32767. -/
theorem linksCounted_of_reach (hlen : files.length + 2 ≤ 200) (hmod : (files.length + 2) % 32 ≠ 0)
    (hmain : Image.main Superblock.mkfs files = .ok σ)
    (hr : Reach (Sys.step Superblock.mkfs devsw) (LinkRoom Superblock.mkfs devsw) (Sys.boot σ) s) :
    LinksCounted Superblock.mkfs devsw s := by
  have hplanted := planted_of_main roomy_mkfs hlen hmod hmain
  rw [appended_root] at hplanted
  have hchecked := hplanted.checked hlen (by decide)
  exact (hchecked.kept (by decide) (by decide) hr).counted (by decide)

/-- A directory is made in an image without files. -/
theorem linksCounted_of_reach_mkdir : ∃ s,
    Sys.step Superblock.mkfs noDevices (Sys.boot rootImage) (0, .mkdir [100]) = some s ∧
      (dinode Superblock.mkfs s.kernel.disk ROOTINO).nlink = 2 ∧
      LinksCounted Superblock.mkfs noDevices s := by
  have hrun : ((Sys.step Superblock.mkfs noDevices (Sys.boot rootImage) (0, .mkdir [100])).map
      fun s => (dinode Superblock.mkfs s.kernel.disk ROOTINO).nlink) = some 2 := by decide +kernel
  have hparent : ((Call.nameiparent Superblock.mkfs noDevices (Syscall.cwd 0 (Sys.boot rootImage))
      [100] (Sys.boot rootImage).kernel).toOption.map fun r =>
        r.1.map fun e => Call.links Superblock.mkfs r.2 e.1) = some (some 1) := by decide +kernel
  have hok : LinkRoom Superblock.mkfs noDevices (Sys.boot rootImage) (0, .mkdir [100]) := by
    intro dp name k hpath _
    rw [hpath] at hparent
    have hlinks : Call.links Superblock.mkfs k dp = 1 := Option.some.inj (Option.some.inj hparent)
    rw [hlinks]
    decide
  obtain ⟨s, hs, htwo⟩ := Option.map_eq_some_iff.mp hrun
  exact ⟨s, hs, htwo, linksCounted_of_reach (by decide) (by decide) main_nil
    (Reach.tail (Reach.refl _) hok hs)⟩

/-- A directory is made and removed by a process in it, which then makes a device there. -/
def removedRun : List SysAction := [.mkdir [100], .chdir [100], .unlink [47, 100], .mknod [120] 1 1]

/-- The device is in no directory. -/
theorem not_linksCounted_removedRun : Image.main Superblock.mkfs [] = .ok rootImage ∧
    ∃ s, alone removedRun = some s ∧ ¬ LinksCounted Superblock.mkfs noDevices s := by
  refine ⟨main_nil, ?_⟩
  have hrun : ((alone removedRun).map fun s => ((dinode Superblock.mkfs s.kernel.disk 3).type,
      (dinode Superblock.mkfs s.kernel.disk 3).nlink,
      ((tree Superblock.mkfs s.kernel.disk).dirents ROOTINO).all
        fun e => e.inum.toNat = 0 || e.inum.toNat = ROOTINO)) = some (T_DEV, 1, true) := by
    decide +kernel
  obtain ⟨s, hs, hfinal⟩ := Option.map_eq_some_iff.mp hrun
  refine ⟨s, hs, ?_⟩
  intro h
  have htype := (Prod.mk.inj hfinal).1
  obtain ⟨hnlink, hall⟩ := Prod.mk.inj (Prod.mk.inj hfinal).2
  rw [List.all_eq_true] at hall
  have hentry : ∀ e ∈ (tree Superblock.mkfs s.kernel.disk).dirents ROOTINO,
      e.inum.toNat = 0 ∨ e.inum.toNat = ROOTINO := by
    intro e he
    have hor := hall e he
    rw [Bool.or_eq_true, decide_eq_true_eq, decide_eq_true_eq] at hor
    exact hor
  have hreach : ∀ d, (tree Superblock.mkfs s.kernel.disk).Reaches d → d = ROOTINO := by
    intro d hd
    induction hd with
    | root => rfl
    | entry d e _ he hne _ ih =>
      rw [ih] at he
      exact (hentry e he).resolve_left fun h0 => hne (BitVec.eq_of_toNat_eq h0)
  have hcount : (tree Superblock.mkfs s.kernel.disk).linkCount Superblock.mkfs.ninodes 3 = 0 := by
    apply Finset.sum_eq_zero
    intro d _
    by_cases hd : (tree Superblock.mkfs s.kernel.disk).Reaches d
    · rw [if_pos hd, List.countP_eq_zero]
      intro e he hnames
      rw [hreach d hd] at he
      unfold names at hnames
      rw [Bool.and_eq_true, decide_eq_true_eq] at hnames
      have hthree := hentry e he
      rw [hnames.1] at hthree
      exact absurd hthree (by decide)
    · exact if_neg hd
  have hlinks := h.nlink 3 (by decide) (by rw [htype]; decide)
  rw [hcount, hnlink] at hlinks
  exact absurd hlinks (by decide)

end Xv6.Fs
