import Mathlib.Data.List.TakeWhile
import Xv6.Fs.Respects

/-!
# The target of a symbolic link (project3/sysfile.c:287-392, sys_slink, sys_open)

`sys_slink` copies its first argument into the 16 bytes of `path` with the limit of a name in a
directory, and nothing else writes there.
-/

namespace Xv6.Fs
open Code Transition

/-- The paths in the cache stay. -/
def SamePaths (k k' : Kernel) : Prop := ∀ i, (k'.icache i).path = (k.icache i).path

variable {sb : Superblock} {devsw : Fin NDEV → Devsw} {s t : Sys} {k k' : Kernel}
  {cwd np : CacheSlot} {old new : List Byte}

theorem samePaths_setInode {ip : CacheSlot} {entry : Inode} {σ : Contents}
    (h : entry.path = (k.icache ip).path) : SamePaths k ((k.setInode ip entry).setDisk σ) := by
  intro i
  show ((k.setInode ip entry).icache i).path = _
  by_cases hi : i = ip
  · rw [hi, Kernel.setInode_self]
    exact h
  · rw [Kernel.setInode_ne k entry hi]

theorem samePaths_update {ip : CacheSlot} {p : Inode → Op Inode}
    (hp : ∀ entry, (p entry).All fun entry' => entry'.path = entry.path) :
    Steps SamePaths (Call.update ip p) := by
  intro k a k' hrun
  obtain ⟨entry, σ, hexec, rfl⟩ := Call.update_eq_ok hrun
  exact samePaths_setInode ((hp (k.icache ip)).exec hexec)

theorem samePaths_respects : Respects sb SamePaths where
  refl _ _ := rfl
  trans _ _ _ h h' i := (h' i).trans (h i)
  entry ip p hp := by
    intro k a k' hrun
    obtain ⟨entry, σ, hexec, rfl⟩ := Call.onInode_eq_ok hrun
    exact samePaths_setInode ((hp (k.icache ip)).exec hexec).path
  disk p := by
    intro k a k' hrun
    unfold Call.onDisk at hrun
    split at hrun
    · cases hrun
      intro i
      rfl
    · cases hrun
  iget inum := by
    intro k ip k' hrun
    have hget : k.iget inum = .ok (ip, k') := by
      unfold Call.iget at hrun
      split at hrun
      · next r hr =>
        cases hrun
        exact hr
      · cases hrun
    rcases Kernel.iget_eq_ok hget with ⟨-, -, rfl⟩ | ⟨-, -, rfl⟩
    · exact samePaths_setInode rfl
    · exact samePaths_setInode rfl
  idup ip := samePaths_update fun entry => Op.All.pure rfl
  iput ip := samePaths_update fun entry => (iput_all entry).mono fun _ h => h.2.2
  assign ip a ha := by
    apply samePaths_update
    intro entry
    apply (assign_all a entry).mono
    intro entry' h
    rw [h.2.2]
    cases a with
    | link => rfl
    | unlink => rfl
    | create major minor => rfl
    | slink old => exact absurd rfl (ha old)

/-! ### sys_slink -/

/-- `sys_slink` makes its link in the entry `np`. -/
def SlinkInto (sb : Superblock) (devsw : Fin NDEV → Devsw) (k : Kernel) (cwd : CacheSlot)
    (old new : List Byte) (np : CacheSlot) : Prop :=
  ∃ ip k1 k2 k3 k4, Call.namei sb devsw cwd old k = .ok (some ip, k1) ∧
    Call.ilock sb ip k1 = .ok ((), k2) ∧ Call.iunlock ip k2 = .ok ((), k3) ∧
    Call.create sb devsw cwd new T_SYM 0 0 k3 = .ok (some np, k4)

/-- Either no path is written, or the one of the link. -/
theorem sysSlink_paths {r : Int} (hrun : Call.sysSlink sb devsw cwd old new k = .ok (r, k')) :
    (r = -1 ∧ SamePaths k k') ∨ (r = 0 ∧ ∃ np, SlinkInto sb devsw k cwd old new np ∧
      (k'.icache np).path = strncpy (k.icache np).path old ∧
      ∀ i, i ≠ np → (k'.icache i).path = (k.icache i).path) := by
  have hp : Respects sb SamePaths := samePaths_respects
  obtain ⟨found, k1, hnamei, h1⟩ := bind_eq_ok.mp hrun
  have hsame1 := hp.namei cwd old k found k1 hnamei
  cases found with
  | none =>
    obtain ⟨rfl, rfl⟩ := pure_eq_ok.mp h1
    exact Or.inl ⟨rfl, hsame1⟩
  | some ip =>
    obtain ⟨u, k2, hlock, h2⟩ := bind_eq_ok.mp h1
    obtain ⟨entry, k3, hentry, h3⟩ := bind_eq_ok.mp h2
    cases hentry
    have hsame2 := hp.trans _ _ _ hsame1 (hp.ilock ip k1 u k2 hlock)
    split at h3
    · obtain ⟨v, k4, hput, h4⟩ := bind_eq_ok.mp h3
      obtain ⟨rfl, rfl⟩ := pure_eq_ok.mp h4
      exact Or.inl ⟨rfl, hp.trans _ _ _ hsame2 (hp.iunlockput ip k2 v k' hput)⟩
    · obtain ⟨v, k4, hunlock, h4⟩ := bind_eq_ok.mp h3
      have hsame4 := hp.trans _ _ _ hsame2 (hp.iunlock ip k2 v k4 hunlock)
      obtain ⟨made, k5, hcreate, h5⟩ := bind_eq_ok.mp h4
      have hsame5 := hp.trans _ _ _ hsame4 (hp.create cwd new T_SYM 0 0 k4 made k5 hcreate)
      cases made with
      | none =>
        obtain ⟨rfl, rfl⟩ := pure_eq_ok.mp h5
        exact Or.inl ⟨rfl, hsame5⟩
      | some np =>
        obtain ⟨w, k6, hassign, h6⟩ := bind_eq_ok.mp h5
        obtain ⟨x, k7, hput, h7⟩ := bind_eq_ok.mp h6
        obtain ⟨rfl, rfl⟩ := pure_eq_ok.mp h7
        have hsame7 := hp.iunlockput np k6 x k' hput
        obtain ⟨entry, σ, hexec, rfl⟩ := Call.update_eq_ok hassign
        have hentry : entry.path = strncpy (k5.icache np).path old :=
          ((assign_all (.slink old) (k5.icache np)).exec hexec).2.2
        refine Or.inr ⟨rfl, np, ⟨ip, k1, k2, k4, k5, hnamei, hlock, hunlock, hcreate⟩, ?_, ?_⟩
        · rw [hsame7 np]
          show ((k5.setInode np entry).icache np).path = _
          rw [Kernel.setInode_self, hentry, hsame5 np]
        · intro i hi
          rw [hsame7 i]
          show ((k5.setInode np entry).icache i).path = _
          rw [Kernel.setInode_ne k5 entry hi, hsame5 i]

/-! ### The string in the field -/

/-- The bytes of `path` that `strncpy` does not reach. -/
def TailZero (k : Kernel) : Prop := ∀ i (j : Fin 16), DIRSIZ ≤ j.val → (k.icache i).path j = 0

theorem strncpy_tail (path : Fin 16 → Byte) (old : List Byte) {j : Fin 16} (hj : DIRSIZ ≤ j.val) :
    strncpy path old j = path j := if_neg (Nat.not_lt.mpr hj)

theorem SamePaths.tailZero (h : SamePaths k k') (hk : TailZero k) : TailZero k' := by
  intro i j hj
  rw [h i]
  exact hk i j hj

theorem TailZero.sysSlink {r : Int} (h : TailZero k)
    (hrun : Call.sysSlink sb devsw cwd old new k = .ok (r, k')) : TailZero k' := by
  rcases sysSlink_paths hrun with ⟨-, hsame⟩ | ⟨-, np, -, hself, hother⟩
  · exact hsame.tailZero h
  · intro i j hj
    by_cases hi : i = np
    · rw [hi, hself, strncpy_tail _ _ hj]
      exact h np j hj
    · rw [hother i hi]
      exact h i j hj

theorem TailZero.reach {σ : Contents} (hr : Reachable (Sys.step sb devsw) (Sys.boot σ) s) :
    TailZero s.kernel := by
  refine hr.invariant (I := fun s => TailZero s.kernel) ?_ ?_
  · intro i j _
    show ((if i = 0 then _ else Inode.unset : Inode)).path j = 0
    by_cases hi : i = 0
    · rw [if_pos hi]
      rfl
    · rw [if_neg hi]
      rfl
  · intro s a t hs _ hstep
    obtain ⟨cur, a⟩ := a
    by_cases ha : ∃ old new, a = .slink old new
    · obtain ⟨old, new, rfl⟩ := ha
      obtain ⟨-, hrun⟩ := Option.ite_none_right_eq_some.mp hstep
      obtain ⟨r, hr⟩ := after_eq_some hrun
      have hkernel : Syscall.kernel
          (Call.sysSlink sb devsw (Syscall.cwd cur s) old new) s = .ok (r, t) := hr
      obtain ⟨k, hk, rfl⟩ := lift_eq_ok.mp hkernel
      exact hs.sysSlink hk
    · have hsame := samePaths_respects.step (fun old new heq => ha ⟨old, new, heq⟩) hstep
      exact hsame.tailZero hs

/-- A string that ends before the field does. -/
theorem takeWhile_ofFn {f : Fin 16 → Byte} {l : List Byte} (hl : ∀ b ∈ l, b ≠ 0)
    (hlen : l.length ≤ 15) (hf : ∀ i : Fin 16, f i = l.getD i 0) :
    (List.ofFn f).takeWhile (· ≠ 0) = l := by
  have heq : List.ofFn f = l ++ List.replicate (16 - l.length) 0 := by
    apply List.ext_getElem
    · simp
      omega
    · intro n h1 h2
      rw [List.getElem_ofFn, hf]
      by_cases hn : n < l.length
      · rw [List.getElem_append_left hn, List.getD_eq_getElem _ _ hn]
      · rw [List.getElem_append_right (by omega), List.getElem_replicate,
          List.getD_eq_default _ _ (by simp; omega)]
  rw [heq, List.takeWhile_append_of_pos]
  · have hnil : (List.replicate (16 - l.length) (0 : Byte)).takeWhile (· ≠ 0) = [] := by
      cases hrep : 16 - l.length with
      | zero => rfl
      | succ n => rfl
    rw [hnil, List.append_nil]
  · intro b hb
    exact decide_eq_true (hl b hb)

/-- What `strncpy` leaves of the target. -/
theorem pathString_strncpy {ip : Inode} {path : Fin 16 → Byte}
    (hold : ∀ b ∈ old, b ≠ 0) (htail : ∀ j : Fin 16, DIRSIZ ≤ j.val → path j = 0)
    (hpath : ip.path = strncpy path old) : Call.pathString ip = old.take DIRSIZ := by
  have hwhole : old.takeWhile (· ≠ 0) = old := by
    rw [List.takeWhile_eq_self_iff]
    intro b hb
    exact decide_eq_true (hold b hb)
  apply takeWhile_ofFn
  · intro b hb
    exact hold b (List.mem_of_mem_take hb)
  · exact Nat.le_trans (List.length_take_le _ _) (by decide)
  · intro i
    rw [hpath]
    unfold strncpy
    by_cases hi : i.val < DIRSIZ
    · rw [if_pos hi, hwhole, List.getD_eq_getElem?_getD, List.getD_eq_getElem?_getD,
        List.getElem?_take_of_lt hi]
    · rw [if_neg hi, htail i (Nat.not_lt.mp hi)]
      exact (List.getD_eq_default _ _ (Nat.le_trans (List.length_take_le _ _)
        (Nat.not_lt.mp hi))).symm

/-! ### The target that sys_open follows -/

theorem toOption_eq_some {ε α : Type} {e : Except ε α} {a : α} (h : e.toOption = some a) :
    e = .ok a := by
  cases e with
  | error e => cases h
  | ok b =>
    cases h
    rfl

/-- What the link in the entry gives to `namei`. -/
def linkTarget (s : Sys) (np : CacheSlot) : List Byte := Call.pathString (s.kernel.icache np)

/-- No other link is made in the entry. -/
def Elsewhere (sb : Superblock) (devsw : Fin NDEV → Devsw) (np : CacheSlot) (s : Sys)
    (a : Fin NPROC × SysAction) : Prop :=
  ∀ old new, a.2 = .slink old new → ¬ SlinkInto sb devsw s.kernel (Syscall.cwd a.1 s) old new np

/-- The rest of `sys_open` when its loop is at the link `ip`, with the target `path`. -/
def Call.follow (sb : Superblock) (devsw : Fin NDEV → Devsw) (cwd : CacheSlot) (turns : Nat)
    (ip : CacheSlot) (path : List Byte) : Call (Option CacheSlot) := do
  match ← Call.namei sb devsw cwd path with
  | none => do
    Call.iunlockput sb ip
    pure none
  | some rp => do
    Call.iunlockput sb ip
    Call.ilock sb rp
    Call.redirect sb devsw cwd turns rp

/-- `sys_open` after its loop. -/
def Call.opened (sb : Superblock) (omode : Nat) : Option CacheSlot → Call (Option CacheSlot)
  | none => pure none
  | some ip => Call.openable sb omode ip

/-- Each open that arrives at the link in the entry `np` goes on from `target`. -/
def OpensAt (sb : Superblock) (devsw : Fin NDEV → Devsw) (k : Kernel) (np : CacheSlot)
    (target : List Byte) : Prop :=
  ∀ cwd path omode turns k1 k2, omode &&& O_CREATE = 0 →
    Call.namei sb devsw cwd path k = .ok (some np, k1) →
    Call.ilock sb np k1 = .ok ((), k2) → (k2.icache np).type = T_SYM →
    Call.openInode sb devsw (turns + 1) cwd path omode k =
      (Call.follow sb devsw cwd turns np target >>= Call.opened sb omode) k2

theorem redirect_of_symlink {turns : Nat} (htype : (k.icache np).type = T_SYM) :
    Call.redirect sb devsw cwd (turns + 1) np k =
      Call.follow sb devsw cwd turns np (Call.pathString (k.icache np)) k := by
  show (Call.inode np >>= _) k = _
  rw [bind_of_ok (show Call.inode np k = .ok (k.icache np, k) from rfl), if_pos htype]
  rfl

theorem opensAt (k : Kernel) (np : CacheSlot) :
    OpensAt sb devsw k np (Call.pathString (k.icache np)) := by
  intro cwd path omode turns k1 k2 hmode hnamei hlock htype
  have hpath : Call.pathString (k2.icache np) = Call.pathString (k.icache np) := by
    have h1 := samePaths_respects.namei cwd path k _ k1 hnamei np
    have h2 := samePaths_respects.ilock np k1 _ k2 hlock np
    unfold Call.pathString
    rw [h2, h1]
  unfold Call.openInode
  rw [if_neg (not_not.mpr hmode), bind_of_ok hnamei]
  show (Call.ilock sb np >>= _) k1 = _
  rw [bind_of_ok hlock]
  show Code.bind (Call.redirect sb devsw cwd (turns + 1) np) _ k2 = _
  unfold Code.bind
  rw [redirect_of_symlink htype, hpath]
  rfl

theorem Elsewhere.path {a : Fin NPROC × SysAction} (h : Elsewhere sb devsw np s a)
    (hstep : Sys.step sb devsw s a = some t) :
    (t.kernel.icache np).path = (s.kernel.icache np).path := by
  obtain ⟨cur, a⟩ := a
  by_cases ha : ∃ old new, a = .slink old new
  · obtain ⟨old, new, rfl⟩ := ha
    obtain ⟨-, hrun⟩ := Option.ite_none_right_eq_some.mp hstep
    obtain ⟨r, hr⟩ := after_eq_some hrun
    have hkernel : Syscall.kernel
        (Call.sysSlink sb devsw (Syscall.cwd cur s) old new) s = .ok (r, t) := hr
    obtain ⟨k, hk, rfl⟩ := lift_eq_ok.mp hkernel
    rcases sysSlink_paths hk with ⟨-, hsame⟩ | ⟨-, ip, hinto, -, hother⟩
    · exact hsame np
    · apply hother np
      intro heq
      exact h old new rfl (heq ▸ hinto)
  · exact samePaths_respects.step (fun old new heq => ha ⟨old, new, heq⟩) hstep np

/-- `sys_open` follows the path that was given to `sys_slink` exactly when a name in a directory
can be as long. -/
theorem linkTarget_iff {σ : Contents} {cur : Fin NPROC} {s s1 : Sys} {old new : List Byte}
    (hr : Reachable (Sys.step sb devsw) (Sys.boot σ) s) (hold : ∀ b ∈ old, b ≠ 0)
    (hrun : Syscall.inside cur (fun cwd => Call.sysSlink sb devsw cwd old new) s = .ok (0, s1)) :
    ∃ np, SlinkInto sb devsw s.kernel (Syscall.cwd cur s) old new np ∧
      ∀ s2, Reach (Sys.step sb devsw) (Elsewhere sb devsw np) s1 s2 →
        OpensAt sb devsw s2.kernel np (linkTarget s2 np) ∧ (linkTarget s2 np).length < 16 ∧
        (linkTarget s2 np = old ↔ old.length ≤ DIRSIZ) := by
  have hkernel : Syscall.kernel
      (Call.sysSlink sb devsw (Syscall.cwd cur s) old new) s = .ok (0, s1) := hrun
  obtain ⟨k, hk, rfl⟩ := lift_eq_ok.mp hkernel
  rcases sysSlink_paths hk with ⟨hbad, -⟩ | ⟨-, np, hinto, hself, -⟩
  · cases hbad
  · refine ⟨np, hinto, ?_⟩
    intro s2 hr2
    have hpath : (s2.kernel.icache np).path = (k.icache np).path := by
      refine hr2.invariant (I := fun u => (u.kernel.icache np).path = (k.icache np).path) rfl ?_
      intro u a v hu ha hstep
      rw [ha.path hstep, hu]
    have htarget : linkTarget s2 np = old.take DIRSIZ :=
      pathString_strncpy hold (fun j hj => TailZero.reach hr np j hj) (hpath.trans hself)
    refine ⟨opensAt s2.kernel np, ?_, ?_⟩
    · rw [htarget]
      exact Nat.lt_of_le_of_lt (List.length_take_le _ _) (by decide)
    · rw [htarget, List.take_eq_self_iff]

/-- A file "a", made and closed. -/
def shortRun : List SysAction := [.open [97] O_CREATE 0, .close 0]

/-- "l" leads to "a". -/
theorem linkTarget_iff_short : ∃ s s1 np, alone shortRun = some s ∧
    Syscall.inside 0 (fun cwd => Call.sysSlink Superblock.mkfs noDevices cwd [97] [108]) s =
      .ok (0, s1) ∧ linkTarget s1 np = [97] := by
  have hrun : (alone shortRun).map (fun s => ((Syscall.inside 0
      (fun cwd => Call.sysSlink Superblock.mkfs noDevices cwd [97] [108]) s).toOption).map
        Prod.fst) = some (some 0) := by decide +kernel
  obtain ⟨s, hs, hslink⟩ := Option.map_eq_some_iff.mp hrun
  obtain ⟨r, hr, hzero⟩ := Option.map_eq_some_iff.mp hslink
  obtain ⟨n, s1⟩ := r
  subst hzero
  have hok := toOption_eq_some hr
  obtain ⟨np, -, htarget⟩ := linkTarget_iff (reachable_of_run hs) (by decide) hok
  exact ⟨s, s1, np, hs, hok, (htarget s1 (Reach.refl s1)).2.2.mpr (by decide)⟩

/-- "a" in the root directory, behind so many slashes that the path has fifteen characters. -/
def longPath : List Byte := List.replicate 14 47 ++ [97]

/-- The results of the link, of opening it, and of opening its target, for writing. -/
def longResults (s : Sys) : Except Stop (Int × Int × Int) := do
  let (r, s1) ← Syscall.inside 0
    (fun cwd => Call.sysSlink Superblock.mkfs noDevices cwd longPath [108]) s
  let (link, _) ← Syscall.sysOpen Superblock.mkfs noDevices 2 0 [108] O_RDWR s1
  let (target, _) ← Syscall.sysOpen Superblock.mkfs noDevices 2 0 longPath O_RDWR s1
  pure (r, link, target)

/-- The link is made and its target can be opened, but the link leads to the directory. -/
theorem not_opens_longPath : ∃ s, alone shortRun = some s ∧ longResults s = .ok (0, -1, 0) := by
  have hrun : (alone shortRun).map (fun s => (longResults s).toOption) = some (some (0, -1, 0)) := by
    decide +kernel
  obtain ⟨s, hs, hres⟩ := Option.map_eq_some_iff.mp hrun
  exact ⟨s, hs, toOption_eq_some hres⟩

end Xv6.Fs
