import Xv6.Fs.Linking

/-!
# Entries that are removed (project3/sysfile.c:186-241, sys_unlink)
-/

namespace Xv6.Fs
open Code

variable {sb : Superblock} {devsw : Fin NDEV → Devsw} {t t' : Tree} {k k' : Kernel}
  {ip dp cwd : CacheSlot} {d m inum off : Nat} {o : Dirent} {name path : List Byte} {r : Int}

namespace Tree

/-- What `dirlookup` finds under another name than "." and "..". -/
theorem Law.entry {n : Nat} (h : t.Law n) (hd : t.type d = T_DIR)
    (hdot : namecmp name [46] = false) (hdots : namecmp name [46, 46] = false)
    (hfound : Found (t.dirents d) name (some (inum, off))) :
    ∃ m o, off = direntSize * m ∧ Entry t d m o ∧ o.inum.toNat = inum := by
  obtain ⟨m, o, hoff, hat, hne, hname, hinum⟩ := hfound
  refine ⟨m, o, hoff, ⟨hd, ?_, hat, hne⟩, hinum⟩
  obtain ⟨s, u, hdir, -, -, hsn, hun, -⟩ := h.dirents_eq hd
  rw [hdir] at hat
  -- The first two entries have the names "." and "..".
  by_contra hlt
  have hcases : m = 0 ∨ m = 1 := by omega
  cases hcases with
  | inl h0 =>
    subst h0
    cases hat
    rw [namecmp_congr hname, hsn] at hdot
    cases hdot
  | inr h1 =>
    subst h1
    cases hat
    rw [namecmp_congr hname, hun] at hdots
    cases hdots

end Tree

namespace Call

theorem unlinkBad_shows (h : Shows sb t k) (hrun : unlinkBad sb dp k = .ok (r, k')) :
    ∃ t', t.Frees t' ∧ Shows sb t' k' := by
  obtain ⟨u, k1, hput, hpure⟩ := bind_eq_ok.mp hrun
  obtain ⟨rfl, rfl⟩ := pure_eq_ok.mp hpure
  exact (iunlockput_shows h hput).1

theorem unlinkRefuses_shows {refused : Bool} (h : Shows sb t k) (hp : k.holds ip)
    (hrun : onInode ip (fun entry => unlinkRefuses sb devsw entry) k = .ok (refused, k')) :
    k' = k ∧ (refused = false → (k.icache ip).type = T_DIR →
      ∀ o ∈ t.rest (k.icache ip).inum, o.inum = 0) := by
  apply onInode_reads (Q := fun refused => refused = false → (k.icache ip).type = T_DIR →
      ∀ o ∈ t.rest (k.icache ip).inum, o.inum = 0) _ hrun
  unfold unlinkRefuses
  by_cases hdir : (k.icache ip).type = T_DIR
  · rw [if_pos hdir]
    apply wp_seq (h.directory hp hdir).isdirempty_reads
    intro r υ hr
    obtain ⟨hυ, hentry, hempty⟩ := hr
    apply wp_pure
    refine ⟨hυ, hentry, ?_⟩
    intro hno _
    rw [h.tree] at hempty
    apply hempty
    cases hr1 : r.1 with
    | true => rfl
    | false =>
      dsimp only at hno
      rw [hr1] at hno
      cases hno
  · rw [if_neg hdir]
    apply wp_pure
    exact ⟨rfl, rfl, fun _ htype => absurd htype hdir⟩

/-- The part of `sys_unlink` behind `dirlookup`, for an entry that was found. -/
def unlinkEntry (sb : Superblock) (devsw : Fin NDEV → Devsw) (dp ip : CacheSlot) (off : Nat) :
    Call Int := do
  ilock sb ip
  let entry ← inode ip
  if entry.nlink.toInt < 1 then panic .unlinkNlink
  else do
    let refused ← onInode ip fun entry => unlinkRefuses sb devsw entry
    if refused then do
      iunlockput sb ip
      unlinkBad sb dp
    else do
      let n ← writei sb devsw dp (List.replicate direntSize 0) off
      if n ≠ direntSize then panic .unlinkWritei
      else do
        unlinkParent sb dp entry
        iunlockput sb dp
        assign sb ip .unlink
        iunlockput sb ip
        pure 0

/-- The entry that was found, before the inode is locked. -/
structure Unlinks (sb : Superblock) (t : Tree) (k : Kernel) (dp ip : CacheSlot) (m : Nat)
    (o : Dirent) : Prop where
  shows : Shows sb t k
  law : t.Law sb.ninodes
  holds : k.holds dp
  entry : t.Entry (k.icache dp).inum m o
  inum : (k.icache ip).inum = o.inum.toNat

theorem Unlinks.lock {u : Unit} (h : Unlinks sb t k dp ip m o) (hrun : ilock sb ip k = .ok (u, k')) :
    Unlinks sb t k' dp ip m o ∧ k'.holds ip ∧ dp ≠ ip := by
  obtain ⟨hs, hp, hinum, -, hfree, honly⟩ := ilock_shows h.shows hrun
  have hne : dp ≠ ip := by
    intro heq
    have hlocked := h.holds.2.1
    rw [heq, hfree] at hlocked
    cases hlocked
  refine ⟨⟨hs, h.law, honly.holds hne h.holds, ?_, hinum.trans h.inum⟩, hp, hne⟩
  rw [honly dp hne]
  exact h.entry

theorem Unlinks.one_le (h : Unlinks sb t k dp ip m o) (hp : k.holds ip) :
    t.Live (k.icache dp).inum ∧ ¬ (k.icache ip).nlink.toInt < 1 := by
  obtain ⟨hlive, -, hone⟩ := h.law.one_le h.shows.ranged h.entry.type h.entry.mem h.entry.ne
  refine ⟨hlive, ?_⟩
  rw [← h.inum, h.shows.nlink_eq hp] at hone
  exact Int.not_lt.mpr hone

theorem unlinkEntry_shows (h : Unlinks sb t k dp ip m o)
    (hrun : unlinkEntry sb devsw dp ip (direntSize * m) k = .ok (r, k')) :
    ∃ t', Shows sb t' k' ∧ t'.Law sb.ninodes := by
  obtain ⟨u1, k1, hlock, hrun1⟩ := bind_eq_ok.mp hrun
  obtain ⟨h1, hp1, hne⟩ := h.lock hlock
  obtain ⟨hlive, hone⟩ := h1.one_le hp1
  have hs1 := h1.shows
  have hlaw := h1.law
  have hd1 := h1.holds
  have hinum := h1.inum
  have hentry := h1.entry
  have hdi : (k1.icache ip).inum ≠ (k1.icache dp).inum := hs1.inum_ne hp1 hd1 (Ne.symm hne)
  generalize hdn : (k1.icache dp).inum = d at *
  obtain ⟨e, k2, he, hrun2⟩ := bind_eq_ok.mp hrun1
  cases he
  rw [if_neg hone] at hrun2
  obtain ⟨refused, k3, hrefuse, hrun3⟩ := bind_eq_ok.mp hrun2
  obtain ⟨rfl, hempty⟩ := unlinkRefuses_shows hs1 hp1 hrefuse
  have htype := hs1.type_eq hp1
  have hnlink := hs1.nlink_eq hp1
  have hused : t.type (k3.icache ip).inum ≠ 0 := by
    rw [htype]
    exact (hs1.cached hp1).2
  generalize hi : (k3.icache ip).inum = i at *
  by_cases hrefused : refused = true
  · rw [if_pos hrefused] at hrun3
    obtain ⟨u4, k4, hput, hbad⟩ := bind_eq_ok.mp hrun3
    obtain ⟨⟨t4, hf4, h4⟩, -, -⟩ := iunlockput_shows hs1 hput
    obtain ⟨t5, hf5, h5⟩ := unlinkBad_shows h4 hbad
    exact ⟨t5, h5, ((hf4.trans hf5).law hlaw hs1.ranged).1⟩
  rw [if_neg hrefused] at hrun3
  have hempty := hempty (Bool.not_eq_true _ ▸ hrefused)
  obtain ⟨n, k4, hwrite, hrun4⟩ := bind_eq_ok.mp hrun3
  have hn : n = direntSize := by
    by_contra hno
    rw [if_pos hno] at hrun4
    cases hrun4
  rw [if_neg (not_not.mpr hn)] at hrun4
  have hdir : (k3.icache dp).type = T_DIR := by
    rw [← hs1.type_eq hd1, hdn]
    exact hentry.type
  have hm : m ≤ (t.dirents (k3.icache dp).inum).length := by
    rw [hdn]
    exact Nat.le_of_lt (List.getElem?_eq_some_iff.mp hentry.here).1
  obtain ⟨h4, hd4, hdn4, hdl4, -, honly4⟩ := writei_shows hs1 hd1 hdir hm List.length_replicate
    (by rw [inum_zeros]; exact Nat.lt_of_le_of_lt (Nat.zero_le _) (hs1.lt hd1)) hwrite hn
  rw [hdn] at h4 hdn4
  generalize hz : decodeDirent (List.replicate direntSize 0) = z at h4
  have hz0 : z.inum = 0 := by
    rw [← hz]
    exact inum_zeros
  have hp4 := honly4.holds (Ne.symm hne) hp1
  have hip4 : k4.icache ip = k3.icache ip := honly4 ip (Ne.symm hne)
  obtain ⟨u5, k5, hparent, hrun5⟩ := bind_eq_ok.mp hrun4
  obtain ⟨u6, k6, hput6, hrun6⟩ := bind_eq_ok.mp hrun5
  obtain ⟨u7, k7, hassign, hrun7⟩ := bind_eq_ok.mp hrun6
  obtain ⟨u8, k8, hput8, hpure⟩ := bind_eq_ok.mp hrun7
  obtain ⟨rfl, rfl⟩ := pure_eq_ok.mp hpure
  -- The directory has a link, and so it stays when it is put.
  have hend : ∀ t5, Shows sb t5 k5 → t5.nlink d ≠ 0 → (k5.icache dp).inum = d → k5.holds ip →
      k5.icache ip = k3.icache ip → (t5.setNlink i (t.nlink i - 1)).Law sb.ninodes →
      ∃ t', Shows sb t' k' ∧ t'.Law sb.ninodes := by
    intro t5 h5 hlinks hdn5 hp5 hip5 hlaw5
    obtain ⟨h6, honly6⟩ := iunlockput_linked h5 (by rw [hdn5]; exact hlinks) hput6
    have hp6 := honly6.holds (Ne.symm hne) hp5
    have hip6 : k6.icache ip = k3.icache ip := (honly6 ip (Ne.symm hne)).trans hip5
    obtain ⟨h7, -, -, -⟩ := assign_shows h6 hp6 hassign
    rw [hip6, hi] at h7
    have hless : ((Assign.unlink).apply (k3.icache ip)).nlink = t.nlink i - 1 := by
      rw [hnlink]
      rfl
    rw [hless] at h7
    obtain ⟨⟨t8, hf8, h8⟩, -, -⟩ := iunlockput_shows h7 hput8
    exact ⟨t8, h8, (hf8.law hlaw5 h7.ranged).1⟩
  unfold unlinkParent at hparent
  by_cases hsub : (k3.icache ip).type = T_DIR
  · rw [if_pos hsub] at hparent
    obtain ⟨h5, heq5, -, honly5⟩ := assign_shows h4 hd4 hparent
    have hleaf : Tree.Law.Childless t d i m o := by
      exact ⟨hentry, hlive, hinum.symm, htype.trans hsub, hempty hsub⟩
    have hless : ((Assign.unlink).apply (k4.icache dp)).nlink = t.nlink d - 1 := by
      show (k4.icache dp).nlink - 1 = _
      rw [hdl4, ← hs1.nlink_eq hd1, hdn]
    rw [hdn4, hless] at h5
    apply hend _ h5
    · rw [Tree.setNlink_self]
      intro hzero
      have htwo := hleaf.two_le_count hlaw hs1.ranged
      have heq := (hlaw.links d (by rw [hlive.1]; decide)).1
      have hpred := Tree.Law.toNat_pred (x := t.nlink d) (by omega)
      rw [hzero] at hpred
      have h0 : (0 : BitVec 16).toNat = 0 := rfl
      omega
    · rw [heq5]
      exact hdn4
    · exact honly5.holds (Ne.symm hne) hp4
    · exact (honly5 ip (Ne.symm hne)).trans hip4
    · exact Tree.Law.rmdir ⟨hlaw, hs1.ranged, hleaf, hz0, rfl⟩
  · rw [if_neg hsub] at hparent
    obtain ⟨-, rfl⟩ := pure_eq_ok.mp hparent
    apply hend _ h4 hlive.2 hdn4 hp4 hip4
    apply hlaw.erase hs1.ranged hlive hentry.two_le hentry.here hinum.symm hused _ hz0
    rw [htype]
    exact hsub

/-- The entry that `sys_unlink` finds. -/
theorem unlinks_of_found {r : Option (CacheSlot × Nat)} (h : Shows sb t k)
    (hlaw : t.Law sb.ninodes) (hd : k.holds dp)
    (hname : ¬ (namecmp name [46] = true ∨ namecmp name [46, 46] = true))
    (hrun : dirlookup sb devsw dp name k = .ok (r, k')) :
    Shows sb t k' ∧ ∀ ip off, r = some (ip, off) →
      ∃ m o, off = direntSize * m ∧ Unlinks sb t k' dp ip m o := by
  obtain ⟨hdir, h1, hlooks, hstill⟩ := dirlookup_shows h hd hrun
  refine ⟨h1, ?_⟩
  intro ip off hr
  subst hr
  obtain ⟨hfound, -⟩ := hlooks
  rw [not_or, Bool.not_eq_true, Bool.not_eq_true] at hname
  have htype : t.type (k.icache dp).inum = T_DIR := (h.type_eq hd).trans hdir
  obtain ⟨m, o, hoff, hentry, hinum⟩ := hlaw.entry htype hname.1 hname.2 hfound
  refine ⟨m, o, hoff, h1, hlaw, (hstill dp hd.1).holds hd, ?_, hinum.symm⟩
  rw [(hstill dp hd.1).toDinode.2.1]
  exact hentry

theorem sysUnlink_shows (h : Lawful sb cwd t k) (hroot : ROOTINO < sb.ninodes)
    (hrun : sysUnlink sb devsw cwd path k = .ok (r, k')) :
    ∃ t', Shows sb t' k' ∧ t'.Law sb.ninodes := by
  obtain ⟨found, k1, hpath, hrun1⟩ := bind_eq_ok.mp hrun
  obtain ⟨t1, h1, -, -⟩ := h.lookup (nameiparent_calm hroot own_self_pos path) hpath
  cases found with
  | none =>
    obtain ⟨rfl, rfl⟩ := pure_eq_ok.mp hrun1
    exact ⟨t1, h1.shows, h1.law⟩
  | some f =>
    obtain ⟨dp, name⟩ := f
    obtain ⟨u2, k2, hlock, hrun2⟩ := bind_eq_ok.mp hrun1
    obtain ⟨h2, hd2, -, -, -, -⟩ := ilock_shows h1.shows hlock
    by_cases hname : namecmp name [46] = true ∨ namecmp name [46, 46] = true
    · rw [if_pos hname] at hrun2
      obtain ⟨t3, hf3, h3⟩ := unlinkBad_shows h2 hrun2
      exact ⟨t3, h3, (hf3.law h1.law h2.ranged).1⟩
    rw [if_neg hname] at hrun2
    obtain ⟨found3, k3, hlook, hrun3⟩ := bind_eq_ok.mp hrun2
    obtain ⟨h3, hentry⟩ := unlinks_of_found h2 h1.law hd2 hname hlook
    cases found3 with
    | none =>
      obtain ⟨t4, hf4, h4⟩ := unlinkBad_shows h3 hrun3
      exact ⟨t4, h4, (hf4.law h1.law h3.ranged).1⟩
    | some f3 =>
      obtain ⟨ip, off⟩ := f3
      obtain ⟨m, o, rfl, h4⟩ := hentry ip off rfl
      exact unlinkEntry_shows h4 hrun3

end Call

end Xv6.Fs
