import Xv6.Fs.Calm
import Xv6.Fs.Subdirs

/-!
# Entries that are made (project3/fs.c:703-730, dirlink; project3/sysfile.c:118-165, 243-285)
-/

namespace Xv6.Fs
open Code

variable {sb : Superblock} {devsw : Fin NDEV → Devsw} {t t' : Tree} {k k' : Kernel}
  {ip dp cwd : CacheSlot} {u : Unit} {i d m inum : Nat} {name path : List Byte} {r : Int}
  {α : Type}

/-- The name is new in the directory, and entry `m` is free or behind the last one. -/
structure Vacant (t : Tree) (d m : Nat) (name : List Byte) : Prop where
  le : m ≤ (t.dirents d).length
  empty : ∀ e, (t.dirents d)[m]? = some e → e.inum = 0
  fresh : Found (t.dirents d) name none

/-- What `dirlink` writes. -/
def newEntry (inum : Nat) (name : List Byte) : Dirent := decodeDirent (encodeDirent inum name)

/-- Two entries of the cache for the same inode, which is cached as before. -/
structure SameInode (s : CacheSlot) (k k' : Kernel) : Prop where
  inum : (k'.icache s).inum = (k.icache s).inum
  type : (k'.icache s).type = (k.icache s).type
  nlink : (k'.icache s).nlink = (k.icache s).nlink

theorem SameInode.refl (s : CacheSlot) (k : Kernel) : SameInode s k k := ⟨rfl, rfl, rfl⟩

theorem SameInode.trans {s : CacheSlot} {k'' : Kernel} (h : SameInode s k k')
    (h' : SameInode s k' k'') : SameInode s k k'' :=
  ⟨h'.inum.trans h.inum, h'.type.trans h.type, h'.nlink.trans h.nlink⟩

theorem Still.sameInode {s : CacheSlot} (h : Still s k k') : SameInode s k k' := by
  obtain ⟨hd, hi, -⟩ := h.toDinode
  exact ⟨hi, by rw [hd], by rw [hd]⟩

theorem Only.sameInode {s x : CacheSlot} (h : Only s k k') (hx : x ≠ s) : SameInode x k k' :=
  (Still.of_only h hx).sameInode

theorem Only.holds {s x : CacheSlot} (h : Only s k k') (hx : x ≠ s) (hh : k.holds x) :
    k'.holds x := (Still.of_only h hx).holds hh

namespace Call

theorem iunlockput_shows (h : Shows sb t k) (hrun : iunlockput sb ip k = .ok (u, k')) :
    (∃ t', t.Frees t' ∧ Shows sb t' k') ∧ (∀ x, (k'.icache x).inum = (k.icache x).inum) ∧
      Only ip k k' := by
  obtain ⟨v, k1, hunlock, hput⟩ := bind_eq_ok.mp hrun
  obtain ⟨h1, heq, -, honly1⟩ := iunlock_shows h hunlock
  obtain ⟨hcases, -, hinum, honly2⟩ := iput_shows h1 hput
  refine ⟨?_, ?_, ?_⟩
  · cases hcases with
    | inl hs => exact ⟨t, Tree.Frees.refl, hs⟩
    | inr hfree =>
      obtain ⟨-, htype, hzero, hs⟩ := hfree
      exact ⟨_, Tree.Frees.tail t _ Tree.Frees.refl htype hzero, hs⟩
  · intro x
    by_cases hx : x = ip
    · rw [hx, hinum, heq]
    · rw [honly2 x hx, honly1 x hx]
  · intro x hx
    rw [honly2 x hx, honly1 x hx]

/-- An inode that has links is not freed. -/
theorem iunlockput_linked (h : Shows sb t k)
    (hlinks : t.nlink (k.icache ip).inum ≠ 0) (hrun : iunlockput sb ip k = .ok (u, k')) :
    Shows sb t k' ∧ Only ip k k' := by
  have honly := (iunlockput_shows h hrun).2.2
  obtain ⟨v, k1, hunlock, hput⟩ := bind_eq_ok.mp hrun
  obtain ⟨h1, heq, -, -⟩ := iunlock_shows h hunlock
  refine ⟨?_, honly⟩
  cases (iput_shows h1 hput).1 with
  | inl hs => exact hs
  | inr hfree =>
    have hzero := hfree.2.2.1
    rw [heq] at hzero
    exact absurd hzero hlinks

theorem dirlink_shows (h : Shows sb t k) (hd : k.holds dp) (hlt : inum < sb.ninodes)
    (hshort : sb.ninodes ≤ 65536) (hrun : dirlink sb devsw dp name inum k = .ok (r, k')) :
    k'.holds dp ∧ (k.icache dp).type = T_DIR ∧ SameInode dp k k' ∧
      (∀ x, 1 ≤ (k.icache x).ref → (k'.icache x).inum = (k.icache x).inum) ∧
      ((r < 0 ∧ ∃ t', t.Frees t' ∧ Shows sb t' k') ∨
        ¬ r < 0 ∧ Only dp k k' ∧ ∃ m, Vacant t (k.icache dp).inum m name ∧
          Shows sb (t.put (k.icache dp).inum m (newEntry inum name)) k') := by
  obtain ⟨found, k1, hlook, hrest⟩ := bind_eq_ok.mp hrun
  obtain ⟨hdir, h1, hlooks, hstill⟩ := dirlookup_shows h hd hlook
  have hd1 := (hstill dp hd.1).holds hd
  have hsame1 := (hstill dp hd.1).sameInode
  cases found with
  | some f =>
    obtain ⟨ip, off⟩ := f
    obtain ⟨v, k2, hput, hpure⟩ := bind_eq_ok.mp hrest
    obtain ⟨rfl, rfl⟩ := pure_eq_ok.mp hpure
    obtain ⟨hcases, hfree, hinum, honly⟩ := iput_shows h1 hput
    have hne : dp ≠ ip := by
      intro heq
      have hlocked := hd1.2.1
      rw [heq, hfree] at hlocked
      cases hlocked
    refine ⟨honly.holds hne hd1, hdir, hsame1.trans (honly.sameInode hne), ?_, Or.inl ?_⟩
    · intro x hx
      rw [← (hstill x hx).toDinode.2.1]
      by_cases hxi : x = ip
      · rw [hxi, hinum]
      · rw [honly x hxi]
    · refine ⟨by decide, ?_⟩
      cases hcases with
      | inl hs => exact ⟨t, Tree.Frees.refl, hs⟩
      | inr hgone =>
        obtain ⟨-, htype, hzero, hs⟩ := hgone
        exact ⟨_, Tree.Frees.tail t _ Tree.Frees.refl htype hzero, hs⟩
  | none =>
    obtain ⟨rfl, hfresh⟩ := hlooks
    obtain ⟨off, k2, hempty, hwrite⟩ := bind_eq_ok.mp hrest
    have hreads := @Directory.emptyDirent_reads sb devsw _ _ (fun _ => True) (fun _ => True)
      (h.directory hd hdir)
    rw [h.tree] at hreads
    obtain ⟨rfl, m, hoff, hm, hzero⟩ := onInode_reads hreads hempty
    obtain ⟨n, k3, hput, hlast⟩ := bind_eq_ok.mp hwrite
    have hn : n = direntSize := by
      by_contra hno
      rw [if_pos hno] at hlast
      cases hlast
    rw [if_neg (not_not.mpr hn)] at hlast
    obtain ⟨rfl, rfl⟩ := pure_eq_ok.mp hlast
    rw [hoff] at hput
    have hentry : (decodeDirent (encodeDirent inum name)).inum.toNat < sb.ninodes := by
      rw [inum_encodeDirent (by omega)]
      exact hlt
    obtain ⟨h3, hd3, hinum, hnlink, htype, honly⟩ :=
      writei_shows h1 hd hdir hm (length_encodeDirent inum name) hentry hput hn
    refine ⟨hd3, hdir, ⟨hinum, htype.trans hdir.symm, hnlink⟩, ?_, Or.inr ?_⟩
    · intro x _
      by_cases hx : x = dp
      · rw [hx, hinum]
      · rw [honly x hx]
    · exact ⟨by decide, honly, m, ⟨hm, hzero, hfresh⟩, h3⟩

/-- ".." of a new directory and "." in it. -/
theorem createDots_shows {type : BitVec 16} (h : Shows sb t k) (hd : k.holds dp)
    (hp : k.holds ip) (hne : dp ≠ ip) (hnew : t.dirents (k.icache ip).inum = [])
    (hpos : (k.icache ip).inum ≠ 0) (hshort : sb.ninodes ≤ 65536)
    (hrun : createDots sb devsw type dp ip k = .ok (u, k')) :
    k'.holds dp ∧ k'.holds ip ∧ (k'.icache dp).inum = (k.icache dp).inum ∧
      (k'.icache ip).inum = (k.icache ip).inum ∧
      (type ≠ T_DIR → Shows sb t k') ∧ (type = T_DIR →
        Shows sb (((t.setNlink (k.icache dp).inum (t.nlink (k.icache dp).inum + 1)).put
          (k.icache ip).inum 0 (newEntry (k.icache ip).inum [46])).put
          (k.icache ip).inum 1 (newEntry (k.icache dp).inum [46, 46])) k') := by
  unfold createDots at hrun
  by_cases htype : type = T_DIR
  · rw [if_pos htype] at hrun
    have hdn := h.lt hd
    have hpn := h.lt hp
    obtain ⟨u1, k1, hassign, hrun1⟩ := bind_eq_ok.mp hrun
    obtain ⟨h1, heq1, hd1, honly1⟩ := assign_shows h hd hassign
    have hp1 := honly1.holds (Ne.symm hne) hp
    have hip1 : k1.icache ip = k.icache ip := honly1 ip (Ne.symm hne)
    have hdi1 : (k1.icache dp).inum = (k.icache dp).inum := by
      rw [heq1]
      rfl
    have hlinks : ((Assign.link).apply (k.icache dp)).nlink =
        t.nlink (k.icache dp).inum + 1 := by
      rw [h.nlink_eq hd]
      rfl
    rw [hlinks] at h1
    obtain ⟨child, k2, hchild, hrun2⟩ := bind_eq_ok.mp hrun1
    cases hchild
    obtain ⟨parent, k3, hparent, hrun3⟩ := bind_eq_ok.mp hrun2
    cases hparent
    obtain ⟨r1, k4, hdot, hrun4⟩ := bind_eq_ok.mp hrun3
    rw [hip1] at hdot
    obtain ⟨hp4, -, hsame4, -, hcases4⟩ := dirlink_shows h1 hp1 hpn hshort hdot
    by_cases hr1 : r1 < 0
    · rw [if_pos hr1] at hrun4
      cases hrun4
    rw [if_neg hr1] at hrun4
    obtain ⟨-, honly4, m1, hvac1, h4⟩ := hcases4.resolve_left fun hno => hr1 hno.1
    rw [hip1] at hvac1 h4
    have hm1 : m1 = 0 := by
      have hle := hvac1.le
      rw [Tree.setNlink_dirents, hnew] at hle
      exact Nat.le_zero.mp hle
    subst hm1
    have hd4 := honly4.holds hne hd1
    have hpi4 : (k4.icache ip).inum = (k.icache ip).inum := by rw [hsame4.inum, hip1]
    have hdi4 : (k4.icache dp).inum = (k.icache dp).inum := by rw [honly4 dp hne, hdi1]
    obtain ⟨r2, k5, hdots, hrun5⟩ := bind_eq_ok.mp hrun4
    rw [hdi1] at hdots
    obtain ⟨hp5, -, hsame5, -, hcases5⟩ := dirlink_shows h4 hp4 hdn hshort hdots
    by_cases hr2 : r2 < 0
    · rw [if_pos hr2] at hrun5
      cases hrun5
    rw [if_neg hr2] at hrun5
    obtain ⟨-, rfl⟩ := pure_eq_ok.mp hrun5
    obtain ⟨-, honly5, m2, hvac2, h5⟩ := hcases5.resolve_left fun hno => hr2 hno.1
    rw [hpi4] at hvac2 h5
    -- The entry "." is not free, so ".." is put behind it.
    have hentries : (((t.setNlink (k.icache dp).inum (t.nlink (k.icache dp).inum + 1)).put
        (k.icache ip).inum 0 (newEntry (k.icache ip).inum [46])).dirents (k.icache ip).inum) =
        [newEntry (k.icache ip).inum [46]] := by
      rw [Tree.put_self, Tree.setNlink_dirents, hnew]
      rfl
    have hm2 : m2 = 1 := by
      have hle := hvac2.le
      have hempty := hvac2.empty
      rw [hentries] at hle hempty
      have hle' : m2 ≤ 1 := hle
      by_contra hno
      have hzero : m2 = 0 := by omega
      rw [hzero] at hempty
      have hinum := hempty _ rfl
      have hself := inum_encodeDirent (Nat.lt_of_lt_of_le hpn hshort) [46]
      unfold newEntry at hinum
      rw [hinum] at hself
      exact hpos hself.symm
    subst hm2
    refine ⟨honly5.holds hne hd4, hp5, ?_, ?_, fun hno => absurd htype hno, fun _ => h5⟩
    · rw [honly5 dp hne, hdi4]
    · rw [hsame5.inum, hpi4]
  · rw [if_neg htype] at hrun
    obtain ⟨-, rfl⟩ := pure_eq_ok.mp hrun
    exact ⟨hd, hp, rfl, rfl, fun _ => h, fun hno => absurd hno htype⟩

/-! ### create -/

/-- The part of `create` behind `dirlookup`, for a name that is new. -/
def createNew (sb : Superblock) (devsw : Fin NDEV → Devsw) (dp : CacheSlot) (name : List Byte)
    (type major minor : BitVec 16) : Call (Option CacheSlot) := do
  let ip ← ialloc sb type
  ilock sb ip
  assign sb ip (.create major minor)
  createDots sb devsw type dp ip
  let entry ← inode ip
  let r ← dirlink sb devsw dp name entry.inum
  if r < 0 then panic .createDirlink
  else do
    iunlockput sb dp
    pure (some ip)

theorem createNew_shows {type major minor : BitVec 16} {r : Option CacheSlot}
    (h : Shows sb t k) (hlaw : t.Law sb.ninodes) (hshort : sb.ninodes ≤ 65536) (hd : k.holds dp)
    (hdir : (k.icache dp).type = T_DIR) (htype : type ≠ 0)
    (hlive : t.nlink (k.icache dp).inum ≠ 0)
    (hmax : type = T_DIR → t.nlink (k.icache dp).inum ≠ 32767)
    (hrun : createNew sb devsw dp name type major minor k = .ok (r, k')) :
    ∃ t', Shows sb t' k' ∧ t'.Law sb.ninodes ∧ ∀ ip, r = some ip → k'.holds ip := by
  generalize hdn : (k.icache dp).inum = d at *
  have htd : t.type d = T_DIR := by
    rw [← hdn, h.type_eq hd, hdir]
  have hlived : t.Live d := ⟨htd, hlive⟩
  obtain ⟨ip, k1, halloc, hrun1⟩ := bind_eq_ok.mp hrun
  obtain ⟨i, hfree, hi0, hin, h1, hinum1, honly1, hother⟩ := ialloc_shows h halloc
  have hne : dp ≠ ip := hother dp hd
  have hid : d ≠ i := by
    intro heq
    rw [heq, hfree] at htd
    cases htd
  have hd1 := honly1.holds hne hd
  obtain ⟨u2, k2, hlock, hrun2⟩ := bind_eq_ok.mp hrun1
  obtain ⟨h2, hp2, hinum2, -, -, honly2⟩ := ilock_shows h1 hlock
  have hd2 := honly2.holds hne hd1
  have hi2 : (k2.icache ip).inum = i := hinum2.trans hinum1
  obtain ⟨u3, k3, hassign, hrun3⟩ := bind_eq_ok.mp hrun2
  obtain ⟨h3, heq3, hp3, honly3⟩ := assign_shows h2 hp2 hassign
  have hd3 := honly3.holds hne hd2
  have hi3 : (k3.icache ip).inum = i := by
    rw [heq3]
    exact hi2
  have hd3i : (k3.icache dp).inum = d := by
    rw [honly3 dp hne, honly2 dp hne, honly1 dp hne, hdn]
  rw [hi2] at h3
  have hone : ((Assign.create major minor).apply (k2.icache ip)).nlink = 1 := rfl
  rw [hone] at h3
  generalize ht3 : (t.make i type).setNlink i 1 = t3 at h3
  have hdirents3 : ∀ c, c ≠ i → t3.dirents c = t.dirents c := by
    intro c hc
    rw [← ht3]
    exact Function.update_of_ne hc ..
  have hnlink3 : t3.nlink d = t.nlink d := by
    rw [← ht3, Tree.setNlink_ne _ _ hid]
    exact Function.update_of_ne hid ..
  obtain ⟨u4, k4, hdotsrun, hrun4⟩ := bind_eq_ok.mp hrun3
  have hnew3 : t3.dirents (k3.icache ip).inum = [] := by
    rw [hi3, ← ht3]
    exact Tree.make_dirents_self t i type
  obtain ⟨hd4, hp4, hd4i, hi4, hfile4, hdir4⟩ := createDots_shows h3 hd3 hp3 hne hnew3
    (by rw [hi3]; exact hi0) hshort hdotsrun
  rw [hd3i] at hd4i hdir4
  rw [hi3] at hi4 hdir4
  rw [hnlink3] at hdir4
  obtain ⟨entry, k5, hentry, hrun5⟩ := bind_eq_ok.mp hrun4
  cases hentry
  rw [hi4] at hrun5
  obtain ⟨r6, k6, hlink, hrun6⟩ := bind_eq_ok.mp hrun5
  by_cases hr6 : r6 < 0
  · rw [if_pos hr6] at hrun6
    cases hrun6
  rw [if_neg hr6] at hrun6
  obtain ⟨u7, k7, hput, hpure⟩ := bind_eq_ok.mp hrun6
  obtain ⟨rfl, rfl⟩ := pure_eq_ok.mp hpure
  -- The directory has no other entries than before.
  have hend : ∀ {t4}, Shows sb t4 k4 → t4.dirents d = t.dirents d →
      (∀ m, Vacant t d m name → (t4.put d m (newEntry i name)).Law sb.ninodes) →
      ∃ t', Shows sb t' k' ∧ t'.Law sb.ninodes ∧ ∀ x, some ip = some x → k'.holds x := by
    intro t4 h4 hdirents4 hlaw4
    obtain ⟨hd6, -, hsame6, -, hcases6⟩ := dirlink_shows h4 hd4 hin hshort hlink
    obtain ⟨-, honly6, m, hvac, h6⟩ := hcases6.resolve_left fun hno => hr6 hno.1
    rw [hd4i] at hvac h6
    have hvac' : Vacant t d m name := by
      obtain ⟨hle, hempty, hfresh⟩ := hvac
      rw [hdirents4] at hle hempty hfresh
      exact ⟨hle, hempty, hfresh⟩
    have hlaw6 := hlaw4 m hvac'
    obtain ⟨⟨t7, hfrees, h7⟩, -, honly7⟩ := iunlockput_shows h6 hput
    refine ⟨t7, h7, (hfrees.law hlaw6 h6.ranged).1, ?_⟩
    intro x hx
    cases hx
    exact honly7.holds (Ne.symm hne) (honly6.holds (Ne.symm hne) hp4)
  have heinum : (newEntry i name).inum.toNat = i :=
    inum_encodeDirent (Nat.lt_of_lt_of_le hin hshort) name
  by_cases hty : type = T_DIR
  · apply hend (hdir4 hty)
    · rw [Tree.put_ne _ _ _ hid, Tree.put_ne _ _ _ hid, Tree.setNlink_dirents]
      exact hdirents3 d hid
    · intro m hvac
      have hinums : ∀ (x : Nat) (s : List Byte), x < sb.ninodes →
          (newEntry x s).inum.toNat = x :=
        fun x s hx => inum_encodeDirent (Nat.lt_of_lt_of_le hx hshort) s
      have hdots : ∀ (x : Nat) (s : List Byte), namecmp (newEntry x s).name s = true := by
        intro x s
        unfold newEntry
        rw [namecmp_encodeDirent]
        exact decide_eq_true rfl
      have hdlt : d < sb.ninodes := (h.ranged d htd).1
      apply Tree.Law.mkdir
      refine ⟨hlaw, h.ranged, hlived, hin, hfree, hi0, hmax hty, hvac.empty,
        ⟨hinums i [46] hin, hdots i [46]⟩, ⟨hinums d [46, 46] hdlt, hdots d [46, 46]⟩, heinum,
        ?_, ?_, ?_, ?_, ?_⟩
      · rw [← ht3, hty]
        rfl
      · funext c
        rw [← ht3]
        by_cases hci : c = i
        · rw [hci, Function.update_self]
          show Function.update _ d _ i = 1
          rw [Function.update_of_ne (Ne.symm hid)]
          exact Function.update_self ..
        · rw [Function.update_of_ne hci]
          by_cases hcd : c = d
          · rw [hcd, Function.update_self]
            exact Function.update_self ..
          · rw [Function.update_of_ne hcd]
            show Function.update _ d _ c = _
            rw [Function.update_of_ne hcd]
            show Function.update _ i _ c = _
            rw [Function.update_of_ne hci]
            exact Function.update_of_ne hci ..
      · rw [Tree.put_ne _ _ _ (Ne.symm hid), Tree.put_self, Tree.put_self,
          Tree.setNlink_dirents, ← ht3]
        show Tree.putEntry (Tree.putEntry ((t.make i type).dirents i) 0 _) 1 _ = _
        rw [Tree.make_dirents_self]
        rfl
      · rw [Tree.put_self, Tree.put_ne _ _ _ hid, Tree.put_ne _ _ _ hid, Tree.setNlink_dirents,
          hdirents3 d hid]
      · intro c hci hcd
        rw [Tree.put_ne _ _ _ hcd, Tree.put_ne _ _ _ hci, Tree.put_ne _ _ _ hci,
          Tree.setNlink_dirents, hdirents3 c hci]
  · apply hend (hfile4 hty)
    · exact hdirents3 d hid
    · intro m hvac
      have hmake := hlaw.make h.ranged hfree hi0 hty
      have hranged : (t.make i type).Ranged sb.ninodes := h.ranged.make hin
      have hlivem : (t.make i type).Live d := by
        refine ⟨?_, ?_⟩
        · rw [← htd]
          exact Function.update_of_ne hid ..
        · have hsame : (t.make i type).nlink d = t.nlink d := Function.update_of_ne hid ..
          rw [hsame]
          exact hlive
      have hdirentsm : (t.make i type).dirents d = t.dirents d := Function.update_of_ne hid ..
      have hvacm : ∀ e, ((t.make i type).dirents d)[m]? = some e → e.inum = 0 := by
        rw [hdirentsm]
        exact hvac.empty
      have hzero : (t.make i type).nlink i = 0 := Tree.make_nlink_self ..
      have henter := hmake.enter hranged hlivem hvacm (by rw [Tree.make_type_self]; exact htype)
        (by rw [Tree.make_type_self]; exact hty) (by rw [hzero]; decide) heinum
      rw [hzero] at henter
      rw [← ht3]
      exact henter

/-- The directory at `dp` does not have the name yet. -/
def NewName (sb : Superblock) (k : Kernel) (dp : CacheSlot) (name : List Byte) : Prop :=
  Found ((tree sb k.disk).dirents (k.icache dp).inum) name none

/-- The links of an entry of the cache, as the disk has them. -/
def links (sb : Superblock) (k : Kernel) (s : CacheSlot) : BitVec 16 :=
  (tree sb k.disk).nlink (k.icache s).inum

/-- If an entry is to be made for the path, its directory has `P`. -/
def Enters (sb : Superblock) (devsw : Fin NDEV → Devsw) (cwd : CacheSlot) (path : List Byte)
    (P : Kernel → CacheSlot → Prop) (k : Kernel) : Prop :=
  ∀ dp name k', nameiparent sb devsw cwd path k = .ok (some (dp, name), k') →
    NewName sb k' dp name → P k' dp

/-- There is a reference to the directory of the process, and the law holds. -/
structure Lawful (sb : Superblock) (cwd : CacheSlot) (t : Tree) (k : Kernel) : Prop where
  shows : Shows sb t k
  law : t.Law sb.ninodes
  cwd : 1 ≤ refs k cwd

theorem Lawful.cover (h : Lawful sb cwd t k) (i : CacheSlot) : own cwd i + nil i ≤ refs k i := by
  show own cwd i + 0 ≤ refs k i
  unfold own
  by_cases hi : i = cwd
  · rw [if_pos hi, hi]
    exact h.cwd
  · rw [if_neg hi]
    exact Nat.zero_le _

theorem Lawful.lookup {p : Call α} {take : α → CacheSlot → Nat} {Q : α → Kernel → Prop} {a : α}
    (h : Lawful sb cwd t k) (hp : Calm sb (own cwd) Any p nil take Q)
    (hrun : p k = .ok (a, k')) : ∃ t', Lawful sb cwd t' k' ∧ Q a k' ∧
      ∀ i, take a i ≤ refs k' i := by
  have hcover : ∀ i, nil i + own cwd i ≤ refs k i := by
    intro i
    rw [Nat.add_comm]
    exact h.cover i
  obtain ⟨⟨t', hfrees, hs⟩, hQ, -⟩ := hp.run t k a k' h.shows trivial hcover hrun
  have htrade := hp.trades k a k' (fun _ => Nat.zero_le _) hrun
  refine ⟨t', ⟨hs, (hfrees.law h.law h.shows.ranged).1, ?_⟩, hQ, ?_⟩
  · have hc := h.cwd
    have hi := htrade cwd
    have hnil : (nil : CacheSlot → Nat) cwd = 0 := rfl
    omega
  · intro i
    have hi := htrade i
    have hnil : (nil : CacheSlot → Nat) i = 0 := rfl
    omega

theorem own_self_pos : 0 < own cwd cwd := by
  unfold own
  rw [if_pos rfl]
  exact Nat.one_pos

theorem create_shows {type major minor : BitVec 16} {r : Option CacheSlot}
    (h : Lawful sb cwd t k) (hroot : ROOTINO < sb.ninodes) (hshort : sb.ninodes ≤ 65536)
    (htype : type ≠ 0) (hroom : Enters sb devsw cwd path
      (fun k dp => links sb k dp ≠ 0 ∧ (type = T_DIR → links sb k dp ≠ 32767)) k)
    (hrun : create sb devsw cwd path type major minor k = .ok (r, k')) :
    ∃ t', Shows sb t' k' ∧ t'.Law sb.ninodes ∧ ∀ ip, r = some ip → k'.holds ip := by
  obtain ⟨found, k1, hpath, hrun1⟩ := bind_eq_ok.mp hrun
  obtain ⟨t1, h1, -, -⟩ := h.lookup (nameiparent_calm hroot own_self_pos path) hpath
  cases found with
  | none =>
    obtain ⟨rfl, rfl⟩ := pure_eq_ok.mp hrun1
    refine ⟨t1, h1.shows, h1.law, ?_⟩
    intro ip hip
    cases hip
  | some f =>
    obtain ⟨dp, name⟩ := f
    obtain ⟨u2, k2, hlock, hrun2⟩ := bind_eq_ok.mp hrun1
    obtain ⟨h2, hd2, hinum2, -, -, -⟩ := ilock_shows h1.shows hlock
    obtain ⟨found3, k3, hlook, hrun3⟩ := bind_eq_ok.mp hrun2
    obtain ⟨hdir, h3, hlooks, -⟩ := dirlookup_shows h2 hd2 hlook
    cases found3 with
    | some f3 =>
      obtain ⟨ip, off⟩ := f3
      obtain ⟨u4, k4, hput, hrun4⟩ := bind_eq_ok.mp hrun3
      obtain ⟨⟨t4, hfrees4, h4⟩, -, -⟩ := iunlockput_shows h3 hput
      have hlaw4 := hfrees4.law h1.law h3.ranged
      obtain ⟨u5, k5, hlock5, hrun5⟩ := bind_eq_ok.mp hrun4
      obtain ⟨h5, hp5, -, -, -, -⟩ := ilock_shows h4 hlock5
      obtain ⟨entry, k6, hentry, hrun6⟩ := bind_eq_ok.mp hrun5
      cases hentry
      by_cases hfile : type = T_FILE ∧ (k5.icache ip).type = T_FILE
      · rw [if_pos hfile] at hrun6
        obtain ⟨rfl, rfl⟩ := pure_eq_ok.mp hrun6
        refine ⟨t4, h5, hlaw4.1, ?_⟩
        intro x hx
        cases hx
        exact hp5
      · rw [if_neg hfile] at hrun6
        obtain ⟨u7, k7, hput7, hpure⟩ := bind_eq_ok.mp hrun6
        obtain ⟨rfl, rfl⟩ := pure_eq_ok.mp hpure
        obtain ⟨⟨t7, hfrees7, h7⟩, -, -⟩ := iunlockput_shows h5 hput7
        refine ⟨t7, h7, (hfrees7.law hlaw4.1 hlaw4.2).1, ?_⟩
        intro x hx
        cases hx
    | none =>
      obtain ⟨rfl, hfresh⟩ := hlooks
      have hnew : NewName sb k1 dp name := by
        unfold NewName
        rw [h1.shows.tree, ← hinum2]
        exact hfresh
      obtain ⟨hlive, hmax⟩ := hroom dp name k1 hpath hnew
      unfold links at hlive hmax
      rw [h1.shows.tree, ← hinum2] at hlive hmax
      exact createNew_shows h2 h1.law hshort hd2 hdir htype hlive hmax hrun3

/-- `sys_mkdir` and `sys_mknod`. -/
theorem make_shows {type major minor : BitVec 16}
    (h : Lawful sb cwd t k) (hroot : ROOTINO < sb.ninodes) (hshort : sb.ninodes ≤ 65536)
    (htype : type ≠ 0) (hroom : Enters sb devsw cwd path
      (fun k dp => links sb k dp ≠ 0 ∧ (type = T_DIR → links sb k dp ≠ 32767)) k)
    (hrun : make sb devsw cwd path type major minor k = .ok (r, k')) :
    ∃ t', Shows sb t' k' ∧ t'.Law sb.ninodes := by
  obtain ⟨found, k1, hcreate, hrun1⟩ := bind_eq_ok.mp hrun
  obtain ⟨t1, h1, hlaw1, -⟩ := create_shows h hroot hshort htype hroom hcreate
  cases found with
  | none =>
    obtain ⟨rfl, rfl⟩ := pure_eq_ok.mp hrun1
    exact ⟨t1, h1, hlaw1⟩
  | some ip =>
    obtain ⟨u2, k2, hput, hpure⟩ := bind_eq_ok.mp hrun1
    obtain ⟨rfl, rfl⟩ := pure_eq_ok.mp hpure
    obtain ⟨⟨t2, hfrees, h2⟩, -, -⟩ := iunlockput_shows h1 hput
    exact ⟨t2, h2, (hfrees.law hlaw1 h1.ranged).1⟩

/-! ### sys_slink -/

/-- `sys_slink` up to `create`: it has looked at `old`, and is not done. -/
def slinkOld (sb : Superblock) (devsw : Fin NDEV → Devsw) (cwd : CacheSlot) (old : List Byte) :
    Call (Option CacheSlot) := do
  match ← namei sb devsw cwd old with
  | none => pure none
  | some ip => do
    ilock sb ip
    let entry ← inode ip
    if entry.type = T_DIR then do
      iunlockput sb ip
      pure none
    else do
      iunlock ip
      pure (some ip)

/-- `slink` never gives up a reference that others hold. -/
theorem sysSlink_grows {old new : List Byte} (hrun : sysSlink sb devsw cwd old new k = .ok (r, k'))
    (i : CacheSlot) : refs k i ≤ refs k' i := by
  have hnil : ∀ (k : Kernel) (j : CacheSlot), (nil : CacheSlot → Nat) j ≤ refs k j :=
    fun _ _ => Nat.zero_le _
  obtain ⟨found, k1, hpath, hrun1⟩ := bind_eq_ok.mp hrun
  have htrade1 := namei_trades cwd old k found k1 (hnil k) hpath i
  cases found with
  | none =>
    obtain ⟨rfl, rfl⟩ := pure_eq_ok.mp hrun1
    exact Nat.le_of_eq htrade1.symm
  | some ip =>
    obtain ⟨u2, k2, hlock, hrun2⟩ := bind_eq_ok.mp hrun1
    have htrade2 := ilock_trades ip k1 u2 k2 (hnil k1) hlock
    obtain ⟨entry, k3, hentry, hrun3⟩ := bind_eq_ok.mp hrun2
    cases hentry
    have hown : ∀ j, own ip j ≤ refs k2 j := by
      intro j
      have h1 : refs k1 j + 0 = refs k j + own ip j :=
        namei_trades cwd old k (some ip) k1 (hnil k) hpath j
      have h2 : refs k2 j + 0 = refs k1 j + 0 := htrade2 j
      omega
    have hi1 : refs k1 i + 0 = refs k i + own ip i := htrade1
    have hi2 : refs k2 i + 0 = refs k1 i + 0 := htrade2 i
    by_cases hdir : (k2.icache ip).type = T_DIR
    · rw [if_pos hdir] at hrun3
      have htrades : Trades refs (iunlockput sb ip >>= fun _ => pure (-1) : Call Int) (own ip)
          fun _ => nil := put_return ip _ fun _ => rfl
      have hput : refs k' i + own ip i = refs k2 i + 0 := htrades k2 r k' hown hrun3 i
      omega
    · rw [if_neg hdir] at hrun3
      have hrest : Trades refs (do
          iunlock ip
          match ← create sb devsw cwd new T_SYM 0 0 with
          | none => pure (-1)
          | some np => do
            assign sb np (.slink old)
            iunlockput sb np
            pure 0 : Call Int) nil fun _ => nil := by
        apply Trades.bind (iunlock_trades ip)
        intro _
        apply Trades.bind (create_trades cwd new _ _ _)
        intro made
        cases made with
        | none => exact Trades.pure fun _ => rfl
        | some np =>
          apply with_own np (assign_trades np _)
          intro _
          exact put_return np _ fun _ => rfl
      have hput : refs k' i + 0 = refs k2 i + 0 := hrest k2 r k' (hnil k2) hrun3 i
      omega

theorem sysSlink_shows {old new : List Byte}
    (h : Lawful sb cwd t k) (hroot : ROOTINO < sb.ninodes) (hshort : sb.ninodes ≤ 65536)
    (hroom : ∀ ip k1, slinkOld sb devsw cwd old k = .ok (some ip, k1) →
      Enters sb devsw cwd new (fun k dp => links sb k dp ≠ 0) k1)
    (hrun : sysSlink sb devsw cwd old new k = .ok (r, k')) :
    ∃ t', Shows sb t' k' ∧ t'.Law sb.ninodes := by
  obtain ⟨found, k1, hpath, hrun1⟩ := bind_eq_ok.mp hrun
  obtain ⟨t1, h1, -, -⟩ := h.lookup (namei_calm hroot own_self_pos old) hpath
  cases found with
  | none =>
    obtain ⟨rfl, rfl⟩ := pure_eq_ok.mp hrun1
    exact ⟨t1, h1.shows, h1.law⟩
  | some ip =>
    obtain ⟨u2, k2, hlock, hrun2⟩ := bind_eq_ok.mp hrun1
    obtain ⟨h2, -, -, -, -, -⟩ := ilock_shows h1.shows hlock
    have htrade2 := ilock_trades ip k1 u2 k2 (fun _ => Nat.zero_le _) hlock cwd
    obtain ⟨entry, k3, hentry, hrun3⟩ := bind_eq_ok.mp hrun2
    cases hentry
    by_cases hdir : (k2.icache ip).type = T_DIR
    · rw [if_pos hdir] at hrun3
      obtain ⟨u4, k4, hput, hpure⟩ := bind_eq_ok.mp hrun3
      obtain ⟨rfl, rfl⟩ := pure_eq_ok.mp hpure
      obtain ⟨⟨t4, hfrees, h4⟩, -, -⟩ := iunlockput_shows h2 hput
      exact ⟨t4, h4, (hfrees.law h1.law h2.ranged).1⟩
    · rw [if_neg hdir] at hrun3
      obtain ⟨u4, k4, hunlock, hrun4⟩ := bind_eq_ok.mp hrun3
      obtain ⟨h4, -, -, -⟩ := iunlock_shows h2 hunlock
      have htrade4 := iunlock_trades ip k2 u4 k4 (fun _ => Nat.zero_le _) hunlock cwd
      have hlawful : Lawful sb cwd t1 k4 := by
        refine ⟨h4, h1.law, ?_⟩
        have hcwd := h1.cwd
        have hzero : (nil : CacheSlot → Nat) cwd = 0 := rfl
        omega
      have hold : slinkOld sb devsw cwd old k = .ok (some ip, k4) := by
        refine bind_eq_ok.mpr ⟨some ip, k1, hpath, bind_eq_ok.mpr ⟨u2, k2, hlock,
          bind_eq_ok.mpr ⟨k2.icache ip, k2, rfl, ?_⟩⟩⟩
        rw [if_neg hdir]
        exact bind_eq_ok.mpr ⟨u4, k4, hunlock, rfl⟩
      obtain ⟨made, k5, hcreate, hrun5⟩ := bind_eq_ok.mp hrun4
      have hroom5 : Enters sb devsw cwd new
          (fun k dp => links sb k dp ≠ 0 ∧ (T_SYM = T_DIR → links sb k dp ≠ 32767)) k4 := by
        intro dp name k6 hp hnew
        refine ⟨hroom ip k4 hold dp name k6 hp hnew, ?_⟩
        intro hno
        cases hno
      obtain ⟨t5, h5, hlaw5, hmade⟩ :=
        create_shows hlawful hroot hshort (by decide) hroom5 hcreate
      cases made with
      | none =>
        obtain ⟨rfl, rfl⟩ := pure_eq_ok.mp hrun5
        exact ⟨t5, h5, hlaw5⟩
      | some np =>
        have hnp := hmade np rfl
        obtain ⟨u6, k6, hassign, hrun6⟩ := bind_eq_ok.mp hrun5
        obtain ⟨h6, -, -, -⟩ := assign_shows h5 hnp hassign
        have hsame : ((Assign.slink old).apply (k5.icache np)).nlink =
            t5.nlink (k5.icache np).inum := (h5.nlink_eq hnp).symm
        rw [hsame, Tree.setNlink_eq_self] at h6
        obtain ⟨u7, k7, hput, hpure⟩ := bind_eq_ok.mp hrun6
        obtain ⟨rfl, rfl⟩ := pure_eq_ok.mp hpure
        obtain ⟨⟨t7, hfrees, h7⟩, -, -⟩ := iunlockput_shows h6 hput
        exact ⟨t7, h7, (hfrees.law hlaw5 h5.ranged).1⟩

/-! ### sys_link -/

/-- `sys_link` up to `nameiparent`, with one more link counted for the file. -/
def linkOld (sb : Superblock) (devsw : Fin NDEV → Devsw) (cwd : CacheSlot) (old : List Byte) :
    Call (Option CacheSlot) := do
  match ← namei sb devsw cwd old with
  | none => pure none
  | some ip => do
    ilock sb ip
    let entry ← inode ip
    if entry.type = T_DIR ∨ entry.type = T_SYM then do
      iunlockput sb ip
      pure none
    else do
      assign sb ip .link
      iunlock ip
      pure (some ip)

/-- The link that was counted is taken back. -/
theorem linkBad_shows (h : Shows sb (t.setNlink i (t.nlink i + 1)) k)
    (hi : (k.icache ip).inum = i) (hrun : linkBad sb ip k = .ok (r, k')) :
    ∃ t', t.Frees t' ∧ Shows sb t' k' := by
  obtain ⟨u1, k1, hlock, hrun1⟩ := bind_eq_ok.mp hrun
  obtain ⟨h1, hp1, hinum1, -, -, -⟩ := ilock_shows h hlock
  have hi1 : (k1.icache ip).inum = i := hinum1.trans hi
  obtain ⟨u2, k2, hassign, hrun2⟩ := bind_eq_ok.mp hrun1
  obtain ⟨h2, -, -, -⟩ := assign_shows h1 hp1 hassign
  have hback : ((Assign.unlink).apply (k1.icache ip)).nlink = t.nlink i := by
    have hnlink := h1.nlink_eq hp1
    rw [hi1, Tree.setNlink_self] at hnlink
    show (k1.icache ip).nlink - 1 = t.nlink i
    rw [← hnlink]
    exact BitVec.add_sub_cancel _ _
  rw [hback, hi1, Tree.setNlink_setNlink, Tree.setNlink_eq_self] at h2
  obtain ⟨u3, k3, hput, hpure⟩ := bind_eq_ok.mp hrun2
  obtain ⟨rfl, rfl⟩ := pure_eq_ok.mp hpure
  exact (iunlockput_shows h2 hput).1

theorem sysLink_shows {old new : List Byte}
    (h : Lawful sb cwd t k) (hroot : ROOTINO < sb.ninodes) (hshort : sb.ninodes ≤ 65536)
    (hroom : ∀ ip k1, linkOld sb devsw cwd old k = .ok (some ip, k1) →
      Enters sb devsw cwd new (fun k dp => links sb k dp ≠ 0 ∧ links sb k ip ≠ 32768) k1)
    (hrun : sysLink sb devsw cwd old new k = .ok (r, k')) :
    ∃ t', Shows sb t' k' ∧ t'.Law sb.ninodes := by
  obtain ⟨found, k1, hpath, hrun1⟩ := bind_eq_ok.mp hrun
  obtain ⟨t1, h1, -, htake1⟩ := h.lookup (namei_calm hroot own_self_pos old) hpath
  have htrade1 := namei_trades cwd old k found k1 (fun _ => Nat.zero_le _) hpath
  cases found with
  | none =>
    obtain ⟨rfl, rfl⟩ := pure_eq_ok.mp hrun1
    exact ⟨t1, h1.shows, h1.law⟩
  | some ip =>
    obtain ⟨u2, k2, hlock, hrun2⟩ := bind_eq_ok.mp hrun1
    obtain ⟨h2, hp2, -, -, -, -⟩ := ilock_shows h1.shows hlock
    have htrade2 := ilock_trades ip k1 u2 k2 (fun _ => Nat.zero_le _) hlock
    obtain ⟨entry, k3, hentry, hrun3⟩ := bind_eq_ok.mp hrun2
    cases hentry
    by_cases hdir : (k2.icache ip).type = T_DIR ∨ (k2.icache ip).type = T_SYM
    · rw [if_pos hdir] at hrun3
      obtain ⟨u4, k4, hput, hpure⟩ := bind_eq_ok.mp hrun3
      obtain ⟨rfl, rfl⟩ := pure_eq_ok.mp hpure
      obtain ⟨⟨t4, hfrees, h4⟩, -, -⟩ := iunlockput_shows h2 hput
      exact ⟨t4, h4, (hfrees.law h1.law h2.ranged).1⟩
    rw [if_neg hdir] at hrun3
    rw [not_or] at hdir
    generalize hi2 : (k2.icache ip).inum = i at *
    have htype1 : t1.type i = (k2.icache ip).type := by
      rw [← hi2]
      exact h2.type_eq hp2
    have hne0 : t1.type i ≠ 0 := by
      rw [htype1]
      exact (h2.cached hp2).2
    have hfile : t1.type i ≠ T_DIR := by
      rw [htype1]
      exact hdir.1
    obtain ⟨u4, k4, hassign, hrun4⟩ := bind_eq_ok.mp hrun3
    obtain ⟨h4, heq4, -, -⟩ := assign_shows h2 hp2 hassign
    have htrade4 := assign_trades ip _ k2 u4 k4 (fun _ => Nat.zero_le _) hassign
    have hnlink4 : ((Assign.link).apply (k2.icache ip)).nlink = t1.nlink i + 1 := by
      rw [← hi2, h2.nlink_eq hp2]
      rfl
    rw [hnlink4, hi2] at h4
    obtain ⟨u5, k5, hunlock, hrun5⟩ := bind_eq_ok.mp hrun4
    obtain ⟨h5, heq5, -, -⟩ := iunlock_shows h4 hunlock
    have htrade5 := iunlock_trades ip k4 u5 k5 (fun _ => Nat.zero_le _) hunlock
    have hi5 : (k5.icache ip).inum = i := by
      rw [heq5, heq4]
      exact hi2
    have hsucc := Tree.Law.toNat_succ (x := t1.nlink i) (by
      have hlinks := h1.law.links i hne0
      omega)
    have hx : t1.nlink i + 1 ≠ 0 := by
      intro hz
      rw [hz] at hsucc
      exact absurd hsucc (Nat.succ_ne_zero _).symm
    have hold : linkOld sb devsw cwd old k = .ok (some ip, k5) := by
      refine bind_eq_ok.mpr ⟨some ip, k1, hpath, bind_eq_ok.mpr ⟨u2, k2, hlock,
        bind_eq_ok.mpr ⟨k2.icache ip, k2, rfl, ?_⟩⟩⟩
      rw [if_neg (not_or.mpr hdir)]
      exact bind_eq_ok.mpr ⟨u4, k4, hassign, bind_eq_ok.mpr ⟨u5, k5, hunlock, rfl⟩⟩
    -- The references to the file and to the directory of the process.
    have hcover : ∀ j, nil j + (own ip j + own cwd j) ≤ refs k5 j := by
      intro j
      have e1 := htrade1 j
      have e2 := htrade2 j
      have e4 := htrade4 j
      have e5 := htrade5 j
      have hzero : (nil : CacheSlot → Nat) j = 0 := rfl
      have hheld : held (some ip) j = own ip j := rfl
      have hcwd : own cwd j ≤ refs k j := by
        unfold own
        by_cases hj : j = cwd
        · rw [if_pos hj, hj]
          exact h.cwd
        · rw [if_neg hj]
          exact Nat.zero_le _
      omega
    have honeip : own ip ip = 1 := if_pos rfl
    obtain ⟨found6, k6, hparent, hrun6⟩ := bind_eq_ok.mp hrun5
    have hcalm := @nameiparent_calm sb devsw (fun j => own ip j + own cwd j) cwd hroot
      (Nat.lt_of_lt_of_le own_self_pos (Nat.le_add_left _ _)) new
    obtain ⟨⟨t6', hfrees6, h6⟩, -, hinum6⟩ := hcalm.run _ k5 found6 k6 h5 trivial hcover hparent
    have htrade6 := nameiparent_trades cwd new k5 found6 k6 (fun _ => Nat.zero_le _) hparent
    have hi6 : (k6.icache ip).inum = i := by
      rw [hinum6 ip (by omega), hi5]
    have hkeeps6 := hfrees6.keeps (i := i) (by rw [Tree.setNlink_self]; exact hx)
    obtain ⟨t6, hf6, rfl⟩ := hfrees6.of_setNlink hx
    obtain ⟨hlaw6, hranged6⟩ := hf6.law h1.law h1.shows.ranged
    have hnlink6 : t1.nlink i = t6.nlink i := by rw [hf6.nlink]
    rw [hnlink6] at h6 hx
    cases found6 with
    | none =>
      obtain ⟨t7, hf7, h7⟩ := linkBad_shows h6 hi6 hrun6
      exact ⟨t7, h7, (hf7.law hlaw6 hranged6).1⟩
    | some f =>
      obtain ⟨dp, name⟩ := f
      obtain ⟨u7, k7, hlock7, hrun7⟩ := bind_eq_ok.mp hrun6
      obtain ⟨h7, hd7, hinum7, href7, -, honly7⟩ := ilock_shows h6 hlock7
      have hsame7 : ∀ x, (k7.icache x).inum = (k6.icache x).inum ∧
          (k7.icache x).ref = (k6.icache x).ref := by
        intro x
        by_cases hxd : x = dp
        · rw [hxd]
          exact ⟨hinum7, href7⟩
        · rw [honly7 x hxd]
          exact ⟨rfl, rfl⟩
      have href7 : 1 ≤ (k7.icache ip).ref := by
        rw [(hsame7 ip).2]
        have e6 := htrade6 ip
        have ec := hcover ip
        have hzero : (nil : CacheSlot → Nat) ip = 0 := rfl
        show 1 ≤ refs k6 ip
        omega
      obtain ⟨r8, k8, hlink, hrun8⟩ := bind_eq_ok.mp hrun7
      have hilt : i < sb.ninodes := by
        rw [← hi2]
        exact h2.lt hp2
      obtain ⟨hd8, hdir8, hsame8, hinum8, hcases8⟩ := dirlink_shows h7 hd7 hilt hshort hlink
      generalize hdn : (k7.icache dp).inum = d at *
      by_cases hr8 : r8 < 0
      · rw [if_pos hr8] at hrun8
        have hfail := hcases8.resolve_right fun hno => hno.1 hr8
        obtain ⟨-, t8', hfrees8, h8⟩ := hfail
        obtain ⟨t8, hf8, rfl⟩ := hfrees8.of_setNlink hx
        obtain ⟨u9, k9, hput9, hrun9⟩ := bind_eq_ok.mp hrun8
        obtain ⟨⟨t9', hfrees9, h9⟩, hinum9, -⟩ := iunlockput_shows h8 hput9
        obtain ⟨t9, hf9, rfl⟩ := hfrees9.of_setNlink hx
        have hi9 : (k9.icache ip).inum = i := by
          rw [hinum9, hinum8 ip href7, (hsame7 ip).1, hi6]
        have hnlink9 : t6.nlink i = t9.nlink i := by rw [(hf8.trans hf9).nlink]
        rw [hnlink9] at h9
        obtain ⟨t10, hf10, h10⟩ := linkBad_shows h9 hi9 hrun9
        exact ⟨t10, h10, (((hf8.trans hf9).trans hf10).law hlaw6 hranged6).1⟩
      · rw [if_neg hr8] at hrun8
        obtain ⟨-, -, m, hvac, h8⟩ := hcases8.resolve_left fun hno => hr8 hno.1
        have htd : t6.type d = T_DIR := by
          have htype7 := h7.type_eq hd7
          rw [hdn, Tree.setNlink_type, hdir8] at htype7
          exact htype7
        have hid : d ≠ i := by
          intro heq
          have htype6 : t6.type i = t1.type i := hkeeps6.1
          rw [heq, htype6] at htd
          exact hfile htd
        have hd6 : (k6.icache dp).inum = d := by
          rw [← (hsame7 dp).1, hdn]
        have hnew : NewName sb k6 dp name := by
          unfold NewName
          rw [h6.tree, hd6]
          exact hvac.fresh
        obtain ⟨hlive, hmax⟩ := hroom ip k5 hold dp name k6 hparent hnew
        unfold links at hlive hmax
        rw [h6.tree, hd6, Tree.setNlink_ne _ _ hid] at hlive
        rw [h6.tree, hi6, Tree.setNlink_self] at hmax
        have htype6 : t6.type i = t1.type i := hkeeps6.1
        have henter := hlaw6.enter (e := newEntry i name) hranged6 ⟨htd, hlive⟩ hvac.empty
          (by rw [htype6]; exact hne0) (by rw [htype6]; exact hfile) (by
            intro heq
            rw [heq] at hmax
            exact hmax rfl) (inum_encodeDirent (Nat.lt_of_lt_of_le hilt hshort) name)
        obtain ⟨u9, k9, hput9, hrun9⟩ := bind_eq_ok.mp hrun8
        obtain ⟨⟨t9, hf9, h9⟩, -, -⟩ := iunlockput_shows h8 hput9
        have hlaw9 := hf9.law henter h8.ranged
        obtain ⟨u10, k10, hput10, hpure⟩ := bind_eq_ok.mp hrun9
        obtain ⟨rfl, rfl⟩ := pure_eq_ok.mp hpure
        cases (iput_shows h9 hput10).1 with
        | inl hs => exact ⟨t9, hs, hlaw9.1⟩
        | inr hfree =>
          obtain ⟨-, htype, hzero, hs⟩ := hfree
          exact ⟨_, hs, hlaw9.1.free hlaw9.2 htype hzero⟩

end Call

end Xv6.Fs
