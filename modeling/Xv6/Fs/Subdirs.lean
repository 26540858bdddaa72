import Xv6.Fs.Naming

/-!
# Directories in directories

A directory is made with "." and "..", and is removed when it has no other entries.
-/

namespace Xv6.Fs

namespace Tree

variable {n d i j k : Nat} {t t' : Tree} {e o : Dirent}

namespace Law

/-! ### A directory is made -/

/-- Inode `i`, which was free, is a directory with the entries "." and "..", and `d`, which has
not been removed, has a name for it. -/
structure Mkdir (n : Nat) (t : Tree) (d i k : Nat) (s u e : Dirent) (t' : Tree) : Prop where
  law : Law n t
  ranged : Ranged n t
  live : t.Live d
  lt : i < n
  free : t.type i = 0
  pos : i ≠ 0
  room : t.nlink d ≠ 32767
  vacant : ∀ o, (t.dirents d)[k]? = some o → o.inum = 0
  dot : s.inum.toNat = i ∧ namecmp s.name [46] = true
  dots : u.inum.toNat = d ∧ namecmp u.name [46, 46] = true
  entry : e.inum.toNat = i
  type : t'.type = Function.update t.type i T_DIR
  nlink : t'.nlink = Function.update (Function.update t.nlink d (t.nlink d + 1)) i 1
  new : t'.dirents i = [s, u]
  parent : t'.dirents d = putEntry (t.dirents d) k e
  others : ∀ c, c ≠ i → c ≠ d → t'.dirents c = t.dirents c

theorem hits_none (h : e.inum = 0 ∨ e.inum.toNat ≠ j) (hj : j ≠ 0) : hits d j (some e) = 0 := by
  have hno : names d j e = false := by
    cases h with
    | inl hz => exact names_empty hz hj
    | inr hne => exact names_false hne
  unfold hits
  dsimp only
  rw [hno]
  rfl

theorem hits_one (h : e.inum.toNat = j) (hj : j ≠ d) : hits d j (some e) = 1 := by
  unfold hits
  dsimp only
  rw [names_of_ne h hj]
  rfl

namespace Mkdir

variable {s u : Dirent} {c : Nat}

theorem ne (m : Mkdir n t d i k s u e t') : i ≠ d := by
  intro heq
  have hfree := m.free
  rw [heq, m.live.1] at hfree
  cases hfree

theorem two_le (m : Mkdir n t d i k s u e t') : 2 ≤ k := m.law.two_le m.live.1 m.vacant

theorem root_ne (m : Mkdir n t d i k s u e t') : ROOTINO ≠ i := by
  intro heq
  have htype := m.law.root.1.1
  rw [heq, m.free] at htype
  cases htype

theorem type_self (m : Mkdir n t d i k s u e t') : t'.type i = T_DIR := by
  rw [m.type, Function.update_self]

theorem type_ne (m : Mkdir n t d i k s u e t') (hc : c ≠ i) : t'.type c = t.type c := by
  rw [m.type, Function.update_of_ne hc]

theorem nlink_self (m : Mkdir n t d i k s u e t') : t'.nlink i = 1 := by
  rw [m.nlink, Function.update_self]

theorem nlink_parent (m : Mkdir n t d i k s u e t') : t'.nlink d = t.nlink d + 1 := by
  rw [m.nlink, Function.update_of_ne (Ne.symm m.ne), Function.update_self]

theorem nlink_ne (m : Mkdir n t d i k s u e t') (hci : c ≠ i) (hcd : c ≠ d) :
    t'.nlink c = t.nlink c := by
  rw [m.nlink, Function.update_of_ne hci, Function.update_of_ne hcd]

/-- The count of the parent does not pass its largest value. -/
theorem toNat_parent (m : Mkdir n t d i k s u e t') :
    (t'.nlink d).toNat = (t.nlink d).toNat + 1 ∧ t.count n d < 32767 := by
  have htype : t.type d ≠ 0 := by
    rw [m.live.1]
    decide
  have hlt := m.law.count_lt htype m.room
  have hcount := (m.law.links d htype).1
  rw [m.nlink_parent]
  exact ⟨toNat_succ (by omega), hlt⟩

theorem nlink_parent_ne (m : Mkdir n t d i k s u e t') : t'.nlink d ≠ 0 := by
  intro hz
  have hsucc := m.toNat_parent.1
  rw [hz] at hsucc
  exact absurd hsucc (Nat.succ_ne_zero _).symm

theorem live_self (m : Mkdir n t d i k s u e t') : t'.Live i := by
  refine ⟨m.type_self, ?_⟩
  rw [m.nlink_self]
  decide

theorem live_iff (m : Mkdir n t d i k s u e t') (hc : c ≠ i) : t'.Live c ↔ t.Live c := by
  by_cases hcd : c = d
  · subst hcd
    exact ⟨fun _ => m.live, fun _ => ⟨(m.type_ne hc).trans m.live.1, m.nlink_parent_ne⟩⟩
  · unfold Tree.Live
    rw [m.type_ne hc, m.nlink_ne hc hcd]

theorem dirents_ne (m : Mkdir n t d i k s u e t') (hc : c ≠ i) :
    t'.dirents c = (t.put d k e).dirents c := by
  by_cases hcd : c = d
  · subst hcd
    rw [put_self]
    exact m.parent
  · rw [put_ne t k e hcd]
    exact m.others c hc hcd

theorem rest_self (m : Mkdir n t d i k s u e t') : t'.rest i = [] := by
  unfold rest
  rw [m.new]
  rfl

theorem rest_ne (m : Mkdir n t d i k s u e t') (hc : c ≠ i) :
    t'.rest c = (t.put d k e).rest c := by
  unfold rest
  rw [m.dirents_ne hc]

theorem parent_self (m : Mkdir n t d i k s u e t') : t'.parent i = d := by
  unfold Tree.parent
  rw [m.new]
  exact m.dots.1

theorem parent_other (m : Mkdir n t d i k s u e t') (hc : c ≠ i) : t'.parent c = t.parent c := by
  rw [← @parent_put n d k t e m.law m.live.1 m.two_le c]
  unfold Tree.parent
  rw [m.dirents_ne hc]

theorem mem_old (m : Mkdir n t d i k s u e t') (hc : c ≠ i) (ho : o ∈ t'.rest c) :
    o ∈ t.rest c ∨ c = d ∧ o = e := by
  rw [m.rest_ne hc] at ho
  exact m.law.mem_rest_put m.live.1 m.two_le ho

theorem count_eq (m : Mkdir n t d i k s u e t') (hj : j ≠ 0) :
    t'.count n j = t.count n j + (if j = i then 1 else 0) + if j = d then 1 else 0 := by
  have hput := @count_put n d k t e (m.ranged d m.live.1).1 m.live j
  have hold : hits d j (t.dirents d)[k]? = 0 := by
    cases hat : (t.dirents d)[k]? with
    | none => rfl
    | some o => exact hits_none (Or.inl (m.vacant o hat)) hj
  have hnew : hits d j (some e) = if j = i then 1 else 0 := by
    by_cases hji : j = i
    · rw [if_pos hji, hji]
      exact hits_one m.entry m.ne
    · rw [if_neg hji]
      exact hits_none (Or.inr fun heq => hji (heq.symm.trans m.entry)) hj
  have hchange := @count_change n i (t.put d k e) t' m.lt j ?_
  · have hbefore : (t.put d k e).part j i = 0 := by
      apply part_neg
      intro hc
      have htype : t.type i = T_DIR := hc.1
      rw [m.free] at htype
      cases htype
    have hafter : t'.part j i = if j = d then 1 else 0 := by
      have hsno : names i j s = false := by
        unfold names
        by_cases hji : j = i
        · rw [hji, m.dot.2]
          simp
        · rw [m.dot.1, decide_eq_false (Ne.symm hji)]
          rfl
      rw [part_pos m.live_self, m.new, List.countP_cons, List.countP_singleton, hsno]
      by_cases hjd : j = d
      · rw [if_pos hjd, names_of_ne (m.dots.1.trans hjd.symm)
          (fun heq => m.ne (heq.symm.trans hjd))]
        rfl
      · rw [if_neg hjd, names_false fun heq => hjd (heq.symm.trans m.dots.1)]
        rfl
    omega
  · intro c hc
    unfold part
    rw [m.dirents_ne hc]
    by_cases hcl : t.Live c
    · rw [if_pos ((m.live_iff hc).mpr hcl)]
      exact (if_pos hcl).symm
    · rw [if_neg fun hcl' => hcl ((m.live_iff hc).mp hcl')]
      exact (if_neg hcl).symm

/-! The law, part by part. -/

theorem links (m : Mkdir n t d i k s u e t') (hj : t'.type j ≠ 0) :
    (t'.nlink j).toNat = t'.count n j ∧ t'.count n j ≤ 32767 := by
  by_cases hji : j = i
  · have hc := m.count_eq (hji ▸ m.pos)
    rw [if_pos hji, if_neg (hji ▸ m.ne), hji, m.law.count_zero m.free m.pos] at hc
    rw [hji, m.nlink_self, hc]
    exact ⟨rfl, by decide⟩
  · rw [m.type_ne hji] at hj
    have hc := m.count_eq (m.law.pos_of_type hj)
    have hlinks := m.law.links j hj
    rw [if_neg hji] at hc
    by_cases hjd : j = d
    · rw [if_pos hjd] at hc
      rw [hjd] at hc hlinks ⊢
      have hparent := m.toNat_parent
      omega
    · rw [if_neg hjd] at hc
      rw [m.nlink_ne hji hjd, hc]
      exact hlinks

theorem named (m : Mkdir n t d i k s u e t') (hc : t'.Live c) (ho : o ∈ t'.dirents c)
    (hinum : o.inum ≠ 0) : t'.type o.inum.toNat ≠ 0 := by
  by_cases hoi : o.inum.toNat = i
  · rw [hoi, m.type_self]
    decide
  rw [m.type_ne hoi]
  by_cases hci : c = i
  · rw [hci, m.new] at ho
    cases ho with
    | head => exact absurd m.dot.1 hoi
    | tail _ ho =>
      rw [List.mem_singleton.mp ho, m.dots.1, m.live.1]
      decide
  · have hcl := (m.live_iff hci).mp hc
    rw [m.dirents_ne hci] at ho
    by_cases hcd : c = d
    · subst hcd
      rw [put_self] at ho
      cases mem_putEntry ho with
      | inl hold => exact m.law.named c hcl o hold hinum
      | inr heq =>
        rw [heq] at hoi
        exact absurd m.entry hoi
    · rw [put_ne t k e hcd] at ho
      exact m.law.named c hcl o ho hinum

theorem starts (m : Mkdir n t d i k s u e t') (hc : t'.type c = T_DIR) : ∃ s u l,
    t'.dirents c = s :: u :: l ∧ s.inum.toNat = c ∧ u.inum ≠ 0 ∧ namecmp s.name [46] = true ∧
      namecmp u.name [46, 46] = true := by
  by_cases hci : c = i
  · subst hci
    refine ⟨s, u, [], m.new, m.dot.1, ?_, m.dot.2, m.dots.2⟩
    intro hz
    have hu := m.dots.1
    rw [hz] at hu
    exact m.law.dir_ne_zero m.live.1 hu.symm
  · rw [m.dirents_ne hci]
    rw [m.type_ne hci] at hc
    by_cases hcd : c = d
    · subst hcd
      obtain ⟨s', u', -, hput, hs', hu', hsn', hun', -⟩ :=
        @dirents_put n c k t e m.law m.live.1 m.two_le
      exact ⟨s', u', _, hput, hs', hu', hsn', hun'⟩
    · rw [put_ne t k e hcd]
      exact m.law.dot c hc

theorem gone (m : Mkdir n t d i k s u e t') (hc : t'.type c = T_DIR) (hz : t'.nlink c = 0)
    (ho : o ∈ t'.rest c) : o.inum = 0 := by
  by_cases hci : c = i
  · rw [hci, m.rest_self] at ho
    cases ho
  · rw [m.type_ne hci] at hc
    by_cases hcd : c = d
    · rw [hcd] at hz
      exact absurd hz m.nlink_parent_ne
    · rw [m.nlink_ne hci hcd] at hz
      cases m.mem_old hci ho with
      | inl hold => exact m.law.gone c hc hz o hold
      | inr heq => exact absurd heq.1 hcd

theorem child (m : Mkdir n t d i k s u e t') (hc : t'.Live c) (ho : o ∈ t'.rest c)
    (hinum : o.inum ≠ 0) (hdir : t'.type o.inum.toNat = T_DIR) :
    o.inum.toNat ≠ ROOTINO ∧ t'.parent o.inum.toNat = c := by
  by_cases hci : c = i
  · rw [hci, m.rest_self] at ho
    cases ho
  · have hcl := (m.live_iff hci).mp hc
    cases m.mem_old hci ho with
    | inl hold =>
      have hoi := m.law.not_named m.free m.pos hcl (mem_rest t hold)
      rw [m.type_ne hoi] at hdir
      rw [m.parent_other hoi]
      exact m.law.child c hcl o hold hinum hdir
    | inr heq =>
      rw [heq.2, m.entry, m.parent_self]
      exact ⟨Ne.symm m.root_ne, heq.1.symm⟩

theorem countP_rest (m : Mkdir n t d i k s u e t') (hc : t.Live c) (hj : t'.type j = T_DIR) :
    ((t.rest c).countP fun o => o.inum.toNat = j) + (if j = i then 1 else 0) ≤ 1 := by
  by_cases hji : j = i
  · have hnone : ((t.rest c).countP fun o => o.inum.toNat = j) = 0 := by
      rw [List.countP_eq_zero]
      intro o ho
      rw [decide_eq_true_eq, hji]
      exact m.law.not_named m.free m.pos hc (mem_rest t ho)
    rw [hnone, if_pos hji]
  · rw [m.type_ne hji] at hj
    rw [if_neg hji]
    exact m.law.once c hc j hj

theorem once (m : Mkdir n t d i k s u e t') (hc : t'.Live c) (hj : t'.type j = T_DIR) :
    (t'.rest c).countP (fun o => o.inum.toNat = j) ≤ 1 := by
  by_cases hci : c = i
  · rw [hci, m.rest_self]
    exact Nat.zero_le _
  · have hle := m.countP_rest ((m.live_iff hci).mp hc) hj
    rw [m.rest_ne hci]
    by_cases hcd : c = d
    · subst hcd
      have hput := countP_putEntry (fun o => decide (o.inum.toNat = j)) (t.rest c) (k - 2) e
      have hnew : (if decide (e.inum.toNat = j) = true then 1 else 0) = if j = i then 1 else 0 := by
        rw [m.entry]
        by_cases hji : j = i
        · rw [hji]
          simp
        · rw [if_neg hji, decide_eq_false (Ne.symm hji)]
          rfl
      rw [m.law.rest_put m.live.1 m.two_le]
      omega
    · rw [rest_put_ne t hcd]
      omega

theorem linked_old (m : Mkdir n t d i k s u e t') (hc : t.Linked c) : t'.Linked c := by
  induction hc with
  | root => exact Linked.root
  | child c o hc ho hinum hdir ih =>
    have hci : c ≠ i := by
      intro heq
      have htype := (m.law.live_of_linked m.ranged hc).1
      rw [heq, m.free] at htype
      cases htype
    refine Linked.child c o ih ?_ hinum ?_
    · rw [m.rest_ne hci]
      cases @mem_rest_put_of_mem n d k t e m.law m.live.1 m.two_le c o ho with
      | inl hstay => exact hstay
      | inr hat => exact absurd (m.vacant o hat.2) hinum
    · by_cases hoi : o.inum.toNat = i
      · rw [hoi]
        exact m.type_self
      · rw [m.type_ne hoi]
        exact hdir

theorem linked (m : Mkdir n t d i k s u e t') (hc : t'.Live c) : t'.Linked c := by
  by_cases hci : c = i
  · have hput : e ∈ t'.rest d := by
      rw [m.rest_ne (Ne.symm m.ne), m.law.rest_put m.live.1 m.two_le]
      exact mem_putEntry_self
    have hne : e.inum ≠ 0 := by
      intro hz
      have hentry := m.entry
      rw [hz] at hentry
      exact m.pos hentry.symm
    have hdir : t'.type e.inum.toNat = T_DIR := by
      rw [m.entry]
      exact m.type_self
    have hchild := Linked.child d e (m.linked_old (m.law.linked d m.live)) hput hne hdir
    rw [hci, ← m.entry]
    exact hchild
  · exact m.linked_old (m.law.linked c ((m.live_iff hci).mp hc))

end Mkdir

theorem mkdir {s u : Dirent} (m : Mkdir n t d i k s u e t') : Law n t' where
  links _ hj := m.links hj
  named _ hc _ ho hinum := m.named hc ho hinum
  dot _ hc := m.starts hc
  gone _ hc hz _ ho := m.gone hc hz ho
  child _ hc _ ho hinum hdir := m.child hc ho hinum hdir
  once _ hc _ hj := m.once hc hj
  root := by
    refine ⟨(m.live_iff m.root_ne).mpr m.law.root.1, ?_⟩
    rw [m.parent_other m.root_ne]
    exact m.law.root.2
  linked _ hc := m.linked hc
  zero := by
    rw [m.type_ne (Ne.symm m.pos)]
    exact m.law.zero

/-! ### A directory is removed -/

/-- What the root directory reaches has a directory that names it. -/
theorem linked_cases (h : Law n t) (hr : Ranged n t) (hl : t.Live d) :
    d = ROOTINO ∨ ∃ c o, t.Live c ∧ o ∈ t.rest c ∧ o.inum ≠ 0 ∧ o.inum.toNat = d ∧
      t.parent d = c := by
  cases h.linked d hl with
  | root => exact Or.inl rfl
  | child c o hc ho hinum htd =>
    have hcl := h.live_of_linked hr hc
    exact Or.inr ⟨c, o, hcl, ho, hinum, rfl, (h.child c hcl o ho hinum htd).2⟩

/-- No directory has ".." for one without entries, apart from the root directory. -/
theorem parent_ne (h : Law n t) (hr : Ranged n t) (hroot : i ≠ ROOTINO)
    (hempty : ∀ o ∈ t.rest i, o.inum = 0) (hl : t.Live d) : t.parent d ≠ i := by
  intro heq
  cases h.linked_cases hr hl with
  | inl hd =>
    rw [hd, h.root.2] at heq
    exact hroot heq.symm
  | inr hsome =>
    obtain ⟨c, o, -, ho, hinum, -, hp⟩ := hsome
    have hci : c = i := hp.symm.trans heq
    rw [hci] at ho
    exact hinum (hempty o ho)

/-- The entries that name `j` in a directory whose other entries are empty. -/
theorem countP_empty (h : Law n t) (hi : t.type i = T_DIR) (hempty : ∀ o ∈ t.rest i, o.inum = 0)
    (hne : t.parent i ≠ i) (hj : j ≠ 0) :
    (t.dirents i).countP (names i j) = if j = t.parent i then 1 else 0 := by
  obtain ⟨s, u, hdir, hs, -, hsn, -, hu⟩ := h.dirents_eq hi
  have hrest : (t.rest i).countP (names i j) = 0 := by
    rw [List.countP_eq_zero]
    intro o ho
    rw [names_empty (hempty o ho) hj]
    exact Bool.false_ne_true
  have hsno : names i j s = false := by
    unfold names
    by_cases hji : j = i
    · rw [hji, hsn]
      simp
    · rw [hs, decide_eq_false (Ne.symm hji)]
      rfl
  rw [hdir, List.countP_cons, List.countP_cons, hrest, hsno]
  by_cases hjp : j = t.parent i
  · rw [if_pos hjp, names_of_ne (hu.trans hjp.symm) (fun heq => hne (hjp.symm.trans heq))]
    rfl
  · rw [if_neg hjp, names_false fun heq => hjp (heq.symm.trans hu)]
    rfl

/-- A directory without entries, which `d` names. -/
structure Childless (t : Tree) (d i k : Nat) (o : Dirent) : Prop extends Entry t d k o where
  live : t.Live d
  inum : o.inum.toNat = i
  dir : t.type i = T_DIR
  empty : ∀ o ∈ t.rest i, o.inum = 0

namespace Childless

theorem child (hf : Childless t d i k o) (h : Law n t) : i ≠ ROOTINO ∧ t.parent i = d := by
  have hdir := hf.dir
  rw [← hf.inum] at hdir ⊢
  exact h.child d hf.live o hf.mem hf.ne hdir

theorem ne_dir (hf : Childless t d i k o) : i ≠ d := by
  intro heq
  have hmem := hf.mem
  rw [← heq] at hmem
  exact hf.ne (hf.empty o hmem)

theorem isLive (hf : Childless t d i k o) (h : Law n t) (hr : Ranged n t) : t.Live i := by
  have hdir := hf.dir
  rw [← hf.inum] at hdir ⊢
  exact h.live_of_linked hr (Linked.child d o (h.linked d hf.live) hf.mem hf.ne hdir)

/-- Only `d` names it, and once. -/
theorem count_eq (hf : Childless t d i k o) (h : Law n t) (hr : Ranged n t) : t.count n i = 1 := by
  obtain ⟨hroot, hparent⟩ := hf.child h
  have hid := hf.ne_dir
  have hi0 := h.dir_ne_zero hf.dir
  have hother : ∀ c, c ≠ d → t.part i c = 0 := by
    intro c hc
    by_cases hl : t.Live c
    · obtain ⟨s, u, hdir, hs, -, hsn, -, hu⟩ := h.dirents_eq hl.1
      rw [part_pos hl, List.countP_eq_zero]
      intro p hp hnames
      unfold names at hnames
      rw [Bool.and_eq_true, decide_eq_true_eq] at hnames
      obtain ⟨hpi, hdot⟩ := hnames
      rw [hdir] at hp
      cases hp with
      | head =>
        rw [hsn, decide_eq_true (hpi.symm.trans hs)] at hdot
        cases hdot
      | tail _ hp =>
        cases hp with
        | head => exact h.parent_ne hr hroot hf.empty hl (hu.symm.trans hpi)
        | tail _ hp =>
          have hp0 : p.inum ≠ 0 := by
            intro hz
            rw [hz] at hpi
            exact hi0 hpi.symm
          have hdirp := hf.dir
          rw [← hpi] at hdirp
          have hchild := (h.child c hl p hp hp0 hdirp).2
          rw [hpi, hparent] at hchild
          exact hc hchild.symm
    · exact part_neg hl i
  have hself : t.part i d = 1 := by
    obtain ⟨s, u, hdir, hs, -, -, -, hu⟩ := h.dirents_eq hf.live.1
    have hsno : names d i s = false := names_false fun heq => hid (heq.symm.trans hs)
    have huno : names d i u = false :=
      names_false fun heq => h.parent_ne hr hroot hf.empty hf.live (hu.symm.trans heq)
    have hfun : names d i = fun p => decide (p.inum.toNat = i) := by
      funext p
      unfold names
      rw [decide_eq_false hid]
      simp
    have honce := h.once d hf.live i hf.dir
    have hpos : 0 < (t.rest d).countP fun p => decide (p.inum.toNat = i) :=
      List.countP_pos_iff.mpr ⟨o, hf.mem, decide_eq_true hf.inum⟩
    rw [part_pos hf.live, hdir, List.countP_cons, List.countP_cons, hsno, huno, hfun]
    show _ + 0 + 0 = 1
    omega
  have hsum : t.count n i = t.part i d := by
    apply Finset.sum_eq_single d
    · intro c _ hc
      exact hother c hc
    · intro hd
      exact absurd (Finset.mem_range.mpr (hr d hf.live.1).1) hd
  rw [hsum, hself]

/-- ".." in it, and a name or ".." of the root directory. -/
theorem two_le_count (hf : Childless t d i k o) (h : Law n t) (hr : Ranged n t) :
    2 ≤ t.count n d := by
  obtain ⟨hroot, hparent⟩ := hf.child h
  have hd0 := h.dir_ne_zero hf.live.1
  have hup : t.part d i = 1 := by
    rw [part_pos (hf.isLive h hr),
      h.countP_empty hf.dir hf.empty (fun heq => hf.ne_dir (heq.symm.trans hparent)) hd0,
      if_pos hparent.symm]
  have hother : ∃ c, c ≠ i ∧ c < n ∧ 0 < t.part d c := by
    cases h.linked_cases hr hf.live with
    | inl hd =>
      obtain ⟨s, u, hdir, -, -, -, hun, hu⟩ := h.dirents_eq hf.live.1
      refine ⟨d, Ne.symm hf.ne_dir, (hr d hf.live.1).1, ?_⟩
      apply part_pos_of_mem hf.live (e := u)
      · rw [hdir]
        exact List.mem_cons_of_mem _ List.mem_cons_self
      · unfold names
        have hudot : namecmp u.name [46] = false := by
          unfold namecmp at hun ⊢
          rw [decide_eq_true_eq] at hun
          rw [hun]
          decide
        have hroot' : t.parent d = d := by
          rw [hd]
          exact h.root.2
        rw [hu, hroot', hudot]
        simp
    | inr hsome =>
      obtain ⟨c, p, hc, hp, hp0, hpd, -⟩ := hsome
      refine ⟨c, ?_, (hr c hc.1).1, ?_⟩
      · intro hci
        rw [hci] at hp
        exact hp0 (hf.empty p hp)
      · apply part_pos_of_mem hc (mem_rest t hp)
        have hnames := h.names_rest hr hc hp hp0
        rw [hpd] at hnames
        exact hnames
  obtain ⟨c, hci, hcn, hpos⟩ := hother
  have hin := (hr i hf.dir).1
  have hsum := Finset.add_sum_erase (Finset.range n) (t.part d) (Finset.mem_range.mpr hin)
  have hle : t.part d c ≤ ∑ x ∈ (Finset.range n).erase i, t.part d x :=
    Finset.single_le_sum (fun _ _ => Nat.zero_le _)
      (Finset.mem_erase.mpr ⟨hci, Finset.mem_range.mpr hcn⟩)
  have hcount : t.count n d = ∑ x ∈ Finset.range n, t.part d x := rfl
  omega

end Childless

/-- Directory `i` is removed from `d`. -/
structure Rmdir (n : Nat) (t : Tree) (d i k : Nat) (o e : Dirent) (t' : Tree) : Prop where
  law : Law n t
  ranged : Ranged n t
  childless : Childless t d i k o
  empty : e.inum = 0
  eq : t' = ((t.put d k e).setNlink d (t.nlink d - 1)).setNlink i (t.nlink i - 1)

namespace Rmdir

variable {c : Nat} {p : Dirent}

theorem ne (m : Rmdir n t d i k o e t') : i ≠ d := m.childless.ne_dir

theorem two_le (m : Rmdir n t d i k o e t') : 2 ≤ k := m.childless.two_le

theorem type (m : Rmdir n t d i k o e t') : t'.type = t.type := by
  rw [m.eq]
  rfl

theorem dirents (m : Rmdir n t d i k o e t') : t'.dirents = (t.put d k e).dirents := by
  rw [m.eq]
  rfl

theorem nlink_ne (m : Rmdir n t d i k o e t') (hci : c ≠ i) (hcd : c ≠ d) :
    t'.nlink c = t.nlink c := by
  rw [m.eq, setNlink_ne _ _ hci, setNlink_ne _ _ hcd]
  rfl

theorem toNat_self (m : Rmdir n t d i k o e t') : (t.nlink i).toNat = 1 ∧ (t'.nlink i).toNat = 0 := by
  have hlinks := (m.law.links i (by rw [m.childless.dir]; decide)).1
  have hone := m.childless.count_eq m.law m.ranged
  have hself : t'.nlink i = t.nlink i - 1 := by
    rw [m.eq]
    exact setNlink_self ..
  have hpred : (t.nlink i - 1).toNat = (t.nlink i).toNat - 1 := toNat_pred (by omega)
  rw [hself]
  omega

theorem toNat_parent (m : Rmdir n t d i k o e t') :
    (t'.nlink d).toNat + 1 = (t.nlink d).toNat ∧ 1 ≤ (t'.nlink d).toNat := by
  have hlinks := (m.law.links d (by rw [m.childless.live.1]; decide)).1
  have htwo := m.childless.two_le_count m.law m.ranged
  have hparent : t'.nlink d = t.nlink d - 1 := by
    rw [m.eq, setNlink_ne _ _ (Ne.symm m.ne)]
    exact setNlink_self ..
  have hpred : (t.nlink d - 1).toNat = (t.nlink d).toNat - 1 := toNat_pred (by omega)
  rw [hparent]
  omega

theorem not_live (m : Rmdir n t d i k o e t') : ¬ t'.Live i := by
  intro hl
  exact hl.2 (BitVec.eq_of_toNat_eq m.toNat_self.2)

theorem ne_of_live (m : Rmdir n t d i k o e t') (hc : t'.Live c) : c ≠ i := by
  intro heq
  rw [heq] at hc
  exact m.not_live hc

theorem live_iff (m : Rmdir n t d i k o e t') (hc : c ≠ i) : t'.Live c ↔ t.Live c := by
  by_cases hcd : c = d
  · subst hcd
    refine ⟨fun _ => m.childless.live, fun _ => ⟨?_, ?_⟩⟩
    · rw [m.type]
      exact m.childless.live.1
    · intro hz
      have hpos := m.toNat_parent.2
      rw [hz] at hpos
      exact absurd hpos (Nat.not_succ_le_zero 0)
  · unfold Tree.Live
    rw [m.type, m.nlink_ne hc hcd]

theorem live_old (m : Rmdir n t d i k o e t') (hc : t'.Live c) : t.Live c :=
  (m.live_iff (m.ne_of_live hc)).mp hc

theorem rest (m : Rmdir n t d i k o e t') (c : Nat) : t'.rest c = (t.put d k e).rest c := by
  unfold Tree.rest
  rw [m.dirents]

theorem parent (m : Rmdir n t d i k o e t') (c : Nat) : t'.parent c = t.parent c := by
  rw [← @parent_put n d k t e m.law m.childless.live.1 m.two_le c]
  unfold Tree.parent
  rw [m.dirents]

theorem mem_old (m : Rmdir n t d i k o e t') (hp : p ∈ t'.rest c) (hne : p.inum ≠ 0) :
    p ∈ t.rest c := by
  rw [m.rest] at hp
  cases m.law.mem_rest_put m.childless.live.1 m.two_le hp with
  | inl hold => exact hold
  | inr heq =>
    rw [heq.2] at hne
    exact absurd m.empty hne

theorem count_eq (m : Rmdir n t d i k o e t') (hj : j ≠ 0) :
    t'.count n j + (if j = i then 1 else 0) + (if j = d then 1 else 0) = t.count n j := by
  have hf := m.childless
  have hparent := (hf.child m.law).2
  have hput := @count_put n d k t e (m.ranged d hf.live.1).1 hf.live j
  have hold : hits d j (t.dirents d)[k]? = if j = i then 1 else 0 := by
    rw [hf.here]
    by_cases hji : j = i
    · rw [if_pos hji, hji]
      exact hits_one hf.inum m.ne
    · rw [if_neg hji]
      exact hits_none (Or.inr fun heq => hji (heq.symm.trans hf.inum)) hj
  have hnew : hits d j (some e) = 0 := hits_none (Or.inl m.empty) hj
  have hchange := @count_change n i (t.put d k e) t' (m.ranged i hf.dir).1 j ?_
  · have hbefore : (t.put d k e).part j i = if j = d then 1 else 0 := by
      have hlive : (t.put d k e).Live i := hf.isLive m.law m.ranged
      rw [part_pos hlive, put_ne t k e m.ne, m.law.countP_empty hf.dir hf.empty
        (fun heq => m.ne (heq.symm.trans hparent)) hj, hparent]
    have hafter : t'.part j i = 0 := part_neg m.not_live j
    omega
  · intro c hc
    unfold part
    rw [m.dirents]
    by_cases hcl : t.Live c
    · rw [if_pos ((m.live_iff hc).mpr hcl)]
      exact (if_pos hcl).symm
    · rw [if_neg fun hcl' => hcl ((m.live_iff hc).mp hcl')]
      exact (if_neg hcl).symm

/-! The law, part by part. -/

theorem links (m : Rmdir n t d i k o e t') (hj : t'.type j ≠ 0) :
    (t'.nlink j).toNat = t'.count n j ∧ t'.count n j ≤ 32767 := by
  rw [m.type] at hj
  have hc := m.count_eq (m.law.pos_of_type hj)
  have hlink := m.law.links j hj
  by_cases hji : j = i
  · subst hji
    have hself := m.toNat_self
    rw [if_pos rfl, if_neg m.ne] at hc
    omega
  · rw [if_neg hji] at hc
    by_cases hjd : j = d
    · subst hjd
      have hparent := m.toNat_parent
      rw [if_pos rfl] at hc
      omega
    · rw [if_neg hjd] at hc
      rw [m.nlink_ne hji hjd]
      omega

theorem named (m : Rmdir n t d i k o e t') (hc : t'.Live c) (hp : p ∈ t'.dirents c)
    (hne : p.inum ≠ 0) : t'.type p.inum.toNat ≠ 0 := by
  have hcl := m.live_old hc
  rw [m.type]
  rw [m.dirents] at hp
  by_cases hcd : c = d
  · subst hcd
    rw [put_self] at hp
    cases mem_putEntry hp with
    | inl hold => exact m.law.named c hcl p hold hne
    | inr heq =>
      rw [heq] at hne
      exact absurd m.empty hne
  · rw [put_ne t k e hcd] at hp
    exact m.law.named c hcl p hp hne

theorem starts (m : Rmdir n t d i k o e t') (hc : t'.type c = T_DIR) : ∃ s u l,
    t'.dirents c = s :: u :: l ∧ s.inum.toNat = c ∧ u.inum ≠ 0 ∧ namecmp s.name [46] = true ∧
      namecmp u.name [46, 46] = true := by
  rw [m.type] at hc
  rw [m.dirents]
  by_cases hcd : c = d
  · subst hcd
    obtain ⟨s, u, -, hput, hs, hu, hsn, hun, -⟩ := @dirents_put n c k t e m.law hc m.two_le
    exact ⟨s, u, _, hput, hs, hu, hsn, hun⟩
  · rw [put_ne t k e hcd]
    exact m.law.dot c hc

theorem gone (m : Rmdir n t d i k o e t') (hc : t'.type c = T_DIR) (hz : t'.nlink c = 0)
    (hp : p ∈ t'.rest c) : p.inum = 0 := by
  rw [m.type] at hc
  by_contra hne
  have hold := m.mem_old hp hne
  by_cases hci : c = i
  · rw [hci] at hold
    exact hne (m.childless.empty p hold)
  · have hcl : ¬ t.Live c := fun hcl => ((m.live_iff hci).mpr hcl).2 hz
    have hzero : t.nlink c = 0 := by
      by_contra hpos
      exact hcl ⟨hc, hpos⟩
    exact hne (m.law.gone c hc hzero p hold)

theorem child (m : Rmdir n t d i k o e t') (hc : t'.Live c) (hp : p ∈ t'.rest c)
    (hne : p.inum ≠ 0) (hdir : t'.type p.inum.toNat = T_DIR) :
    p.inum.toNat ≠ ROOTINO ∧ t'.parent p.inum.toNat = c := by
  rw [m.type] at hdir
  rw [m.parent]
  exact m.law.child c (m.live_old hc) p (m.mem_old hp hne) hne hdir

theorem once (m : Rmdir n t d i k o e t') (hc : t'.Live c) (hj : t'.type j = T_DIR) :
    (t'.rest c).countP (fun p => p.inum.toNat = j) ≤ 1 := by
  rw [m.type] at hj
  have honce := m.law.once c (m.live_old hc) j hj
  rw [m.rest]
  by_cases hcd : c = d
  · subst hcd
    have hput := countP_putEntry (fun p => decide (p.inum.toNat = j)) (t.rest c) (k - 2) e
    have hnew : decide (e.inum.toNat = j) = false := by
      rw [decide_eq_false_iff_not, m.empty]
      exact Ne.symm (m.law.dir_ne_zero hj)
    rw [hnew, if_neg Bool.false_ne_true] at hput
    rw [m.law.rest_put m.childless.live.1 m.two_le]
    omega
  · rw [rest_put_ne t hcd]
    exact honce

/-- The way to a directory other than `i` does not pass the entry that is gone. -/
theorem linked_old (m : Rmdir n t d i k o e t') (hc : t.Linked c) (hci : c ≠ i) : t'.Linked c := by
  induction hc with
  | root => exact Linked.root
  | child c p hc hp hne hdir ih =>
    have hci' : c ≠ i := by
      intro heq
      rw [heq] at hp
      exact hne (m.childless.empty p hp)
    rw [← m.type] at hdir
    refine Linked.child c p (ih hci') ?_ hne hdir
    rw [m.rest]
    cases @mem_rest_put_of_mem n d k t e m.law m.childless.live.1 m.two_le c p hp with
    | inl hstay => exact hstay
    | inr hat =>
      have hpo := hat.2
      rw [m.childless.here] at hpo
      cases hpo
      exact absurd m.childless.inum hci

end Rmdir

theorem rmdir (m : Rmdir n t d i k o e t') : Law n t' where
  links _ hj := m.links hj
  named _ hc _ hp hne := m.named hc hp hne
  dot _ hc := m.starts hc
  gone _ hc hz _ hp := m.gone hc hz hp
  child _ hc _ hp hne hdir := m.child hc hp hne hdir
  once _ hc _ hj := m.once hc hj
  root := by
    have hroot := (m.childless.child m.law).1
    refine ⟨(m.live_iff (Ne.symm hroot)).mpr m.law.root.1, ?_⟩
    rw [m.parent]
    exact m.law.root.2
  linked c hc := m.linked_old (m.law.linked c (m.live_old hc)) (m.ne_of_live hc)
  zero := by
    rw [m.type]
    exact m.law.zero

end Law

end Tree

end Xv6.Fs
