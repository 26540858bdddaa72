import Xv6.Fs.Tree

/-!
# Files in the directories

Inodes are freed and allocated, and files get and lose names. The law is kept, and so the last
name of an inode is its last link.
-/

namespace Xv6.Fs

namespace Tree

variable {n d i j k : Nat} {t t' : Tree} {e : Dirent}

namespace Law

/-! ### An inode is freed or allocated -/

/-- An inode that no directory names is replaced, and it is no directory now. -/
theorem replace (h : Law n t) (hr : Ranged n t) (hdead : ¬ t.Live j)
    (hunnamed : ∀ c, t.Live c → ∀ o ∈ t.dirents c, o.inum.toNat ≠ j)
    (htype : ∀ c, c ≠ j → t'.type c = t.type c) (hnlink : ∀ c, c ≠ j → t'.nlink c = t.nlink c)
    (hdirents : ∀ c, c ≠ j → t'.dirents c = t.dirents c) (hnew : t'.type j ≠ T_DIR)
    (hzero : t'.type j ≠ 0 → t'.nlink j = 0 ∧ j ≠ 0) : Law n t' := by
  have hdir : ∀ {c}, t'.type c = T_DIR → c ≠ j := by
    intro c hc heq
    rw [heq] at hc
    exact hnew hc
  have hlive : ∀ {c}, t'.Live c ↔ t.Live c := by
    intro c
    constructor
    · intro hl
      have hc := hdir hl.1
      refine ⟨(htype c hc).symm.trans hl.1, ?_⟩
      rw [← hnlink c hc]
      exact hl.2
    · intro hl
      have hc : c ≠ j := fun heq => hdead (heq ▸ hl)
      refine ⟨(htype c hc).trans hl.1, ?_⟩
      rw [hnlink c hc]
      exact hl.2
  have hcount : ∀ i, t'.count n i = t.count n i := by
    apply count_congr
    intro c
    refine ⟨hlive, ?_⟩
    intro hl
    exact hdirents c fun heq => hdead (heq ▸ hl)
  have hrest : ∀ {c}, c ≠ j → t'.rest c = t.rest c := by
    intro c hc
    unfold rest
    rw [hdirents c hc]
  have hparent : ∀ {c}, c ≠ j → t'.parent c = t.parent c := by
    intro c hc
    unfold parent
    rw [hdirents c hc]
  have hdirs : ∀ {c}, t'.type c = T_DIR → t.type c = T_DIR :=
    fun hc => (htype _ (hdir hc)).symm.trans hc
  constructor
  · intro i hi
    rw [hcount]
    by_cases hij : i = j
    · subst hij
      obtain ⟨hz, hi0⟩ := hzero hi
      have hnone : t.count n i = 0 := by
        apply Finset.sum_eq_zero
        intro c _
        by_cases hc : t.Live c
        · rw [if_pos hc, List.countP_eq_zero]
          intro o ho
          rw [names_false (hunnamed c hc o ho)]
          exact Bool.false_ne_true
        · exact if_neg hc
      rw [hz, hnone]
      exact ⟨rfl, Nat.zero_le _⟩
    · rw [htype i hij] at hi
      rw [hnlink i hij]
      exact h.links i hi
  · intro d hd e he hinum
    have hl := hlive.mp hd
    rw [hdirents d (hdir hd.1)] at he
    rw [htype _ (hunnamed d hl e he)]
    exact h.named d hl e he hinum
  · intro d hd
    rw [hdirents d (hdir hd)]
    exact h.dot d (hdirs hd)
  · intro d hd hz e he
    rw [hrest (hdir hd)] at he
    rw [hnlink d (hdir hd)] at hz
    exact h.gone d (hdirs hd) hz e he
  · intro d hd e he hinum htd
    rw [hrest (hdir hd.1)] at he
    rw [hparent (hdir htd)]
    exact h.child d (hlive.mp hd) e he hinum (hdirs htd)
  · intro d hd i hi
    rw [hrest (hdir hd.1)]
    exact h.once d (hlive.mp hd) i (hdirs hi)
  · have hroot := hlive.mpr h.root.1
    refine ⟨hroot, ?_⟩
    rw [hparent (hdir hroot.1)]
    exact h.root.2
  · intro d hd
    have hlinked := h.linked d (hlive.mp hd)
    clear hd
    induction hlinked with
    | root => exact Linked.root
    | child d e hl he hinum htd ih =>
      have hdl := h.live_of_linked hr hl
      have hej := hunnamed d hdl e (mem_rest t he)
      refine Linked.child d e ih ?_ hinum ((htype _ hej).trans htd)
      rw [hrest fun heq => hdead (heq ▸ hdl)]
      exact he
  · by_cases h0 : (0 : Nat) = j
    · by_contra hno
      rw [h0] at hno
      exact (hzero hno).2 h0.symm
    · rw [htype 0 h0]
      exact h.zero

theorem free (h : Law n t) (hr : Ranged n t) (htype : t.type j ≠ 0) (hzero : t.nlink j = 0) :
    Law n (t.free j) := by
  have hdead : ¬ t.Live j := fun hl => hl.2 hzero
  have hgone : (t.free j).type j = 0 := free_type_self t j
  -- No directory names it, since its count is 0.
  have hunnamed : ∀ c, t.Live c → ∀ o ∈ t.dirents c, o.inum.toNat ≠ j := by
    intro c hl o ho heq
    have hjc : j ≠ c := fun hjc => hdead (hjc ▸ hl)
    have hpos := count_pos (hr c hl.1).1 hl ho (names_of_ne heq hjc)
    rw [← (h.links j htype).1, hzero] at hpos
    exact absurd hpos (by decide)
  apply h.replace hr hdead hunnamed
  · intro c hc
    exact free_type_ne t hc
  · intro c _
    rfl
  · intro c hc
    exact free_dirents_ne t hc
  · rw [hgone]
    decide
  · intro hno
    exact absurd hgone hno

theorem make {type : BitVec 16} (h : Law n t) (hr : Ranged n t) (hfree : t.type i = 0)
    (hi : i ≠ 0) (hfile : type ≠ T_DIR) : Law n (t.make i type) := by
  have hdead : ¬ t.Live i := by
    intro hl
    rw [hl.1] at hfree
    cases hfree
  apply h.replace hr hdead fun c hl o ho => h.not_named hfree hi hl ho
  · intro c hc
    exact Function.update_of_ne hc ..
  · intro c hc
    exact Function.update_of_ne hc ..
  · intro c hc
    exact Function.update_of_ne hc ..
  · rw [make_type_self]
    exact hfile
  · intro _
    exact ⟨Function.update_self .., hi⟩

/-! ### An entry for a file -/

/-- The entry `k` of `d` is written, and only inode `i`, which is no directory, gets or loses a
name. -/
theorem put_file {x : BitVec 16} (h : Law n t) (hr : Ranged n t) (hlive : t.Live d) (hk : 2 ≤ k)
    (htype : t.type i ≠ 0) (hfile : t.type i ≠ T_DIR)
    (hold : ∀ o, (t.dirents d)[k]? = some o → o.inum = 0 ∨ o.inum.toNat = i)
    (hnew : e.inum = 0 ∨ e.inum.toNat = i)
    (hx : x.toNat = (t.put d k e).count n i) (hmax : (t.put d k e).count n i ≤ 32767) :
    Law n ((t.setNlink i x).put d k e) := by
  have hd := hlive.1
  have hi0 := h.pos_of_type htype
  have hid : ∀ {c}, t.type c = T_DIR → c ≠ i := by
    intro c hc heq
    rw [heq] at hc
    exact hfile hc
  have hnl : ∀ {c}, t.type c = T_DIR → ((t.setNlink i x).put d k e).nlink c = t.nlink c :=
    fun hc => setNlink_ne t x (hid hc)
  have hl : ∀ {c}, ((t.setNlink i x).put d k e).Live c ↔ t.Live c := by
    intro c
    constructor
    · intro hc
      refine ⟨hc.1, ?_⟩
      rw [← hnl hc.1]
      exact hc.2
    · intro hc
      refine ⟨hc.1, ?_⟩
      rw [hnl hc.1]
      exact hc.2
  have hcount : ∀ j, ((t.setNlink i x).put d k e).count n j = (t.put d k e).count n j :=
    count_congr fun c => ⟨hl, fun _ => rfl⟩
  -- The other inodes have as many names as before.
  have hsame : ∀ j, j ≠ i → j ≠ 0 → (t.put d k e).count n j = t.count n j := by
    intro j hj h0
    have hput := @count_put n d k t e (hr d hd).1 hlive j
    have hold0 : hits d j (t.dirents d)[k]? = 0 := by
      cases hk : (t.dirents d)[k]? with
      | none => rfl
      | some o =>
        have hno : names d j o = false := by
          cases hold o hk with
          | inl hz => exact names_empty hz h0
          | inr hi => exact names_false fun heq => hj (heq.symm.trans hi)
        unfold hits
        dsimp only
        rw [hno]
        rfl
    have hnew0 : hits d j (some e) = 0 := by
      have hno : names d j e = false := by
        cases hnew with
        | inl hz => exact names_empty hz h0
        | inr hi => exact names_false fun heq => hj (heq.symm.trans hi)
      unfold hits
      dsimp only
      rw [hno]
      rfl
    omega
  have hmem : ∀ {c o}, o ∈ ((t.setNlink i x).put d k e).rest c → o ∈ t.rest c ∨ c = d ∧ o = e :=
    fun ho => h.mem_rest_put hd hk ho
  constructor
  · intro j hj
    rw [hcount]
    by_cases hji : j = i
    · subst hji
      refine ⟨?_, hmax⟩
      rw [put_nlink, setNlink_self]
      exact hx
    · rw [put_nlink, setNlink_ne t x hji, hsame j hji (h.pos_of_type hj)]
      exact h.links j hj
  · intro c hc o ho hinum
    by_cases hcd : c = d
    · subst hcd
      have ho' : o ∈ putEntry (t.dirents c) k e := by
        rw [put_self] at ho
        exact ho
      cases mem_putEntry ho' with
      | inl hmem => exact h.named c (hl.mp hc) o hmem hinum
      | inr heq =>
        subst heq
        rw [put_type, setNlink_type, hnew.resolve_left hinum]
        exact htype
    · rw [put_ne _ k e hcd] at ho
      exact h.named c (hl.mp hc) o ho hinum
  · intro c hc
    by_cases hcd : c = d
    · subst hcd
      obtain ⟨s, u, -, hput, hs, hu, hsn, hun, -⟩ := @dirents_put n c k t e h hd hk
      exact ⟨s, u, _, hput, hs, hu, hsn, hun⟩
    · rw [put_ne _ k e hcd]
      exact h.dot c hc
  · intro c hc hz o ho
    rw [hnl hc] at hz
    cases hmem ho with
    | inl hold => exact h.gone c hc hz o hold
    | inr heq =>
      rw [heq.1] at hz
      exact absurd hz hlive.2
  · intro c hc o ho hinum htd
    cases hmem ho with
    | inl hold =>
      have hchild := h.child c (hl.mp hc) o hold hinum htd
      refine ⟨hchild.1, ?_⟩
      exact (h.parent_put hd hk _).trans hchild.2
    | inr heq =>
      rw [heq.2] at hinum htd
      rw [put_type, setNlink_type, hnew.resolve_left hinum] at htd
      exact absurd htd hfile
  · intro c hc j hj
    have honce := h.once c (hl.mp hc) j hj
    have hj0 := h.dir_ne_zero hj
    by_cases hcd : c = d
    · subst hcd
      have hrest : ((t.setNlink i x).put c k e).rest c = putEntry (t.rest c) (k - 2) e :=
        h.rest_put hd hk
      have hcnt := countP_putEntry (fun o => decide (o.inum.toNat = j)) (t.rest c) (k - 2) e
      have hne : decide (e.inum.toNat = j) = false := by
        rw [decide_eq_false_iff_not]
        intro heq
        cases hnew with
        | inl hz =>
          rw [hz] at heq
          exact hj0 heq.symm
        | inr hi => exact hid hj (heq.symm.trans hi)
      rw [hne, if_neg Bool.false_ne_true] at hcnt
      rw [hrest]
      omega
    · have hrest : ((t.setNlink i x).put d k e).rest c = t.rest c := rest_put_ne t hcd
      rw [hrest]
      exact honce
  · refine ⟨hl.mpr h.root.1, ?_⟩
    exact (h.parent_put hd hk _).trans h.root.2
  · intro c hc
    have hlinked := h.linked c (hl.mp hc)
    clear hc
    induction hlinked with
    | root => exact Linked.root
    | child c o _ ho hinum htd ih =>
      refine Linked.child c o ih ?_ hinum htd
      cases @mem_rest_put_of_mem n d k t e h hd hk c o ho with
      | inl hstay => exact hstay
      | inr hat =>
        cases hold o hat.2 with
        | inl hz => exact absurd hz hinum
        | inr hi => exact absurd hi (hid htd)
  · exact h.zero

theorem toNat_succ {x : BitVec 16} (h : x.toNat ≤ 32767) : (x + 1).toNat = x.toNat + 1 := by
  rw [BitVec.toNat_add]
  show (x.toNat + 1) % 65536 = x.toNat + 1
  omega

theorem toNat_pred {x : BitVec 16} (h : 1 ≤ x.toNat) : (x - 1).toNat = x.toNat - 1 := by
  have hx := x.isLt
  rw [BitVec.toNat_sub]
  show (65536 - 1 + x.toNat) % 65536 = x.toNat - 1
  omega

theorem count_lt (h : Law n t) (htype : t.type i ≠ 0) (hmax : t.nlink i ≠ 32767) :
    t.count n i < 32767 := by
  obtain ⟨heq, hle⟩ := h.links i htype
  apply Nat.lt_of_le_of_ne hle
  intro hcount
  apply hmax
  apply BitVec.eq_of_toNat_eq
  rw [heq, hcount]
  rfl

/-- A file gets a name. -/
theorem enter (h : Law n t) (hr : Ranged n t) (hlive : t.Live d)
    (hk : ∀ o, (t.dirents d)[k]? = some o → o.inum = 0) (htype : t.type i ≠ 0)
    (hfile : t.type i ≠ T_DIR) (hmax : t.nlink i ≠ 32767) (he : e.inum.toNat = i) :
    Law n ((t.setNlink i (t.nlink i + 1)).put d k e) := by
  have hid : i ≠ d := by
    intro heq
    rw [heq] at hfile
    exact hfile hlive.1
  have hlt := h.count_lt htype hmax
  have heq := (h.links i htype).1
  have hput := @count_put n d k t e (hr d hlive.1).1 hlive i
  have hold : hits d i (t.dirents d)[k]? = 0 := by
    cases hat : (t.dirents d)[k]? with
    | none => rfl
    | some o =>
      unfold hits
      dsimp only
      rw [names_empty (hk o hat) (h.pos_of_type htype)]
      rfl
  have hnew : hits d i (some e) = 1 := by
    unfold hits
    dsimp only
    rw [names_of_ne he hid]
    rfl
  apply h.put_file hr hlive (h.two_le hlive.1 hk) htype hfile
  · intro o ho
    exact Or.inl (hk o ho)
  · exact Or.inr he
  · rw [toNat_succ (by omega)]
    omega
  · omega

/-- A file loses a name. -/
theorem erase {o : Dirent} (h : Law n t) (hr : Ranged n t) (hlive : t.Live d) (hk : 2 ≤ k)
    (hat : (t.dirents d)[k]? = some o) (ho : o.inum.toNat = i) (htype : t.type i ≠ 0)
    (hfile : t.type i ≠ T_DIR) (he : e.inum = 0) :
    Law n ((t.put d k e).setNlink i (t.nlink i - 1)) := by
  have hid : i ≠ d := by
    intro heq
    rw [heq] at hfile
    exact hfile hlive.1
  obtain ⟨heq, hle⟩ := h.links i htype
  have hput := @count_put n d k t e (hr d hlive.1).1 hlive i
  have hold : hits d i (t.dirents d)[k]? = 1 := by
    rw [hat]
    unfold hits
    dsimp only
    rw [names_of_ne ho hid]
    rfl
  have hnew : hits d i (some e) = 0 := by
    unfold hits
    dsimp only
    rw [names_empty he (h.pos_of_type htype)]
    rfl
  have hlaw : Law n ((t.setNlink i (t.nlink i - 1)).put d k e) := by
    apply h.put_file hr hlive hk htype hfile
    · intro o' ho'
      rw [hat] at ho'
      cases ho'
      exact Or.inr ho
    · exact Or.inl he
    · rw [toNat_pred (by omega)]
      omega
    · omega
  exact hlaw

/-- An entry behind "." and ".." names an inode that has a link. -/
theorem one_le (h : Law n t) (hr : Ranged n t) (hd : t.type d = T_DIR) (he : e ∈ t.rest d)
    (hne : e.inum ≠ 0) :
    t.Live d ∧ t.type e.inum.toNat ≠ 0 ∧ 1 ≤ (t.nlink e.inum.toNat).toInt := by
  have hlive : t.Live d := by
    refine ⟨hd, ?_⟩
    intro hz
    exact hne (h.gone d hd hz e he)
  have htype := h.named d hlive e (mem_rest t he) hne
  obtain ⟨heq, hle⟩ := h.links _ htype
  have hpos := count_pos (hr d hd).1 hlive (mem_rest t he) (h.names_rest hr hlive he hne)
  refine ⟨hlive, htype, ?_⟩
  rw [BitVec.toInt_eq_toNat_of_lt (by omega)]
  omega

end Law

/-! ### The inodes stay those of the disk -/

namespace Ranged

theorem setNlink (h : Ranged n t) (i : Nat) (x : BitVec 16) : Ranged n (t.setNlink i x) := h

theorem free (h : Ranged n t) (j : Nat) : Ranged n (t.free j) := by
  intro c hc
  have hcj : c ≠ j := by
    intro heq
    rw [heq, free_type_self] at hc
    cases hc
  rw [free_type_ne t hcj] at hc
  rw [free_dirents_ne t hcj]
  exact h c hc

theorem make {type : BitVec 16} (h : Ranged n t) (hi : i < n) : Ranged n (t.make i type) := by
  intro c hc
  by_cases hci : c = i
  · subst hci
    refine ⟨hi, ?_⟩
    intro e he
    rw [make_dirents_self] at he
    cases he
  · have htype : (t.make i type).type c = t.type c := Function.update_of_ne hci ..
    have hdir : (t.make i type).dirents c = t.dirents c := Function.update_of_ne hci ..
    rw [htype] at hc
    rw [hdir]
    exact h c hc

theorem put (h : Ranged n t) (he : e.inum.toNat < n) : Ranged n (t.put d k e) := by
  intro c hc
  obtain ⟨hcn, hold⟩ := h c hc
  refine ⟨hcn, ?_⟩
  intro o ho
  by_cases hcd : c = d
  · subst hcd
    rw [put_self] at ho
    cases mem_putEntry ho with
    | inl hmem => exact hold o hmem
    | inr heq =>
      rw [heq]
      exact he
  · rw [put_ne t k e hcd] at ho
    exact hold o ho

end Ranged

/-- Inodes without links are freed, one after the other. -/
inductive Frees (t : Tree) : Tree → Prop where
  | refl : Frees t t
  | tail (t' : Tree) (j : Nat) : Frees t t' → t'.type j ≠ 0 → t'.nlink j = 0 → Frees t (t'.free j)

namespace Frees

variable {t'' : Tree}

theorem trans (h : Frees t t') (h' : Frees t' t'') : Frees t t'' := by
  induction h' with
  | refl => exact h
  | tail t'' j _ htype hzero ih => exact Frees.tail t'' j ih htype hzero

theorem nlink (h : Frees t t') : t'.nlink = t.nlink := by
  induction h with
  | refl => rfl
  | tail t' j _ _ _ ih => exact ih

theorem keeps (h : Frees t t') (hi : t.nlink i ≠ 0) :
    t'.type i = t.type i ∧ t'.dirents i = t.dirents i := by
  induction h with
  | refl => exact ⟨rfl, rfl⟩
  | tail t' j h' _ hzero ih =>
    have hij : i ≠ j := by
      intro heq
      rw [← heq, h'.nlink] at hzero
      exact hi hzero
    rw [free_type_ne t' hij, free_dirents_ne t' hij]
    exact ih

theorem law (h : Frees t t') (hl : Law n t) (hr : Ranged n t) : Law n t' ∧ Ranged n t' := by
  induction h with
  | refl => exact ⟨hl, hr⟩
  | tail t' j _ htype hzero ih => exact ⟨ih.1.free ih.2 htype hzero, ih.2.free j⟩

/-- A link count that is not 0 does not matter to what is freed. -/
theorem of_setNlink {x : BitVec 16} (h : Frees (t.setNlink i x) t')
    (hx : x ≠ 0) : ∃ t1, Frees t t1 ∧ t' = t1.setNlink i x := by
  induction h with
  | refl => exact ⟨t, Frees.refl, rfl⟩
  | tail t' j _ htype hzero ih =>
    obtain ⟨t1, h1, rfl⟩ := ih
    have hji : j ≠ i := by
      intro heq
      rw [heq, setNlink_self] at hzero
      exact hx hzero
    rw [setNlink_ne t1 x hji] at hzero
    exact ⟨t1.free j, Frees.tail t1 j h1 htype hzero, rfl⟩

end Frees

end Tree

end Xv6.Fs
