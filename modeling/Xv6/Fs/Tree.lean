import Mathlib.Algebra.BigOperators.Group.Finset.Basic
import Mathlib.Algebra.Order.BigOperators.Group.Finset
import Xv6.Fs.Dir

/-!
# Directories and counts of links

What the directories name, without the disk under them: the entries of every directory, and
the type and `nlink` of every inode. `Law` says that `nlink` counts the entries that name an
inode, and it is kept by what the system calls do to a directory.
-/

namespace Xv6.Fs

structure Tree where
  type : Nat → BitVec 16
  nlink : Nat → BitVec 16
  dirents : Nat → List Dirent

/-- A directory that has not been removed. -/
def Tree.Live (t : Tree) (d : Nat) : Prop := t.type d = T_DIR ∧ t.nlink d ≠ 0

instance (t : Tree) (d : Nat) : Decidable (t.Live d) := inferInstanceAs (Decidable (_ ∧ _))

/-- An entry of directory `d` that names inode `i`, and is not the "." of `d`. -/
def names (d i : Nat) (e : Dirent) : Bool :=
  e.inum.toNat = i && ! (i = d && namecmp e.name [46])

namespace Tree

/-- The entries that name inode `i` in directories that have not been removed. -/
def count (n : Nat) (t : Tree) (i : Nat) : Nat :=
  ∑ d ∈ Finset.range n, if t.Live d then (t.dirents d).countP (names d i) else 0

/-- The entries behind "." and "..". -/
def rest (t : Tree) (d : Nat) : List Dirent := (t.dirents d).drop 2

/-- The directory that ".." names. -/
def parent (t : Tree) (d : Nat) : Nat := ((t.dirents d).getD 1 ⟨0, []⟩).inum.toNat

/-- A directory of the root directory, or of such a directory. -/
inductive Linked (t : Tree) : Nat → Prop where
  | root : Linked t ROOTINO
  | child (d : Nat) (e : Dirent) : Linked t d → e ∈ t.rest d → e.inum ≠ 0 →
      t.type e.inum.toNat = T_DIR → Linked t e.inum.toNat

/-- The directories and what they name are inodes of the disk. -/
def Ranged (n : Nat) (t : Tree) : Prop :=
  ∀ d, t.type d = T_DIR → d < n ∧ ∀ e ∈ t.dirents d, e.inum.toNat < n

structure Law (n : Nat) (t : Tree) : Prop where
  links : ∀ i, t.type i ≠ 0 → (t.nlink i).toNat = t.count n i ∧ t.count n i ≤ 32767
  named : ∀ d, t.Live d → ∀ e ∈ t.dirents d, e.inum ≠ 0 → t.type e.inum.toNat ≠ 0
  dot : ∀ d, t.type d = T_DIR → ∃ s u l, t.dirents d = s :: u :: l ∧ s.inum.toNat = d ∧
    u.inum ≠ 0 ∧ namecmp s.name [46] = true ∧ namecmp u.name [46, 46] = true
  gone : ∀ d, t.type d = T_DIR → t.nlink d = 0 → ∀ e ∈ t.rest d, e.inum = 0
  child : ∀ d, t.Live d → ∀ e ∈ t.rest d, e.inum ≠ 0 → t.type e.inum.toNat = T_DIR →
    e.inum.toNat ≠ ROOTINO ∧ t.parent e.inum.toNat = d
  once : ∀ d, t.Live d → ∀ i, t.type i = T_DIR →
    (t.rest d).countP (fun e => e.inum.toNat = i) ≤ 1
  root : t.Live ROOTINO ∧ t.parent ROOTINO = ROOTINO
  linked : ∀ d, t.Live d → t.Linked d
  zero : t.type 0 = 0

/-! ### What the calls do -/

def setNlink (t : Tree) (i : Nat) (x : BitVec 16) : Tree :=
  { t with nlink := Function.update t.nlink i x }

/-- An inode is freed. -/
def free (t : Tree) (i : Nat) : Tree :=
  { t with type := Function.update t.type i 0, dirents := Function.update t.dirents i [] }

/-- An inode is allocated. -/
def make (t : Tree) (i : Nat) (type : BitVec 16) : Tree where
  type := Function.update t.type i type
  nlink := Function.update t.nlink i 0
  dirents := Function.update t.dirents i []

/-- Entry `k` is written, at the end or over another one. -/
def putEntry (l : List Dirent) (k : Nat) (e : Dirent) : List Dirent :=
  if k < l.length then l.set k e else l ++ [e]

def put (t : Tree) (d k : Nat) (e : Dirent) : Tree :=
  { t with dirents := Function.update t.dirents d (putEntry (t.dirents d) k e) }

@[simp] theorem setNlink_type (t : Tree) (i : Nat) (x : BitVec 16) :
    (t.setNlink i x).type = t.type := rfl

@[simp] theorem setNlink_dirents (t : Tree) (i : Nat) (x : BitVec 16) :
    (t.setNlink i x).dirents = t.dirents := rfl

@[simp] theorem setNlink_self (t : Tree) (i : Nat) (x : BitVec 16) :
    (t.setNlink i x).nlink i = x := Function.update_self ..

theorem setNlink_ne (t : Tree) {i j : Nat} (x : BitVec 16) (h : j ≠ i) :
    (t.setNlink i x).nlink j = t.nlink j := Function.update_of_ne h ..

@[simp] theorem setNlink_setNlink (t : Tree) (i : Nat) (x y : BitVec 16) :
    (t.setNlink i x).setNlink i y = t.setNlink i y := by
  unfold setNlink
  rw [Function.update_idem]

@[simp] theorem setNlink_eq_self (t : Tree) (i : Nat) : t.setNlink i (t.nlink i) = t := by
  unfold setNlink
  rw [Function.update_eq_self]

@[simp] theorem put_type (t : Tree) (d k : Nat) (e : Dirent) : (t.put d k e).type = t.type := rfl

@[simp] theorem put_nlink (t : Tree) (d k : Nat) (e : Dirent) :
    (t.put d k e).nlink = t.nlink := rfl

@[simp] theorem put_self (t : Tree) (d k : Nat) (e : Dirent) :
    (t.put d k e).dirents d = putEntry (t.dirents d) k e := Function.update_self ..

theorem put_ne (t : Tree) {d c : Nat} (k : Nat) (e : Dirent) (h : c ≠ d) :
    (t.put d k e).dirents c = t.dirents c := Function.update_of_ne h ..

@[simp] theorem free_nlink (t : Tree) (i : Nat) : (t.free i).nlink = t.nlink := rfl

@[simp] theorem free_type_self (t : Tree) (i : Nat) : (t.free i).type i = 0 :=
  Function.update_self ..

theorem free_type_ne (t : Tree) {i j : Nat} (h : j ≠ i) : (t.free i).type j = t.type j :=
  Function.update_of_ne h ..

theorem free_dirents_ne (t : Tree) {i j : Nat} (h : j ≠ i) : (t.free i).dirents j = t.dirents j :=
  Function.update_of_ne h ..

@[simp] theorem make_type_self (t : Tree) (i : Nat) (type : BitVec 16) :
    (t.make i type).type i = type := Function.update_self ..

@[simp] theorem make_nlink_self (t : Tree) (i : Nat) (type : BitVec 16) :
    (t.make i type).nlink i = 0 := Function.update_self ..

@[simp] theorem make_dirents_self (t : Tree) (i : Nat) (type : BitVec 16) :
    (t.make i type).dirents i = [] := Function.update_self ..

/-! ### Counting -/

variable {n d i j k : Nat} {t t' : Tree} {e : Dirent} {l : List Dirent}

theorem sum_change {f g : Nat → Nat} (hd : d < n) (h : ∀ c, c ≠ d → g c = f c) :
    (∑ c ∈ Finset.range n, g c) + f d = (∑ c ∈ Finset.range n, f c) + g d := by
  have hmem : d ∈ Finset.range n := Finset.mem_range.mpr hd
  have hrest : ∑ c ∈ (Finset.range n).erase d, g c = ∑ c ∈ (Finset.range n).erase d, f c := by
    apply Finset.sum_congr rfl
    intro c hc
    exact h c (Finset.ne_of_mem_erase hc)
  rw [← Finset.add_sum_erase _ g hmem, ← Finset.add_sum_erase _ f hmem, hrest]
  omega

/-- What a directory has for inode `i`. -/
def part (t : Tree) (i d : Nat) : Nat := if t.Live d then (t.dirents d).countP (names d i) else 0

theorem part_pos (hlive : t.Live d) (i : Nat) :
    t.part i d = (t.dirents d).countP (names d i) := if_pos hlive

theorem part_neg (hno : ¬ t.Live d) (i : Nat) : t.part i d = 0 := if_neg hno

theorem count_change (hd : d < n) (i : Nat) (h : ∀ c, c ≠ d → t'.part i c = t.part i c) :
    t'.count n i + t.part i d = t.count n i + t'.part i d := sum_change hd h

theorem count_congr (h : ∀ c, (t'.Live c ↔ t.Live c) ∧ (t.Live c → t'.dirents c = t.dirents c))
    (i : Nat) : t'.count n i = t.count n i := by
  unfold count
  apply Finset.sum_congr rfl
  intro c _
  obtain ⟨hl, hdir⟩ := h c
  by_cases hc : t.Live c
  · rw [if_pos (hl.mpr hc), if_pos hc, hdir hc]
  · rw [if_neg fun h' => hc (hl.mp h'), if_neg hc]

theorem part_le_count (hd : d < n) (i : Nat) : t.part i d ≤ t.count n i :=
  Finset.single_le_sum (fun _ _ => Nat.zero_le _) (Finset.mem_range.mpr hd)

theorem part_pos_of_mem (hlive : t.Live d) (he : e ∈ t.dirents d) (hnames : names d i e = true) :
    0 < t.part i d := by
  rw [part_pos hlive]
  exact List.countP_pos_iff.mpr ⟨e, he, hnames⟩

theorem count_pos (hd : d < n) (hlive : t.Live d) (he : e ∈ t.dirents d)
    (hnames : names d i e = true) : 0 < t.count n i :=
  Nat.lt_of_lt_of_le (part_pos_of_mem hlive he hnames) (part_le_count hd i)

theorem names_of_ne (h : e.inum.toNat = i) (hne : i ≠ d) : names d i e = true := by
  unfold names
  simp [h, hne]

theorem names_empty (h : e.inum = 0) (hi : i ≠ 0) : names d i e = false := by
  unfold names
  rw [h]
  have hne : ¬ (0 : BitVec 16).toNat = i := fun heq => hi heq.symm
  simp [Ne.symm hi]

/-! ### Entries -/

/-- Whether what was found at an index names inode `i`. -/
def hits (d i : Nat) : Option Dirent → Nat
  | none => 0
  | some e => if names d i e then 1 else 0

theorem countP_putEntry (p : Dirent → Bool) (l : List Dirent) (k : Nat) (e : Dirent) :
    (putEntry l k e).countP p + (l[k]?.map fun o => if p o then 1 else 0).getD 0 =
      l.countP p + if p e then 1 else 0 := by
  unfold putEntry
  by_cases hk : k < l.length
  · rw [if_pos hk, List.getElem?_eq_getElem hk]
    have hset := List.set_eq_take_append_cons_drop (l := l) (a := e) (i := k)
    rw [if_pos hk] at hset
    have hsplit : l = l.take k ++ l[k] :: l.drop (k + 1) := by
      rw [List.getElem_cons_drop, List.take_append_drop]
    rw [hset]
    conv_rhs => rw [hsplit]
    simp only [List.countP_append, List.countP_cons, Option.map_some, Option.getD_some]
    omega
  · rw [if_neg hk, List.getElem?_eq_none (Nat.not_lt.mp hk)]
    simp only [List.countP_append, List.countP_singleton, Option.map_none, Option.getD_none]
    omega

theorem mem_putEntry {o : Dirent} (h : o ∈ putEntry l k e) : o ∈ l ∨ o = e := by
  unfold putEntry at h
  by_cases hk : k < l.length
  · rw [if_pos hk] at h
    exact List.mem_or_eq_of_mem_set h
  · rw [if_neg hk, List.mem_append, List.mem_singleton] at h
    exact h

theorem mem_putEntry_self : e ∈ putEntry l k e := by
  unfold putEntry
  by_cases hk : k < l.length
  · rw [if_pos hk]
    exact List.mem_set hk e
  · rw [if_neg hk]
    exact List.mem_append_right _ List.mem_cons_self

/-- An entry stays, or it was the one at the index. -/
theorem mem_putEntry_of_mem {o : Dirent} (h : o ∈ l) :
    o ∈ putEntry l k e ∨ l[k]? = some o := by
  unfold putEntry
  by_cases hk : k < l.length
  · rw [if_pos hk]
    obtain ⟨m, hm, rfl⟩ := List.getElem_of_mem h
    by_cases hmk : m = k
    · subst hmk
      exact Or.inr (List.getElem?_eq_getElem hm)
    · left
      have hget : (l.set k e)[m]? = some l[m] := by
        rw [List.getElem?_set_ne (Ne.symm hmk), List.getElem?_eq_getElem hm]
      exact List.mem_of_getElem? hget
  · rw [if_neg hk]
    exact Or.inl (List.mem_append_left _ h)

theorem putEntry_cons (s : Dirent) (l : List Dirent) (k : Nat) (e : Dirent) :
    putEntry (s :: l) (k + 1) e = s :: putEntry l k e := by
  unfold putEntry
  by_cases hk : k < l.length
  · have hk' : k + 1 < (s :: l).length := Nat.succ_lt_succ hk
    rw [if_pos hk, if_pos hk']
    rfl
  · have hk' : ¬ k + 1 < (s :: l).length := fun h => hk (Nat.lt_of_succ_lt_succ h)
    rw [if_neg hk, if_neg hk']
    rfl

theorem putEntry_behind {s u : Dirent} (hk : 2 ≤ k) :
    putEntry (s :: u :: l) k e = s :: u :: putEntry l (k - 2) e := by
  obtain ⟨m, rfl⟩ := Nat.exists_eq_add_of_le' hk
  show putEntry (s :: u :: l) (m + 1 + 1) e = _
  rw [putEntry_cons, putEntry_cons]
  rfl

theorem part_put (hlive : t.Live d) (i : Nat) :
    (t.put d k e).part i d + hits d i (t.dirents d)[k]? = t.part i d + hits d i (some e) := by
  have hlive' : (t.put d k e).Live d := hlive
  have hcount := countP_putEntry (names d i) (t.dirents d) k e
  rw [part_pos hlive, part_pos hlive', put_self]
  have hhits : hits d i (t.dirents d)[k]? =
      ((t.dirents d)[k]?.map fun o => if names d i o then 1 else 0).getD 0 := by
    cases (t.dirents d)[k]? with
    | none => rfl
    | some o => rfl
  rw [hhits]
  exact hcount

theorem count_put (hd : d < n) (hlive : t.Live d) (i : Nat) :
    (t.put d k e).count n i + hits d i (t.dirents d)[k]? =
      t.count n i + hits d i (some e) := by
  have hchange := @count_change n d t (t.put d k e) hd i ?_
  · have hput := @part_put d k t e hlive i
    omega
  · intro c hc
    unfold part
    rw [put_ne t k e hc]
    rfl

/-! ### What the law says -/

namespace Law

theorem not_named (h : Law n t) (htype : t.type i = 0) (hi : i ≠ 0) (hlive : t.Live d)
    (he : e ∈ t.dirents d) : e.inum.toNat ≠ i := by
  intro heq
  have hne : e.inum ≠ 0 := by
    intro h0
    rw [h0] at heq
    exact hi heq.symm
  have hty := h.named d hlive e he hne
  rw [heq] at hty
  exact hty htype

theorem names_false (hne : e.inum.toNat ≠ i) : names d i e = false := by
  unfold names
  simp [hne]

theorem count_zero (h : Law n t) (htype : t.type i = 0) (hi : i ≠ 0) : t.count n i = 0 := by
  apply Finset.sum_eq_zero
  intro c _
  by_cases hc : t.Live c
  · rw [if_pos hc, List.countP_eq_zero]
    intro e he
    rw [names_false (h.not_named htype hi hc he)]
    exact Bool.false_ne_true
  · exact if_neg hc

theorem pos_of_type (h : Law n t) (htype : t.type i ≠ 0) : i ≠ 0 := by
  intro h0
  rw [h0] at htype
  exact htype h.zero

theorem dir_ne_zero (h : Law n t) (hd : t.type d = T_DIR) : d ≠ 0 := by
  apply h.pos_of_type
  rw [hd]
  decide

/-- The entries behind the first two. -/
theorem dirents_eq (h : Law n t) (hd : t.type d = T_DIR) :
    ∃ s u, t.dirents d = s :: u :: t.rest d ∧ s.inum.toNat = d ∧ u.inum ≠ 0 ∧
      namecmp s.name [46] = true ∧ namecmp u.name [46, 46] = true ∧
      u.inum.toNat = t.parent d := by
  obtain ⟨s, u, l, hdir, hs, hu, hsn, hun⟩ := h.dot d hd
  refine ⟨s, u, ?_, hs, hu, hsn, hun, ?_⟩
  · unfold rest
    rw [hdir]
    rfl
  · unfold parent
    rw [hdir]
    rfl

theorem mem_rest (t : Tree) (he : e ∈ t.rest d) : e ∈ t.dirents d := List.mem_of_mem_drop he

/-- A directory that can be reached has not been removed, and the root directory alone is above
itself. -/
theorem live_up (h : Law n t) (hr : Ranged n t) (hl : t.Linked d) :
    t.Live d ∧ (d = ROOTINO ∨ t.parent d ≠ d) := by
  induction hl with
  | root => exact ⟨h.root.1, Or.inl rfl⟩
  | child d e _ he hne htype ih =>
    obtain ⟨hlive, hup⟩ := ih
    obtain ⟨hroot, hparent⟩ := h.child d hlive e he hne htype
    have hed : e.inum.toNat ≠ d := by
      intro heq
      rw [heq] at hroot hparent
      cases hup with
      | inl hd => exact hroot hd
      | inr hno => exact hno hparent
    refine ⟨⟨htype, ?_⟩, Or.inr ?_⟩
    · have hpos := count_pos (hr d hlive.1).1 hlive (mem_rest t he) (names_of_ne rfl hed)
      have hcount := (h.links e.inum.toNat (by rw [htype]; decide)).1
      intro hzero
      rw [hzero] at hcount
      exact absurd hcount.symm (Nat.pos_iff_ne_zero.mp hpos)
    · rw [hparent]
      exact Ne.symm hed

theorem live_of_linked (h : Law n t) (hr : Ranged n t) (hl : t.Linked d) : t.Live d :=
  (h.live_up hr hl).1

/-- The entries behind "." and ".." name other inodes, and so they count. -/
theorem names_rest (h : Law n t) (hr : Ranged n t) (hlive : t.Live d) (he : e ∈ t.rest d)
    (hne : e.inum ≠ 0) : names d e.inum.toNat e = true := by
  apply names_of_ne rfl
  intro heq
  have htype : t.type e.inum.toNat = T_DIR := by
    rw [heq]
    exact hlive.1
  obtain ⟨hroot, hparent⟩ := h.child d hlive e he hne htype
  rw [heq] at hroot hparent
  cases (h.live_up hr (h.linked d hlive)).2 with
  | inl hd => exact hroot hd
  | inr hno => exact hno hparent

/-- The index of an empty entry, or the end, is behind the first two entries. -/
theorem two_le (h : Law n t) (hd : t.type d = T_DIR)
    (hk : ∀ o, (t.dirents d)[k]? = some o → o.inum = 0) : 2 ≤ k := by
  obtain ⟨s, u, hdir, hs, hu, -⟩ := h.dirents_eq hd
  have hs0 : s.inum ≠ 0 := by
    intro h0
    rw [h0] at hs
    exact h.dir_ne_zero hd hs.symm
  by_contra hlt
  have hcases : k = 0 ∨ k = 1 := by omega
  rw [hdir] at hk
  cases hcases with
  | inl h0 =>
    subst h0
    exact hs0 (hk s rfl)
  | inr h1 =>
    subst h1
    exact hu (hk u rfl)

/-- The first two entries of a directory stay. -/
theorem dirents_put (h : Law n t) (hd : t.type d = T_DIR) (hk : 2 ≤ k) :
    ∃ s u, t.dirents d = s :: u :: t.rest d ∧
      (t.put d k e).dirents d = s :: u :: putEntry (t.rest d) (k - 2) e ∧
      s.inum.toNat = d ∧ u.inum ≠ 0 ∧ namecmp s.name [46] = true ∧
      namecmp u.name [46, 46] = true ∧ u.inum.toNat = t.parent d := by
  obtain ⟨s, u, hdir, hs, hu, hsn, hun, hp⟩ := h.dirents_eq hd
  refine ⟨s, u, hdir, ?_, hs, hu, hsn, hun, hp⟩
  rw [put_self, hdir, putEntry_behind hk]

theorem rest_put (h : Law n t) (hd : t.type d = T_DIR) (hk : 2 ≤ k) :
    (t.put d k e).rest d = putEntry (t.rest d) (k - 2) e := by
  obtain ⟨s, u, -, hput, -⟩ := @dirents_put n d k t e h hd hk
  unfold rest at hput ⊢
  rw [hput]
  rfl

theorem parent_put (h : Law n t) (hd : t.type d = T_DIR) (hk : 2 ≤ k) (c : Nat) :
    (t.put d k e).parent c = t.parent c := by
  by_cases hc : c = d
  · subst hc
    obtain ⟨s, u, hdir, hput, -⟩ := @dirents_put n c k t e h hd hk
    unfold parent
    rw [hput, hdir]
    rfl
  · unfold parent
    rw [put_ne t k e hc]

theorem rest_put_ne (t : Tree) {c : Nat} (hc : c ≠ d) : (t.put d k e).rest c = t.rest c := by
  unfold rest
  rw [put_ne t k e hc]

theorem mem_rest_put (h : Law n t) (hd : t.type d = T_DIR) (hk : 2 ≤ k) {c : Nat} {o : Dirent}
    (ho : o ∈ (t.put d k e).rest c) : o ∈ t.rest c ∨ c = d ∧ o = e := by
  by_cases hc : c = d
  · subst hc
    rw [h.rest_put hd hk] at ho
    cases mem_putEntry ho with
    | inl hold => exact Or.inl hold
    | inr hnew => exact Or.inr ⟨rfl, hnew⟩
  · rw [rest_put_ne t hc] at ho
    exact Or.inl ho

/-- An entry stays, or it was the one at the index. -/
theorem mem_rest_put_of_mem (h : Law n t) (hd : t.type d = T_DIR) (hk : 2 ≤ k) {c : Nat}
    {o : Dirent} (ho : o ∈ t.rest c) :
    o ∈ (t.put d k e).rest c ∨ c = d ∧ (t.dirents d)[k]? = some o := by
  by_cases hc : c = d
  · subst hc
    rw [h.rest_put hd hk]
    cases @mem_putEntry_of_mem (k - 2) e (t.rest c) o ho with
    | inl hnew => exact Or.inl hnew
    | inr hat =>
      right
      refine ⟨rfl, ?_⟩
      unfold rest at hat
      rw [List.getElem?_drop] at hat
      have hk' : 2 + (k - 2) = k := by omega
      rw [hk'] at hat
      exact hat
  · rw [rest_put_ne t hc]
    exact Or.inl ho

end Law

/-! ### Entries in use -/

/-- Entry `k` of a directory is in use, and is behind "." and "..". -/
structure Entry (t : Tree) (d k : Nat) (o : Dirent) : Prop where
  type : t.type d = T_DIR
  two_le : 2 ≤ k
  here : (t.dirents d)[k]? = some o
  ne : o.inum ≠ 0

theorem Entry.mem {o : Dirent} (h : Entry t d k o) : o ∈ t.rest d := by
  have hk := h.two_le
  have hat := h.here
  apply List.mem_of_getElem? (i := k - 2)
  unfold rest
  rw [List.getElem?_drop, show 2 + (k - 2) = k by omega]
  exact hat

end Tree

end Xv6.Fs
