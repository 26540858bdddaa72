import Mathlib.Data.List.Chain
import Mathlib.Tactic.SplitIfs
import Xv6.User.Malloc

/-!
# The list of free blocks

A circular list in the order of the addresses, which begins at `base` and in which no block ends
where the next one begins. `free` puts a block at its place in it, and `malloc` takes one out or
cuts off its end.
-/

namespace Xv6.Malloc

/-- From header `x` the pointers lead through the headers of `l` and back to `base`. -/
def Links (base : Nat) (s : Heap) : Nat → List Nat → Prop
  | x, [] => s.ptr x = base
  | x, y :: l => s.ptr x = y ∧ x + s.size x < y ∧ 0 < s.size y ∧ Links base s y l

/-- Unit `m` of the memory lies in the block with header `x`. -/
def Within (s : Heap) (x m : Nat) : Prop := x ≤ m ∧ m < x + s.size x

/-- It lies in one of these blocks. -/
def Covered (s : Heap) (l : List Nat) (m : Nat) : Prop := ∃ x ∈ l, Within s x m

variable {base : Nat} {s t : Heap} {x y z bp p q m n : Nat} {l : List Nat}

theorem covered_nil : ¬ Covered s [] m := by
  rintro ⟨y, hy, -⟩
  cases hy

theorem covered_cons : Covered s (x :: l) m ↔ Within s x m ∨ Covered s l m := by
  unfold Covered
  rw [List.exists_mem_cons_iff]

theorem Within.congr (h : t.size x = s.size x) : Within t x m ↔ Within s x m := by
  unfold Within
  rw [h]

theorem Covered.congr (h : ∀ y ∈ l, t.size y = s.size y) : Covered t l m ↔ Covered s l m := by
  constructor
  · rintro ⟨y, hy, hm⟩
    exact ⟨y, hy, (Within.congr (h y hy)).mp hm⟩
  · rintro ⟨y, hy, hm⟩
    exact ⟨y, hy, (Within.congr (h y hy)).mpr hm⟩

theorem within_self (h : 0 < s.size x) : Within s x x := ⟨Nat.le_refl x, by omega⟩

namespace Links

theorem lt (h : Links base s x l) : ∀ y ∈ l, x + s.size x < y ∧ 0 < s.size y := by
  induction l generalizing x with
  | nil =>
    intro y hy
    cases hy
  | cons z l ih =>
    obtain ⟨-, hlt, hpos, hrest⟩ := h
    intro y hy
    cases hy with
    | head => exact ⟨hlt, hpos⟩
    | tail _ hy =>
      obtain ⟨hzy, hy'⟩ := ih hrest y hy
      exact ⟨by omega, hy'⟩

/-- The first block may have another header, and every block may be shorter. -/
theorem move (h : Links base s x l) (hhead : t.ptr z = s.ptr x)
    (hend : z + t.size z ≤ x + s.size x) (hptr : ∀ y ∈ l, t.ptr y = s.ptr y)
    (hsize : ∀ y ∈ l, 0 < t.size y ∧ t.size y ≤ s.size y) : Links base t z l := by
  induction l generalizing x z with
  | nil => exact hhead.trans h
  | cons y l ih =>
    obtain ⟨hnext, hlt, -, hrest⟩ := h
    obtain ⟨hpos, hle⟩ := hsize y List.mem_cons_self
    have hy := hptr y List.mem_cons_self
    have htail := ih hrest hy (by omega) (fun w hw => hptr w (List.mem_cons_of_mem y hw))
      (fun w hw => hsize w (List.mem_cons_of_mem y hw))
    exact ⟨hhead.trans hnext, by omega, hpos, htail⟩

theorem congr (h : Links base s x l) (hptr : ∀ y ∈ x :: l, t.ptr y = s.ptr y)
    (hsize : ∀ y ∈ x :: l, t.size y = s.size y) : Links base t x l := by
  refine h.move (hptr x List.mem_cons_self) ?_ (fun y hy => hptr y (List.mem_cons_of_mem x hy)) ?_
  · rw [hsize x List.mem_cons_self]
  · intro y hy
    rw [hsize y (List.mem_cons_of_mem x hy)]
    exact ⟨(h.lt y hy).2, Nat.le_refl _⟩

theorem ptr_mem (h : Links base s x l) (hy : y ∈ x :: l) : s.ptr y = base ∨ s.ptr y ∈ l := by
  induction l generalizing x with
  | nil =>
    rw [List.mem_singleton.mp hy]
    exact .inl h
  | cons z l ih =>
    obtain ⟨hnext, -, -, hrest⟩ := h
    cases hy with
    | head =>
      rw [hnext]
      exact .inr List.mem_cons_self
    | tail _ hy => exact (ih hrest hy).imp_right (List.mem_cons_of_mem z)

theorem suffix (h : Links base s x l) (hy : y ∈ x :: l) :
    ∃ l', Links base s y l' ∧ l'.length ≤ l.length ∧ ∀ w ∈ l', w ∈ l := by
  induction l generalizing x with
  | nil =>
    rw [List.mem_singleton.mp hy]
    exact ⟨[], h, Nat.le_refl 0, fun w hw => hw⟩
  | cons z l ih =>
    cases hy with
    | head => exact ⟨z :: l, h, Nat.le_refl _, fun w hw => hw⟩
    | tail _ hy =>
      obtain ⟨l', hl', hle, hsub⟩ := ih h.2.2.2 hy
      exact ⟨l', hl', Nat.le_succ_of_le hle, fun w hw => List.mem_cons_of_mem z (hsub w hw)⟩

theorem gap (h : Links base s x l) (hy : y ∈ l) (hz : z ∈ l) (hlt : y < z) :
    y + s.size y < z := by
  induction l generalizing x with
  | nil => cases hy
  | cons w l ih =>
    obtain ⟨-, -, -, hrest⟩ := h
    cases hy with
    | head =>
      cases hz with
      | head => exact absurd hlt (Nat.lt_irrefl _)
      | tail _ hz => exact (hrest.lt z hz).1
    | tail _ hy =>
      cases hz with
      | head =>
        have hwy := (hrest.lt y hy).1
        omega
      | tail _ hz => exact ih hrest hy hz

theorem apart (h : Links base s x l) (hy : y ∈ l) (hz : z ∈ l) (hym : Within s y m)
    (hzm : Within s z m) : y = z := by
  unfold Within at hym hzm
  obtain hlt | heq | hgt := Nat.lt_trichotomy y z
  · have hgap := h.gap hy hz hlt
    omega
  · exact heq
  · have hgap := h.gap hz hy hgt
    omega

/-- Free memory without a hole belongs to one block. -/
theorem run (h : Links base s x l) (hn : 0 < n) (hrun : ∀ m, y ≤ m → m < y + n → Covered s l m) :
    ∃ z ∈ l, z ≤ y ∧ y + n ≤ z + s.size z := by
  obtain ⟨z, hz, hzy⟩ := hrun y (Nat.le_refl y) (by omega)
  unfold Within at hzy
  refine ⟨z, hz, hzy.1, ?_⟩
  by_contra hend
  -- The unit behind the block would belong to another one, but there is a gap.
  obtain ⟨w, hw, hwend⟩ := hrun (z + s.size z) (by omega) (by omega)
  unfold Within at hwend
  obtain hlt | heq | hgt := Nat.lt_trichotomy z w
  · have hgap := h.gap hz hw hlt
    omega
  · rw [heq] at hwend
    omega
  · have hgap := h.gap hw hz hgt
    omega

theorem nodup (h : Links base s x l) : (x :: l).Nodup := by
  induction l generalizing x with
  | nil => exact List.pairwise_singleton _ x
  | cons y l ih =>
    have hne : x ∉ y :: l := by
      intro hno
      have hlt := (h.lt x hno).1
      omega
    exact List.nodup_cons.mpr ⟨hne, ih h.2.2.2⟩

theorem ptr_inj (h : Links base s x l) (hp : p ∈ l) (hbase : base ≤ x) (hy : y ∈ x :: l)
    (hz : z ∈ x :: l) (hyp : s.ptr y = p) (hzp : s.ptr z = p) : y = z := by
  induction l generalizing x with
  | nil => cases hp
  | cons w l ih =>
    obtain ⟨hnext, hlt, -, hrest⟩ := h
    have hlater : ∀ v ∈ w :: l, s.ptr v ≠ w := by
      intro v hv hno
      obtain hbase' | hmem := hrest.ptr_mem hv
      · omega
      · have hw := (hrest.lt _ hmem).1
        omega
    cases hy with
    | head =>
      cases hz with
      | head => rfl
      | tail _ hz => exact absurd (hzp.trans (hyp.symm.trans hnext)) (hlater z hz)
    | tail _ hy =>
      cases hz with
      | head => exact absurd (hyp.trans (hzp.symm.trans hnext)) (hlater y hy)
      | tail _ hz =>
        have hne : p ≠ w := by
          intro hno
          exact hlater y hy (hyp.trans hno)
        exact ih hrest (List.mem_of_ne_of_mem hne hp) (by omega) hy hz

theorem length_le (h : Links base s x l) (hx : x < n) (hl : ∀ y ∈ l, y < n) :
    x + l.length < n := by
  induction l generalizing x with
  | nil => exact hx
  | cons y l ih =>
    obtain ⟨-, hlt, -, hrest⟩ := h
    have htail := ih hrest (hl y List.mem_cons_self) fun z hz => hl z (List.mem_cons_of_mem y hz)
    rw [List.length_cons]
    omega

theorem erase (h : Links base s x l) (hbase : base ≤ x) (hp : p ∈ l) (hq : q ∈ x :: l)
    (hqp : s.ptr q = p) (hptr : t.ptr q = s.ptr p) (hother : ∀ y, y ≠ q → t.ptr y = s.ptr y)
    (hsize : ∀ y, t.size y = s.size y) : Links base t x (l.erase p) := by
  induction l generalizing x with
  | nil => cases hp
  | cons y l ih =>
    have hinj := h.ptr_inj hp hbase List.mem_cons_self hq
    obtain ⟨hnext, hgap, hy, hrest⟩ := h
    by_cases hyp : y = p
    · have hxq : x = q := hinj (hnext.trans hyp) hqp
      rw [hyp, List.erase_cons_head]
      rw [hyp] at hrest hgap
      have hlater : ∀ z ∈ l, z ≠ q := by
        intro z hz
        have hlt := (hrest.lt z hz).1
        omega
      refine hrest.move (by rw [hxq]; exact hptr) (by rw [hsize]; omega)
        (fun z hz => hother z (hlater z hz)) fun z hz => ?_
      rw [hsize]
      exact ⟨(hrest.lt z hz).2, Nat.le_refl _⟩
    · have hxq : x ≠ q := by
        intro hno
        rw [← hno] at hqp
        exact hyp (hnext.symm.trans hqp)
      have hbeq : ¬ (y == p) = true := by
        rw [beq_iff_eq]
        exact hyp
      rw [List.erase_cons_tail hbeq]
      have htail := ih hrest (by omega) (List.mem_of_ne_of_mem (Ne.symm hyp) hp)
        (List.mem_of_ne_of_mem (Ne.symm hxq) hq)
      refine ⟨(hother x hxq).trans hnext, ?_, ?_, htail⟩
      · rw [hsize]
        exact hgap
      · rw [hsize]
        exact hy

theorem chain (h : Links base s x l) :
    List.IsChain (fun a b => s.ptr a = b) (x :: l ++ [base]) := by
  induction l generalizing x with
  | nil => exact List.isChain_pair.mpr h
  | cons y l ih => exact List.IsChain.cons_cons h.1 (ih h.2.2.2)

end Links

/-! ### The search of `free` -/

/-- The last header of the list below `bp`. -/
def pred (bp : Nat) : Nat → List Nat → Nat
  | x, [] => x
  | x, y :: l => if y < bp then pred bp y l else x

/-- From a header below `bp` the search finds the place. -/
theorem search_below (h : Links base s x l) (hx : x < bp) (hbase : base ≤ x) (hbp : bp ∉ l)
    (hn : l.length < n) : Heap.search s.ptr bp n x = some (pred bp x l) := by
  induction l generalizing x n with
  | nil =>
    cases n with
    | zero => cases hn
    | succ n =>
      have hnext : s.ptr x = base := h
      unfold Heap.search
      rw [hnext, if_neg (by omega), if_pos ⟨hbase, .inl hx⟩]
      rfl
  | cons y l ih =>
    cases n with
    | zero => cases hn
    | succ n =>
      obtain ⟨hnext, hlt, -, hrest⟩ := h
      have hne : y ≠ bp := by
        intro hno
        rw [hno] at hbp
        exact hbp List.mem_cons_self
      unfold Heap.search pred
      rw [hnext]
      by_cases hy : y < bp
      · rw [if_neg (by omega), if_neg (by omega), if_pos hy]
        exact ih hrest hy (by omega) (fun hno => hbp (List.mem_cons_of_mem y hno))
          (Nat.lt_of_succ_lt_succ hn)
      · rw [if_pos (by omega), if_neg hy]

/-- From a header above `bp` the search goes on to the end and begins at `base`. -/
theorem search_above {l' : List Nat} (h : Links base s x l) (hall : Links base s base l')
    (hx : bp < x) (hbase : base < bp) (hbp : bp ∉ l') (hn : l.length + l'.length + 1 < n) :
    Heap.search s.ptr bp n x = some (pred bp base l') := by
  induction l generalizing x n with
  | nil =>
    cases n with
    | zero => cases hn
    | succ n =>
      have hnext : s.ptr x = base := h
      rw [List.length_nil] at hn
      unfold Heap.search
      rw [hnext, if_neg (by omega), if_neg (by omega)]
      exact search_below hall hbase (Nat.le_refl base) hbp (by omega)
  | cons y l ih =>
    cases n with
    | zero => cases hn
    | succ n =>
      obtain ⟨hnext, hlt, -, hrest⟩ := h
      rw [List.length_cons] at hn
      unfold Heap.search
      rw [hnext, if_neg (by omega), if_neg (by omega)]
      exact ih hrest (by omega) (by omega)

/-- From a header below `bp`, the rest of the list leads to the same place. -/
theorem pred_suffix (h : Links base s x l) (hy : y ∈ x :: l) (hlt : y < bp) :
    ∃ l', Links base s y l' ∧ l'.length ≤ l.length ∧ (∀ w ∈ l', w ∈ l) ∧
      pred bp y l' = pred bp x l := by
  induction l generalizing x with
  | nil =>
    rw [List.mem_singleton.mp hy]
    exact ⟨[], h, Nat.le_refl 0, fun w hw => hw, rfl⟩
  | cons z l ih =>
    cases hy with
    | head => exact ⟨z :: l, h, Nat.le_refl _, fun w hw => hw, rfl⟩
    | tail _ hy =>
      obtain ⟨l', hl', hle, hsub, hpred⟩ := ih h.2.2.2 hy
      have hz : z < bp := by
        cases hy with
        | head => exact hlt
        | tail _ hy =>
          have hzy := (h.2.2.2.lt y hy).1
          omega
      refine ⟨l', hl', Nat.le_succ_of_le hle, fun w hw => List.mem_cons_of_mem z (hsub w hw), ?_⟩
      rw [hpred]
      exact (if_pos hz).symm

/-- `free` finds the place from wherever `freep` points to. -/
theorem search_spec (h : Links base s base l) (hx : x ∈ base :: l) (hbase : base < bp)
    (hbp : bp ∉ l) (hn : 2 * l.length + 1 < n) : Heap.search s.ptr bp n x = some (pred bp base l) := by
  by_cases hlt : x < bp
  · obtain ⟨l', hl', hle, hsub, hpred⟩ := pred_suffix h hx hlt
    have hge : base ≤ x := by
      cases hx with
      | head => exact Nat.le_refl base
      | tail _ hx =>
        have hlt := (h.lt x hx).1
        omega
    rw [search_below hl' hlt hge (fun hno => hbp (hsub bp hno)) (by omega), hpred]
  · have hne : x ≠ bp := by
      intro hno
      rw [hno] at hx
      cases hx with
      | head => omega
      | tail _ hx => exact hbp hx
    obtain ⟨l', hl', hle, -⟩ := h.suffix hx
    exact search_above hl' h (by omega) hbase hbp (by omega)

theorem pred_mem (bp x : Nat) (l : List Nat) : pred bp x l ∈ x :: l := by
  induction l generalizing x with
  | nil => exact List.mem_cons_self
  | cons y l ih =>
    unfold pred
    by_cases hy : y < bp
    · rw [if_pos hy]
      exact List.mem_cons_of_mem x (ih y)
    · rw [if_neg hy]
      exact List.mem_cons_self

/-! ### The links of a returned block -/

namespace Heap

theorem joinNext_of_ne (h : y ≠ bp) :
    (s.joinNext bp p).ptr y = s.ptr y ∧ (s.joinNext bp p).size y = s.size y := by
  unfold joinNext
  split_ifs
  · exact ⟨Function.update_of_ne h _ _, Function.update_of_ne h _ _⟩
  · exact ⟨Function.update_of_ne h _ _, rfl⟩

theorem joinPrev_of_ne (h : y ≠ p) :
    (s.joinPrev bp p).ptr y = s.ptr y ∧ (s.joinPrev bp p).size y = s.size y := by
  unfold joinPrev
  split_ifs
  · exact ⟨Function.update_of_ne h _ _, Function.update_of_ne h _ _⟩
  · exact ⟨Function.update_of_ne h _ _, rfl⟩

theorem link_of_ne (h : y ≠ bp) (h' : y ≠ p) :
    (s.link bp p).ptr y = s.ptr y ∧ (s.link bp p).size y = s.size y := by
  obtain ⟨hptr, hsize⟩ := joinNext_of_ne (s := s) (p := p) h
  obtain ⟨hptr', hsize'⟩ : (s.link bp p).ptr y = _ ∧ (s.link bp p).size y = _ := joinPrev_of_ne h'
  exact ⟨hptr'.trans hptr, hsize'.trans hsize⟩

theorem link_rest (s : Heap) (bp p : Nat) : (s.link bp p).brk = s.brk ∧ (s.link bp p).got = s.got ∧
    (s.link bp p).used = s.used ∧ (s.link bp p).freep = p := by
  unfold link joinPrev joinNext
  split_ifs <;> exact ⟨rfl, rfl, rfl, rfl⟩

theorem link_used (s : Heap) (bp p : Nat) (us : List Nat) :
    { s with used := us }.link bp p = { s.link bp p with used := us } := by
  unfold link joinPrev joinNext
  dsimp only
  split_ifs <;> rfl

theorem le_size_joinNext (s : Heap) (bp p : Nat) : s.size bp ≤ (s.joinNext bp p).size bp := by
  unfold joinNext
  split_ifs
  · dsimp only
    rw [Function.update_self]
    exact Nat.le_add_right ..
  · exact Nat.le_refl _

theorem le_size_joinPrev : s.size p ≤ (s.joinPrev bp p).size p := by
  unfold joinPrev
  split_ifs
  · dsimp only
    rw [Function.update_self]
    exact Nat.le_add_right ..
  · exact Nat.le_refl _

theorem le_size_link (h : y ≠ bp) : s.size y ≤ (s.link bp p).size y := by
  have hnext := (joinNext_of_ne (s := s) (p := p) h).2
  have hprev : (s.joinNext bp p).size y ≤ (s.link bp p).size y := by
    by_cases hy : y = p
    · rw [hy]
      exact le_size_joinPrev
    · exact Nat.le_of_eq (joinPrev_of_ne hy).2.symm
  omega

end Heap

/-- After the first `if` the block `bp` leads to what came after `x`. -/
theorem links_joinNext (h : Links base s x l) (hbp : base < bp) (hpos : 0 < s.size bp)
    (hl : ∀ y ∈ l, bp + s.size bp ≤ y) : ∃ r, Links base (s.joinNext bp x) bp r ∧
      r.length ≤ l.length ∧ ∀ m, Covered (s.joinNext bp x) (bp :: r) m ↔ Within s bp m ∨ Covered s l m := by
  have hne : ∀ y ∈ l, y ≠ bp := by
    intro y hy
    have hle := hl y hy
    omega
  by_cases hjoin : bp + s.size bp = s.ptr x
  · cases l with
    | nil =>
      have hnext : s.ptr x = base := h
      omega
    | cons y l =>
      obtain ⟨hnext, -, -, hrest⟩ := h
      rw [hnext] at hjoin
      have hsize : (s.joinNext bp x).size bp = s.size bp + s.size y := by
        unfold Heap.joinNext
        rw [hnext, if_pos hjoin]
        exact Function.update_self ..
      have hptr : (s.joinNext bp x).ptr bp = s.ptr y := by
        unfold Heap.joinNext
        rw [hnext, if_pos hjoin]
        exact Function.update_self ..
      have hother : ∀ z ∈ l, (s.joinNext bp x).ptr z = s.ptr z ∧
          (s.joinNext bp x).size z = s.size z :=
        fun z hz => Heap.joinNext_of_ne (hne z (List.mem_cons_of_mem y hz))
      refine ⟨l, hrest.move hptr (by omega) (fun z hz => (hother z hz).1) ?_, Nat.le_succ _, ?_⟩
      · intro z hz
        rw [(hother z hz).2]
        exact ⟨(hrest.lt z hz).2, Nat.le_refl _⟩
      · intro m
        rw [covered_cons, covered_cons, Covered.congr fun z hz => (hother z hz).2, ← or_assoc]
        refine or_congr_left ?_
        unfold Within
        omega
  · have hsize : ∀ z, (s.joinNext bp x).size z = s.size z := by
      intro z
      unfold Heap.joinNext
      rw [if_neg hjoin]
    have hptr : (s.joinNext bp x).ptr bp = s.ptr x := by
      unfold Heap.joinNext
      rw [if_neg hjoin]
      exact Function.update_self ..
    refine ⟨l, ?_, Nat.le_refl _, ?_⟩
    · cases l with
      | nil => exact hptr.trans h
      | cons y l =>
        obtain ⟨hnext, -, hy, hrest⟩ := h
        have hle := hl y List.mem_cons_self
        refine ⟨hptr.trans hnext, ?_, ?_, hrest.congr ?_ fun z _ => hsize z⟩
        · rw [hsize]
          omega
        · rw [hsize]
          exact hy
        · intro z hz
          exact (Heap.joinNext_of_ne (hne z hz)).1
    · intro m
      rw [covered_cons, Covered.congr fun z _ => hsize z, Within.congr (hsize bp)]

/-- After the second one `x` leads to it, or has become one block with it. -/
theorem links_joinPrev (h : Links base s bp l) (hx : x + s.size x ≤ bp) (hlt : x < bp)
    (hpos : 0 < s.size bp) : ∃ r, Links base (s.joinPrev bp x) x r ∧ r.length ≤ l.length + 1 ∧
      (∀ m, Covered (s.joinPrev bp x) (x :: r) m ↔ Within s x m ∨ Covered s (bp :: l) m) ∧
      ∃ z ∈ x :: r, s.size bp ≤ (s.joinPrev bp x).size z := by
  have hne : ∀ y ∈ bp :: l, y ≠ x := by
    intro y hy
    cases hy with
    | head => omega
    | tail _ hy =>
      have hy' := (h.lt y hy).1
      omega
  have hother : ∀ z ∈ bp :: l, (s.joinPrev bp x).ptr z = s.ptr z ∧
      (s.joinPrev bp x).size z = s.size z := fun z hz => Heap.joinPrev_of_ne (hne z hz)
  by_cases hjoin : x + s.size x = bp
  · have hsize : (s.joinPrev bp x).size x = s.size x + s.size bp := by
      unfold Heap.joinPrev
      rw [if_pos hjoin]
      exact Function.update_self ..
    have hptr : (s.joinPrev bp x).ptr x = s.ptr bp := by
      unfold Heap.joinPrev
      rw [if_pos hjoin]
      exact Function.update_self ..
    refine ⟨l, h.move hptr (by omega) ?_ ?_, Nat.le_succ _, ?_, x, List.mem_cons_self, by omega⟩
    · intro z hz
      exact (hother z (List.mem_cons_of_mem bp hz)).1
    · intro z hz
      rw [(hother z (List.mem_cons_of_mem bp hz)).2]
      exact ⟨(h.lt z hz).2, Nat.le_refl _⟩
    · intro m
      rw [covered_cons, covered_cons,
        Covered.congr fun z hz => (hother z (List.mem_cons_of_mem bp hz)).2, ← or_assoc]
      refine or_congr_left ?_
      unfold Within
      omega
  · have hsize : (s.joinPrev bp x).size x = s.size x := by
      unfold Heap.joinPrev
      rw [if_neg hjoin]
    have hptr : (s.joinPrev bp x).ptr x = bp := by
      unfold Heap.joinPrev
      rw [if_neg hjoin]
      exact Function.update_self ..
    have hbp := (hother bp List.mem_cons_self).2
    refine ⟨bp :: l, ⟨hptr, by omega, by omega, h.congr ?_ ?_⟩, Nat.le_refl _, ?_, bp, ?_,
      by omega⟩
    · intro z hz
      exact (hother z hz).1
    · intro z hz
      exact (hother z hz).2
    · intro m
      rw [covered_cons, Covered.congr fun z hz => (hother z hz).2, Within.congr hsize]
    · exact List.mem_cons_of_mem x List.mem_cons_self

/-- What `free` makes of the circle: the block is in it, joined with its neighbours. -/
def Linked (base : Nat) (s t : Heap) (bp p x : Nat) (l r : List Nat) : Prop :=
  Links base t x r ∧ r.length ≤ l.length + 1 ∧
    (∀ m, Covered t (x :: r) m ↔ Within s bp m ∨ Covered s (x :: l) m) ∧ p ∈ x :: r ∧
     ∃ z ∈ x :: r, s.size bp ≤ t.size z

/-- All blocks behind `x` come after `bp`. -/
theorem linked_first (h : Links base s x l) (hbase : base < bp) (hpos : 0 < s.size bp)
    (hlt : x < bp) (hx : x + s.size x ≤ bp) (hl : ∀ y ∈ l, bp + s.size bp ≤ y) :
    ∃ r, Linked base s (s.link bp x) bp x x l r := by
  obtain ⟨r, hr, hlen, hcov⟩ := links_joinNext h hbase hpos hl
  have hxsize := (Heap.joinNext_of_ne (s := s) (p := x) (Nat.ne_of_lt hlt)).2
  have hle := Heap.le_size_joinNext s bp x
  obtain ⟨r', hr', hlen', hcov', z, hz, hsize⟩ := links_joinPrev hr (by omega) hlt (by omega)
  refine ⟨r', hr'.congr (fun _ _ => rfl) (fun _ _ => rfl), by omega, ?_, List.mem_cons_self, z, hz,
    ?_⟩
  · intro m
    have hfreep : Covered (s.link bp x) (x :: r') m ↔
        Covered ((s.joinNext bp x).joinPrev bp x) (x :: r') m := Iff.rfl
    rw [hfreep, hcov', hcov, covered_cons, Within.congr hxsize]
    exact or_left_comm
  · exact Nat.le_trans hle hsize

theorem linked (h : Links base s x l) (hbase : base < bp) (hpos : 0 < s.size bp) (hlt : x < bp)
    (hx : x + s.size x ≤ bp)
    (hl : ∀ y ∈ l, y < bp ∧ y + s.size y ≤ bp ∨ bp < y ∧ bp + s.size bp ≤ y) :
    ∃ r, Linked base s (s.link bp (pred bp x l)) bp (pred bp x l) x l r := by
  induction l generalizing x with
  | nil => exact linked_first h hbase hpos hlt hx fun y hy => absurd hy List.not_mem_nil
  | cons y l ih =>
    by_cases hlow : y < bp
    · have hpred : pred bp x (y :: l) = pred bp y l := if_pos hlow
      rw [hpred]
      obtain ⟨hnext, hgap, hy, hrest⟩ := h
      have hend := hl y List.mem_cons_self
      obtain ⟨r, hr, hlen, hcov, hmem, z, hz, hsize⟩ := ih hrest hlow (by omega)
        (fun z hz => hl z (List.mem_cons_of_mem y hz))
      -- Header `x` comes before all that changes.
      have hxy : x ≠ pred bp y l := by
        intro hno
        have hp := pred_mem bp y l
        rw [← hno] at hp
        cases hp with
        | head => omega
        | tail _ hp =>
          have hlt := (hrest.lt x hp).1
          omega
      obtain ⟨hptr, hxsize⟩ := Heap.link_of_ne (s := s) (Nat.ne_of_lt hlt) hxy
      have hle := Heap.le_size_link (s := s) (p := pred bp y l) (Nat.ne_of_lt hlow)
      refine ⟨y :: r, ⟨hptr.trans hnext, by omega, by omega, hr⟩,
        Nat.succ_le_succ hlen, ?_, List.mem_cons_of_mem x hmem, z, List.mem_cons_of_mem x hz, hsize⟩
      intro m
      rw [covered_cons, hcov, Within.congr hxsize, covered_cons (x := x)]
      exact or_left_comm
    · have hpred : pred bp x (y :: l) = x := if_neg hlow
      rw [hpred]
      refine linked_first h hbase hpos hlt hx fun z hz => ?_
      have hyz : y ≤ z := by
        cases hz with
        | head => exact Nat.le_refl y
        | tail _ hz =>
          have hlt := (h.2.2.2.lt z hz).1
          omega
      have hend := hl z hz
      omega

end Xv6.Malloc
