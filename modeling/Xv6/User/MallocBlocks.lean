import Xv6.User.MallocList

/-!
# The blocks of the allocator

The memory that the allocator got is divided into the free blocks and those in use, in every run
of calls. Every call returns, and `malloc` fails only when no free memory is long enough.
-/

namespace Xv6.Malloc
open Transition

/-- The circle of the free blocks. -/
structure Circle (base : Nat) (s : Heap) (l : List Nat) : Prop where
  links : Links base s base l
  base_size : s.size base = 0
  freep_mem : s.freep ∈ base :: l

/-- The free blocks are those of `l`. -/
structure Divided (base : Nat) (s : Heap) (l : List Nat) : Prop where
  circle : Circle base s l
  used_pos : ∀ u ∈ s.used, 0 < s.size u
  used_nodup : s.used.Nodup
  used_apart : ∀ u ∈ s.used, ∀ v ∈ s.used, ∀ m, Within s u m → Within s v m → u = v
  used_free : ∀ u ∈ s.used, ∀ m, Within s u m → ¬ Covered s l m
  got_iff : ∀ m, s.got m = true ↔ Covered s l m ∨ Covered s s.used m
  bounds : ∀ m, s.got m = true → base < m ∧ m < s.brk
  base_pos : 0 < base
  base_lt : base < s.brk

/-- `malloc` has not been called. -/
structure Untouched (base : Nat) (s : Heap) : Prop where
  freep : s.freep = 0
  used : s.used = []
  got : ∀ m, s.got m = false
  base_pos : 0 < base
  base_lt : base < s.brk

/-- Memory that the allocator has and nobody uses. -/
def Spare (s : Heap) (m : Nat) : Prop := s.got m = true ∧ ¬ Covered s s.used m

/-- `t` differs from `s` only where `s` has the list. -/
def Kept (base : Nat) (s t : Heap) (l : List Nat) : Prop :=
  ∀ a, a < s.brk → a ≠ base → ¬ Covered s l a → t.ptr a = s.ptr a ∧ t.size a = s.size a

variable {base : Nat} {s t : Heap} {x y z bp p q m n u a : Nat} {l : List Nat}

namespace Links

theorem covered (h : Links base s x l) (hy : y ∈ l) : Covered s l y :=
  ⟨y, hy, within_self (h.lt y hy).2⟩

end Links

namespace Circle

variable (h : Circle base s l)
include h

theorem base_le (hx : x ∈ base :: l) : base ≤ x := by
  cases hx with
  | head => exact Nat.le_refl base
  | tail _ hx =>
    have hlt := (h.links.lt x hx).1
    omega

theorem covered_base : Covered s (base :: l) m ↔ Covered s l m := by
  rw [covered_cons]
  refine or_iff_right ?_
  unfold Within
  rw [h.base_size]
  omega

/-- `free` finds the place of a block that is not free, and joins it with the others. -/
theorem link (hbase : base < bp) (hpos : 0 < s.size bp) (hbp : ∀ m, Within s bp m → ¬ Covered s l m)
    (hlen : l.length < s.brk) : ∃ p r, p ∈ base :: l ∧
      Heap.search s.ptr bp (2 * s.brk) s.freep = some p ∧ Circle base (s.link bp p) r ∧
      r.length ≤ l.length + 1 ∧
      (∀ m, Covered (s.link bp p) r m ↔ Within s bp m ∨ Covered s l m) ∧
      ∃ z ∈ r, s.size bp ≤ (s.link bp p).size z := by
  have hself : ¬ Covered s l bp := hbp bp (within_self hpos)
  have hends : ∀ y ∈ l, y < bp ∧ y + s.size y ≤ bp ∨ bp < y ∧ bp + s.size bp ≤ y := by
    intro y hy
    obtain hlt | heq | hgt := Nat.lt_trichotomy y bp
    · refine .inl ⟨hlt, ?_⟩
      by_contra hno
      exact hself ⟨y, hy, by unfold Within; omega⟩
    · rw [heq] at hy
      exact absurd (h.links.covered hy) hself
    · refine .inr ⟨hgt, ?_⟩
      by_contra hno
      exact hbp y (by unfold Within; omega) (h.links.covered hy)
  have hmem : bp ∉ l := fun hno => hself (h.links.covered hno)
  have hsearch := search_spec (n := 2 * s.brk) h.links h.freep_mem hbase hmem (by omega)
  have hbound : base + s.size base ≤ bp := by
    rw [h.base_size]
    exact Nat.le_of_lt hbase
  obtain ⟨r, hr, hlength, hcov, hp, z, hz, hsize⟩ := linked h.links hbase hpos hbase hbound hends
  refine ⟨pred bp base l, r, pred_mem bp base l, hsearch, ?_⟩
  -- The static header has not become longer: its unit is not covered.
  have hzero : (s.link bp (pred bp base l)).size base = 0 := by
    by_contra hno
    have hin : Covered (s.link bp (pred bp base l)) (base :: r) base :=
      ⟨base, List.mem_cons_self, within_self (Nat.pos_of_ne_zero hno)⟩
    rw [hcov, h.covered_base] at hin
    obtain hno | ⟨y, hy, hno⟩ := hin
    · exact absurd hno.1 (by omega)
    · have hlt := (h.links.lt y hy).1
      exact absurd hno.1 (by omega)
  have hcircle : Circle base (s.link bp (pred bp base l)) r := ⟨hr, hzero, hp⟩
  refine ⟨hcircle, hlength, ?_, ?_⟩
  · intro m
    rw [← hcircle.covered_base, hcov, h.covered_base]
  · cases hz with
    | head => omega
    | tail _ hz => exact ⟨z, hz, hsize⟩

end Circle

namespace Divided

variable (h : Divided base s l)
include h

theorem free_bounds (hy : Covered s l y) : base < y ∧ y < s.brk :=
  h.bounds y ((h.got_iff y).mpr (.inl hy))

theorem length_lt : l.length + 1 < s.brk := by
  have hpos := h.base_pos
  have hle := h.circle.links.length_le h.base_lt
    fun y hy => (h.free_bounds (h.circle.links.covered hy)).2
  omega

theorem used_bounds (hu : u ∈ s.used) : base < u ∧ u < s.brk :=
  h.bounds u ((h.got_iff u).mpr (.inr ⟨u, hu, within_self (h.used_pos u hu)⟩))

theorem used_not_mem (hu : u ∈ s.used) : u ∉ base :: l := by
  intro hno
  cases hno with
  | head => exact absurd (h.used_bounds hu).1 (Nat.lt_irrefl _)
  | tail _ hno =>
    exact h.used_free u hu u (within_self (h.used_pos u hu)) (h.circle.links.covered hno)

theorem own (ha : Own base s a) :
    a < s.brk ∧ a ∉ s.used ∧ a ≠ base ∧ ¬ Covered s l a := by
  obtain ⟨u, hu, hlt, hend⟩ | ⟨hbrk, hgot, hne⟩ := ha
  · have hin : Within s u a := ⟨Nat.le_of_lt hlt, hend⟩
    have hbounds := h.bounds a ((h.got_iff a).mpr (.inr ⟨u, hu, hin⟩))
    refine ⟨hbounds.2, ?_, Nat.ne_of_gt hbounds.1, h.used_free u hu a hin⟩
    intro hno
    have heq := h.used_apart u hu a hno a hin (within_self (h.used_pos a hno))
    omega
  · have hno := mt (h.got_iff a).mpr (by rw [hgot]; exact Bool.false_ne_true)
    refine ⟨hbrk, ?_, hne, fun hfree => hno (.inl hfree)⟩
    intro hused
    exact hno (.inr ⟨a, hused, within_self (h.used_pos a hused)⟩)

theorem covered_iff : Covered s l m ↔ Spare s m := by
  unfold Spare
  rw [h.got_iff]
  constructor
  · intro hfree
    refine ⟨.inl hfree, ?_⟩
    rintro ⟨u, hu, hm⟩
    exact h.used_free u hu m hm hfree
  · rintro ⟨hfree | hused, hno⟩
    · exact hfree
    · exact absurd hused hno

/-- Only the headers and the books are read, and `sbrk` may move the break. -/
theorem congr (hfreep : t.freep = s.freep) (hused : t.used = s.used) (hgot : t.got = s.got)
    (hbrk : s.brk ≤ t.brk) (hptr : ∀ y ∈ base :: l, t.ptr y = s.ptr y)
    (hsize : ∀ y ∈ base :: l, t.size y = s.size y) (hblock : ∀ u ∈ s.used, t.size u = s.size u) :
    Divided base t l := by
  have hcircle := h.circle
  have hlist : ∀ m, Covered t l m ↔ Covered s l m :=
    fun m => Covered.congr fun y hy => hsize y (List.mem_cons_of_mem base hy)
  have hwithin : ∀ u ∈ s.used, ∀ m, Within t u m ↔ Within s u m :=
    fun u hu m => Within.congr (hblock u hu)
  constructor
  · refine ⟨hcircle.links.congr hptr hsize, (hsize base List.mem_cons_self).trans
      hcircle.base_size, ?_⟩
    rw [hfreep]
    exact hcircle.freep_mem
  · rw [hused]
    intro u hu
    rw [hblock u hu]
    exact h.used_pos u hu
  · rw [hused]
    exact h.used_nodup
  · rw [hused]
    intro u hu v hv m hum hvm
    exact h.used_apart u hu v hv m ((hwithin u hu m).mp hum) ((hwithin v hv m).mp hvm)
  · rw [hused]
    intro u hu m hm hno
    exact h.used_free u hu m ((hwithin u hu m).mp hm) ((hlist m).mp hno)
  · intro m
    rw [hgot, hused, h.got_iff, hlist, Covered.congr hblock]
  · rw [hgot]
    intro m hm
    have hbounds := h.bounds m hm
    omega
  · exact h.base_pos
  · exact Nat.lt_of_lt_of_le h.base_lt hbrk

/-! ### `free` -/

theorem link_of_used {v : Nat} (hv : v ∈ s.used) (hp : p ∈ base :: l) (hne : v ≠ bp) :
    (s.link bp p).size v = s.size v := by
  refine (Heap.link_of_ne hne ?_).2
  intro hno
  rw [hno] at hv
  exact h.used_not_mem hv hp

end Divided

theorem covered_erase (hu : u ∈ l) : Covered s l m ↔ Within s u m ∨ Covered s (l.erase u) m := by
  constructor
  · rintro ⟨v, hv, hm⟩
    by_cases heq : v = u
    · rw [heq] at hm
      exact .inl hm
    · exact .inr ⟨v, (List.mem_erase_of_ne heq).mpr hv, hm⟩
  · rintro (hm | ⟨v, hv, hm⟩)
    · exact ⟨u, hu, hm⟩
    · exact ⟨v, List.mem_of_mem_erase hv, hm⟩

/-- A block that is given back becomes free. -/
theorem Divided.link (h : Divided base s l) (hu : u ∈ s.used) : ∃ p r, p ∈ base :: l ∧
    Heap.search s.ptr u (2 * s.brk) s.freep = some p ∧
    Divided base { s.link u p with used := s.used.erase u } r ∧ r.length ≤ l.length + 1 ∧
    ∃ z ∈ r, s.size u ≤ (s.link u p).size z := by
  obtain ⟨hbase, hbrk⟩ := h.used_bounds hu
  have hlen := h.length_lt
  obtain ⟨p, r, hp, hsearch, hcircle, hlength, hcov, hlarge⟩ :=
    h.circle.link hbase (h.used_pos u hu) (h.used_free u hu) (by omega)
  obtain ⟨hbrk', hgot, -, -⟩ := Heap.link_rest s u p
  have hrest : ∀ v ∈ s.used.erase u, v ∈ s.used ∧ v ≠ u := by
    intro v hv
    obtain ⟨hne, hmem⟩ := h.used_nodup.mem_erase_iff.mp hv
    exact ⟨hmem, hne⟩
  have hsize : ∀ v ∈ s.used.erase u, (s.link u p).size v = s.size v :=
    fun v hv => h.link_of_used (hrest v hv).1 hp (hrest v hv).2
  have hwithin : ∀ v ∈ s.used.erase u, ∀ m, Within (s.link u p) v m → Within s v m :=
    fun v hv m hm => (Within.congr (hsize v hv)).mp hm
  have hbounds : ∀ m, (s.link u p).got m = true → base < m ∧ m < (s.link u p).brk := by
    rw [hgot, hbrk']
    exact h.bounds
  have hlt : base < (s.link u p).brk := Nat.lt_of_lt_of_eq h.base_lt hbrk'.symm
  refine ⟨p, r, hp, hsearch, ?_, hlength, hlarge⟩
  constructor
  · exact ⟨hcircle.links.congr (fun _ _ => rfl) (fun _ _ => rfl), hcircle.base_size,
      hcircle.freep_mem⟩
  · intro v hv
    have hpos := h.used_pos v (hrest v hv).1
    exact Nat.lt_of_lt_of_eq hpos (hsize v hv).symm
  · exact h.used_nodup.erase u
  · intro v hv w hw m hvm hwm
    exact h.used_apart v (hrest v hv).1 w (hrest w hw).1 m (hwithin v hv m hvm)
      (hwithin w hw m hwm)
  · intro v hv m hm hno
    have hvm := hwithin v hv m hm
    obtain hum | hfree := (hcov m).mp hno
    · exact (hrest v hv).2 (h.used_apart v (hrest v hv).1 u hu m hvm hum)
    · exact h.used_free v (hrest v hv).1 m hvm hfree
  · intro m
    have hused : Covered (s.link u p) (s.used.erase u) m ↔ Covered s (s.used.erase u) m :=
      Covered.congr hsize
    have hall := h.got_iff m
    rw [covered_erase hu] at hall
    have hgoal : (s.link u p).got m = true ↔
        Covered (s.link u p) r m ∨ Covered (s.link u p) (s.used.erase u) m := by
      rw [hgot, hall, hcov, hused]
      tauto
    exact hgoal
  · exact hbounds
  · exact h.base_pos
  · exact hlt

/-! ### `morecore` -/

/-- New memory, as a block that somebody has. -/
theorem Divided.gain (h : Divided base s l) (hn : 0 < n) :
    Divided base { s.gain n with used := s.brk :: s.used } l := by
  have hold : ∀ y, y < s.brk → (s.gain n).size y = s.size y :=
    fun y hy => Function.update_of_ne (Nat.ne_of_lt hy) _ _
  have hnew : (s.gain n).size s.brk = n := Function.update_self ..
  have hlist : ∀ y ∈ base :: l, y < s.brk := by
    intro y hy
    cases hy with
    | head => exact h.base_lt
    | tail _ hy => exact (h.free_bounds (h.circle.links.covered hy)).2
  have hused : ∀ v ∈ s.used, (s.gain n).size v = s.size v :=
    fun v hv => hold v (h.used_bounds hv).2
  have hfree : ∀ m, Covered (s.gain n) l m ↔ Covered s l m :=
    fun m => Covered.congr fun y hy => hold y (hlist y (List.mem_cons_of_mem base hy))
  have hbelow : ∀ v ∈ s.used, ∀ m, Within (s.gain n) v m → Within s v m ∧ m < s.brk := by
    intro v hv m hm
    have hvm := (Within.congr (hused v hv)).mp hm
    exact ⟨hvm, (h.bounds m ((h.got_iff m).mpr (.inr ⟨v, hv, hvm⟩))).2⟩
  have habove : ∀ m, Within (s.gain n) s.brk m ↔ s.brk ≤ m ∧ m < s.brk + n := by
    intro m
    unfold Within
    rw [hnew]
  have hcircle := h.circle
  constructor
  · exact ⟨hcircle.links.congr (fun _ _ => rfl) (fun y hy => hold y (hlist y hy)),
      (hold base h.base_lt).trans hcircle.base_size, hcircle.freep_mem⟩
  · intro v hv
    cases hv with
    | head => exact Nat.lt_of_lt_of_eq hn hnew.symm
    | tail _ hv => exact Nat.lt_of_lt_of_eq (h.used_pos v hv) (hused v hv).symm
  · refine List.nodup_cons.mpr ⟨?_, h.used_nodup⟩
    intro hno
    exact Nat.lt_irrefl _ (h.used_bounds hno).2
  · intro v hv w hw m hvm hwm
    cases hv with
    | head =>
      cases hw with
      | head => rfl
      | tail _ hw =>
        have hlt := (hbelow w hw m hwm).2
        have hge := ((habove m).mp hvm).1
        omega
    | tail _ hv =>
      have hv' := hbelow v hv m hvm
      cases hw with
      | head =>
        have hge := ((habove m).mp hwm).1
        omega
      | tail _ hw => exact h.used_apart v hv w hw m hv'.1 (hbelow w hw m hwm).1
  · intro v hv m hm hno
    have hcov := (hfree m).mp hno
    cases hv with
    | head =>
      have hlt := (h.free_bounds hcov).2
      have hge := ((habove m).mp hm).1
      omega
    | tail _ hv => exact h.used_free v hv m (hbelow v hv m hm).1 hcov
  · intro m
    have hused' : Covered (s.gain n) s.used m ↔ Covered s s.used m := Covered.congr hused
    have hgot : (s.gain n).got m = true ↔ s.got m = true ∨ s.brk ≤ m ∧ m < s.brk + n := by
      unfold Heap.gain
      rw [Bool.or_eq_true, Bool.and_eq_true, decide_eq_true_iff, decide_eq_true_iff]
    have hgoal : (s.gain n).got m = true ↔
        Covered (s.gain n) l m ∨ Covered (s.gain n) (s.brk :: s.used) m := by
      rw [hgot, h.got_iff, hfree, covered_cons, habove, hused']
      tauto
    exact hgoal
  · intro m hm
    have hm' : s.got m = true ∨ s.brk ≤ m ∧ m < s.brk + n := by
      have hor : (s.got m || (decide (s.brk ≤ m) && decide (m < s.brk + n))) = true := hm
      rw [Bool.or_eq_true, Bool.and_eq_true, decide_eq_true_iff, decide_eq_true_iff] at hor
      exact hor
    have hlt := h.base_lt
    have hgoal : base < m ∧ m < s.brk + n := by
      obtain hm | hm := hm'
      · have hbounds := h.bounds m hm
        omega
      · omega
    exact hgoal
  · exact h.base_pos
  · have hlt := h.base_lt
    have hgoal : base < s.brk + n := by omega
    exact hgoal

/-- `sbrk` does not give so much. -/
def Refused (s : Heap) (n : Nat) (ok : Bool) : Prop := ok = false ∨ KERNTOP ≤ s.brk + max n 4096

/-- Without memory nothing happens; else a block is there that is large enough. -/
theorem Divided.morecore (h : Divided base s l) (n : Nat) (ok : Bool) :
    Refused s n ok ∧ s.morecore n ok = some none ∨ ∃ t r, s.morecore n ok = some (some t) ∧
      Divided base t r ∧ r.length ≤ l.length + 1 ∧ (∃ z ∈ r, n ≤ t.size z) ∧
      t.used = s.used ∧ s.brk < t.brk ∧
      (∀ m, t.got m = true → s.got m = true ∨ s.brk ≤ m) ∧ Kept base s t l := by
  have hmax : (if n < 4096 then 4096 else n) = max n 4096 := by
    split_ifs <;> omega
  by_cases hsbrk : ok = true ∧ s.brk + max n 4096 < KERNTOP
  · refine .inr ?_
    obtain ⟨p, r, hp, hsearch, hdiv, hlength, z, hz, hsize⟩ :=
      (h.gain (n := max n 4096) (by omega)).link List.mem_cons_self
    have hstate := Heap.link_used (s.gain (max n 4096)) s.brk p
    have hsame : { (s.gain (max n 4096)).link s.brk p with used := s.used } =
        (s.gain (max n 4096)).link s.brk p := (hstate s.used).symm
    have hlarge : (s.gain (max n 4096)).size s.brk ≤ ((s.gain (max n 4096)).link s.brk p).size z :=
      Nat.le_trans hsize (Nat.le_of_eq (congrArg (fun t => t.size z) (hstate (s.brk :: s.used))))
    have hnew : (s.gain (max n 4096)).size s.brk = max n 4096 := Function.update_self ..
    have hfind : Heap.search (s.gain (max n 4096)).ptr s.brk (2 * (s.gain (max n 4096)).brk)
        (s.gain (max n 4096)).freep = some p := hsearch
    rw [hstate, List.erase_cons_head, hsame] at hdiv
    obtain ⟨hbrk, hgot, hused, -⟩ :=
      Heap.link_rest (s.gain (max n 4096)) s.brk p
    refine ⟨(s.gain (max n 4096)).link s.brk p, r, ?_, hdiv, hlength, ⟨z, hz, by omega⟩,
      hused, ?_, ?_, ?_⟩
    · unfold Heap.morecore Heap.free
      dsimp only
      rw [hmax, if_pos hsbrk, Nat.add_sub_cancel, hfind]
      rfl
    · have hmore : (s.gain (max n 4096)).brk = s.brk + max n 4096 := rfl
      omega
    · intro m hm
      have hor : (s.got m || (decide (s.brk ≤ m) && decide (m < s.brk + max n 4096))) = true := by
        rw [hgot] at hm
        exact hm
      rw [Bool.or_eq_true, Bool.and_eq_true, decide_eq_true_iff] at hor
      exact hor.imp_right And.left
    · intro a ha hne hfree
      have hbrk' : a ≠ s.brk := Nat.ne_of_lt ha
      have hap : a ≠ p := by
        intro hno
        rw [← hno] at hp
        cases hp with
        | head => exact hne rfl
        | tail _ hp => exact hfree (h.circle.links.covered hp)
      obtain ⟨hptr, hsize'⟩ := Heap.link_of_ne (s := s.gain (max n 4096)) hbrk' hap
      exact ⟨hptr, hsize'.trans (Function.update_of_ne hbrk' _ _)⟩
  · refine .inl ⟨?_, ?_⟩
    · unfold Refused
      cases ok with
      | false => exact .inl rfl
      | true =>
        have hno : ¬ s.brk + max n 4096 < KERNTOP := fun hno => hsbrk ⟨rfl, hno⟩
        exact .inr (Nat.le_of_not_lt hno)
    · unfold Heap.morecore
      dsimp only
      rw [hmax, if_neg hsbrk]

/-! ### The block that `malloc` takes -/

/-- `malloc` has taken the block `u` from the free memory. -/
structure Took (base : Nat) (s t : Heap) (l : List Nat) (n u : Nat) : Prop where
  ret : t.ret = u + 1
  used : t.used = u :: s.used
  size : t.size u = n
  free : ∀ m, Within t u m → Covered s l m
  brk : t.brk = s.brk
  kept : Kept base s t l

theorem Divided.take_whole (h : Divided base s l) (hn : 0 < n) (hp : p ∈ l) (hq : q ∈ base :: l)
    (hqp : s.ptr q = p) (hsize : s.size p = n) :
    Divided base (s.take n q p) (l.erase p) ∧ Took base s (s.take n q p) l n p := by
  have htake : s.take n q p = { s with
      ptr := Function.update s.ptr q (s.ptr p)
      freep := q
      ret := p + 1
      used := p :: s.used } := if_pos hsize
  rw [htake]
  have hcircle := h.circle
  have hbase := (h.free_bounds (hcircle.links.covered hp)).1
  have hpq : p ≠ q := by
    intro hno
    rw [← hno] at hqp
    obtain ⟨l', hl', -⟩ := hcircle.links.suffix (List.mem_cons_of_mem base hp)
    obtain hb | hmem := hl'.ptr_mem List.mem_cons_self
    · omega
    · have hlt := (hl'.lt _ hmem).1
      omega
  have hlinks := hcircle.links.erase (t := { s with
      ptr := Function.update s.ptr q (s.ptr p)
      freep := q
      ret := p + 1
      used := p :: s.used }) (Nat.le_refl base) hp hq hqp (Function.update_self ..)
    (fun y hy => Function.update_of_ne hy _ _) (fun _ => rfl)
  have hblock : ∀ m, Within s p m → Covered s l m := fun m hm => ⟨p, hp, hm⟩
  refine ⟨?_, rfl, rfl, hsize, hblock, rfl, ?_⟩
  · constructor
    · refine ⟨hlinks, hcircle.base_size, ?_⟩
      cases hq with
      | head => exact List.mem_cons_self
      | tail _ hq => exact List.mem_cons_of_mem base ((List.mem_erase_of_ne (Ne.symm hpq)).mpr hq)
    · intro v hv
      cases hv with
      | head => exact (hcircle.links.lt p hp).2
      | tail _ hv => exact h.used_pos v hv
    · refine List.nodup_cons.mpr ⟨?_, h.used_nodup⟩
      intro hno
      exact h.used_not_mem hno (List.mem_cons_of_mem base hp)
    · intro v hv w hw m hvm hwm
      cases hv with
      | head =>
        cases hw with
        | head => rfl
        | tail _ hw => exact absurd (hblock m hvm) (h.used_free w hw m hwm)
      | tail _ hv =>
        cases hw with
        | head => exact absurd (hblock m hwm) (h.used_free v hv m hvm)
        | tail _ hw => exact h.used_apart v hv w hw m hvm hwm
    · intro v hv m hvm hno
      have hcov := (covered_erase hp).mpr (.inr hno)
      cases hv with
      | head =>
        obtain ⟨w, hw, hwm⟩ := hno
        obtain ⟨hne, hmem⟩ :=
          (List.nodup_cons.mp hcircle.links.nodup).2.mem_erase_iff.mp hw
        exact hne (hcircle.links.apart hmem hp hwm hvm)
      | tail _ hv => exact h.used_free v hv m hvm hcov
    · intro m
      have hgoal : s.got m = true ↔ Covered s (l.erase p) m ∨ Covered s (p :: s.used) m := by
        rw [h.got_iff, covered_erase hp, covered_cons]
        tauto
      exact hgoal
    · exact h.bounds
    · exact h.base_pos
    · exact h.base_lt
  · intro a ha hne hfree
    refine ⟨Function.update_of_ne ?_ _ _, rfl⟩
    intro hno
    rw [← hno] at hq
    cases hq with
    | head => exact hne rfl
    | tail _ hq => exact hfree (hcircle.links.covered hq)

theorem Divided.take_end (h : Divided base s l) (hn : 0 < n) (hp : p ∈ l) (hq : q ∈ base :: l)
    (hsize : n < s.size p) :
    Divided base (s.take n q p) l ∧ Took base s (s.take n q p) l n (p + (s.size p - n)) := by
  obtain ⟨u, hu⟩ : ∃ u, u = p + (s.size p - n) := ⟨_, rfl⟩
  have htake : s.take n q p = { s with
      size := Function.update (Function.update s.size p (s.size p - n)) u n
      freep := q
      ret := u + 1
      used := u :: s.used } := by
    rw [hu]
    exact if_neg (Nat.ne_of_gt hsize)
  rw [htake, ← hu]
  obtain ⟨t, ht⟩ : ∃ t : Heap, t = { s with
      size := Function.update (Function.update s.size p (s.size p - n)) u n
      freep := q
      ret := u + 1
      used := u :: s.used } := ⟨_, rfl⟩
  rw [← ht]
  have hcircle := h.circle
  have hinside : Within s p u := by
    unfold Within
    omega
  have hcov : Covered s l u := ⟨p, hp, hinside⟩
  have hbounds := h.free_bounds hcov
  have hup : p ≠ u := by omega
  -- The new header is not one of the old ones.
  have hfresh : u ∉ l := by
    intro hno
    have heq := hcircle.links.apart hno hp (within_self (hcircle.links.lt u hno).2) hinside
    exact hup heq.symm
  have hunused : u ∉ s.used := by
    intro hno
    exact h.used_free u hno u (within_self (h.used_pos u hno)) hcov
  have hsizeu : t.size u = n := by
    rw [ht]
    exact Function.update_self ..
  have hsizep : t.size p = s.size p - n := by
    rw [ht]
    exact (Function.update_of_ne hup _ _).trans (Function.update_self ..)
  have hother : ∀ y, y ≠ u → y ≠ p → t.size y = s.size y := by
    intro y hy hy'
    rw [ht]
    exact (Function.update_of_ne hy _ _).trans (Function.update_of_ne hy' _ _)
  have hptr : ∀ y, t.ptr y = s.ptr y := by
    intro y
    rw [ht]
  have hused : ∀ v ∈ s.used, t.size v = s.size v := by
    intro v hv
    refine hother v ?_ ?_
    · intro hno
      rw [hno] at hv
      exact hunused hv
    · intro hno
      rw [hno] at hv
      exact h.used_not_mem hv (List.mem_cons_of_mem base hp)
  have hwithin : ∀ v ∈ s.used, ∀ m, Within t v m ↔ Within s v m :=
    fun v hv m => Within.congr (hused v hv)
  have hnew : ∀ m, Within t u m ↔ u ≤ m ∧ m < u + n := by
    intro m
    unfold Within
    rw [hsizeu]
  have hblock : ∀ m, Within t u m → Within s p m := by
    intro m hm
    have hm' := (hnew m).mp hm
    unfold Within
    omega
  have hlist : ∀ y ∈ l, y ≠ p → t.size y = s.size y := by
    intro y hy hyp
    refine hother y ?_ hyp
    intro hno
    rw [hno] at hy
    exact hfresh hy
  have hsplit : ∀ m, Covered s l m ↔ Covered t l m ∨ Within t u m := by
    intro m
    rw [hnew]
    constructor
    · rintro ⟨y, hy, hm⟩
      by_cases hyp : y = p
      · rw [hyp] at hm
        unfold Within at hm
        by_cases hlt : m < u
        · exact .inl ⟨p, hp, by unfold Within; omega⟩
        · exact .inr (by omega)
      · exact .inl ⟨y, hy, (Within.congr (hlist y hy hyp)).mpr hm⟩
    · rintro (⟨y, hy, hm⟩ | hm)
      · by_cases hyp : y = p
        · rw [hyp] at hm
          unfold Within at hm
          exact ⟨p, hp, by unfold Within; omega⟩
        · exact ⟨y, hy, (Within.congr (hlist y hy hyp)).mp hm⟩
      · exact ⟨p, hp, by unfold Within; omega⟩
  have hexcl : ∀ m, Within t u m → ¬ Covered t l m := by
    rintro m hm ⟨y, hy, hym⟩
    by_cases hyp : y = p
    · rw [hyp] at hym
      have hm' := (hnew m).mp hm
      unfold Within at hym
      omega
    · exact hyp (hcircle.links.apart hy hp ((Within.congr (hlist y hy hyp)).mp hym) (hblock m hm))
  have husedeq : t.used = u :: s.used := by
    rw [ht]
  have hgoteq : t.got = s.got := by
    rw [ht]
  have hbrkeq : t.brk = s.brk := by
    rw [ht]
  have hbase : t.size base = s.size base := by
    refine hother base ?_ ?_
    · omega
    · have hlt := (h.free_bounds (hcircle.links.covered hp)).1
      omega
  refine ⟨?_, by rw [ht], husedeq, hsizeu, fun m hm => ⟨p, hp, hblock m hm⟩, hbrkeq, ?_⟩
  · constructor
    · refine ⟨hcircle.links.move (hptr base) (by omega) (fun y _ => hptr y) ?_,
        hbase.trans hcircle.base_size, ?_⟩
      · intro y hy
        by_cases hyp : y = p
        · rw [hyp]
          omega
        · rw [hlist y hy hyp]
          exact ⟨(hcircle.links.lt y hy).2, Nat.le_refl _⟩
      · rw [ht]
        exact hq
    · rw [husedeq]
      intro v hv
      cases hv with
      | head => exact Nat.lt_of_lt_of_eq hn hsizeu.symm
      | tail _ hv => exact Nat.lt_of_lt_of_eq (h.used_pos v hv) (hused v hv).symm
    · rw [husedeq]
      exact List.nodup_cons.mpr ⟨hunused, h.used_nodup⟩
    · rw [husedeq]
      intro v hv w hw m hvm hwm
      cases hv with
      | head =>
        cases hw with
        | head => rfl
        | tail _ hw =>
          exact absurd ⟨p, hp, hblock m hvm⟩ (h.used_free w hw m ((hwithin w hw m).mp hwm))
      | tail _ hv =>
        have hvm' := (hwithin v hv m).mp hvm
        cases hw with
        | head => exact absurd ⟨p, hp, hblock m hwm⟩ (h.used_free v hv m hvm')
        | tail _ hw => exact h.used_apart v hv w hw m hvm' ((hwithin w hw m).mp hwm)
    · rw [husedeq]
      intro v hv m hvm hno
      cases hv with
      | head => exact hexcl m hvm hno
      | tail _ hv =>
        exact h.used_free v hv m ((hwithin v hv m).mp hvm) ((hsplit m).mpr (.inl hno))
    · intro m
      rw [hgoteq, husedeq, h.got_iff, hsplit, covered_cons, Covered.congr hused, or_assoc]
    · rw [hgoteq, hbrkeq]
      exact h.bounds
    · exact h.base_pos
    · rw [hbrkeq]
      exact h.base_lt
  · intro a ha hne hfree
    refine ⟨hptr a, hother a ?_ ?_⟩
    · intro hno
      rw [hno] at hfree
      exact hfree hcov
    · intro hno
      rw [hno] at hfree
      exact hfree (hcircle.links.covered hp)

theorem Divided.take (h : Divided base s l) (hn : 0 < n) (hq : q ∈ base :: l)
    (hp : s.ptr q ∈ base :: l) (hsize : n ≤ s.size (s.ptr q)) :
    ∃ r u, Divided base (s.take n q (s.ptr q)) r ∧ Took base s (s.take n q (s.ptr q)) l n u := by
  have hmem : s.ptr q ∈ l := by
    refine List.mem_of_ne_of_mem ?_ hp
    intro hno
    rw [hno, h.circle.base_size] at hsize
    omega
  obtain hlt | heq := Nat.lt_or_eq_of_le hsize
  · exact ⟨l, _, h.take_end hn hmem hq hlt⟩
  · exact ⟨l.erase (s.ptr q), s.ptr q, h.take_whole hn hmem hq rfl heq.symm⟩

/-! ### The loop of `malloc` -/

namespace Heap

/-- Along the pointers the loop finds the first block that is large enough, or comes to `freep`. -/
theorem scan {ps : List Nat} (n : Nat) (ok : Bool)
    (hchain : List.IsChain (fun a b => s.ptr a = b) (q :: (ps ++ [s.freep])))
    (hps : s.freep ∉ ps) (hm : ps.length < m) :
    (∃ x ∈ q :: ps, s.ptr x ∈ ps ++ [s.freep] ∧ n ≤ s.size (s.ptr x) ∧
      mallocLoop n ok m s q = some (s.take n x (s.ptr x))) ∨
    (∀ p ∈ ps ++ [s.freep], s.size p < n) ∧ ∃ x, s.ptr x = s.freep ∧
      mallocLoop n ok m s q = mallocLoop n ok (m - ps.length) s x := by
  induction ps generalizing q m with
  | nil =>
    have hlast : s.ptr q = s.freep := (List.isChain_cons_cons.mp hchain).1
    cases m with
    | zero => cases hm
    | succ m =>
      by_cases hn : n ≤ s.size (s.ptr q)
      · refine .inl ⟨q, List.mem_cons_self, ?_, hn, ?_⟩
        · rw [hlast]
          exact List.mem_cons_self
        · unfold mallocLoop
          exact if_pos hn
      · refine .inr ⟨?_, q, hlast, rfl⟩
        intro p hp
        rw [List.mem_singleton.mp hp, ← hlast]
        exact Nat.lt_of_not_le hn
  | cons y ps ih =>
    obtain ⟨hnext, hrest⟩ := List.isChain_cons_cons.mp hchain
    cases m with
    | zero => cases hm
    | succ m =>
      have hy : y ≠ s.freep := by
        intro hno
        rw [hno] at hps
        exact hps List.mem_cons_self
      by_cases hn : n ≤ s.size (s.ptr q)
      · refine .inl ⟨q, List.mem_cons_self, ?_, hn, ?_⟩
        · rw [hnext]
          exact List.mem_cons_self
        · unfold mallocLoop
          exact if_pos hn
      · have hturn : mallocLoop n ok (m + 1) s q = mallocLoop n ok m s y := by
          rw [mallocLoop, if_neg hn, hnext, if_neg hy]
        rw [hturn]
        obtain ⟨x, hx, hxp, hsize, hloop⟩ | ⟨hall, x, hx, hloop⟩ :=
          ih hrest (fun hno => hps (List.mem_cons_of_mem y hno)) (Nat.lt_of_succ_lt_succ hm)
        · exact .inl ⟨x, List.mem_cons_of_mem q hx, List.mem_cons_of_mem y hxp, hsize, hloop⟩
        · refine .inr ⟨?_, x, hx, ?_⟩
          · intro p hp
            cases hp with
            | head =>
              rw [hnext] at hn
              exact Nat.lt_of_not_le hn
            | tail _ hp => exact hall p hp
          · rw [hloop, List.length_cons, Nat.add_sub_add_right]

theorem mallocLoop_last (ok : Bool) (hq : s.ptr q = s.freep) (hsize : s.size s.freep < n) :
    mallocLoop n ok (m + 1) s q = (s.morecore n ok).bind fun o =>
      o.elim (some { s with ret := 0 }) fun t => mallocLoop n ok m t t.freep := by
  rw [mallocLoop, hq, if_neg (Nat.not_le_of_lt hsize), if_pos rfl]
  refine congrArg _ (funext fun o => ?_)
  cases o <;> rfl

end Heap

/-- The blocks in the order in which the loop comes to them from `freep`. -/
theorem Circle.walk (h : Circle base s l) : ∃ ps : List Nat,
    List.IsChain (fun a b => s.ptr a = b) (s.freep :: (ps ++ [s.freep])) ∧ s.freep ∉ ps ∧
    (∀ y, y ∈ ps ++ [s.freep] ↔ y ∈ base :: l) ∧ ps.length = l.length := by
  obtain ⟨l₁, l₂, heq⟩ := List.append_of_mem h.freep_mem
  have hchain := h.links.chain
  have hnodup := h.links.nodup
  rw [heq] at hnodup
  rw [heq, List.append_assoc, List.cons_append] at hchain
  obtain ⟨hfront, hback⟩ := List.isChain_split.mp hchain
  refine ⟨l₂ ++ l₁, ?_, ?_, ?_, ?_⟩
  · cases l₁ with
    | nil =>
      have hbase : base = s.freep := (List.cons.inj heq).1
      rw [List.append_nil, ← hbase]
      rw [← hbase] at hback
      exact hback
    | cons b l₁ =>
      have hbase : base = b := (List.cons.inj heq).1
      rw [← hbase] at hfront ⊢
      have hall : List.IsChain (fun a b => s.ptr a = b)
          ((s.freep :: l₂) ++ base :: (l₁ ++ [s.freep])) := List.isChain_split.mpr ⟨hback, hfront⟩
      rw [List.append_assoc]
      exact hall
  · obtain ⟨-, hcons, hdisj⟩ := List.nodup_append.mp hnodup
    intro hno
    obtain hmem | hmem := List.mem_append.mp hno
    · exact (List.nodup_cons.mp hcons).1 hmem
    · exact hdisj _ hmem _ List.mem_cons_self rfl
  · intro y
    simp only [heq, List.mem_append, List.mem_cons, List.not_mem_nil, or_false]
    tauto
  · have hlen := congrArg List.length heq
    rw [List.length_cons, List.length_append, List.length_cons] at hlen
    rw [List.length_append]
    omega

/-! ### `malloc` -/

/-- A block of `n` headers, from free memory or from memory that is new. -/
structure Given (base : Nat) (s t : Heap) (l : List Nat) (n u : Nat) : Prop where
  ret : t.ret = u + 1
  used : t.used = u :: s.used
  size : t.size u = n
  free : ∀ m, Within t u m → Covered s l m ∨ s.brk ≤ m
  /-- The kernel is asked only when no free block is large enough. -/
  brk : t.brk = s.brk ∨ s.brk < t.brk ∧ ∀ y ∈ l, s.size y < n
  kept : Kept base s t l

/-- The first pass finds a block, or there is none. -/
theorem Divided.search (h : Divided base s l) (ok : Bool) (hn : 0 < n) (hm : l.length < m) :
    (∃ r t u, Heap.mallocLoop n ok m s s.freep = some t ∧ Divided base t r ∧
      Took base s t l n u) ∨
    (∀ y ∈ l, s.size y < n) ∧ ∃ x, s.ptr x = s.freep ∧ s.size s.freep < n ∧
      Heap.mallocLoop n ok m s s.freep = Heap.mallocLoop n ok (m - l.length) s x := by
  obtain ⟨ps, hchain, hnot, hmem, hlen⟩ := h.circle.walk
  have hfreep : s.freep ∈ ps ++ [s.freep] := List.mem_append_right ps List.mem_cons_self
  obtain ⟨x, hx, hxp, hsize, hloop⟩ | ⟨hall, x, hx, hloop⟩ :=
    Heap.scan n ok hchain hnot (hlen ▸ hm)
  · have hx' : x ∈ base :: l := by
      cases hx with
      | head => exact h.circle.freep_mem
      | tail _ hx => exact (hmem x).mp (List.mem_append_left _ hx)
    obtain ⟨r, u, hdiv, htook⟩ := h.take hn hx' ((hmem _).mp hxp) hsize
    exact .inl ⟨r, _, u, hloop, hdiv, htook⟩
  · rw [hlen] at hloop
    exact .inr ⟨fun y hy => hall y ((hmem y).mpr (List.mem_cons_of_mem base hy)), x, hx,
      hall _ hfreep, hloop⟩

/-- `malloc` returns: nothing when there is no memory, else a block. -/
theorem Divided.malloc (h : Divided base s l) (ok : Bool) (hn : 0 < n) :
    (Refused s n ok ∧ (∀ y ∈ l, s.size y < n) ∧
      Heap.mallocLoop n ok (2 * s.brk + 1) s s.freep = some { s with ret := 0 }) ∨
    ∃ r t u, Heap.mallocLoop n ok (2 * s.brk + 1) s s.freep = some t ∧ Divided base t r ∧
      Given base s t l n u := by
  have hlen := h.length_lt
  obtain ⟨r, t, u, hloop, hdiv, htook⟩ | ⟨hall, x, hx, hsize, hloop⟩ :=
    h.search ok (m := 2 * s.brk + 1) hn (by omega)
  · exact .inr ⟨r, t, u, hloop, hdiv, htook.ret, htook.used, htook.size,
      fun m hm => .inl (htook.free m hm), .inl htook.brk, htook.kept⟩
  · obtain ⟨k, hk⟩ : ∃ k, 2 * s.brk + 1 - l.length = k + 1 := ⟨2 * s.brk - l.length, by omega⟩
    rw [hloop, hk, Heap.mallocLoop_last ok hx hsize]
    obtain ⟨hrefused, hmore⟩ | ⟨t, r, hmore, hdiv, hlength, ⟨z, hz, hlarge⟩, hused, hbrk, hgot,
        hkept⟩ := h.morecore n ok
    · rw [hmore]
      exact .inl ⟨hrefused, hall, rfl⟩
    · -- What is free now was free or is new: the blocks in use have not changed.
      have hfree : ∀ m, Covered t r m → Covered s l m ∨ s.brk ≤ m := by
        intro m hm
        obtain hold | hnew := hgot m ((hdiv.got_iff m).mpr (.inl hm))
        · obtain hfree | ⟨v, hv, hvm⟩ := (h.got_iff m).mp hold
          · exact .inl hfree
          · have hv' : v ∈ t.used := by
              rw [hused]
              exact hv
            have hbounds := h.used_bounds hv
            have hnot := h.used_free v hv v (within_self (h.used_pos v hv))
            have hsame := (hkept v hbounds.2 (by omega) hnot).2
            exact absurd hm (hdiv.used_free v hv' m ((Within.congr hsame).mpr hvm))
        · exact .inr hnew
      rw [hmore]
      obtain ⟨r', t', u, hloop', hdiv', htook⟩ | ⟨hnone, -⟩ :=
        hdiv.search ok (m := k) hn (by omega)
      · refine .inr ⟨r', t', u, hloop', hdiv', htook.ret, ?_, htook.size, ?_, .inr ⟨?_, hall⟩, ?_⟩
        · rw [htook.used, hused]
        · intro m hm
          exact hfree m (htook.free m hm)
        · rw [htook.brk]
          exact hbrk
        · intro a ha hne hnot
          obtain ⟨hptr, hsame⟩ := hkept a ha hne hnot
          obtain ⟨hptr', hsame'⟩ := htook.kept a (Nat.lt_trans ha hbrk) hne fun hno => by
            obtain hcov | hge := hfree a hno
            · exact hnot hcov
            · exact absurd ha (Nat.not_lt_of_le hge)
          exact ⟨hptr'.trans hptr, hsame'.trans hsame⟩
      · have hlt := hnone z hz
        omega

end Xv6.Malloc
