import Xv6.User.MallocBlocks

/-!
# Programs that use the allocator

In every run of a program the allocator keeps its memory divided, leaves the program's memory
alone, and returns from every call.
-/

namespace Xv6.Malloc
open Transition

/-- `n` units without a hole. -/
def Room (s : Heap) (n : Nat) : Prop := ∃ x, ∀ m, x ≤ m → m < x + n → Spare s m

def Consistent (base : Nat) (s : Heap) : Prop := Untouched base s ∨ ∃ l, Divided base s l

variable {base brk nbytes u a m n : Nat} {ptr size : Nat → Nat} {s t : Heap} {l : List Nat} {ok : Bool}

/-- The first call begins with the static header alone. -/
def begun (base : Nat) (s : Heap) : Heap :=
  { s with
    ptr := Function.update s.ptr base base
    freep := base
    size := Function.update s.size base 0 }

theorem Untouched.begun (h : Untouched base s) : Divided base (begun base s) [] := by
  have hused : (Malloc.begun base s).used = [] := h.used
  have hzero : (Malloc.begun base s).size base = 0 := Function.update_self ..
  constructor
  · exact ⟨Function.update_self .., hzero, List.mem_cons_self⟩
  · rw [hused]
    intro u hu
    cases hu
  · rw [hused]
    exact List.nodup_nil
  · rw [hused]
    intro u hu
    cases hu
  · rw [hused]
    intro u hu
    cases hu
  · intro m
    have hgot : (Malloc.begun base s).got m = false := h.got m
    rw [hgot, hused]
    constructor
    · intro hno
      cases hno
    · rintro (hno | hno)
      · exact absurd hno covered_nil
      · exact absurd hno covered_nil
  · intro m hm
    have hgot : (Malloc.begun base s).got m = false := h.got m
    rw [hgot] at hm
    cases hm
  · exact h.base_pos
  · exact h.base_lt

/-- A call begins with the static header when it is the first one (umalloc.c:71-74). -/
def Begins (base : Nat) (s t : Heap) : Prop :=
  s.freep ≠ 0 ∧ t = s ∨ s.freep = 0 ∧ t = begun base s

theorem Begins.rest (h : Begins base s t) : t.brk = s.brk ∧ t.used = s.used ∧ t.got = s.got ∧
    ∀ a, a ≠ base → t.ptr a = s.ptr a ∧ t.size a = s.size a := by
  obtain ⟨-, rfl⟩ | ⟨-, rfl⟩ := h
  · exact ⟨rfl, rfl, rfl, fun _ _ => ⟨rfl, rfl⟩⟩
  · refine ⟨rfl, rfl, rfl, ?_⟩
    intro a ha
    exact ⟨Function.update_of_ne ha _ _, Function.update_of_ne ha _ _⟩

theorem Consistent.start (h : Consistent base s) (nbytes : Nat) (ok : Bool) : ∃ s₀ l,
    s.malloc base nbytes ok = Heap.mallocLoop (nunits nbytes) ok (2 * s₀.brk + 1) s₀ s₀.freep ∧
    Divided base s₀ l ∧ Begins base s s₀ := by
  obtain hnew | ⟨l, hdiv⟩ := h
  · refine ⟨begun base s, [], ?_, hnew.begun, .inr ⟨hnew.freep, rfl⟩⟩
    unfold Heap.malloc
    dsimp only
    rw [if_pos hnew.freep]
    rfl
  · have hpos := hdiv.base_pos
    have hle := hdiv.circle.base_le hdiv.circle.freep_mem
    have hfreep : s.freep ≠ 0 := by omega
    refine ⟨s, l, ?_, hdiv, .inl ⟨hfreep, rfl⟩⟩
    unfold Heap.malloc
    dsimp only
    rw [if_neg hfreep]

/-- What the program reads back from its own memory, and the lengths of its blocks. -/
def Same (base : Nat) (s t : Heap) : Prop :=
  (∀ a, Own base s a → t.ptr a = s.ptr a ∧ t.size a = s.size a) ∧
    ∀ u ∈ s.used, u ∈ t.used → t.size u = s.size u

/-- What `malloc` answers: nothing without memory, when it does no more than to set up the static
header, or a block. -/
def Answer (base : Nat) (s t : Heap) (n : Nat) (ok : Bool) : Prop :=
  ((∃ s₀, Begins base s s₀ ∧ t = { s₀ with ret := 0 }) ∧ Refused s n ok ∧ ¬ Room s n) ∨
    ∃ u, t.ret = u + 1 ∧ t.used = u :: s.used ∧ t.size u = n ∧
      (∀ m, Within t u m → Spare s m ∨ s.brk ≤ m ∧ m < t.brk) ∧
      (t.brk = s.brk ∨ s.brk < t.brk ∧ ¬ Room s n)

/-- A hole that is long enough lies in one block. -/
theorem Divided.no_room (h : Divided base s l) (hn : 0 < n) (hall : ∀ y ∈ l, s.size y < n) :
    ¬ Room s n := by
  rintro ⟨x, hx⟩
  obtain ⟨z, hz, hle, hend⟩ :=
    h.circle.links.run hn fun m hm hm' => h.covered_iff.mpr (hx m hm hm')
  have hlt := hall z hz
  omega

theorem Divided.own_begun {s₀ : Heap} (h : Divided base s₀ l) (hused : s₀.used = s.used)
    (hgot : s₀.got = s.got) (hbrk : s₀.brk = s.brk) (hsame : ∀ a, a ≠ base → s₀.size a = s.size a)
    (ha : Own base s a) : Own base s₀ a := by
  obtain ⟨u, hu, hlt, hend⟩ | ⟨hlt, hno, hne⟩ := ha
  · have hu' : u ∈ s₀.used := by
      rw [hused]
      exact hu
    refine .inl ⟨u, hu', hlt, ?_⟩
    rw [hsame u (Nat.ne_of_gt (h.used_bounds hu').1)]
    exact hend
  · refine .inr ⟨?_, ?_, hne⟩
    · rw [hbrk]
      exact hlt
    · rw [hgot]
      exact hno

/-- `malloc` returns and keeps the memory divided. -/
theorem Consistent.malloc (h : Consistent base s) (nbytes : Nat) (ok : Bool) :
    ∃ t l, s.malloc base nbytes ok = some t ∧ Divided base t l ∧ Same base s t ∧
      Answer base s t (nunits nbytes) ok := by
  obtain ⟨s₀, l, hstart, hdiv, hbegins⟩ := h.start nbytes ok
  obtain ⟨hbrk, hused, hgot, hsame⟩ := hbegins.rest
  have hn : 0 < nunits nbytes := Nat.succ_pos _
  have hblock : ∀ u ∈ s.used, u ∈ s₀.used ∧ u ≠ base := by
    intro u hu
    rw [← hused] at hu
    exact ⟨hu, Nat.ne_of_gt (hdiv.used_bounds hu).1⟩
  have hspare : ∀ m, Spare s₀ m ↔ Spare s m := by
    intro m
    unfold Spare
    rw [hgot, hused, Covered.congr fun u hu => (hsame u (hblock u hu).2).2]
  have hroom : (∀ y ∈ l, s₀.size y < nunits nbytes) → ¬ Room s (nunits nbytes) := by
    rintro hall ⟨x, hx⟩
    exact hdiv.no_room hn hall ⟨x, fun m hm hm' => (hspare m).mpr (hx m hm hm')⟩
  have hown : ∀ a, Own base s a → Own base s₀ a :=
    fun a ha => hdiv.own_begun hused hgot hbrk (fun b hb => (hsame b hb).2) ha
  obtain ⟨hrefused, hall, hloop⟩ | ⟨r, t, u, hloop, hdiv', hgiven⟩ := hdiv.malloc ok hn
  · rw [hloop] at hstart
    refine ⟨_, l, hstart, ?_, ⟨?_, ?_⟩, .inl ⟨⟨s₀, hbegins, rfl⟩, ?_, hroom hall⟩⟩
    · exact hdiv.congr rfl rfl rfl (Nat.le_refl _) (fun _ _ => rfl) (fun _ _ => rfl) fun _ _ => rfl
    · intro a ha
      exact hsame a (hdiv.own (hown a ha)).2.2.1
    · intro v hv _
      exact (hsame v (hblock v hv).2).2
    · unfold Refused at hrefused ⊢
      rw [← hbrk]
      exact hrefused
  · rw [hloop] at hstart
    refine ⟨t, r, hstart, hdiv', ⟨?_, ?_⟩, .inr ⟨u, hgiven.ret, ?_, hgiven.size, ?_, ?_⟩⟩
    · intro a ha
      obtain ⟨hlt, -, hne, hfree⟩ := hdiv.own (hown a ha)
      obtain ⟨hptr, hsize⟩ := hgiven.kept a hlt hne hfree
      exact ⟨hptr.trans (hsame a hne).1, hsize.trans (hsame a hne).2⟩
    · intro v hv _
      obtain ⟨hv₀, hne⟩ := hblock v hv
      have hlt := (hdiv.used_bounds hv₀).2
      have hfree := hdiv.used_free v hv₀ v (within_self (hdiv.used_pos v hv₀))
      exact (hgiven.kept v hlt hne hfree).2.trans (hsame v hne).2
    · rw [hgiven.used, hused]
    · intro m hm
      have hu : u ∈ t.used := by
        rw [hgiven.used]
        exact List.mem_cons_self
      have hlt := (hdiv'.bounds m ((hdiv'.got_iff m).mpr (.inr ⟨u, hu, hm⟩))).2
      obtain hfree | hnew := hgiven.free m hm
      · exact .inl ((hspare m).mp (hdiv.covered_iff.mp hfree))
      · rw [hbrk] at hnew
        exact .inr ⟨hnew, hlt⟩
    · rw [← hbrk]
      exact hgiven.brk.imp_right fun hbrk' => ⟨hbrk'.1, hroom hbrk'.2⟩

theorem Consistent.free (h : Consistent base s) (hu : u ∈ s.used) : ∃ t l, s.free (u + 1) = some t ∧
    Divided base { t with used := t.used.erase u } l ∧
    Same base s { t with used := t.used.erase u } := by
  obtain hnew | ⟨l, hdiv⟩ := h
  · rw [hnew.used] at hu
    cases hu
  · obtain ⟨p, r, hp, hsearch, hdiv', -⟩ := hdiv.link hu
    obtain ⟨-, -, hused, -⟩ := Heap.link_rest s u p
    refine ⟨s.link u p, r, ?_, ?_, ?_, ?_⟩
    · unfold Heap.free
      rw [Nat.add_sub_cancel, hsearch]
      rfl
    · rw [hused]
      exact hdiv'
    · intro a ha
      obtain ⟨-, hne, hbase, hfree⟩ := hdiv.own ha
      refine Heap.link_of_ne ?_ ?_
      · intro hno
        rw [hno] at hne
        exact hne hu
      · intro hno
        rw [← hno] at hp
        cases hp with
        | head => exact hbase rfl
        | tail _ hp => exact hfree (hdiv.circle.links.covered hp)
    · intro v hv hv'
      have hmem : v ∈ s.used.erase u := by
        rw [← hused]
        exact hv'
      exact hdiv.link_of_used hv hp (hdiv.used_nodup.mem_erase_iff.mp hmem).1

/-! ### Runs -/

/-- What a step may not do: change the program's memory, unless it is the program that writes, or
the length of a block that stays in use. -/
def Leaves (base : Nat) (s t : Heap) (a : Action) : Prop :=
  (∀ b, Own base s b → (∀ v w, a ≠ .write b v w) → t.ptr b = s.ptr b ∧ t.size b = s.size b) ∧
    ∀ u ∈ s.used, u ∈ t.used → t.size u = s.size u

theorem Same.leaves {a : Action} (h : Same base s t) : Leaves base s t a :=
  ⟨fun b hb _ => h.1 b hb, h.2⟩

/-- The program writes into its own memory. -/
theorem Consistent.write (h : Consistent base s) (ha : Own base s a) (v w : Nat) :
    Consistent base { s with
      ptr := Function.update s.ptr a v
      size := Function.update s.size a w } := by
  obtain hnew | ⟨l, hdiv⟩ := h
  · exact .inl ⟨hnew.freep, hnew.used, hnew.got, hnew.base_pos, hnew.base_lt⟩
  · obtain ⟨-, hused, hbase, hfree⟩ := hdiv.own ha
    have hlist : ∀ y ∈ base :: l, y ≠ a := by
      intro y hy hno
      rw [hno] at hy
      cases hy with
      | head => exact hbase rfl
      | tail _ hy => exact hfree (hdiv.circle.links.covered hy)
    refine .inr ⟨l, hdiv.congr rfl rfl rfl (Nat.le_refl _) ?_ ?_ ?_⟩
    · intro y hy
      exact Function.update_of_ne (hlist y hy) _ _
    · intro y hy
      exact Function.update_of_ne (hlist y hy) _ _
    · intro u hu
      refine Function.update_of_ne ?_ _ _
      intro hno
      rw [hno] at hu
      exact hused hu

theorem Consistent.own_not_used (h : Consistent base s) (ha : Own base s a) : a ∉ s.used := by
  obtain hnew | ⟨l, hdiv⟩ := h
  · rw [hnew.used]
    exact List.not_mem_nil
  · exact (hdiv.own ha).2.1

/-- One step: the call returns, the memory stays divided and the program's memory as it is. -/
theorem Consistent.step {a : Action} (h : Consistent base s) (ha : Enabled base s a) :
    ∃ t, step base s a = some t ∧ Consistent base t ∧ Leaves base s t a ∧
      ∀ nbytes ok, a = .malloc nbytes ok → Answer base s t (nunits nbytes) ok := by
  unfold Malloc.step
  rw [if_pos ha]
  cases a with
  | malloc nbytes ok =>
    obtain ⟨t, l, ht, hdiv, hsame, hanswer⟩ := h.malloc nbytes ok
    refine ⟨t, ht, .inr ⟨l, hdiv⟩, hsame.leaves, ?_⟩
    intro nbytes' ok' heq
    cases heq
    exact hanswer
  | free ap =>
    obtain ⟨hu, hpos⟩ := ha
    obtain ⟨t, l, ht, hdiv, hsame⟩ := h.free hu
    rw [Nat.sub_add_cancel hpos] at ht
    refine ⟨_, ?_, .inr ⟨l, hdiv⟩, hsame.leaves, ?_⟩
    · dsimp only
      rw [ht]
      rfl
    · intro nbytes ok hno
      cases hno
  | write b v w =>
    refine ⟨_, rfl, h.write ha v w, ⟨?_, ?_⟩, ?_⟩
    · intro c _ hc
      have hne : c ≠ b := by
        intro hno
        rw [hno] at hc
        exact hc v w rfl
      exact ⟨Function.update_of_ne hne _ _, Function.update_of_ne hne _ _⟩
    · intro u hu _
      refine Function.update_of_ne ?_ _ _
      intro hno
      rw [hno] at hu
      exact h.own_not_used ha hu
    · intro nbytes ok hno
      cases hno
  | sbrk n =>
    refine ⟨_, rfl, ?_, ⟨fun _ _ _ => ⟨rfl, rfl⟩, fun _ _ _ => rfl⟩, ?_⟩
    · obtain hnew | ⟨l, hdiv⟩ := h
      · have hlt := hnew.base_lt
        exact .inl ⟨hnew.freep, hnew.used, hnew.got, hnew.base_pos, Nat.lt_add_right n hlt⟩
      · exact .inr ⟨l, hdiv.congr rfl rfl rfl (Nat.le_add_right ..) (fun _ _ => rfl)
          (fun _ _ => rfl) fun _ _ => rfl⟩
    · intro nbytes ok hno
      cases hno

theorem enabled_of_step {a : Action} (h : step base s a = some t) : Enabled base s a := by
  by_contra hno
  unfold step at h
  rw [if_neg hno] at h
  cases h

theorem consistent_of_reach (hbase : 0 < base) (hbrk : base < brk)
    (hr : Reachable (step base) (fresh brk ptr size) s) : Consistent base s := by
  refine hr.invariant (.inl ⟨rfl, rfl, fun _ => rfl, hbase, hbrk⟩) ?_
  intro u a v hu _ hstep
  obtain ⟨v', hv', hcons, -⟩ := hu.step (enabled_of_step hstep)
  rw [hstep] at hv'
  cases hv'
  exact hcons

/-- The memory of the allocator. -/
structure Blocks (base : Nat) (s : Heap) : Prop where
  bounds : ∀ m, s.got m = true → base < m ∧ m < s.brk
  used_pos : ∀ u ∈ s.used, 0 < s.size u
  used_got : ∀ u ∈ s.used, ∀ m, Within s u m → s.got m = true
  used_nodup : s.used.Nodup
  used_apart : ∀ u ∈ s.used, ∀ v ∈ s.used, ∀ m, Within s u m → Within s v m → u = v
  /-- What nobody has is in the circle, in blocks that do not touch. -/
  free : s.freep ≠ 0 → ∃ l, Circle base s l ∧ ∀ m, Covered s l m ↔ Spare s m

theorem Consistent.blocks (h : Consistent base s) : Blocks base s := by
  obtain hnew | ⟨l, hdiv⟩ := h
  · have hgot := hnew.got
    have hused : ∀ u, u ∉ s.used := by
      rw [hnew.used]
      exact fun _ => List.not_mem_nil
    refine ⟨?_, fun u hu => absurd hu (hused u), fun u hu => absurd hu (hused u), ?_,
      fun u hu => absurd hu (hused u), fun hno => absurd hnew.freep hno⟩
    · intro m hm
      rw [hgot] at hm
      cases hm
    · rw [hnew.used]
      exact List.nodup_nil
  · exact ⟨hdiv.bounds, hdiv.used_pos, fun u hu m hm => (hdiv.got_iff m).mpr (.inr ⟨u, hu, hm⟩),
      hdiv.used_nodup, hdiv.used_apart, fun _ => ⟨l, hdiv.circle, fun m => hdiv.covered_iff⟩⟩

/-- In every run the memory is divided into blocks that lie apart, and no call changes what the
program has in its own. -/
theorem blocks_of_reach (hbase : 0 < base) (hbrk : base < brk)
    (hr : Reachable (step base) (fresh brk ptr size) s) :
    Blocks base s ∧ ∀ a t, step base s a = some t → Leaves base s t a := by
  have h := consistent_of_reach hbase hbrk hr
  refine ⟨h.blocks, ?_⟩
  intro a t hstep
  obtain ⟨t', ht', -, hleaves, -⟩ := h.step (enabled_of_step hstep)
  rw [hstep] at ht'
  cases ht'
  exact hleaves

/-- Two blocks, of which the first is given back and a smaller one taken. -/
def someCalls : List Action :=
  [.malloc 20 true, .malloc 100 true, .write 4606 7 8, .free 4605, .malloc 4 false]

theorem blocks_of_reach_someCalls :
    Blocks 100 ((run (step 100) (fresh 512 id id) someCalls).getD (fresh 512 id id)) :=
  (blocks_of_reach (by decide) (by decide)
    (reachable_of_run (eq_some_getD (by decide +kernel)))).1

theorem le_nunits (h : nbytes + 15 < 2147483648) : nbytes + 8 ≤ 8 * nunits nbytes := by
  unfold nunits
  omega

/-- Every call returns. `malloc` gives a block that is long enough, of memory that nobody has, and
it gives nothing only when the kernel refuses and there is no hole of this length. -/
theorem answer_of_reach {a : Action} (hbase : 0 < base) (hbrk : base < brk)
    (hr : Reachable (step base) (fresh brk ptr size) s) (ha : Enabled base s a) :
    ∃ t, step base s a = some t ∧ ∀ nbytes ok, a = .malloc nbytes ok →
      nbytes + 8 ≤ 8 * nunits nbytes ∧ Answer base s t (nunits nbytes) ok := by
  obtain ⟨t, ht, -, -, hanswer⟩ := (consistent_of_reach hbase hbrk hr).step ha
  refine ⟨t, ht, ?_⟩
  intro nbytes ok heq
  refine ⟨?_, hanswer nbytes ok heq⟩
  rw [heq] at ha
  exact le_nunits ha

/-- The next block is longer than the holes. -/
theorem answer_of_reach_someCalls : ∃ t,
    step 100 ((run (step 100) (fresh 512 id id) someCalls).getD (fresh 512 id id))
      (.malloc 40000 true) = some t ∧ ∀ nbytes ok, Action.malloc 40000 true = .malloc nbytes ok →
      nbytes + 8 ≤ 8 * nunits nbytes ∧
      Answer 100 ((run (step 100) (fresh 512 id id) someCalls).getD (fresh 512 id id)) t
        (nunits nbytes) ok :=
  answer_of_reach (by decide) (by decide) (reachable_of_run (eq_some_getD (by decide +kernel)))
    (by decide)

end Xv6.Malloc
