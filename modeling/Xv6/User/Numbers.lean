import Xv6.User.Pmanager

/-!
# Numbers in the lines of the process manager (project2/pmanager.c:45-60, stoi)

`stoi` adds up the digits in an `int` without a look at their number. What it stores is the
number in the string up to multiples of 2^32, and the empty string is 0.
-/

namespace Xv6.User

def INT_MAX : Nat := 2147483647

/-- From '0' to '9'. -/
def IsDigit (c : Byte) : Prop := 48 ≤ c.toNat ∧ c.toNat ≤ 57

instance (c : Byte) : Decidable (IsDigit c) := inferInstanceAs (Decidable (_ ∧ _))

def AllDigits (str : List Byte) : Prop := ∀ c ∈ str, IsDigit c

instance (str : List Byte) : Decidable (AllDigits str) :=
  inferInstanceAs (Decidable (∀ c ∈ str, IsDigit c))

/-- The number that the digits behind the number `v` make of it. -/
def decimalFrom (v : Nat) (str : List Byte) : Nat :=
  str.foldl (fun v c => v * 10 + (c.toNat - 48)) v

/-- The number with these digits. -/
def decimal (str : List Byte) : Nat := decimalFrom 0 str

/-- A number that an `int` can hold. -/
structure Numeral (str : List Byte) : Prop where
  ne_nil : str ≠ []
  digits : AllDigits str
  le : decimal str ≤ INT_MAX

/-- The return value of `stoi`, and `*res` behind it. -/
def stoiResult (str : List Byte) (res : BitVec 32) : Int × BitVec 32 :=
  match stoi str with
  | some result => (0, result)
  | none => (-1, res)

/-- `stoi` returns 0 for the numbers that an `int` can hold, which it stores, and otherwise -1. -/
structure StoiLaw (str : List Byte) : Prop where
  accepts : ∀ res, (stoiResult str res).1 = 0 ↔ Numeral str
  stores : Numeral str → ∀ res, (stoiResult str res).2.toInt = decimal str
  rejects : ¬ Numeral str → ∀ res, stoiResult str res = (-1, res)

/-! ### stoi -/

variable {str : List Byte} {v : BitVec 32}

theorem digit_iff (c : Byte) : (c < 48 ∨ 57 < c) ↔ ¬ IsDigit c := by
  unfold IsDigit
  rw [BitVec.lt_def, BitVec.lt_def]
  show c.toNat < 48 ∨ 57 < c.toNat ↔ _
  omega

theorem decimalFrom_cons (v : Nat) (c : Byte) (str : List Byte) :
    decimalFrom v (c :: str) = decimalFrom (v * 10 + (c.toNat - 48)) str := List.foldl_cons ..

theorem add_digit (n : Nat) {c : Byte} (hc : IsDigit c) :
    BitVec.ofNat 32 n * 10 + (c.setWidth 32 - 48) = BitVec.ofNat 32 (n * 10 + (c.toNat - 48)) := by
  obtain ⟨hlow, hhigh⟩ := hc
  apply BitVec.eq_of_toNat_eq
  have hten : (10 : BitVec 32).toNat = 10 := rfl
  have hzero : (48 : BitVec 32).toNat = 48 := rfl
  rw [BitVec.toNat_add, BitVec.toNat_mul, BitVec.toNat_sub, BitVec.toNat_setWidth,
    BitVec.toNat_ofNat, BitVec.toNat_ofNat, hten, hzero]
  omega

theorem stoiLoop_eq (n : Nat) (str : List Byte) : stoiLoop (BitVec.ofNat 32 n) str =
    if AllDigits str then some (BitVec.ofNat 32 (decimalFrom n str)) else none := by
  induction str generalizing n with
  | nil =>
    have hnil : AllDigits [] := fun c hc => absurd hc List.not_mem_nil
    rw [if_pos hnil]
    rfl
  | cons c str ih =>
    unfold stoiLoop
    by_cases hc : IsDigit c
    · have hcons : AllDigits (c :: str) ↔ AllDigits str := by
        unfold AllDigits
        rw [List.forall_mem_cons]
        exact and_iff_right hc
      rw [if_neg fun hno => (digit_iff c).mp hno hc, add_digit n hc, ih, decimalFrom_cons]
      simp only [hcons]
    · have hno : ¬ AllDigits (c :: str) := fun h => hc (h c List.mem_cons_self)
      rw [if_pos ((digit_iff c).mpr hc), if_neg hno]

/-- Every string of digits is accepted, also the empty one. -/
theorem stoi_eq (str : List Byte) :
    stoi str = if AllDigits str then some (BitVec.ofNat 32 (decimal str)) else none :=
  stoiLoop_eq 0 str

theorem stoi_eq_some : stoi str = some v ↔ AllDigits str ∧ BitVec.ofNat 32 (decimal str) = v := by
  rw [stoi_eq]
  by_cases h : AllDigits str
  · rw [if_pos h, Option.some.injEq]
    exact (and_iff_right h).symm
  · rw [if_neg h]
    simp [h]

theorem toInt_ofNat_of_le {n : Nat} (h : n ≤ INT_MAX) : (BitVec.ofNat 32 n).toInt = n := by
  unfold INT_MAX at h
  rw [BitVec.toInt_eq_toNat_cond, BitVec.toNat_ofNat, Nat.mod_eq_of_lt (by omega),
    if_pos (by omega)]

theorem Numeral.stoi (h : Numeral str) : stoi str = some (BitVec.ofNat 32 (decimal str)) :=
  stoi_eq_some.mpr ⟨h.digits, rfl⟩

/-- The strings that are no numbers to `stoi` either, and those it reads right. -/
theorem stoiLaw_iff (str : List Byte) :
    StoiLaw str ↔ str ≠ [] ∧ (AllDigits str → decimal str ≤ INT_MAX) := by
  constructor
  · intro h
    have hall : AllDigits str → Numeral str := by
      intro hd
      apply (h.accepts 0).mp
      unfold stoiResult
      rw [stoi_eq_some.mpr ⟨hd, rfl⟩]
    refine ⟨?_, fun hd => (hall hd).le⟩
    intro hnil
    subst hnil
    exact (hall fun c hc => absurd hc List.not_mem_nil).ne_nil rfl
  · intro h
    obtain ⟨hne, hle⟩ := h
    by_cases hd : AllDigits str
    · have hnum : Numeral str := ⟨hne, hd, hle hd⟩
      have hres : ∀ res, stoiResult str res = (0, BitVec.ofNat 32 (decimal str)) := by
        intro res
        unfold stoiResult
        rw [hnum.stoi]
      constructor
      · intro res
        rw [hres]
        exact iff_of_true rfl hnum
      · intro _ res
        rw [hres]
        exact toInt_ofNat_of_le (hle hd)
      · intro hno
        exact absurd hnum hno
    · have hno : ¬ Numeral str := fun hnum => hd hnum.digits
      have hres : ∀ res, stoiResult str res = (-1, res) := by
        intro res
        unfold stoiResult
        rw [stoi_eq, if_neg hd]
      constructor
      · intro res
        rw [hres]
        exact iff_of_false (by decide : ¬ (-1 : Int) = 0) hno
      · intro hnum
        exact absurd hnum hno
      · intro _
        exact hres

/-! ### The words of a line -/

/-- Word `n` of the line is a number that an `int` can hold, and it is `v`. -/
def IsTyped (line : List Byte) (n : Nat) (v : BitVec 32) : Prop :=
  ∃ str, (line.splitOn 32)[n]? = some str ∧ Numeral str ∧ v.toInt = decimal str

/-- The numbers of a system call are the ones that the line has. -/
def Action.AsTyped (line : List Byte) : Action → Prop
  | .kill pid => IsTyped line 1 pid
  | .exec2 _ stacksize => IsTyped line 2 stacksize
  | .setmemorylimit pid limit => IsTyped line 1 pid ∧ IsTyped line 2 limit
  | _ => True

/-- The command of a line, and the string with its words. After an empty line these are the
command before and the string at address 0. -/
def commandOf (zero : List Byte) (w : Words) (buf : List Byte) : List Byte × List Byte :=
  if buf = [] then (w.cmd, zero) else getwordLoop buf

/-- The words that `main` has for `stoi`, if none is missing. -/
def numerals (zero : List Byte) (w : Words) (buf : List Byte) : List (List Byte) :=
  let (cmd, s) := commandOf zero w buf
  let (arg0, t) := getwordLoop s
  let arg1 := (getwordLoop t).1
  if cmd = ascii ['k', 'i', 'l', 'l'] then if s = [] then [] else [arg0]
  else if cmd = ascii ['e', 'x', 'e', 'c', 'u', 't', 'e'] then
    if s = [] ∨ t = [] then [] else [arg1]
  else if cmd = ascii ['m', 'e', 'm', 'l', 'i', 'm'] then
    if s = [] ∨ t = [] then [] else [arg0, arg1]
  else []

/-- The word ends at the first space. -/
theorem getwordLoop_spec (buf : List Byte) : 32 ∉ (getwordLoop buf).1 ∧
    (buf = (getwordLoop buf).1 ++ 32 :: (getwordLoop buf).2 ∨
      buf = (getwordLoop buf).1 ∧ (getwordLoop buf).2 = []) := by
  induction buf with
  | nil => exact ⟨List.not_mem_nil, Or.inr ⟨rfl, rfl⟩⟩
  | cons c buf ih =>
    unfold getwordLoop
    by_cases hc : c = 32
    · rw [if_pos hc, hc]
      exact ⟨List.not_mem_nil, Or.inl rfl⟩
    · rw [if_neg hc]
      dsimp only
      refine ⟨?_, ?_⟩
      · intro hmem
        cases List.mem_cons.mp hmem with
        | inl h => exact hc h.symm
        | inr h => exact ih.1 h
      · cases ih.2 with
        | inl h => exact Or.inl (congrArg (c :: ·) h)
        | inr h => exact Or.inr ⟨congrArg (c :: ·) h.1, h.2⟩

theorem splitOn_head (buf : List Byte) : (buf.splitOn 32)[0]? = some (getwordLoop buf).1 := by
  obtain ⟨hword, hbuf⟩ := getwordLoop_spec buf
  cases hbuf with
  | inl h =>
    have hsplit := List.splitOn_append_cons_self_of_not_mem hword (getwordLoop buf).2
    rw [← h] at hsplit
    rw [hsplit]
    rfl
  | inr h =>
    have hsplit := List.splitOn_eq_singleton hword
    rw [← h.1] at hsplit
    rw [hsplit, ← h.1]
    rfl

theorem splitOn_tail {buf : List Byte} (hrest : (getwordLoop buf).2 ≠ []) (n : Nat) :
    (buf.splitOn 32)[n + 1]? = ((getwordLoop buf).2.splitOn 32)[n]? := by
  obtain ⟨hword, hbuf⟩ := getwordLoop_spec buf
  cases hbuf with
  | inl h =>
    have hsplit := List.splitOn_append_cons_self_of_not_mem hword (getwordLoop buf).2
    rw [← h] at hsplit
    rw [hsplit]
    rfl
  | inr h => exact absurd h.2 hrest

/-- An accepted word of the line is right when it is one in the line and fits into an `int`. -/
theorem isTyped_iff {line x : List Byte} {n : Nat} (hx : stoi x = some v)
    (hword : line ≠ [] → (line.splitOn 32)[n + 1]? = some x) :
    IsTyped line (n + 1) v ↔ line ≠ [] ∧ x ≠ [] ∧ decimal x ≤ INT_MAX := by
  obtain ⟨hdigits, rfl⟩ := stoi_eq_some.mp hx
  constructor
  · intro h
    obtain ⟨str, hstr, hnum, -⟩ := h
    have hline : line ≠ [] := by
      intro hnil
      rw [hnil, List.splitOn_nil] at hstr
      cases hstr
    have heq : x = str := by
      rw [hword hline] at hstr
      exact Option.some.inj hstr
    rw [heq]
    exact ⟨hline, hnum.ne_nil, hnum.le⟩
  · intro h
    obtain ⟨hline, hne, hle⟩ := h
    exact ⟨x, hword hline, ⟨hne, hdigits, hle⟩, toInt_ofNat_of_le hle⟩

/-! ### The commands -/

variable {zero s : List Byte} {bufp : Option (List Byte)} {w : Words} {line : List Byte}

theorem getword_eq (hs : bufp.getD zero = s) (word : List Byte) : getword zero bufp word =
    if s = [] then (none, word) else (some (getwordLoop s).2, (getwordLoop s).1) := by
  unfold getword
  rw [hs]

theorem killTurn_asTyped (hs : bufp.getD zero = s) : (killTurn zero bufp w).1.AsTyped line ↔
    (s ≠ [] → ∀ pid, stoi (getwordLoop s).1 = some pid → IsTyped line 1 pid) := by
  unfold killTurn
  rw [getword_eq hs]
  by_cases hnil : s = []
  · rw [if_pos hnil]
    exact iff_of_true trivial fun hne => absurd hnil hne
  · rw [if_neg hnil]
    cases hstoi : stoi (getwordLoop s).1 with
    | none => simp [Action.AsTyped, hstoi]
    | some pid => simp [Action.AsTyped, hstoi, hnil]

theorem getargs_eq (hs : bufp.getD zero = s) : getargs zero bufp w =
    if s = [] then (false, w)
    else if (getwordLoop s).2 = [] then (false, { w with arg0 := (getwordLoop s).1 })
    else (true, { w with
      arg0 := (getwordLoop s).1, arg1 := (getwordLoop (getwordLoop s).2).1 }) := by
  unfold getargs
  rw [getword_eq hs]
  by_cases hnil : s = []
  · rw [if_pos hnil, if_pos hnil]
    rfl
  · rw [if_neg hnil, if_neg hnil]
    dsimp only
    rw [if_neg (Option.some_ne_none _), getword_eq rfl]
    by_cases ht : (getwordLoop s).2 = []
    · simp [ht]
    · simp [ht]

theorem executeTurn_asTyped (hs : bufp.getD zero = s) :
    (executeTurn zero bufp w).1.AsTyped line ↔ (s ≠ [] → (getwordLoop s).2 ≠ [] →
      ∀ v, stoi (getwordLoop (getwordLoop s).2).1 = some v → IsTyped line 2 v) := by
  unfold executeTurn
  rw [getargs_eq hs]
  by_cases hnil : s = []
  · rw [if_pos hnil]
    exact iff_of_true trivial fun hne => absurd hnil hne
  · rw [if_neg hnil]
    by_cases ht : (getwordLoop s).2 = []
    · rw [if_pos ht]
      exact iff_of_true trivial fun _ hne => absurd ht hne
    · rw [if_neg ht]
      cases hstoi : stoi (getwordLoop (getwordLoop s).2).1 with
      | none => simp [Action.AsTyped, hstoi]
      | some v => simp [Action.AsTyped, hstoi, hnil, ht]

theorem memlimTurn_asTyped (hs : bufp.getD zero = s) :
    (memlimTurn zero bufp w).1.AsTyped line ↔ (s ≠ [] → (getwordLoop s).2 ≠ [] →
      ∀ pid limit, stoi (getwordLoop s).1 = some pid →
        stoi (getwordLoop (getwordLoop s).2).1 = some limit →
          IsTyped line 1 pid ∧ IsTyped line 2 limit) := by
  unfold memlimTurn
  rw [getargs_eq hs]
  by_cases hnil : s = []
  · rw [if_pos hnil]
    exact iff_of_true trivial fun hne => absurd hnil hne
  · rw [if_neg hnil]
    by_cases ht : (getwordLoop s).2 = []
    · rw [if_pos ht]
      exact iff_of_true trivial fun _ hne => absurd ht hne
    · rw [if_neg ht]
      cases hpid : stoi (getwordLoop s).1 with
      | none => simp [Action.AsTyped, hpid]
      | some pid =>
        cases hlimit : stoi (getwordLoop (getwordLoop s).2).1 with
        | none => simp [Action.AsTyped, hpid, hlimit]
        | some limit => simp [Action.AsTyped, hpid, hlimit, hnil, ht]

/-- Where all words for `stoi` are strings of digits, they are words of the line, and none is empty
or above `INT_MAX`. -/
def Fitting (zero : List Byte) (w : Words) (buf : List Byte) : Prop :=
  (∀ x ∈ numerals zero w buf, AllDigits x) →
    ∀ x ∈ numerals zero w buf, buf ≠ [] ∧ x ≠ [] ∧ decimal x ≤ INT_MAX

theorem getword_command (zero : List Byte) (w : Words) (buf : List Byte) :
    (getword zero (some buf) w.cmd).2 = (commandOf zero w buf).1 ∧
      (getword zero (some buf) w.cmd).1.getD zero = (commandOf zero w buf).2 := by
  unfold commandOf
  by_cases hbuf : buf = []
  · rw [if_pos hbuf, hbuf, getword_nil]
    exact ⟨rfl, rfl⟩
  · rw [if_neg hbuf, getword_some hbuf]
    exact ⟨rfl, rfl⟩

theorem typed_first (w : Words) {buf : List Byte} (hs : (commandOf zero w buf).2 = s)
    (hne : s ≠ []) (hbuf : buf ≠ []) : (buf.splitOn 32)[1]? = some (getwordLoop s).1 := by
  unfold commandOf at hs
  rw [if_neg hbuf] at hs
  subst hs
  rw [splitOn_tail hne, splitOn_head]

theorem typed_second (w : Words) {buf : List Byte} (hs : (commandOf zero w buf).2 = s)
    (ht : (getwordLoop s).2 ≠ []) (hbuf : buf ≠ []) :
    (buf.splitOn 32)[2]? = some (getwordLoop (getwordLoop s).2).1 := by
  have hne : s ≠ [] := by
    intro hnil
    rw [hnil] at ht
    exact ht rfl
  unfold commandOf at hs
  rw [if_neg hbuf] at hs
  subst hs
  rw [splitOn_tail hne, splitOn_tail ht, splitOn_head]

/-- One word for `stoi`. -/
theorem one_fits {x buf : List Byte} {n : Nat}
    (hword : buf ≠ [] → (buf.splitOn 32)[n + 1]? = some x) :
    (∀ v, stoi x = some v → IsTyped buf (n + 1) v) ↔
      ((∀ y ∈ [x], AllDigits y) → ∀ y ∈ [x], buf ≠ [] ∧ y ≠ [] ∧ decimal y ≤ INT_MAX) := by
  rw [List.forall_mem_singleton, List.forall_mem_singleton]
  constructor
  · intro h hd
    have hx : stoi x = some _ := stoi_eq_some.mpr ⟨hd, rfl⟩
    exact (isTyped_iff hx hword).mp (h _ hx)
  · intro h v hx
    exact (isTyped_iff hx hword).mpr (h (stoi_eq_some.mp hx).1)

/-- Two words for `stoi`. -/
theorem two_fit {x y buf : List Byte} (hx : buf ≠ [] → (buf.splitOn 32)[1]? = some x)
    (hy : buf ≠ [] → (buf.splitOn 32)[2]? = some y) :
    (∀ u v, stoi x = some u → stoi y = some v → IsTyped buf 1 u ∧ IsTyped buf 2 v) ↔
      ((∀ z ∈ [x, y], AllDigits z) →
        ∀ z ∈ [x, y], buf ≠ [] ∧ z ≠ [] ∧ decimal z ≤ INT_MAX) := by
  rw [List.forall_mem_cons, List.forall_mem_singleton, List.forall_mem_cons,
    List.forall_mem_singleton]
  constructor
  · intro h hd
    have hu : stoi x = some _ := stoi_eq_some.mpr ⟨hd.1, rfl⟩
    have hv : stoi y = some _ := stoi_eq_some.mpr ⟨hd.2, rfl⟩
    obtain ⟨h1, h2⟩ := h _ _ hu hv
    exact ⟨(isTyped_iff hu hx).mp h1, (isTyped_iff hv hy).mp h2⟩
  · intro h u v hu hv
    obtain ⟨h1, h2⟩ := h ⟨(stoi_eq_some.mp hu).1, (stoi_eq_some.mp hv).1⟩
    exact ⟨(isTyped_iff hu hx).mpr h1, (isTyped_iff hv hy).mpr h2⟩

theorem turn_asTyped (zero : List Byte) (w : Words) (buf : List Byte) :
    (turn zero w buf).action.AsTyped buf ↔ Fitting zero w buf := by
  obtain ⟨hcmd, hs⟩ := getword_command zero w buf
  have hfirst := @typed_first zero _ w buf rfl
  have hsecond := @typed_second zero _ w buf rfl
  have hnone : Action.AsTyped buf (.message "undefined command\n") ↔
      ((∀ x ∈ [], AllDigits x) → ∀ x ∈ ([] : List (List Byte)),
        buf ≠ [] ∧ x ≠ [] ∧ decimal x ≤ INT_MAX) :=
    iff_of_true trivial fun _ x hx => absurd hx List.not_mem_nil
  unfold Fitting numerals turn
  dsimp only
  rw [hcmd]
  generalize (commandOf zero w buf).1 = cmd
  generalize (commandOf zero w buf).2 = s at hs hfirst hsecond ⊢
  by_cases hlist : cmd = ascii ['l', 'i', 's', 't']
  · subst hlist
    exact hnone
  rw [if_neg hlist]
  by_cases hkill : cmd = ascii ['k', 'i', 'l', 'l']
  · rw [if_pos hkill, if_pos hkill]
    dsimp only
    rw [killTurn_asTyped hs]
    by_cases hnil : s = []
    · rw [if_pos hnil]
      exact iff_of_true (fun hne => absurd hnil hne) fun _ x hx => absurd hx List.not_mem_nil
    · rw [if_neg hnil, ← one_fits (hfirst hnil)]
      exact forall_prop_of_true hnil
  rw [if_neg hkill, if_neg hkill]
  by_cases hexecute : cmd = ascii ['e', 'x', 'e', 'c', 'u', 't', 'e']
  · rw [if_pos hexecute, if_pos hexecute]
    dsimp only
    rw [executeTurn_asTyped hs]
    by_cases hnil : s = [] ∨ (getwordLoop s).2 = []
    · rw [if_pos hnil]
      exact iff_of_true (fun hne ht => absurd hnil (not_or.mpr ⟨hne, ht⟩))
        fun _ x hx => absurd hx List.not_mem_nil
    · obtain ⟨hne, ht⟩ := not_or.mp hnil
      rw [if_neg hnil, ← one_fits (hsecond ht)]
      exact (forall_prop_of_true hne).trans (forall_prop_of_true ht)
  rw [if_neg hexecute, if_neg hexecute]
  by_cases hmemlim : cmd = ascii ['m', 'e', 'm', 'l', 'i', 'm']
  · rw [if_pos hmemlim, if_pos hmemlim]
    dsimp only
    rw [memlimTurn_asTyped hs]
    by_cases hnil : s = [] ∨ (getwordLoop s).2 = []
    · rw [if_pos hnil]
      exact iff_of_true (fun hne ht => absurd hnil (not_or.mpr ⟨hne, ht⟩))
        fun _ x hx => absurd hx List.not_mem_nil
    · obtain ⟨hne, ht⟩ := not_or.mp hnil
      rw [if_neg hnil, ← two_fit (hfirst hne) (hsecond ht)]
      exact (forall_prop_of_true hne).trans (forall_prop_of_true ht)
  rw [if_neg hmemlim, if_neg hmemlim]
  by_cases hexit : cmd = ascii ['e', 'x', 'i', 't']
  · rw [if_pos hexit]
    exact hnone
  · rw [if_neg hexit]
    exact hnone

/-- `stoi` is right about a string, and a command about the numbers of its line, exactly when no
empty word and no number above `INT_MAX` stands where a number is due. -/
theorem numbers_iff (str zero : List Byte) (w : Words) (buf : List Byte) :
    (StoiLaw str ↔ str ≠ [] ∧ (AllDigits str → decimal str ≤ INT_MAX)) ∧
      ((turn zero w buf).action.AsTyped buf ↔ Fitting zero w buf) :=
  ⟨stoiLaw_iff str, turn_asTyped zero w buf⟩

/-- The empty string, 2^32 + 5, and the lines "kill  5" and "kill 4294967301". -/
theorem not_stoiLaw_empty : ¬ StoiLaw [] ∧
    ¬ StoiLaw (ascii ['4', '2', '9', '4', '9', '6', '7', '3', '0', '1']) ∧
    (turn [] blankWords (ascii ['k', 'i', 'l', 'l', ' ', ' ', '5'])).action = .kill 0 ∧
    (turn [] blankWords (ascii ['k', 'i', 'l', 'l', ' ', '4', '2', '9', '4', '9', '6', '7', '3',
      '0', '1'])).action = .kill 5 ∧
    ¬ ∀ str, StoiLaw str := by
  have hempty : ¬ StoiLaw [] := fun h => ((stoiLaw_iff []).mp h).1 rfl
  have hlarge : ¬ StoiLaw (ascii ['4', '2', '9', '4', '9', '6', '7', '3', '0', '1']) := by
    intro h
    exact absurd (((stoiLaw_iff _).mp h).2 (by decide)) (by decide)
  exact ⟨hempty, hlarge, by decide, by decide, fun h => hempty (h [])⟩

end Xv6.User
