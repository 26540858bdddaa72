import Mathlib.Computability.Language
import Xv6.User.Pmanager

/-!
# grep (project3/grep.c:10-106)

The matcher decides the language of its pattern, and `grep` prints the lines of a file that are in
it. A string is the list of its characters in front of the NUL.
-/

namespace Xv6.Grep
open Buffer

def chr (c : Char) : Byte := BitVec.ofNat 8 c.toNat

/-! ### The matcher -/

/-- `matchstar`: search for `c*re` at beginning of text, where `here` searches for `re`. -/
def matchstar (c : Byte) (here : List Byte → Bool) : List Byte → Bool
  | [] => here []
  | t :: text =>
    if here (t :: text) then true
    else if t = c ∨ c = chr '.' then matchstar c here text
    else false

/-- `*text!='\0' && (re[0]=='.' || re[0]==*text)`, and then the rest of the pattern. -/
def matchchar (c : Byte) (here : List Byte → Bool) : List Byte → Bool
  | [] => false
  | t :: text => if c = chr '.' ∨ c = t then here text else false

/-- `matchhere`: search for re at beginning of text. -/
def matchhere : List Byte → List Byte → Bool
  | [], _ => true
  | [c], text => if c = chr '$' then text.isEmpty else matchchar c (matchhere []) text
  | c :: s :: re, text =>
    if s = chr '*' then matchstar c (matchhere re) text
    else matchchar c (matchhere (s :: re)) text

/-- The loop of `match`, which must look at the empty string. -/
def matchLoop (re : List Byte) : List Byte → Bool
  | [] => matchhere re []
  | t :: text => if matchhere re (t :: text) then true else matchLoop re text

def matchText (re text : List Byte) : Bool :=
  match re with
  | [] => matchLoop [] text
  | c :: re => if c = chr '^' then matchhere re text else matchLoop (c :: re) text

/-! ### The language of a pattern -/

/-- The characters that `c` stands for. -/
def letter (c : Byte) : Language Byte := {w | ∃ t, w = [t] ∧ (c = chr '.' ∨ c = t)}

/-- The texts that begin with something that the pattern describes; `$` is the end of the text. -/
def here : List Byte → Language Byte
  | [] => ⊤
  | [c] => if c = chr '$' then 1 else letter c * ⊤
  | c :: s :: re => if s = chr '*' then KStar.kstar (letter c) * here re else letter c * here (s :: re)

/-- Without `^` the pattern may begin anywhere. -/
def language : List Byte → Language Byte
  | [] => ⊤ * here []
  | c :: re => if c = chr '^' then here re else ⊤ * here (c :: re)

theorem mem_letter_mul {c : Byte} {l : Language Byte} {text : List Byte} :
    text ∈ letter c * l ↔ ∃ t rest, text = t :: rest ∧ (c = chr '.' ∨ c = t) ∧ rest ∈ l := by
  rw [Language.mem_mul]
  constructor
  · rintro ⟨_, ⟨t, rfl, ht⟩, rest, hrest, rfl⟩
    exact ⟨t, rest, rfl, ht, hrest⟩
  · rintro ⟨t, rest, rfl, ht, hrest⟩
    exact ⟨[t], ⟨t, rfl, ht⟩, rest, hrest, rfl⟩

theorem mem_top {text : List Byte} : text ∈ (⊤ : Language Byte) := trivial

theorem matchchar_iff {c : Byte} {f : List Byte → Bool} {l : Language Byte} {text : List Byte}
    (hf : ∀ text, f text = true ↔ text ∈ l) : matchchar c f text = true ↔ text ∈ letter c * l := by
  rw [mem_letter_mul]
  cases text with
  | nil =>
    constructor
    · intro hno
      cases hno
    · rintro ⟨t, rest, hno, -⟩
      cases hno
  | cons t text =>
    unfold matchchar
    dsimp only
    by_cases ht : c = chr '.' ∨ c = t
    · rw [if_pos ht, hf]
      constructor
      · intro htext
        exact ⟨t, text, rfl, ht, htext⟩
      · rintro ⟨t', rest, heq, -, hrest⟩
        cases heq
        exact hrest
    · rw [if_neg ht]
      constructor
      · intro hno
        cases hno
      · rintro ⟨t', rest, heq, ht', -⟩
        cases heq
        exact absurd ht' ht

theorem mem_kstar_mul {l m : Language Byte} {text : List Byte} :
    text ∈ KStar.kstar l * m ↔ text ∈ m ∨ text ∈ l * (KStar.kstar l * m) := by
  rw [← Language.mem_add, ← mul_assoc, ← one_add_mul, Language.one_add_self_mul_kstar_eq_kstar]

theorem matchstar_iff {c : Byte} {f : List Byte → Bool} {l : Language Byte} {text : List Byte}
    (hf : ∀ text, f text = true ↔ text ∈ l) :
    matchstar c f text = true ↔ text ∈ KStar.kstar (letter c) * l := by
  induction text with
  | nil =>
    unfold matchstar
    rw [mem_kstar_mul, hf]
    constructor
    · exact .inl
    · rintro (htext | hmore)
      · exact htext
      · obtain ⟨t, rest, hno, -⟩ := mem_letter_mul.mp hmore
        cases hno
  | cons t text ih =>
    unfold matchstar
    rw [mem_kstar_mul]
    by_cases hhere : f (t :: text) = true
    · rw [if_pos hhere]
      exact ⟨fun _ => .inl ((hf _).mp hhere), fun _ => rfl⟩
    rw [if_neg hhere]
    by_cases ht : t = c ∨ c = chr '.'
    · rw [if_pos ht, ih]
      constructor
      · intro htext
        exact .inr (mem_letter_mul.mpr ⟨t, text, rfl, ht.symm.imp_right Eq.symm, htext⟩)
      · rintro (hno | hmore)
        · exact absurd ((hf _).mpr hno) hhere
        · obtain ⟨t', rest, heq, -, hrest⟩ := mem_letter_mul.mp hmore
          cases heq
          exact hrest
    · rw [if_neg ht]
      constructor
      · intro hno
        cases hno
      · rintro (hno | hmore)
        · exact absurd ((hf _).mpr hno) hhere
        · obtain ⟨t', rest, heq, ht', -⟩ := mem_letter_mul.mp hmore
          cases heq
          exact absurd (ht'.symm.imp_left Eq.symm) ht

theorem matchhere_iff (re text : List Byte) : matchhere re text = true ↔ text ∈ here re := by
  induction re using here.induct generalizing text with
  | case1 => exact ⟨fun _ => mem_top, fun _ => rfl⟩
  | case2 =>
    unfold matchhere here
    rw [if_pos rfl, if_pos rfl, List.isEmpty_iff]
    exact (Language.mem_one text).symm
  | case3 c hc =>
    unfold matchhere here
    rw [if_neg hc, if_neg hc]
    exact matchchar_iff fun _ => ⟨fun _ => mem_top, fun _ => rfl⟩
  | case4 c re ih =>
    unfold matchhere here
    rw [if_pos rfl, if_pos rfl]
    exact matchstar_iff ih
  | case5 c s re hs ih =>
    unfold matchhere here
    rw [if_neg hs, if_neg hs]
    exact matchchar_iff ih

theorem mem_top_mul {l : Language Byte} {text : List Byte} :
    text ∈ (⊤ : Language Byte) * l ↔ ∃ front rest, text = front ++ rest ∧ rest ∈ l := by
  rw [Language.mem_mul]
  constructor
  · rintro ⟨front, -, rest, hrest, rfl⟩
    exact ⟨front, rest, rfl, hrest⟩
  · rintro ⟨front, rest, rfl, hrest⟩
    exact ⟨front, mem_top, rest, hrest, rfl⟩

theorem matchLoop_iff (re text : List Byte) :
    matchLoop re text = true ↔ text ∈ (⊤ : Language Byte) * here re := by
  rw [mem_top_mul]
  induction text with
  | nil =>
    unfold matchLoop
    rw [matchhere_iff]
    constructor
    · intro hhere
      exact ⟨[], [], rfl, hhere⟩
    · rintro ⟨front, rest, heq, hrest⟩
      rw [(List.append_eq_nil_iff.mp heq.symm).2] at hrest
      exact hrest
  | cons t text ih =>
    unfold matchLoop
    by_cases hhere : matchhere re (t :: text) = true
    · rw [if_pos hhere]
      exact ⟨fun _ => ⟨[], t :: text, rfl, (matchhere_iff re _).mp hhere⟩, fun _ => rfl⟩
    rw [if_neg hhere, ih]
    constructor
    · rintro ⟨front, rest, rfl, hrest⟩
      exact ⟨t :: front, rest, rfl, hrest⟩
    · rintro ⟨front, rest, heq, hrest⟩
      cases front with
      | nil =>
        rw [List.nil_append] at heq
        rw [← heq] at hrest
        exact absurd ((matchhere_iff re _).mpr hrest) hhere
      | cons b front =>
        cases heq
        exact ⟨front, rest, rfl, hrest⟩

/-- The matcher decides the language of its pattern. -/
theorem matchText_iff (re text : List Byte) : matchText re text = true ↔ text ∈ language re := by
  unfold matchText language
  cases re with
  | nil => exact matchLoop_iff [] text
  | cons c re =>
    dsimp only
    by_cases hc : c = chr '^'
    · rw [if_pos hc, if_pos hc]
      exact matchhere_iff re text
    · rw [if_neg hc, if_neg hc]
      exact matchLoop_iff (c :: re) text

/-! ### The lines of a file -/

/-- What stands before and behind the first `c` of a string. -/
def strchr (c : Byte) : List Byte → Option (List Byte × List Byte)
  | [] => none
  | s :: rest =>
    if s = 0 then none
    else if s = c then some ([], rest)
    else (strchr c rest).map fun r => (s :: r.1, r.2)

/-- The inner loop of `grep`, at most `n` turns: what it writes, and the text from `p` on. -/
def printLines (pattern : List Byte) : Nat → List Byte → List Byte × List Byte
  | 0, p => ([], p)
  | n + 1, p =>
    match strchr (chr '\n') p with
    | none => ([], p)
    | some (line, rest) =>
      let r := printLines pattern n rest
      ((if matchText pattern line then line ++ [chr '\n'] else []) ++ r.1, r.2)

/-- `sizeof(buf)`. -/
def BUFSIZE : Nat := 1024

/-- The loop of `grep`, with the bytes `m` at the start of the buffer; `file` is what was not read
yet, and gives as many bytes as `read` asks for. -/
def grep (pattern : List Byte) : Nat → List Byte → List Byte → List Byte
  | 0, _, _ => []
  | fuel + 1, m, file =>
    let c := file.take (BUFSIZE - m.length - 1)
    if c = [] then []
    else
      let p := printLines pattern (m ++ c).length (m ++ c)
      -- A buffer without the end of a line is emptied.
      let rest := if p.2.length = (m ++ c).length then [] else p.2
      p.1 ++ grep pattern fuel rest (file.drop c.length)

/-- Lines with their ends. -/
def unlines (ls : List (List Byte)) : List Byte := ls.flatMap fun l => l ++ [chr '\n']

/-- No end of a line and no NUL. -/
def Clean (l : List Byte) : Prop := ∀ c ∈ l, c ≠ 0 ∧ c ≠ chr '\n'

instance (l : List Byte) : Decidable (Clean l) :=
  inferInstanceAs (Decidable (∀ c ∈ l, c ≠ 0 ∧ c ≠ chr '\n'))

variable {pattern l tail m file : List Byte} {ls : List (List Byte)}

theorem unlines_cons (l : List Byte) (ls : List (List Byte)) :
    unlines (l :: ls) = l ++ chr '\n' :: unlines ls := by
  unfold unlines
  rw [List.flatMap_cons, List.append_assoc]
  rfl

theorem unlines_append (ls ls' : List (List Byte)) :
    unlines (ls ++ ls') = unlines ls ++ unlines ls' := List.flatMap_append ..

theorem length_le_unlines (ls : List (List Byte)) : ls.length ≤ (unlines ls).length := by
  induction ls with
  | nil => exact Nat.le_refl 0
  | cons l ls ih =>
    rw [unlines_cons, List.length_append, List.length_cons, List.length_cons]
    omega

theorem Clean.append {a b : List Byte} (ha : Clean a) (hb : Clean b) : Clean (a ++ b) := by
  intro c hc
  exact (List.mem_append.mp hc).elim (ha c) (hb c)

theorem Clean.sublist {a b : List Byte} (hb : Clean b) (h : a.Sublist b) : Clean a :=
  fun c hc => hb c (h.subset hc)

theorem strchr_line (h : Clean l) (rest : List Byte) :
    strchr (chr '\n') (l ++ chr '\n' :: rest) = some (l, rest) := by
  induction l with
  | nil => rfl
  | cons c l ih =>
    obtain ⟨hz, hn⟩ := h c List.mem_cons_self
    have hrest := ih fun b hb => h b (List.mem_cons_of_mem c hb)
    rw [List.cons_append]
    unfold strchr
    rw [if_neg hz, if_neg hn, hrest]
    rfl

theorem strchr_none (h : Clean l) : strchr (chr '\n') l = none := by
  induction l with
  | nil => rfl
  | cons c l ih =>
    obtain ⟨hz, hn⟩ := h c List.mem_cons_self
    unfold strchr
    rw [if_neg hz, if_neg hn, ih fun b hb => h b (List.mem_cons_of_mem c hb)]
    rfl

theorem printLines_spec (n : Nat) (hls : ∀ l ∈ ls, Clean l) (htail : Clean tail)
    (hn : ls.length ≤ n) : printLines pattern n (unlines ls ++ tail) =
      (unlines (ls.filter fun l => matchText pattern l), tail) := by
  induction ls generalizing n with
  | nil =>
    cases n with
    | zero => rfl
    | succ n =>
      unfold printLines
      show (match strchr (chr '\n') tail with | none => _ | some (line, rest) => _) = _
      rw [strchr_none htail]
      rfl
  | cons l ls ih =>
    cases n with
    | zero => cases hn
    | succ n =>
      have hline := hls l List.mem_cons_self
      have hrest := ih n (fun l' hl' => hls l' (List.mem_cons_of_mem l hl'))
        (Nat.le_of_succ_le_succ hn)
      unfold printLines
      rw [unlines_cons, List.append_assoc, List.cons_append, strchr_line hline]
      dsimp only
      rw [hrest]
      by_cases hmatch : matchText pattern l = true
      · rw [if_pos hmatch, List.filter_cons_of_pos hmatch, unlines_cons, List.append_assoc]
        rfl
      · rw [if_neg hmatch, List.filter_cons_of_neg hmatch]
        rfl

/-- What fits into the buffer are lines and the beginning of one, and the first line fits if it is
shorter than the buffer. -/
theorem take_lines (n : Nat) (hls : ∀ l ∈ ls, Clean l) (htail : Clean tail) :
    ∃ ls₁ ls₂ t, ls = ls₁ ++ ls₂ ∧ Clean t ∧ (unlines ls ++ tail).take n = unlines ls₁ ++ t ∧
      t ++ (unlines ls ++ tail).drop n = unlines ls₂ ++ tail ∧
      ((∀ l ∈ ls, l.length < n) → ls₁ = [] → ls = []) := by
  induction ls generalizing n with
  | nil =>
    exact ⟨[], [], tail.take n, rfl, htail.sublist (List.take_sublist n tail), rfl,
      List.take_append_drop n tail, fun _ _ => rfl⟩
  | cons l ls ih =>
    have hline := hls l List.mem_cons_self
    have hcons : unlines (l :: ls) ++ tail = (l ++ [chr '\n']) ++ (unlines ls ++ tail) := by
      rw [unlines_cons, List.append_assoc, List.append_assoc]
      rfl
    have hlen : (l ++ [chr '\n']).length = l.length + 1 := List.length_append
    by_cases hn : l.length < n
    · obtain ⟨ls₁, ls₂, t, rfl, ht, htake, hdrop, -⟩ :=
        ih (n - (l.length + 1)) fun l' hl' => hls l' (List.mem_cons_of_mem l hl')
      refine ⟨l :: ls₁, ls₂, t, rfl, ht, ?_, ?_, ?_⟩
      · rw [hcons, List.take_append, hlen, htake, List.take_of_length_le (by omega), unlines_cons]
        simp only [List.append_assoc, List.cons_append, List.nil_append]
      · rw [hcons, List.drop_append, hlen, List.drop_of_length_le (by omega), List.nil_append]
        exact hdrop
      · intro _ hno
        cases hno
    · refine ⟨[], l :: ls, l.take n, rfl, hline.sublist (List.take_sublist n l), ?_, ?_, ?_⟩
      · rw [unlines_cons, List.append_assoc, List.take_append_of_le_length (by omega)]
        rfl
      · rw [unlines_cons, List.append_assoc, List.drop_append_of_le_length (by omega),
          ← List.append_assoc, List.take_append_drop]
      · intro hshort
        exact absurd (hshort l List.mem_cons_self) hn

theorem eq_nil_of_clean (h : Clean (unlines ls ++ tail)) : ls = [] := by
  cases ls with
  | nil => rfl
  | cons l ls =>
    have hmem : chr '\n' ∈ unlines (l :: ls) ++ tail := by
      rw [unlines_cons]
      exact List.mem_append_left _ (List.mem_append_right _ List.mem_cons_self)
    exact absurd rfl (h _ hmem).2

theorem grepLoop_spec (fuel : Nat) (hm : Clean m) (hroom : m.length < BUFSIZE - 1)
    (htext : m ++ file = unlines ls ++ tail) (hls : ∀ l ∈ ls, Clean l ∧ l.length < BUFSIZE - 1)
    (htail : Clean tail) (hfuel : file.length < fuel) :
    grep pattern fuel m file = unlines (ls.filter fun l => matchText pattern l) := by
  induction fuel generalizing m file ls tail with
  | zero => cases hfuel
  | succ fuel ih =>
    have hsub : BUFSIZE - m.length - 1 = BUFSIZE - 1 - m.length := Nat.sub_right_comm ..
    unfold grep
    dsimp only
    rw [hsub]
    by_cases hempty : file.take (BUFSIZE - 1 - m.length) = []
    · rw [if_pos hempty]
      have hnil : file = [] := by
        obtain hz | hnil := List.take_eq_nil_iff.mp hempty
        · omega
        · exact hnil
      have hclean : Clean (unlines ls ++ tail) := by
        rw [← htext, hnil, List.append_nil]
        exact hm
      rw [eq_nil_of_clean hclean]
      rfl
    rw [if_neg hempty]
    -- The buffer has the first bytes of what is left of the text.
    have hbuf : m ++ file.take (BUFSIZE - 1 - m.length) =
        (unlines ls ++ tail).take (BUFSIZE - 1) := by
      rw [← htext, List.take_append, List.take_of_length_le (Nat.le_of_lt hroom)]
    have hrest : file.drop (file.take (BUFSIZE - 1 - m.length)).length =
        (unlines ls ++ tail).drop (BUFSIZE - 1) := by
      rw [← htext, List.drop_append, List.drop_of_length_le (Nat.le_of_lt hroom), List.nil_append,
        List.length_take]
      by_cases hle : BUFSIZE - 1 - m.length ≤ file.length
      · rw [Nat.min_eq_left hle]
      · rw [Nat.min_eq_right (by omega), List.drop_length, List.drop_of_length_le (by omega)]
    have hshorter : (file.drop (file.take (BUFSIZE - 1 - m.length)).length).length < fuel := by
      have hpos := List.length_pos_iff.mpr hempty
      have hle := List.length_take_le' (BUFSIZE - 1 - m.length) file
      rw [List.length_drop]
      omega
    obtain ⟨ls₁, ls₂, t, hsplit, ht, htake, hdrop, hfirst⟩ :=
      take_lines (BUFSIZE - 1) (fun l hl => (hls l hl).1) htail
    have hlen : (m ++ file.take (BUFSIZE - 1 - m.length)).length ≤ BUFSIZE - 1 := by
      rw [hbuf]
      exact List.length_take_le ..
    rw [hbuf, htake] at hlen
    have hlines := length_le_unlines ls₁
    rw [List.length_append] at hlen
    have hprint : printLines pattern (unlines ls₁ ++ t).length (unlines ls₁ ++ t) = _ :=
      printLines_spec (unlines ls₁ ++ t).length
      (fun l hl => (hls l (by rw [hsplit]; exact List.mem_append_left ls₂ hl)).1) ht
      (by rw [List.length_append]; omega)
    rw [hbuf, htake, hprint, hrest]
    rw [hrest] at hshorter
    by_cases hnone : ls₁ = []
    · have hnil := hfirst (fun l hl => (hls l hl).2) hnone
      rw [hnil] at hdrop hshorter ⊢
      rw [hnone, if_pos (by rfl)]
      have hclean : Clean ((unlines [] ++ tail).drop (BUFSIZE - 1)) :=
        htail.sublist (List.drop_sublist (BUFSIZE - 1) tail)
      have heq : [] ++ (unlines [] ++ tail).drop (BUFSIZE - 1) =
          unlines [] ++ (unlines [] ++ tail).drop (BUFSIZE - 1) := rfl
      have hnext := ih (fun _ hno => absurd hno List.not_mem_nil) (Nat.zero_lt_succ 1022) heq
        (fun _ hno => absurd hno List.not_mem_nil) hclean hshorter
      rw [hnext]
      rfl
    · have hpos := List.length_pos_iff.mpr hnone
      have hne : t.length ≠ (unlines ls₁ ++ t).length := by
        rw [List.length_append]
        omega
      rw [if_neg hne]
      have hnext := ih ht (by omega) hdrop
        (fun l hl => hls l (by rw [hsplit]; exact List.mem_append_right ls₁ hl)) htail hshorter
      rw [hnext, hsplit, List.filter_append, unlines_append]

/-- For a file whose lines are shorter than its buffer `grep` writes the lines that match, in
their order, and not what follows the last end of a line. -/
theorem grep_spec (fuel : Nat) (hls : ∀ l ∈ ls, Clean l ∧ l.length < BUFSIZE - 1)
    (htail : Clean tail) (hfuel : (unlines ls ++ tail).length < fuel) :
    grep pattern fuel [] (unlines ls ++ tail) =
      unlines (ls.filter fun l => matchText pattern l) :=
  grepLoop_spec fuel (fun _ hno => absurd hno List.not_mem_nil) (Nat.zero_lt_succ 1022) rfl hls
    htail hfuel

/-- The pattern `^a.*c$`. -/
theorem grep_spec_threeLines :
    grep (User.ascii ['^', 'a', '.', '*', 'c', '$']) 20 []
      (unlines [User.ascii ['a', 'b', 'c'], User.ascii ['b', 'c'], User.ascii ['a', 'c']] ++
        User.ascii ['a']) =
      unlines [User.ascii ['a', 'b', 'c'], User.ascii ['a', 'c']] :=
  (grep_spec 20 (by decide +kernel) (by decide +kernel) (by decide +kernel)).trans
    (by decide +kernel)

end Xv6.Grep
