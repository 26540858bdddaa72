import Xv6.Lib.ByteBuffer
import Xv6.Lib.Transition

/-!
# The process manager (project2/pmanager.c:7-171, ulib.c:52-68)

Strings are byte lists without their NUL, and a pointer into the line is `none` when it is
null. The state of `main` between two lines is the three word buffers and the input that is
still to be read.
-/

namespace Xv6.User

open Transition

def ascii (cs : List Char) : List Byte := cs.map fun c => BitVec.ofNat 8 c.toNat

def cstr (buf : List Byte) : List Byte := buf.takeWhile fun b => b ≠ 0

@[simp] theorem cstr_zero (s : List Byte) : cstr (0 :: s) = [] := rfl

theorem cstr_cons {c : Byte} (hc : c ≠ 0) (s : List Byte) : cstr (c :: s) = c :: cstr s :=
  List.takeWhile_cons_of_pos (decide_eq_true hc)

def EndOfLine (c : Byte) : Prop := c = 10 ∨ c = 13

instance (c : Byte) : Decidable (EndOfLine c) := inferInstanceAs (Decidable (_ ∨ _))

/-- The loop of `gets` with room for `n` more characters: the string, and the rest of the
input. -/
def getsLoop : Nat → List Byte → List Byte × List Byte
  | 0, input => ([], input)
  | _ + 1, [] => ([], [])
  | n + 1, c :: input =>
    if EndOfLine c then ([c], input)
    else (c :: (getsLoop n input).1, (getsLoop n input).2)

def gets (max : Nat) (input : List Byte) : List Byte × List Byte := getsLoop (max - 1) input

/-- No string is the return value -1. -/
def getcmd (nbuf : Nat) (input : List Byte) : Option (List Byte) × List Byte :=
  let (buf, rest) := gets nbuf input
  if buf.getD 0 0 = 0 then (none, rest) -- EOF
  else if buf.getD (nbuf - 1) 0 ≠ 0 then (none, rest) -- buffer size over
  else (some (cstr buf).dropLast, rest)

/-- The loop of `getword`: the word, and the string behind it. -/
def getwordLoop : List Byte → List Byte × List Byte
  | [] => ([], [])
  | c :: buf =>
    if c = 32 then ([], buf)
    else (c :: (getwordLoop buf).1, (getwordLoop buf).2)

/-- The new position and the new contents of `word`. A null `buf` is read like any other
pointer; `zero` is the string at address 0. -/
def getword (zero : List Byte) (buf : Option (List Byte)) (word : List Byte) :
    Option (List Byte) × List Byte :=
  let s := buf.getD zero
  if s = [] then (none, word) else (some (getwordLoop s).2, (getwordLoop s).1)

def stoiLoop : BitVec 32 → List Byte → Option (BitVec 32)
  | result, [] => some result
  | result, c :: str =>
    if c < 48 ∨ 57 < c then none else stoiLoop (result * 10 + (c.setWidth 32 - 48)) str

def stoi (str : List Byte) : Option (BitVec 32) := stoiLoop 0 str

structure Words where
  cmd : List Byte
  arg0 : List Byte
  arg1 : List Byte
  deriving DecidableEq

/-- What `main` does with a line. -/
inductive Action where
  | showprocs
  | kill (pid : BitVec 32)
  | exec2 (path : List Byte) (stacksize : BitVec 32)
  | setmemorylimit (pid limit : BitVec 32)
  | exit
  | message (text : String)
  deriving DecidableEq

def Action.IsCommand : Action → Prop
  | .message _ => False
  | _ => True

structure Turn where
  action : Action
  words : Words
  /-- `getword` was called with a null pointer. -/
  nullRead : Bool

def killTurn (zero : List Byte) (bufp : Option (List Byte)) (w : Words) : Action × Words :=
  let (bufp, arg0) := getword zero bufp w.arg0
  let w := { w with arg0 := arg0 }
  if bufp = none then (.message "invalid pid\n", w)
  else match stoi arg0 with
    | none => (.message "invalid pid\n", w)
    | some pid => (.kill pid, w)

/-- The two words behind a command, if both are there. -/
def getargs (zero : List Byte) (bufp : Option (List Byte)) (w : Words) : Bool × Words :=
  let (bufp, arg0) := getword zero bufp w.arg0
  let w := { w with arg0 := arg0 }
  if bufp = none then (false, w)
  else
    let (bufp, arg1) := getword zero bufp w.arg1
    (bufp.isSome, { w with arg1 := arg1 })

def executeTurn (zero : List Byte) (bufp : Option (List Byte)) (w : Words) : Action × Words :=
  let (read, w) := getargs zero bufp w
  if !read then (.message "invalid option\n", w)
  else match stoi w.arg1 with
    | none => (.message "invalid stacksize\n", w)
    | some stacksize => (.exec2 w.arg0 stacksize, w)

def memlimTurn (zero : List Byte) (bufp : Option (List Byte)) (w : Words) : Action × Words :=
  let (read, w) := getargs zero bufp w
  if !read then (.message "invalid option\n", w)
  else match stoi w.arg0, stoi w.arg1 with
    | some pid, some limit => (.setmemorylimit pid limit, w)
    | _, _ => (.message "invalid option\n", w)

/-- One pass of the loop of `main`, with the line in `buf`. -/
def turn (zero : List Byte) (w : Words) (buf : List Byte) : Turn :=
  let (bufp, cmd) := getword zero (some buf) w.cmd
  let w := { w with cmd := cmd }
  if cmd = ascii ['l', 'i', 's', 't'] then ⟨.showprocs, w, false⟩
  else if cmd = ascii ['k', 'i', 'l', 'l'] then
    ⟨(killTurn zero bufp w).1, (killTurn zero bufp w).2, bufp.isNone⟩
  else if cmd = ascii ['e', 'x', 'e', 'c', 'u', 't', 'e'] then
    ⟨(executeTurn zero bufp w).1, (executeTurn zero bufp w).2, bufp.isNone⟩
  else if cmd = ascii ['m', 'e', 'm', 'l', 'i', 'm'] then
    ⟨(memlimTurn zero bufp w).1, (memlimTurn zero bufp w).2, bufp.isNone⟩
  else if cmd = ascii ['e', 'x', 'i', 't'] then ⟨.exit, w, false⟩
  else ⟨.message "undefined command\n", w, false⟩

structure Session where
  words : Words
  input : List Byte

namespace Session

/-- The next line and what is done with it; none when `getcmd` has failed. -/
def next (zero : List Byte) (s : Session) : Option (Turn × List Byte) :=
  let (buf, rest) := getcmd 100 s.input
  buf.map fun buf => (turn zero s.words buf, rest)

/-- The loop of `main`, as long as it goes round. -/
def step (zero : List Byte) (s : Session) (_ : Unit) : Option Session :=
  (s.next zero).bind fun (t, rest) =>
    if t.action = .exit then none else some ⟨t.words, rest⟩

end Session

/-! ### One line -/

/-- A line that fits into the buffer with its newline. -/
structure IsLine (line : List Byte) : Prop where
  length : line.length + 1 < 100
  whole : ∀ c ∈ line, ¬ EndOfLine c

theorem getsLoop_line {line : List Byte} (hline : ∀ c ∈ line, ¬ EndOfLine c) {c : Byte}
    (hc : EndOfLine c) (rest : List Byte) {n : Nat} (hn : line.length < n) :
    getsLoop n (line ++ c :: rest) = (line ++ [c], rest) := by
  induction line generalizing n with
  | nil =>
    cases n with
    | zero => exact absurd hn (Nat.not_lt_zero _)
    | succ n => exact if_pos hc
  | cons b line ih =>
    cases n with
    | zero => exact absurd hn (Nat.not_lt_zero _)
    | succ n =>
      have hb : ¬ EndOfLine b := hline b List.mem_cons_self
      have htail := ih (fun d hd => hline d (List.mem_cons_of_mem b hd)) (Nat.lt_of_succ_lt_succ hn)
      show getsLoop (n + 1) (b :: (line ++ c :: rest)) = _
      unfold getsLoop
      rw [if_neg hb, htail]
      rfl

/-- The string that `getcmd` leaves in the buffer. -/
def lineText (line : List Byte) (c : Byte) : Option (List Byte) :=
  if (line ++ [c]).getD 0 0 = 0 then none else some (cstr (line ++ [c])).dropLast

theorem getcmd_line {line : List Byte} (hline : IsLine line) {c : Byte} (hc : EndOfLine c)
    (rest : List Byte) : getcmd 100 (line ++ c :: rest) = (lineText line c, rest) := by
  have hlength := hline.length
  have hgets : gets 100 (line ++ c :: rest) = (line ++ [c], rest) :=
    getsLoop_line hline.whole hc rest (by omega)
  have hlast : (line ++ [c]).getD 99 0 = 0 := by
    apply List.getD_eq_default
    simp
    omega
  unfold getcmd lineText
  rw [hgets]
  simp only [Nat.reduceSub]
  rw [hlast]
  split
  · rfl
  · rw [if_neg (not_not.mpr rfl)]

theorem EndOfLine.ne_zero {c : Byte} (hc : EndOfLine c) : c ≠ 0 := by
  cases hc with
  | inl h => rw [h]; decide
  | inr h => rw [h]; decide

/-- The lines of which nothing is left: nothing stands before the newline or, where the line
has a NUL in it, one character before that. -/
def Blank (line : List Byte) : Prop := line = [] ∨ ∃ c rest, c ≠ 0 ∧ line = c :: 0 :: rest

theorem lineText_nil {c : Byte} (hc : c ≠ 0) : lineText [] c = some [] := by
  have h0 : ¬ ([] ++ [c]).getD 0 0 = 0 := hc
  unfold lineText
  rw [if_neg h0]
  show some (cstr [c]).dropLast = _
  rw [cstr_cons hc]
  rfl

theorem lineText_cons {b : Byte} (hb : b ≠ 0) (line : List Byte) (c : Byte) :
    lineText (b :: line) c = some (b :: cstr (line ++ [c])).dropLast := by
  have h0 : ¬ (b :: line ++ [c]).getD 0 0 = 0 := hb
  unfold lineText
  rw [if_neg h0]
  show some (cstr (b :: (line ++ [c]))).dropLast = _
  rw [cstr_cons hb]

theorem lineText_blank {line : List Byte} (h : Blank line) {c : Byte} (hc : EndOfLine c) :
    lineText line c = some [] := by
  cases h with
  | inl h =>
    subst h
    exact lineText_nil hc.ne_zero
  | inr h =>
    obtain ⟨b, rest, hb, rfl⟩ := h
    exact lineText_cons hb _ c

theorem blank_of_lineText {line : List Byte} {c : Byte} (hc : EndOfLine c)
    (h : lineText line c = some []) : Blank line := by
  cases line with
  | nil => exact Or.inl rfl
  | cons b line =>
    by_cases hb : b = 0
    · subst hb
      cases h
    · rw [lineText_cons hb] at h
      cases line with
      | nil =>
        rw [List.nil_append, cstr_cons hc.ne_zero] at h
        cases h
      | cons d line =>
        by_cases hd : d = 0
        · subst hd
          exact Or.inr ⟨b, line, hb, rfl⟩
        · rw [List.cons_append, cstr_cons hd] at h
          cases h

/-! ### What a turn depends on -/

variable {zero : List Byte}

theorem getword_some {s : List Byte} (hs : s ≠ []) (word : List Byte) :
    getword zero (some s) word = (some (getwordLoop s).2, (getwordLoop s).1) := if_neg hs

theorem getword_nil (word : List Byte) : getword zero (some []) word = (none, word) := rfl

theorem killTurn_congr (s : List Byte) (w1 w2 : Words) :
    (killTurn zero (some s) w1).1 = (killTurn zero (some s) w2).1 := by
  unfold killTurn
  by_cases hs : s = []
  · subst hs
    simp [getword_nil]
  · rw [getword_some hs, getword_some hs]
    simp
    cases stoi (getwordLoop s).1 with
    | none => rfl
    | some pid => rfl

/-- Both words are read, and from the line; or the call fails whatever the buffers hold. -/
theorem getargs_congr (s : List Byte) (w1 w2 : Words) :
    ((getargs zero (some s) w1).1 = false ∧ (getargs zero (some s) w2).1 = false) ∨
    ∃ arg0 arg1, getargs zero (some s) w1 = (true, ⟨w1.cmd, arg0, arg1⟩) ∧
      getargs zero (some s) w2 = (true, ⟨w2.cmd, arg0, arg1⟩) := by
  unfold getargs
  by_cases hs : s = []
  · subst hs
    exact Or.inl ⟨rfl, rfl⟩
  · rw [getword_some hs, getword_some hs]
    simp only [reduceCtorEq, if_false]
    by_cases ht : (getwordLoop s).2 = []
    · rw [ht]
      exact Or.inl ⟨rfl, rfl⟩
    · rw [getword_some ht, getword_some ht]
      exact Or.inr ⟨_, _, rfl, rfl⟩

theorem executeTurn_congr (s : List Byte) (w1 w2 : Words) :
    (executeTurn zero (some s) w1).1 = (executeTurn zero (some s) w2).1 := by
  unfold executeTurn
  cases @getargs_congr zero s w1 w2 with
  | inl h => simp [h]
  | inr h =>
    obtain ⟨arg0, arg1, h1, h2⟩ := h
    rw [h1, h2]
    simp
    cases stoi arg1 with
    | none => rfl
    | some stacksize => rfl

theorem memlimTurn_congr (s : List Byte) (w1 w2 : Words) :
    (memlimTurn zero (some s) w1).1 = (memlimTurn zero (some s) w2).1 := by
  unfold memlimTurn
  cases @getargs_congr zero s w1 w2 with
  | inl h => simp [h]
  | inr h =>
    obtain ⟨arg0, arg1, h1, h2⟩ := h
    rw [h1, h2]
    simp
    cases stoi arg0 with
    | none => rfl
    | some pid =>
      cases stoi arg1 with
      | none => rfl
      | some limit => rfl

/-- With a command word in the line nothing is taken from the buffers. -/
theorem turn_congr {buf : List Byte} (hbuf : buf ≠ []) (w1 w2 : Words) :
    (turn zero w1 buf).action = (turn zero w2 buf).action := by
  unfold turn
  rw [getword_some hbuf, getword_some hbuf]
  dsimp only
  split_ifs
  · rfl
  · exact killTurn_congr _ _ _
  · exact executeTurn_congr _ _ _
  · exact memlimTurn_congr _ _ _
  · rfl
  · rfl

theorem turn_not_nullRead {buf : List Byte} (hbuf : buf ≠ []) (w : Words) :
    (turn zero w buf).nullRead = false := by
  unfold turn
  rw [getword_some hbuf]
  dsimp only
  split_ifs
  · rfl
  · rfl
  · rfl
  · rfl
  · rfl
  · rfl

/-! ### Sessions -/

/-- `main` comes to the head of its loop with the line `line` before it. -/
def Faces (zero line : List Byte) (s : Session) : Prop :=
  (∃ s0, Reachable (Session.step zero) s0 s) ∧
    ∃ c rest, EndOfLine c ∧ s.input = line ++ c :: rest

/-- What `main` does with `line` is the same after any lines that were read before it, an empty
line runs nothing, and no word is read at address 0. -/
structure Independent (zero line : List Byte) : Prop where
  same : ∀ s1 s2, Faces zero line s1 → Faces zero line s2 →
    (s1.next zero).map (fun t => t.1.action) = (s2.next zero).map fun t => t.1.action
  empty : line = [] → ∀ s, Faces zero line s → ∀ t ∈ s.next zero, ¬ t.1.action.IsCommand
  notNull : ∀ s, Faces zero line s → ∀ t ∈ s.next zero, t.1.nullRead = false

theorem Faces.next {line : List Byte} {s : Session} (h : Faces zero line s)
    (hline : IsLine line) : ∃ c rest, EndOfLine c ∧
      s.next zero = (lineText line c).map fun buf => (turn zero s.words buf, rest) := by
  obtain ⟨-, c, rest, hc, hinput⟩ := h
  have hcmd := getcmd_line hline hc rest
  rw [← hinput] at hcmd
  refine ⟨c, rest, hc, ?_⟩
  unfold Session.next
  rw [hcmd]

/-- The end of the line is not in its text. -/
theorem lineText_congr (line : List Byte) {c d : Byte} (hc : EndOfLine c) (hd : EndOfLine d) :
    lineText line c = lineText line d := by
  cases line with
  | nil => rw [lineText_nil hc.ne_zero, lineText_nil hd.ne_zero]
  | cons b line =>
    by_cases hb : b = 0
    · subst hb
      rfl
    · rw [lineText_cons hb, lineText_cons hb]
      congr 1
      induction line generalizing b with
      | nil =>
        rw [List.nil_append, List.nil_append, cstr_cons hc.ne_zero, cstr_cons hd.ne_zero]
        rfl
      | cons e line ih =>
        by_cases he : e = 0
        · subst he
          rfl
        · rw [List.cons_append, List.cons_append, cstr_cons he, cstr_cons he,
            List.dropLast_cons_cons, List.dropLast_cons_cons, ih e he]

theorem independent_of_not_blank {line : List Byte} (hline : IsLine line) (hb : ¬ Blank line) :
    Independent zero line where
  same s1 s2 h1 h2 := by
    obtain ⟨c1, rest1, hc1, hn1⟩ := h1.next hline
    obtain ⟨c2, rest2, hc2, hn2⟩ := h2.next hline
    rw [hn1, hn2, lineText_congr line hc1 hc2]
    cases htext : lineText line c2 with
    | none => rfl
    | some buf =>
      have hbuf : buf ≠ [] := fun hnil => hb (blank_of_lineText hc2 (hnil ▸ htext))
      simp
      exact turn_congr hbuf _ _
  empty hnil := absurd (Or.inl hnil) hb
  notNull s h t ht := by
    obtain ⟨c, rest, hc, hn⟩ := h.next hline
    rw [hn] at ht
    cases htext : lineText line c with
    | none =>
      rw [htext] at ht
      cases ht
    | some buf =>
      have hbuf : buf ≠ [] := fun hnil => hb (blank_of_lineText hc (hnil ▸ htext))
      rw [htext] at ht
      cases ht
      exact turn_not_nullRead hbuf _

/-- A session with the word buffers `w` that has read `first`, and has `line` before it. -/
theorem faces_after (w : Words) (first : List Byte) (hfirst : IsLine first) (line : List Byte)
    {buf : List Byte} (htext : lineText first 10 = some buf)
    (hgo : (turn zero w buf).action ≠ .exit) :
    Faces zero line ⟨(turn zero w buf).words, line ++ [10]⟩ := by
  have hcmd := getcmd_line hfirst (Or.inl rfl) (line ++ [10])
  have hstep : Session.step zero ⟨w, first ++ 10 :: (line ++ [10])⟩ () =
      some ⟨(turn zero w buf).words, line ++ [10]⟩ := by
    unfold Session.step Session.next
    rw [hcmd, htext]
    exact if_neg hgo
  exact ⟨⟨_, Reach.head trivial hstep (Reach.refl _)⟩, 10, [], Or.inl rfl, rfl⟩

def blankWords : Words := ⟨[], [], []⟩

theorem not_independent_of_blank {line : List Byte} (hline : IsLine line) (hb : Blank line) :
    ¬ Independent zero line := by
  intro h
  -- The same program, once after the line "list" and once after the line "x".
  have hlist : Faces zero line
      ⟨(turn zero blankWords (ascii ['l', 'i', 's', 't'])).words, line ++ [10]⟩ :=
    faces_after blankWords (ascii ['l', 'i', 's', 't']) ⟨by decide, by decide⟩ line rfl
      Action.noConfusion
  have hx : Faces zero line ⟨(turn zero blankWords (ascii ['x'])).words, line ++ [10]⟩ :=
    faces_after blankWords (ascii ['x']) ⟨by decide, by decide⟩ line rfl Action.noConfusion
  have hsame := h.same _ _ hlist hx
  obtain ⟨c1, rest1, hc1, hn1⟩ := hlist.next hline
  obtain ⟨c2, rest2, hc2, hn2⟩ := hx.next hline
  rw [hn1, hn2, lineText_blank hb hc1, lineText_blank hb hc2] at hsame
  have hshow := Option.some.inj hsame
  cases hshow

/-- The empty line, after "list" and after "kill 3". -/
theorem empty_line_runs : (∃ s t, Faces [] [] s ∧ t ∈ s.next [] ∧ t.1.action = .showprocs) ∧
    (∃ s t, Faces [] [] s ∧ t ∈ s.next [] ∧ t.1.nullRead = true) ∧
    ¬ ∀ zero line, IsLine line → Independent zero line := by
  have hlist : Faces [] [] ⟨(turn [] blankWords (ascii ['l', 'i', 's', 't'])).words, [10]⟩ :=
    faces_after blankWords (ascii ['l', 'i', 's', 't']) ⟨by decide, by decide⟩ [] rfl
      Action.noConfusion
  have hkill : Faces [] []
      ⟨(turn [] blankWords (ascii ['k', 'i', 'l', 'l', ' ', '3'])).words, [10]⟩ :=
    faces_after blankWords (ascii ['k', 'i', 'l', 'l', ' ', '3']) ⟨by decide, by decide⟩ [] rfl
      Action.noConfusion
  refine ⟨⟨_, _, hlist, rfl, rfl⟩, ⟨_, _, hkill, rfl, rfl⟩, ?_⟩
  intro h
  have hempty : IsLine [] := ⟨by decide, by decide⟩
  exact not_independent_of_blank hempty (Or.inl rfl) (h [] [] hempty)

/-- The law holds of the lines with a text and of no others. -/
theorem independent_iff {line : List Byte} (hline : IsLine line) :
    Independent zero line ↔ ¬ Blank line :=
  ⟨fun h hb => not_independent_of_blank hline hb h, independent_of_not_blank hline⟩

theorem independent_iff_spaces : IsLine (ascii [' ', ' ', 'm', ' ', '1', ' ']) ∧
    (Independent [] (ascii [' ', ' ', 'm', ' ', '1', ' ']) ↔
      ¬ Blank (ascii [' ', ' ', 'm', ' ', '1', ' '])) :=
  ⟨⟨by decide, by decide⟩, independent_iff ⟨by decide, by decide⟩⟩

end Xv6.User
