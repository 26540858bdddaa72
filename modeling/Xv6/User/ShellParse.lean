import Mathlib.Data.List.TakeWhile
import Xv6.User.ShellGrammar

/-!
# The parser of the shell accepts its grammar

`Lexed s i ts`: the line from `i` on consists of the tokens `ts`. In these terms each function of
the parser takes a derivation off the front, or panics, and misses none.
-/

namespace Xv6.Shell
open Grep (chr)

variable {s : List Byte} {i j n m q : Nat} {c : Byte}

/-! ### Characters -/

theorem lt_of_charAt (h : charAt s i ≠ 0) : i < s.length := by
  by_contra hno
  exact h (List.getD_eq_default s 0 (Nat.le_of_not_lt hno))

theorem charAt_ne_zero (hs : ∀ c ∈ s, c ≠ 0) (h : i < s.length) : charAt s i ≠ 0 := by
  unfold charAt
  rw [List.getD_eq_getElem s 0 h]
  exact hs _ (List.getElem_mem h)

theorem charAt_length : charAt s s.length = 0 := List.getD_eq_default s 0 (Nat.le_refl _)

/-- A loop over the characters that fulfil `p` stops at the first one that does not. -/
structure Run (p : Byte → Bool) (s : List Byte) (i e : Nat) : Prop where
  le : i ≤ e
  le_length : i ≤ s.length → e ≤ s.length
  all : ∀ m, i ≤ m → m < e → p (charAt s m) = true
  stop : e < s.length → p (charAt s e) = false

theorem run_takeWhile (p : Byte → Bool) (s : List Byte) (i : Nat) :
    Run p s i (i + ((s.drop i).takeWhile p).length) := by
  induction h : s.length - i generalizing i with
  | zero =>
    rw [List.drop_of_length_le (by omega)]
    exact ⟨Nat.le_refl _, fun h => h, fun m h h' => absurd h' (by simpa using h),
      fun h' => by simp at h'; omega⟩
  | succ k ih =>
    have hi : i < s.length := by omega
    have hchar : charAt s i = s[i] := List.getD_eq_getElem s 0 hi
    rw [List.drop_eq_getElem_cons hi]
    cases hp : p s[i] with
    | false =>
      rw [List.takeWhile_cons_of_neg (by rw [hp]; exact Bool.false_ne_true)]
      refine ⟨Nat.le_refl _, fun h => h, fun m h h' => absurd h' (Nat.not_lt_of_le h), fun _ => ?_⟩
      rw [List.length_nil, Nat.add_zero, hchar]
      exact hp
    | true =>
      rw [List.takeWhile_cons_of_pos hp, List.length_cons]
      have hrun := ih (i + 1) (by omega)
      have heq : i + (((s.drop (i + 1)).takeWhile p).length + 1) =
          i + 1 + ((s.drop (i + 1)).takeWhile p).length := by omega
      rw [heq]
      refine ⟨Nat.le_of_succ_le hrun.le, fun _ => hrun.le_length hi, ?_, hrun.stop⟩
      intro m hm hm'
      by_cases hmi : m = i
      · rw [hmi, hchar]
        exact hp
      · exact hrun.all m (by omega) hm'

theorem run_skip (s : List Byte) (i : Nat) : Run (· ∈ whitespace) s i (skip s i) :=
  run_takeWhile _ s i

theorem run_wordEnd (s : List Byte) (i : Nat) : Run (Ordinary ·) s i (wordEnd s i) :=
  run_takeWhile _ s i

theorem skip_skip (s : List Byte) (i : Nat) : skip s (skip s i) = skip s i := by
  obtain hlt | hge := Nat.lt_or_ge (skip s i) s.length
  · have hstop := (run_skip s i).stop hlt
    have hrun := run_skip s (skip s i)
    by_contra hne
    have hall := hrun.all (skip s i) (Nat.le_refl _) (Nat.lt_of_le_of_ne hrun.le (Ne.symm hne))
    rw [hstop] at hall
    cases hall
  · unfold skip at hge ⊢
    rw [List.drop_of_length_le hge, List.takeWhile_nil, List.length_nil, Nat.add_zero]

/-! ### Tokens -/

/-- A token from `q` up to `j`. -/
inductive TokenAt (s : List Byte) : Nat → Token Span → Nat → Prop where
  | sym {q : Nat} (h : charAt s q ∈ symbols)
    (hno : ¬ (charAt s q = chr '>' ∧ charAt s (q + 1) = chr '>')) :
    TokenAt s q (.sym (charAt s q)) (q + 1)
  | append {q : Nat} (h : charAt s q = chr '>') (h' : charAt s (q + 1) = chr '>') :
    TokenAt s q .append (q + 2)
  | word {q : Nat} (hlt : q < s.length) (h : Ordinary (charAt s q)) :
    TokenAt s q (.word ⟨q, wordEnd s q⟩) (wordEnd s q)

/-- The line from `i` on consists of these tokens. -/
inductive Lexed (s : List Byte) : Nat → List (Token Span) → Prop where
  | nil {i : Nat} (h : skip s i = s.length) : Lexed s i []
  | cons {i j : Nat} {t : Token Span} {ts : List (Token Span)} (h : TokenAt s (skip s i) t j)
    (hrest : Lexed s j ts) : Lexed s i (t :: ts)

variable {t : Token Span} {ts us vs rest : List (Token Span)} {toks : List Byte}

theorem ne_zero_of_symbol (h : c ∈ symbols) : c ≠ 0 := by
  intro hno
  rw [hno] at h
  exact absurd h (by decide)

theorem TokenAt.bounds (h : TokenAt s q t j) : q < j ∧ j ≤ s.length := by
  cases h with
  | sym h _ => exact ⟨Nat.lt_succ_self q, lt_of_charAt (ne_zero_of_symbol h)⟩
  | append _ h' =>
    have hlt : q + 1 < s.length := lt_of_charAt (by rw [h']; decide)
    exact ⟨by omega, hlt⟩
  | word hlt h =>
    have hrun := run_wordEnd s q
    refine ⟨?_, hrun.le_length (Nat.le_of_lt hlt)⟩
    refine Nat.lt_of_le_of_ne hrun.le ?_
    intro hno
    have hstop := hrun.stop (by omega)
    rw [← hno, decide_eq_false_iff_not] at hstop
    exact hstop h

theorem TokenAt.ne_zero (hs : ∀ c ∈ s, c ≠ 0) (h : TokenAt s q t j) : charAt s q ≠ 0 :=
  charAt_ne_zero hs (Nat.lt_of_lt_of_le h.bounds.1 h.bounds.2)

namespace Lexed

theorem skip (h : Lexed s i ts) : Lexed s (skip s i) ts := by
  cases h with
  | nil h =>
    refine .nil ?_
    rw [skip_skip]
    exact h
  | cons h hrest =>
    refine .cons ?_ hrest
    rw [skip_skip]
    exact h

theorem length_le (h : Lexed s i ts) : i + ts.length ≤ s.length := by
  induction h with
  | @nil i h =>
    have hle := (run_skip s i).le
    rw [h] at hle
    exact hle
  | @cons i j t ts h _ ih =>
    have hle := (run_skip s i).le
    have hbounds := h.bounds
    rw [List.length_cons]
    omega

end Lexed

theorem exists_lexed (s : List Byte) (h : i ≤ s.length) : ∃ ts, Lexed s i ts := by
  induction hk : s.length - i using Nat.strong_induction_on generalizing i with
  | _ k ih =>
    have hrun := run_skip s i
    obtain hlt | heq := Nat.lt_or_eq_of_le (hrun.le_length h)
    · obtain ⟨t, j, ht⟩ : ∃ t j, TokenAt s (skip s i) t j := by
        by_cases hsym : charAt s (skip s i) ∈ symbols
        · by_cases hop : charAt s (skip s i) = chr '>' ∧ charAt s (skip s i + 1) = chr '>'
          · exact ⟨_, _, .append hop.1 hop.2⟩
          · exact ⟨_, _, .sym hsym hop⟩
        · have hblank := hrun.stop hlt
          rw [decide_eq_false_iff_not] at hblank
          exact ⟨_, _, .word hlt ⟨hblank, hsym⟩⟩
      obtain ⟨hj, hj'⟩ := ht.bounds
      have hle := hrun.le
      obtain ⟨ts, hts⟩ := ih (s.length - j) (by omega) hj' rfl
      exact ⟨t :: ts, .cons ht hts⟩
    · exact ⟨[], .nil heq⟩

theorem gettoken_cons (hs : ∀ c ∈ s, c ≠ 0) (h : Lexed s i (t :: ts)) :
    ∃ j, gettoken s i = (some t, j) ∧ Lexed s j ts := by
  cases h with
  | cons h hrest =>
    have hne := h.ne_zero hs
    unfold gettoken
    dsimp only
    rw [if_neg hne]
    cases h with
    | sym h hno =>
      rw [if_pos h, if_neg hno]
      exact ⟨_, rfl, hrest.skip⟩
    | append h h' =>
      have hsym : charAt s (Shell.skip s i) ∈ symbols := by
        rw [h]
        decide
      rw [if_pos hsym, if_pos ⟨h, h'⟩]
      exact ⟨_, rfl, hrest.skip⟩
    | word hlt h =>
      rw [if_neg h.2]
      exact ⟨_, rfl, hrest.skip⟩

theorem gettoken_nil (h : Lexed s i []) : ∃ j, gettoken s i = (none, j) ∧ Lexed s j [] := by
  have hskip := h.skip.skip
  cases h with
  | nil h =>
    have hzero : charAt s (skip s i) = 0 := by
      rw [h]
      exact charAt_length
    unfold gettoken
    dsimp only
    rw [if_pos hzero]
    exact ⟨_, rfl, hskip⟩

theorem redir_symbols : ∀ c ∈ [chr '<', chr '>'], c ∈ symbols := by decide

theorem exec_symbols : ∀ c ∈ [chr '|', chr ')', chr '&', chr ';'], c ∈ symbols := by decide

theorem open_symbols : ∀ c ∈ [chr '('], c ∈ symbols := by decide

theorem close_symbols : ∀ c ∈ [chr ')'], c ∈ symbols := by decide

theorem pipe_symbols : ∀ c ∈ [chr '|'], c ∈ symbols := by decide

theorem back_symbols : ∀ c ∈ [chr '&'], c ∈ symbols := by decide

theorem list_symbols : ∀ c ∈ [chr ';'], c ∈ symbols := by decide

/-- The first token begins with one of these characters. -/
def starts (toks : List Byte) : List (Token Span) → Bool
  | [] => false
  | .sym c :: _ => decide (c ∈ toks)
  | .append :: _ => decide (chr '>' ∈ toks)
  | .word _ :: _ => false

theorem peek_eq (htoks : ∀ c ∈ toks, c ∈ symbols) (h : Lexed s i ts) :
    peek s i toks = (starts toks ts, skip s i) := by
  unfold peek
  dsimp only
  refine Prod.ext ?_ rfl
  dsimp only
  cases h with
  | nil h =>
    rw [h, charAt_length]
    exact decide_eq_false fun hno => hno.1 rfl
  | cons h hrest =>
    cases h with
    | sym h hno =>
      have hne := ne_zero_of_symbol h
      exact decide_eq_decide.mpr (and_iff_right hne)
    | append h h' =>
      have hne : chr '>' ≠ 0 := by decide
      rw [h]
      exact decide_eq_decide.mpr (and_iff_right hne)
    | word hlt h => exact decide_eq_false fun hno => h.2 (htoks _ hno.2)

/-- The first token of `ts` is one of these symbols, or there is none. -/
def Follows (toks : List Byte) (ts : List (Token Span)) : Prop :=
  ts = [] ∨ ∃ c us, ts = .sym c :: us ∧ c ∈ toks

theorem Follows.starts {toks' : List Byte} (h : Follows toks ts) (hd : ∀ c ∈ toks, c ∉ toks') :
    starts toks' ts = false := by
  obtain rfl | ⟨c, us, rfl, hc⟩ := h
  · rfl
  · exact decide_eq_false (hd c hc)

theorem Follows.mono {toks' : List Byte} (h : Follows toks ts) (hd : ∀ c ∈ toks, c ∈ toks') :
    Follows toks' ts := by
  obtain rfl | ⟨c, us, rfl, hc⟩ := h
  · exact .inl rfl
  · exact .inr ⟨c, us, rfl, hd c hc⟩

/-- One symbol is peeked at, and is there. -/
theorem eq_of_starts (h : starts [c] ts = true) (hc : c ≠ chr '>') : ∃ us, ts = .sym c :: us := by
  cases ts with
  | nil => cases h
  | cons t us =>
    cases t with
    | sym d =>
      have hd := List.mem_singleton.mp (of_decide_eq_true h)
      rw [hd]
      exact ⟨us, rfl⟩
    | append =>
      have hd := List.mem_singleton.mp (of_decide_eq_true h)
      exact absurd hd.symm hc
    | word w => cases h

theorem starts_self (c : Byte) (us : List (Token Span)) : starts [c] (.sym c :: us) = true :=
  decide_eq_true List.mem_cons_self

/-! ### Redirections and arguments -/

theorem Op.starts_token (op : Op) (us : List (Token Span)) :
    starts [chr '<', chr '>'] (op.token :: us) = true := by
  cases op <;> rfl

theorem exists_op (h : starts [chr '<', chr '>'] ts = true) :
    ∃ (op : Op) (us : List (Token Span)), ts = op.token :: us := by
  cases ts with
  | nil => cases h
  | cons t us =>
    cases t with
    | sym c =>
      have hc := of_decide_eq_true h
      cases hc with
      | head => exact ⟨.input, us, rfl⟩
      | tail _ hc =>
        cases hc with
        | head => exact ⟨.output, us, rfl⟩
        | tail _ hc => cases hc
    | append => exact ⟨.append, us, rfl⟩
    | word w => cases h

theorem redirect_token (op : Op) (w : Span) : redirect (some op.token) w = [op.redir w] := by
  cases op <;> rfl

/-- `parseredirs` takes all redirections off the front. -/
theorem parseredirs_outcome (hs : ∀ c ∈ s, c ≠ 0) (rs : List (Redir Span)) (h : Lexed s i ts)
    (hn : ts.length < n) :
    (∃ us rest rs' j, parseredirs s n rs i = .ok (rs ++ rs', j) ∧ ts = us ++ rest ∧
      Lexed s j rest ∧ Redirs us rs') ∨ ∃ p, parseredirs s n rs i = .error (.panic p) := by
  induction n generalizing i rs ts with
  | zero => cases hn
  | succ n ih =>
    have hpeek := peek_eq redir_symbols h
    rw [parseredirs, hpeek]
    cases hstart : starts [chr '<', chr '>'] ts with
    | false =>
      refine .inl ⟨[], ts, [], skip s i, ?_, rfl, h.skip, .nil⟩
      rw [List.append_nil]
      rfl
    | true =>
      obtain ⟨op, us, rfl⟩ := exists_op hstart
      obtain ⟨j, hop, hus⟩ := gettoken_cons hs h.skip
      rw [List.length_cons] at hn
      cases us with
      | nil =>
        obtain ⟨k, hnone, -⟩ := gettoken_nil hus
        refine .inr ⟨.missingFile, ?_⟩
        simp only [hop, hnone, if_true]
      | cons t us =>
        obtain ⟨k, htok, hrest⟩ := gettoken_cons hs hus
        rw [List.length_cons] at hn
        cases t with
        | sym c =>
          refine .inr ⟨.missingFile, ?_⟩
          simp only [hop, htok, if_true]
        | append =>
          refine .inr ⟨.missingFile, ?_⟩
          simp only [hop, htok, if_true]
        | word w =>
          simp only [hop, htok, if_true, redirect_token]
          obtain ⟨vs, rest, rs', l, hok, heq, hlex, hrs⟩ | hpanic :=
            ih (rs ++ [op.redir w]) hrest (by omega)
          · refine .inl ⟨op.token :: .word w :: vs, rest, op.redir w :: rs', l, ?_, ?_, hlex,
              .cons op w hrs⟩
            · rw [hok, List.append_assoc]
              rfl
            · rw [heq]
              rfl
          · exact .inr hpanic

theorem parseredirs_complete (hs : ∀ c ∈ s, c ≠ 0) (rs : List (Redir Span))
    {rs' : List (Redir Span)} (hr : Redirs us rs') (h : Lexed s i (us ++ rest))
    (hstop : starts [chr '<', chr '>'] rest = false) (hn : us.length < n) :
    ∃ j, parseredirs s n rs i = .ok (rs ++ rs', j) ∧ Lexed s j rest := by
  induction hr generalizing i n rs with
  | nil =>
    cases n with
    | zero => cases hn
    | succ n =>
      refine ⟨skip s i, ?_, h.skip⟩
      rw [parseredirs, peek_eq redir_symbols h, List.nil_append, hstop, List.append_nil]
      rfl
  | cons op w _ ih =>
    cases n with
    | zero => cases hn
    | succ n =>
      obtain ⟨j, hop, hus⟩ := gettoken_cons hs h.skip
      obtain ⟨k, htok, hrest⟩ := gettoken_cons hs hus
      rw [List.length_cons, List.length_cons] at hn
      obtain ⟨l, hok, hlex⟩ := ih (n := n) (rs ++ [op.redir w]) hrest (by omega)
      refine ⟨l, ?_, hlex⟩
      rw [parseredirs, peek_eq redir_symbols h, List.cons_append, Op.starts_token]
      simp only [hop, htok, if_true, redirect_token]
      rw [hok, List.append_assoc]
      rfl

theorem Redirs.args {rs : List (Redir Span)} {rs' : List (Redir Span)} {argv : List Span}
    (h : Redirs us rs) (h' : Args vs argv rs') : Args (us ++ vs) argv (rs ++ rs') := by
  induction h with
  | nil => exact h'
  | cons op w _ ih => exact .redir op w ih

/-- The redirections in front of the first argument. -/
theorem Args.split {rs : List (Redir Span)} {argv : List Span} (h : Args ts argv rs) :
    ∃ us vs rs₁ rs₂, ts = us ++ vs ∧ rs = rs₁ ++ rs₂ ∧ Redirs us rs₁ ∧ Args vs argv rs₂ ∧
      starts [chr '<', chr '>'] vs = false := by
  induction h with
  | nil => exact ⟨[], [], [], [], rfl, rfl, .nil, .nil, rfl⟩
  | word w h _ => exact ⟨[], _, [], _, rfl, rfl, .nil, .word w h, rfl⟩
  | redir op w _ ih =>
    obtain ⟨us, vs, rs₁, rs₂, hts, hrs, hred, hargs, hstart⟩ := ih
    refine ⟨op.token :: .word w :: us, vs, op.redir w :: rs₁, rs₂, ?_, ?_, .cons op w hred, hargs,
      hstart⟩
    · rw [hts]
      rfl
    · rw [hrs]
      rfl

theorem starts_append (h : starts toks us = false) (h' : starts toks rest = false) :
    starts toks (us ++ rest) = false := by
  cases us with
  | nil => exact h'
  | cons t us => cases t <;> exact h

theorem parseargs_outcome (hs : ∀ c ∈ s, c ≠ 0) (argv : List Span) (rs : List (Redir Span))
    (h : Lexed s i ts) (hn : ts.length < n) (hargs : argv.length < MAXARGS) :
    (∃ us rest argv' rs' j,
      parseargs s n argv rs i = .ok ((Cmd.exec (argv ++ argv')).redirs (rs ++ rs'), j) ∧
      ts = us ++ rest ∧ Lexed s j rest ∧ Args us argv' rs' ∧
      (argv ++ argv').length < MAXARGS) ∨ ∃ p, parseargs s n argv rs i = .error (.panic p) := by
  induction n generalizing i argv rs ts with
  | zero => cases hn
  | succ n ih =>
    have hpeek := peek_eq exec_symbols h
    have hnone : ∀ j, Lexed s j ts → ∃ us rest argv' rs' k,
        (Except.ok ((Cmd.exec argv).redirs rs, j) : Except Stop _) =
          .ok ((Cmd.exec (argv ++ argv')).redirs (rs ++ rs'), k) ∧
        ts = us ++ rest ∧ Lexed s k rest ∧ Args us argv' rs' ∧
        (argv ++ argv').length < MAXARGS := by
      intro j hj
      refine ⟨[], ts, [], [], j, ?_, rfl, hj, .nil, ?_⟩
      · rw [List.append_nil, List.append_nil]
      · rw [List.append_nil]
        exact hargs
    rw [parseargs, hpeek]
    cases hstart : starts [chr '|', chr ')', chr '&', chr ';'] ts with
    | true => exact .inl (hnone _ h.skip)
    | false =>
      cases ts with
      | nil =>
        obtain ⟨j, hj, hlex⟩ := gettoken_nil h.skip
        refine .inl ?_
        simp only [hj, Bool.false_eq_true, if_false]
        exact hnone j hlex
      | cons t us =>
        obtain ⟨j, hj, hus⟩ := gettoken_cons hs h.skip
        rw [List.length_cons] at hn
        cases t with
        | sym c =>
          refine .inr ⟨.syntaxError, ?_⟩
          simp only [hj, Bool.false_eq_true, if_false]
        | append =>
          refine .inr ⟨.syntaxError, ?_⟩
          simp only [hj, Bool.false_eq_true, if_false]
        | word w =>
          simp only [hj, Bool.false_eq_true, if_false]
          by_cases hmany : MAXARGS ≤ (argv ++ [w]).length
          · refine .inr ⟨.tooManyArgs, ?_⟩
            rw [if_pos hmany]
          · rw [if_neg hmany]
            have hlen := hus.length_le
            obtain ⟨vs, rest, rs₁, k, hok, heq, hlex, hred⟩ | ⟨p, hpanic⟩ :=
              parseredirs_outcome (n := s.length + 1) hs rs hus (by omega)
            · rw [hok, heq]
              rw [heq, List.length_append] at hn
              obtain ⟨ws, rest', argv', rs₂, l, hok', heq', hlex', hargs', hfew⟩ | hpanic :=
                ih (argv ++ [w]) (rs ++ rs₁) hlex (by omega) (Nat.lt_of_not_le hmany)
              · refine .inl ⟨.word w :: (vs ++ ws), rest', w :: argv', rs₁ ++ rs₂, l, ?_, ?_, hlex',
                  .word w (hred.args hargs'), ?_⟩
                · rw [List.append_assoc, List.append_assoc] at hok'
                  exact hok'
                · rw [heq', List.cons_append, List.append_assoc]
                · rw [List.append_assoc] at hfew
                  exact hfew
              · exact .inr hpanic
            · rw [hpanic]
              exact .inr ⟨p, rfl⟩

/-- What may come after a command without `|`. -/
def afterExec : List Byte := [chr '|', chr ')', chr '&', chr ';']

theorem parseargs_complete (hs : ∀ c ∈ s, c ≠ 0) (argv : List Span) (rs : List (Redir Span))
    {argv' : List Span} {rs' : List (Redir Span)} (ha : Args us argv' rs')
    (hhead : starts [chr '<', chr '>'] us = false) (h : Lexed s i (us ++ rest))
    (hrest : Follows afterExec rest) (hn : us.length < n)
    (hargs : (argv ++ argv').length < MAXARGS) :
    ∃ j, parseargs s n argv rs i = .ok ((Cmd.exec (argv ++ argv')).redirs (rs ++ rs'), j) ∧
      Lexed s j rest := by
  induction n generalizing i argv rs us argv' rs' with
  | zero => cases hn
  | succ n ih =>
    rw [parseargs, peek_eq exec_symbols h]
    cases ha with
    | nil =>
      rw [List.append_nil, List.append_nil]
      obtain rfl | ⟨c, vs, rfl, hc⟩ := hrest
      · obtain ⟨j, hj, hlex⟩ := gettoken_nil h.skip
        refine ⟨j, ?_, hlex⟩
        have hstart : starts [chr '|', chr ')', chr '&', chr ';'] ([] ++ []) = false := rfl
        simp only [hstart, hj, Bool.false_eq_true, if_false]
      · refine ⟨skip s i, ?_, h.skip⟩
        have hstart : starts [chr '|', chr ')', chr '&', chr ';'] ([] ++ .sym c :: vs) = true :=
          decide_eq_true hc
        simp only [hstart, if_true]
    | @word _ argv' _ w hargs' =>
      obtain ⟨vs, ws, rs₁, rs₂, rfl, rfl, hred, hws, hstart⟩ := hargs'.split
      rw [List.cons_append, List.append_assoc] at h ⊢
      obtain ⟨j, hj, hus⟩ := gettoken_cons hs h.skip
      have hword : starts [chr '|', chr ')', chr '&', chr ';']
          (.word w :: (vs ++ (ws ++ rest))) = false := rfl
      rw [List.length_cons, List.length_append] at hn
      have hlen := hus.length_le
      rw [List.length_append] at hlen
      obtain ⟨k, hok, hlex⟩ := parseredirs_complete (n := s.length + 1) hs rs hred hus
        (starts_append hstart (hrest.starts (by decide))) (by omega)
      have hfew : (argv ++ [w] ++ argv').length < MAXARGS := by
        rw [List.append_assoc]
        exact hargs
      have hmany : ¬ MAXARGS ≤ (argv ++ [w]).length := by
        rw [List.length_append] at hfew
        omega
      obtain ⟨l, hok', hlex'⟩ := ih (argv ++ [w]) (rs ++ rs₁) hws hstart hlex (by omega) hfew
      refine ⟨l, ?_, hlex'⟩
      simp only [hword, hj, Bool.false_eq_true, if_false]
      rw [if_neg hmany, hok]
      rw [List.append_assoc, List.append_assoc] at hok'
      exact hok'
    | redir op w _ =>
      rw [Op.starts_token] at hhead
      cases hhead

/-! ### Commands -/

/-- The function has taken a command off the front of `ts`, or has panicked. -/
def Outcome (s : List Byte) (nt : Nonterminal) (ts : List (Token Span))
    (r : Except Stop (Cmd Span × Nat)) : Prop :=
  (∃ c j us rest, r = .ok (c, j) ∧ ts = us ++ rest ∧ Lexed s j rest ∧ Derives nt us c) ∨
    ∃ p, r = .error (.panic p)

variable {line : Nat → Except Stop (Cmd Span × Nat)}

theorem parseblock_outcome (hs : ∀ c ∈ s, c ≠ 0)
    (hline : ∀ i ts, Lexed s i ts → ts.length < n → Outcome s .line ts (line i))
    (h : Lexed s i ts) (hn : ts.length ≤ n) : Outcome s .exec ts (parseblock s line i) := by
  unfold parseblock
  dsimp only
  rw [peek_eq open_symbols h]
  cases hstart : starts [chr '('] ts with
  | false => exact .inr ⟨.parseblock, rfl⟩
  | true =>
    obtain ⟨us, rfl⟩ := eq_of_starts hstart (by decide)
    obtain ⟨j, hj, hus⟩ := gettoken_cons hs h.skip
    rw [List.length_cons] at hn
    simp only [hj, if_true]
    obtain ⟨c, k, vs, rest, hok, heq, hlex, hder⟩ | ⟨p, hpanic⟩ := hline j us hus (by omega)
    · rw [hok]
      change Outcome s .exec _ (if (peek s k [chr ')']).1 = true then _ else _)
      rw [peek_eq close_symbols hlex]
      cases hclose : starts [chr ')'] rest with
      | false => exact .inr ⟨.missingParen, rfl⟩
      | true =>
        obtain ⟨ws, rfl⟩ := eq_of_starts hclose (by decide)
        obtain ⟨l, hl, hws⟩ := gettoken_cons hs hlex.skip
        have hlen := hws.length_le
        simp only [hl, if_true]
        obtain ⟨ys, rest', rs, m, hok', heq', hlex', hred⟩ | ⟨p, hpanic⟩ :=
          parseredirs_outcome (n := s.length + 1) hs [] hws (by omega)
        · rw [hok']
          refine .inl ⟨_, m, _, rest', rfl, ?_, hlex', .block hder hred⟩
          rw [heq, heq', List.cons_append, List.append_assoc, List.cons_append]
        · rw [hpanic]
          exact .inr ⟨p, rfl⟩
    · rw [hpanic]
      exact .inr ⟨p, rfl⟩

theorem parseexec_outcome (hs : ∀ c ∈ s, c ≠ 0)
    (hline : ∀ i ts, Lexed s i ts → ts.length < n → Outcome s .line ts (line i))
    (h : Lexed s i ts) (hn : ts.length ≤ n) : Outcome s .exec ts (parseexec s line i) := by
  unfold parseexec
  dsimp only
  rw [peek_eq open_symbols h]
  cases hstart : starts [chr '('] ts with
  | true => exact parseblock_outcome hs hline h.skip hn
  | false =>
    have hlen := h.length_le
    simp only [Bool.false_eq_true, if_false]
    obtain ⟨us, rest, rs, j, hok, heq, hlex, hred⟩ | ⟨p, hpanic⟩ :=
      parseredirs_outcome (n := s.length + 1) hs [] h.skip (by omega)
    · have hlen' := hlex.length_le
      rw [hok]
      change Outcome s .exec _ (parseargs s (s.length + 1) [] ([] ++ rs) j)
      obtain ⟨vs, rest', argv, rs', k, hok', heq', hlex', hargs, hfew⟩ | ⟨p, hpanic⟩ :=
        parseargs_outcome (n := s.length + 1) hs [] ([] ++ rs) hlex (by omega) (by decide)
      · refine .inl ⟨_, k, us ++ vs, rest', hok', ?_, hlex', .exec (hred.args hargs) hfew⟩
        rw [heq, heq', List.append_assoc]
      · exact .inr ⟨p, hpanic⟩
    · rw [hpanic]
      exact .inr ⟨p, rfl⟩

theorem parsepipe_outcome (hs : ∀ c ∈ s, c ≠ 0)
    (hline : ∀ i ts, Lexed s i ts → ts.length < n → Outcome s .line ts (line i))
    (h : Lexed s i ts) (hn : ts.length ≤ n) (hm : ts.length < m) :
    Outcome s .pipe ts (parsepipe s line m i) := by
  induction m generalizing i ts with
  | zero => cases hm
  | succ m ih =>
    rw [parsepipe]
    obtain ⟨c, j, us, rest, hok, heq, hlex, hder⟩ | ⟨p, hpanic⟩ := parseexec_outcome hs hline h hn
    · rw [hok]
      change Outcome s .pipe _ (if (peek s j [chr '|']).1 = true then _ else _)
      rw [peek_eq pipe_symbols hlex]
      cases hstart : starts [chr '|'] rest with
      | false => exact .inl ⟨c, _, us, rest, rfl, heq, hlex.skip, .simple hder⟩
      | true =>
        obtain ⟨vs, rfl⟩ := eq_of_starts hstart (by decide)
        obtain ⟨k, hk, hvs⟩ := gettoken_cons hs hlex.skip
        rw [heq, List.length_append, List.length_cons] at hn hm
        simp only [hk, if_true]
        obtain ⟨d, l, ws, rest', hok', heq', hlex', hder'⟩ | ⟨p, hpanic⟩ :=
          ih hvs (by omega) (by omega)
        · rw [hok']
          refine .inl ⟨_, l, _, rest', rfl, ?_, hlex', .pipe hder hder'⟩
          rw [heq, heq', List.append_assoc, List.cons_append]
        · rw [hpanic]
          exact .inr ⟨p, rfl⟩
    · rw [hpanic]
      exact .inr ⟨p, rfl⟩

theorem parseback_outcome (hs : ∀ c ∈ s, c ≠ 0) (c : Cmd Span) (h : Lexed s i ts)
    (hn : ts.length < n) : ∃ k rest j, parseback s n c i = .ok (Cmd.back^[k] c, j) ∧
      ts = List.replicate k (.sym (chr '&')) ++ rest ∧ Lexed s j rest := by
  induction n generalizing i c ts with
  | zero => cases hn
  | succ n ih =>
    rw [parseback, peek_eq back_symbols h]
    cases hstart : starts [chr '&'] ts with
    | false => exact ⟨0, ts, skip s i, rfl, rfl, h.skip⟩
    | true =>
      obtain ⟨us, rfl⟩ := eq_of_starts hstart (by decide)
      obtain ⟨j, hj, hus⟩ := gettoken_cons hs h.skip
      simp only [hj, if_true]
      obtain ⟨k, rest, l, hok, heq, hlex⟩ := ih (.back c) hus (Nat.lt_of_succ_lt_succ hn)
      refine ⟨k + 1, rest, l, hok, ?_, hlex⟩
      rw [heq, List.replicate_succ, List.cons_append]

theorem parseline_outcome (hs : ∀ c ∈ s, c ≠ 0) (h : Lexed s i ts) (hn : ts.length < n) :
    Outcome s .line ts (parseline s n i) := by
  induction n generalizing i ts with
  | zero => cases hn
  | succ n ih =>
    have hlen := h.length_le
    rw [parseline]
    obtain ⟨c, j, us, rest, hok, heq, hlex, hder⟩ | ⟨p, hpanic⟩ :=
      parsepipe_outcome (n := n) (m := s.length + 1) hs (fun i ts => ih) h (by omega) (by omega)
    · have hlen' := hlex.length_le
      rw [hok]
      obtain ⟨k, rest', l, hok', heq', hlex'⟩ :=
        parseback_outcome (n := s.length + 1) hs c hlex (by omega)
      change Outcome s .line _ ((parseback s (s.length + 1) c j).bind _)
      rw [hok']
      change Outcome s .line _ (if (peek s l [chr ';']).1 = true then _ else _)
      rw [peek_eq list_symbols hlex']
      cases hstart : starts [chr ';'] rest' with
      | false =>
        refine .inl ⟨_, _, _, rest', rfl, ?_, hlex'.skip, .last k hder⟩
        rw [heq, heq', List.append_assoc]
      | true =>
        obtain ⟨vs, rfl⟩ := eq_of_starts hstart (by decide)
        obtain ⟨m, hm, hvs⟩ := gettoken_cons hs hlex'.skip
        rw [heq, heq', List.length_append, List.length_append, List.length_cons] at hn
        simp only [hm, if_true]
        obtain ⟨d, e, ws, rest, hok'', heq'', hlex'', hder'⟩ | ⟨p, hpanic⟩ := ih hvs (by omega)
        · rw [hok'']
          refine .inl ⟨_, e, _, rest, rfl, ?_, hlex'', .list k hder hder'⟩
          rw [heq, heq', heq'', List.append_assoc, List.append_assoc, List.cons_append]
        · rw [hpanic]
          exact .inr ⟨p, rfl⟩
    · rw [hpanic]
      exact .inr ⟨p, rfl⟩

/-! ### No command is missed -/

/-- What may come after a pipe. -/
def afterPipe : List Byte := [chr ')', chr '&', chr ';']

/-- What may come after a line. -/
def afterLine : List Byte := [chr ')']

/-- Wherever the command stands, the function finds it. -/
def Completes (s : List Byte) : Nonterminal → List (Token Span) → Cmd Span → Prop
  | .exec, us, c => ∀ i n rest, Lexed s i (us ++ rest) → Follows afterExec rest → us.length ≤ n →
    ∃ j, parseexec s (parseline s n) i = .ok (c, j) ∧ Lexed s j rest
  | .pipe, us, c => ∀ i n m rest, Lexed s i (us ++ rest) → Follows afterPipe rest →
    us.length ≤ n → us.length < m →
    ∃ j, parsepipe s (parseline s n) m i = .ok (c, j) ∧ Lexed s j rest
  | .line, us, c => ∀ i n rest, Lexed s i (us ++ rest) → Follows afterLine rest → us.length < n →
    ∃ j, parseline s n i = .ok (c, j) ∧ Lexed s j rest

theorem Args.starts_paren {rs : List (Redir Span)} {argv : List Span} (h : Args us argv rs) :
    starts [chr '('] us = false := by
  cases h with
  | nil => rfl
  | word w _ => rfl
  | redir op w _ => cases op <;> rfl

theorem completes_exec (hs : ∀ c ∈ s, c ≠ 0) {rs : List (Redir Span)} {argv : List Span}
    (h : Args us argv rs) (hargs : argv.length < MAXARGS) :
    Completes s .exec us ((Cmd.exec argv).redirs rs) := by
  intro i n rest hlex hrest _
  have hparen : starts [chr '('] (us ++ rest) = false :=
    starts_append h.starts_paren (hrest.starts (by decide))
  unfold parseexec
  dsimp only
  rw [peek_eq open_symbols hlex, hparen]
  obtain ⟨vs, ws, rs₁, rs₂, rfl, rfl, hred, hws, hstart⟩ := h.split
  rw [List.append_assoc] at hlex
  have hlen := hlex.length_le
  rw [List.length_append] at hlen
  obtain ⟨j, hok, hj⟩ := parseredirs_complete (n := s.length + 1) hs [] hred hlex.skip
    (starts_append hstart (hrest.starts (by decide))) (by omega)
  have hlen' := hj.length_le
  rw [List.length_append] at hlen'
  obtain ⟨k, hok', hk⟩ := parseargs_complete (n := s.length + 1) hs [] ([] ++ rs₁) hws hstart hj hrest
    (by omega) hargs
  refine ⟨k, ?_, hk⟩
  simp only [Bool.false_eq_true, if_false]
  rw [hok]
  exact hok'

theorem completes_block (hs : ∀ c ∈ s, c ≠ 0) {c : Cmd Span} {rs : List (Redir Span)}
    (h : Completes s .line ts c) (hr : Redirs us rs) :
    Completes s .exec (.sym (chr '(') :: (ts ++ .sym (chr ')') :: us)) (c.redirs rs) := by
  intro i n rest hlex hrest hn
  rw [List.cons_append, List.append_assoc, List.cons_append] at hlex
  rw [List.length_cons, List.length_append, List.length_cons] at hn
  obtain ⟨j, hj, hjs⟩ := gettoken_cons hs hlex.skip.skip
  obtain ⟨k, hok, hk⟩ := h j n _ hjs (.inr ⟨chr ')', _, rfl, List.mem_cons_self⟩) (by omega)
  obtain ⟨l, hl, hls⟩ := gettoken_cons hs hk.skip
  have hlen := hls.length_le
  rw [List.length_append] at hlen
  obtain ⟨m, hok', hm⟩ := parseredirs_complete (n := s.length + 1) hs [] hr hls
    (hrest.starts (by decide)) (by omega)
  refine ⟨m, ?_, hm⟩
  unfold parseexec
  dsimp only
  rw [peek_eq open_symbols hlex, starts_self]
  simp only [if_true]
  unfold parseblock
  dsimp only
  rw [peek_eq open_symbols hlex.skip, starts_self]
  simp only [hj, if_true]
  rw [hok]
  change (if (peek s k [chr ')']).1 = true then _ else _) = _
  rw [peek_eq close_symbols hk, starts_self]
  simp only [hl, if_true]
  rw [hok']
  rfl

theorem completes_simple {c : Cmd Span} (h : Completes s .exec us c) : Completes s .pipe us c := by
  intro i n m rest hlex hrest hn hm
  cases m with
  | zero => cases hm
  | succ m =>
    obtain ⟨j, hok, hj⟩ := h i n rest hlex (hrest.mono (by decide)) hn
    refine ⟨skip s j, ?_, hj.skip⟩
    rw [parsepipe, hok]
    change (if (peek s j [chr '|']).1 = true then _ else _) = _
    rw [peek_eq pipe_symbols hj, hrest.starts (by decide)]
    rfl

theorem completes_pipe (hs : ∀ c ∈ s, c ≠ 0) {c d : Cmd Span} (h : Completes s .exec ts c)
    (h' : Completes s .pipe us d) : Completes s .pipe (ts ++ .sym (chr '|') :: us) (.pipe c d) := by
  intro i n m rest hlex hrest hn hm
  rw [List.append_assoc, List.cons_append] at hlex
  rw [List.length_append, List.length_cons] at hn hm
  cases m with
  | zero => cases hm
  | succ m =>
    obtain ⟨j, hok, hj⟩ := h i n _ hlex (.inr ⟨chr '|', _, rfl, List.mem_cons_self⟩) (by omega)
    obtain ⟨k, hk, hks⟩ := gettoken_cons hs hj.skip
    obtain ⟨l, hok', hl⟩ := h' k n m rest hks hrest (by omega) (by omega)
    refine ⟨l, ?_, hl⟩
    rw [parsepipe, hok]
    change (if (peek s j [chr '|']).1 = true then _ else _) = _
    rw [peek_eq pipe_symbols hj, starts_self]
    simp only [hk, if_true]
    rw [hok']
    rfl

theorem parseback_complete (hs : ∀ c ∈ s, c ≠ 0) (k : Nat) (c : Cmd Span)
    (h : Lexed s i (List.replicate k (.sym (chr '&')) ++ rest))
    (hstop : starts [chr '&'] rest = false) (hn : k < n) :
    ∃ j, parseback s n c i = .ok (Cmd.back^[k] c, j) ∧ Lexed s j rest := by
  induction k generalizing i n c with
  | zero =>
    cases n with
    | zero => cases hn
    | succ n =>
      refine ⟨skip s i, ?_, h.skip⟩
      rw [parseback, peek_eq back_symbols h, List.replicate_zero, List.nil_append, hstop]
      rfl
  | succ k ih =>
    cases n with
    | zero => cases hn
    | succ n =>
      rw [List.replicate_succ, List.cons_append] at h
      obtain ⟨j, hj, hjs⟩ := gettoken_cons hs h.skip
      obtain ⟨l, hok, hl⟩ := ih (.back c) hjs (Nat.lt_of_succ_lt_succ hn)
      refine ⟨l, ?_, hl⟩
      rw [parseback, peek_eq back_symbols h, starts_self]
      simp only [hj, if_true]
      exact hok

/-- A pipe with the `&` behind it, as both kinds of lines begin. -/
theorem completes_backs (hs : ∀ c ∈ s, c ≠ 0) {c : Cmd Span} (k : Nat) (h : Completes s .pipe ts c)
    (hlex : Lexed s i (ts ++ (List.replicate k (.sym (chr '&')) ++ rest)))
    (hrest : Follows [chr ')', chr ';'] rest) (hn : ts.length ≤ n) :
    ∃ j, (parsepipe s (parseline s n) (s.length + 1) i).bind
      (fun r => parseback s (s.length + 1) r.1 r.2) = .ok (Cmd.back^[k] c, j) ∧ Lexed s j rest := by
  have hfollow : Follows afterPipe (List.replicate k (.sym (chr '&')) ++ rest) := by
    cases k with
    | zero => exact hrest.mono (by decide)
    | succ k => exact .inr ⟨chr '&', _, rfl, by decide⟩
  have hlen := hlex.length_le
  rw [List.length_append, List.length_append, List.length_replicate] at hlen
  obtain ⟨j, hok, hj⟩ := h i n (s.length + 1) _ hlex hfollow hn (by omega)
  obtain ⟨l, hok', hl⟩ := parseback_complete (n := s.length + 1) hs k c hj
    (hrest.starts (by decide)) (by omega)
  refine ⟨l, ?_, hl⟩
  rw [hok]
  exact hok'

theorem completes_last (hs : ∀ c ∈ s, c ≠ 0) {c : Cmd Span} (k : Nat) (h : Completes s .pipe ts c) :
    Completes s .line (ts ++ List.replicate k (.sym (chr '&'))) (Cmd.back^[k] c) := by
  intro i n rest hlex hrest hn
  rw [List.append_assoc] at hlex
  rw [List.length_append, List.length_replicate] at hn
  cases n with
  | zero => cases hn
  | succ n =>
    obtain ⟨j, hok, hj⟩ := completes_backs (n := n) hs k h hlex (hrest.mono (by decide)) (by omega)
    refine ⟨skip s j, ?_, hj.skip⟩
    rw [parseline, hok]
    change (if (peek s j [chr ';']).1 = true then _ else _) = _
    rw [peek_eq list_symbols hj, hrest.starts (by decide)]
    rfl

theorem completes_list (hs : ∀ c ∈ s, c ≠ 0) {c d : Cmd Span} (k : Nat)
    (h : Completes s .pipe ts c) (h' : Completes s .line us d) :
    Completes s .line (ts ++ List.replicate k (.sym (chr '&')) ++ .sym (chr ';') :: us)
      (.list (Cmd.back^[k] c) d) := by
  intro i n rest hlex hrest hn
  rw [List.append_assoc, List.append_assoc, List.cons_append] at hlex
  rw [List.length_append, List.length_append, List.length_replicate, List.length_cons] at hn
  cases n with
  | zero => cases hn
  | succ n =>
    obtain ⟨j, hok, hj⟩ := completes_backs (n := n) hs k h hlex
      (.inr ⟨chr ';', _, rfl, by decide⟩) (by omega)
    obtain ⟨l, hl, hls⟩ := gettoken_cons hs hj.skip
    obtain ⟨m, hok', hm⟩ := h' l n rest hls hrest (by omega)
    refine ⟨m, ?_, hm⟩
    rw [parseline, hok]
    change (if (peek s j [chr ';']).1 = true then _ else _) = _
    rw [peek_eq list_symbols hj, starts_self]
    simp only [hl, if_true]
    rw [hok']
    rfl

theorem Derives.completes (hs : ∀ c ∈ s, c ≠ 0) {nt : Nonterminal} {c : Cmd Span}
    (h : Derives nt ts c) : Completes s nt ts c := by
  induction h with
  | exec h hargs => exact completes_exec hs h hargs
  | block _ hr ih => exact completes_block hs ih hr
  | simple _ ih => exact completes_simple ih
  | pipe _ _ ih ih' => exact completes_pipe hs ih ih'
  | last k _ ih => exact completes_last hs k ih
  | list k _ _ ih ih' => exact completes_list hs k ih ih'

/-! ### The whole line -/

theorem lexed_nil_iff (hs : ∀ c ∈ s, c ≠ 0) (h : Lexed s i ts) : skip s i = s.length ↔ ts = [] := by
  constructor
  · intro hend
    cases h with
    | nil _ => rfl
    | cons h _ => exact absurd hend (Nat.ne_of_lt (lt_of_charAt (h.ne_zero hs)))
  · rintro rfl
    cases h with
    | nil h => exact h

/-- The parser accepts the commands of the grammar, and panics at everything else. -/
theorem parsecmd_iff (hs : ∀ c ∈ s, c ≠ 0) (h : Lexed s 0 ts) :
    (∀ c buf, parsecmd s = .ok (c, buf) ↔
      Derives .line ts c ∧ buf = nulterminate c (s ++ [0])) ∧
    ∀ stop, parsecmd s = .error stop → ∃ p, stop = .panic p := by
  have hlen := h.length_le
  have houtcome := parseline_outcome (n := s.length + 1) hs h (by omega)
  constructor
  · intro c buf
    constructor
    · intro hok
      obtain ⟨d, j, us, rest, hline, heq, hlex, hder⟩ | ⟨p, hpanic⟩ := houtcome
      · unfold parsecmd at hok
        rw [hline] at hok
        change (if (peek s j []).2 ≠ s.length then _ else _) = _ at hok
        rw [peek_eq (fun c hc => absurd hc List.not_mem_nil) hlex] at hok
        by_cases hend : skip s j = s.length
        · rw [if_neg (fun hno => hno hend)] at hok
          cases hok
          rw [(lexed_nil_iff hs hlex).mp hend, List.append_nil] at heq
          rw [heq]
          exact ⟨hder, rfl⟩
        · rw [if_pos hend] at hok
          cases hok
      · unfold parsecmd at hok
        rw [hpanic] at hok
        cases hok
    · rintro ⟨hder, rfl⟩
      have hlex : Lexed s 0 (ts ++ []) := by
        rw [List.append_nil]
        exact h
      obtain ⟨j, hline, hj⟩ := hder.completes hs 0 (s.length + 1) [] hlex (.inl rfl) (by omega)
      unfold parsecmd
      rw [hline]
      change (if (peek s j []).2 ≠ s.length then _ else _) = _
      rw [peek_eq (fun c hc => absurd hc List.not_mem_nil) hj,
        if_neg (fun hno => hno ((lexed_nil_iff hs hj).mpr rfl))]
  · intro stop hstop
    obtain ⟨d, j, us, rest, hline, heq, hlex, hder⟩ | ⟨p, hpanic⟩ := houtcome
    · unfold parsecmd at hstop
      rw [hline] at hstop
      change (if (peek s j []).2 ≠ s.length then _ else _) = _ at hstop
      split_ifs at hstop
      cases hstop
      exact ⟨.leftovers, rfl⟩
    · unfold parsecmd at hstop
      rw [hpanic] at hstop
      cases hstop
      exact ⟨p, rfl⟩

end Xv6.Shell
