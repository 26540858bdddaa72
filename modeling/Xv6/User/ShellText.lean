import Xv6.User.ShellParse

/-!
# The text of a command line

The tokens of a text are those that its characters say, and the strings that `nulterminate` leaves
in the line are the words. So the parser reads a command back from any text of it.
-/

namespace Xv6.Shell
open Grep (chr)

variable {s : List Byte} {i j m q e : Nat}

/-- The characters from `i` up to `j`. -/
def slice (s : List Byte) (i j : Nat) : List Byte := (s.drop i).take (j - i)

theorem slice_append_drop (h : i ≤ j) : slice s i j ++ s.drop j = s.drop i := by
  have heq : s.drop j = (s.drop i).drop (j - i) := by
    rw [List.drop_drop, Nat.add_sub_cancel' h]
  rw [heq]
  exact List.take_append_drop ..

theorem mem_slice {c : Byte} (h : c ∈ slice s i j) : ∃ m, i ≤ m ∧ m < j ∧ c = charAt s m := by
  obtain ⟨k, hk, rfl⟩ := List.getElem_of_mem h
  unfold slice at hk
  rw [List.length_take, List.length_drop] at hk
  refine ⟨i + k, Nat.le_add_right .., by omega, ?_⟩
  unfold slice charAt
  rw [List.getElem_take, List.getElem_drop, List.getD_eq_getElem]

theorem slice_one (h : q < s.length) : slice s q (q + 1) = [charAt s q] := by
  unfold slice charAt
  rw [Nat.add_sub_cancel_left, List.drop_eq_getElem_cons h, List.getD_eq_getElem s 0 h]
  rfl

theorem slice_two (h : q + 1 < s.length) : slice s q (q + 2) = [charAt s q, charAt s (q + 1)] := by
  unfold slice charAt
  rw [Nat.add_sub_cancel_left, List.drop_eq_getElem_cons (by omega), List.drop_eq_getElem_cons h,
    List.getD_eq_getElem s 0 (by omega), List.getD_eq_getElem s 0 h]
  rfl

theorem head_drop {c : Byte} (h : c ∈ (s.drop e).head?) : e < s.length ∧ c = charAt s e := by
  rw [List.head?_drop, Option.mem_def] at h
  obtain ⟨hlt, hc⟩ := List.getElem?_eq_some_iff.mp h
  refine ⟨hlt, ?_⟩
  unfold charAt
  rw [List.getD_eq_getElem s 0 hlt, hc]

/-- The string of a pair of pointers. -/
def Span.text (s : List Byte) (w : Span) : List Byte := slice s w.q w.eq

/-- What the line holds between two pointers is the text of the token. -/
theorem TokenAt.text_eq {t : Token Span} (h : TokenAt s q t j) :
    slice s q j = (t.map (Span.text s)).text := by
  cases h with
  | sym h _ => exact slice_one (lt_of_charAt (ne_zero_of_symbol h))
  | append h h' =>
    have hlt : q + 1 < s.length := lt_of_charAt (by rw [h']; decide)
    rw [slice_two hlt, h, h']
    rfl
  | word _ _ => rfl

theorem TokenAt.valid {t : Token Span} (h : TokenAt s q t j) : (t.map (Span.text s)).Valid := by
  have hbounds := h.bounds
  cases h with
  | sym h _ => exact h
  | append _ _ => exact trivial
  | word hlt h =>
    constructor
    · intro hno
      have hlen := congrArg List.length hno
      unfold Span.text slice at hlen
      rw [List.length_take, List.length_drop, List.length_nil] at hlen
      dsimp only at hlen
      omega
    · intro c hc
      obtain ⟨m, hm, hm', rfl⟩ := mem_slice hc
      exact of_decide_eq_true ((run_wordEnd s q).all m hm hm')

theorem TokenAt.endsAt {t : Token Span} (h : TokenAt s q t j) :
    (t.map (Span.text s)).EndsAt (s.drop j) := by
  cases h with
  | sym h hno =>
    intro hc hhead
    exact hno ⟨hc, (head_drop hhead).2.symm⟩
  | append _ _ => exact trivial
  | word hlt h =>
    intro c hc
    obtain ⟨hlt', rfl⟩ := head_drop hc
    exact of_decide_eq_false ((run_wordEnd s q).stop hlt')

theorem Lexed.layout {ts : List (Token Span)} (h : Lexed s i ts) :
    Layout (ts.map (Token.map (Span.text s))) (s.drop i) := by
  induction h with
  | @nil i h =>
    refine .nil ?_
    intro c hc
    have hrun := run_skip s i
    rw [← slice_append_drop hrun.le, h, List.drop_length, List.append_nil] at hc
    obtain ⟨m, hm, hm', rfl⟩ := mem_slice hc
    exact of_decide_eq_true (hrun.all m hm (by rw [h]; exact hm'))
  | @cons i j t ts h _ ih =>
    have hrun := run_skip s i
    rw [← slice_append_drop hrun.le, ← slice_append_drop (Nat.le_of_lt h.bounds.1), h.text_eq,
      ← List.append_assoc]
    refine .cons ?_ h.valid h.endsAt ih
    intro c hc
    obtain ⟨m, hm, hm', rfl⟩ := mem_slice hc
    exact of_decide_eq_true (hrun.all m hm hm')

/-! ### A text has one sequence of tokens -/

/-- A token does not begin with whitespace. -/
theorem Token.exists_head {t : Token (List Byte)} (h : t.Valid) :
    ∃ c cs, t.text = c :: cs ∧ c ∉ whitespace := by
  cases t with
  | sym c =>
    have hall : ∀ c ∈ symbols, c ∉ whitespace := by decide
    exact ⟨c, [], rfl, hall c h⟩
  | append => exact ⟨chr '>', [chr '>'], rfl, by decide⟩
  | word w =>
    obtain ⟨hne, hall⟩ := h
    cases w with
    | nil => exact absurd rfl hne
    | cons c w => exact ⟨c, w, rfl, (hall c List.mem_cons_self).1⟩

/-- Characters with `p` in front of one without it. -/
theorem append_inj_of_stop {p : Byte → Prop} {xs ys us vs : List Byte} (hxs : ∀ c ∈ xs, p c)
    (hys : ∀ c ∈ ys, p c) (hus : ∀ c ∈ us.head?, ¬ p c) (hvs : ∀ c ∈ vs.head?, ¬ p c)
    (h : xs ++ us = ys ++ vs) : xs = ys ∧ us = vs := by
  induction xs generalizing ys with
  | nil =>
    cases ys with
    | nil => exact ⟨rfl, h⟩
    | cons y ys =>
      rw [List.nil_append, List.cons_append] at h
      rw [h] at hus
      exact absurd (hys y List.mem_cons_self) (hus y rfl)
  | cons x xs ih =>
    cases ys with
    | nil =>
      rw [List.nil_append, List.cons_append] at h
      rw [← h] at hvs
      exact absurd (hxs x List.mem_cons_self) (hvs x rfl)
    | cons y ys =>
      obtain ⟨hxy, hrest⟩ := List.cons.inj h
      obtain ⟨heq, hus'⟩ := ih (fun c hc => hxs c (List.mem_cons_of_mem x hc))
        (fun c hc => hys c (List.mem_cons_of_mem y hc)) hrest
      rw [hxy, heq]
      exact ⟨rfl, hus'⟩

theorem Token.not_ordinary {w : List Byte} {c : Byte} (h : (Token.word w).Valid)
    (hc : w.head? = some c) : c ∉ symbols := by
  cases w with
  | nil => cases hc
  | cons d w =>
    cases hc
    exact (h.2 c List.mem_cons_self).2

theorem Token.text_inj {t t' : Token (List Byte)} {x x' : List Byte} (ht : t.Valid) (ht' : t'.Valid)
    (hend : t.EndsAt x) (hend' : t'.EndsAt x') (h : t.text ++ x = t'.text ++ x') :
    t = t' ∧ x = x' := by
  have hword : ∀ {w c y z}, (Token.word w).Valid → c ∈ symbols → w ++ y ≠ c :: z := by
    intro w c y z hw hc heq
    refine Token.not_ordinary hw ?_ hc
    cases w with
    | nil => exact absurd rfl hw.1
    | cons d w => exact congrArg some (List.cons.inj heq).1
  have hop : chr '>' ∈ symbols := by decide
  cases t with
  | sym c =>
    cases t' with
    | sym d =>
      obtain ⟨hc, hx⟩ := List.cons.inj h
      exact ⟨congrArg Token.sym hc, hx⟩
    | append =>
      obtain ⟨hc, hx⟩ := List.cons.inj h
      have hx' : x = chr '>' :: x' := hx
      rw [hx'] at hend
      exact absurd rfl (hend hc)
    | word w => exact absurd h.symm (hword ht' ht)
  | append =>
    cases t' with
    | sym d =>
      obtain ⟨hc, hx⟩ := List.cons.inj h
      have hx' : x' = chr '>' :: x := hx.symm
      rw [hx'] at hend'
      exact absurd rfl (hend' hc.symm)
    | append => exact ⟨rfl, (List.cons.inj (List.cons.inj h).2).2⟩
    | word w => exact absurd h.symm (hword ht' hop)
  | word w =>
    cases t' with
    | sym d => exact absurd h (hword ht ht')
    | append => exact absurd h (hword ht hop)
    | word w' =>
      obtain ⟨hw, hx⟩ := append_inj_of_stop (p := Ordinary) ht.2 ht'.2 hend hend' h
      exact ⟨congrArg Token.word hw, hx⟩

theorem Layout.unique {ts ts' : List (Token (List Byte))} {x : List Byte} (h : Layout ts x)
    (h' : Layout ts' x) : ts = ts' := by
  induction h generalizing ts' with
  | nil hws =>
    cases h' with
    | nil _ => rfl
    | cons _ ht _ _ =>
      obtain ⟨c, cs, heq, hc⟩ := Token.exists_head ht
      rw [heq] at hws
      exact absurd (hws c (by simp)) hc
  | @cons ws rest t ts hws ht hend _ ih =>
    obtain ⟨c, cs, heq, hc⟩ := Token.exists_head ht
    generalize hx : ws ++ t.text ++ rest = x at h'
    cases h' with
    | nil hws' =>
      rw [← hx, heq] at hws'
      exact absurd (hws' c (by simp)) hc
    | @cons ws' rest' t' ts' hws' ht' hend' h' =>
      obtain ⟨c', cs', heq', hc'⟩ := Token.exists_head ht'
      rw [List.append_assoc, List.append_assoc] at hx
      have hhead : ∀ d ∈ (t.text ++ rest).head?, d ∉ whitespace := by
        rw [heq]
        intro d hd
        cases hd
        exact hc
      have hhead' : ∀ d ∈ (t'.text ++ rest').head?, d ∉ whitespace := by
        rw [heq']
        intro d hd
        cases hd
        exact hc'
      have htext := (append_inj_of_stop (p := fun d => d ∈ whitespace) hws hws' hhead hhead' hx).2
      obtain ⟨rfl, rfl⟩ := Token.text_inj ht ht' hend hend' htext
      rw [ih h']

/-! ### The strings that `nulterminate` ends -/

/-- The strings of a command. -/
def Cmd.words {W : Type} : Cmd W → List W
  | .exec argv => argv
  | .redir cmd file _ _ => cmd.words ++ [file]
  | .pipe left right => left.words ++ right.words
  | .list left right => left.words ++ right.words
  | .back cmd => cmd.words

/-- NULs in these places. -/
def ends (ws : List Span) (buf : List Byte) : List Byte := ws.foldl (fun buf w => buf.set w.eq 0) buf

theorem ends_append (ws vs : List Span) (buf : List Byte) :
    ends (ws ++ vs) buf = ends vs (ends ws buf) := List.foldl_append

theorem nulterminate_eq (c : Cmd Span) (buf : List Byte) : nulterminate c buf = ends c.words buf := by
  induction c generalizing buf with
  | exec argv => rfl
  | redir cmd file mode fd ih =>
    unfold nulterminate Cmd.words
    rw [ends_append, ih]
    rfl
  | pipe left right ih ih' =>
    unfold nulterminate Cmd.words
    rw [ends_append, ih, ih']
  | list left right ih ih' =>
    unfold nulterminate Cmd.words
    rw [ends_append, ih, ih']
  | back cmd ih => exact ih buf

theorem length_ends (ws : List Span) (buf : List Byte) : (ends ws buf).length = buf.length := by
  induction ws generalizing buf with
  | nil => rfl
  | cons w ws ih => exact (ih _).trans List.length_set

theorem charAt_set {buf : List Byte} : charAt (buf.set e 0) m = if e = m then 0 else charAt buf m := by
  unfold charAt
  rw [List.getD_eq_getElem?_getD, List.getD_eq_getElem?_getD, List.getElem?_set]
  split_ifs <;> rfl

theorem charAt_ends {ws : List Span} {buf : List Byte} (h : ∀ w ∈ ws, w.eq ≠ m) :
    charAt (ends ws buf) m = charAt buf m := by
  induction ws generalizing buf with
  | nil => rfl
  | cons w ws ih =>
    have hset : charAt (buf.set w.eq 0) m = charAt buf m := by
      rw [charAt_set, if_neg (h w List.mem_cons_self)]
    exact (ih fun v hv => h v (List.mem_cons_of_mem w hv)).trans hset

theorem charAt_ends_of_zero {ws : List Span} {buf : List Byte} (h : charAt buf m = 0) :
    charAt (ends ws buf) m = 0 := by
  induction ws generalizing buf with
  | nil => exact h
  | cons w ws ih =>
    have hset : charAt (buf.set w.eq 0) m = 0 := by
      rw [charAt_set, h, ite_self]
    exact ih hset

theorem charAt_ends_eq {ws : List Span} {buf : List Byte} {w : Span} (h : w ∈ ws) :
    charAt (ends ws buf) w.eq = 0 := by
  induction ws generalizing buf with
  | nil => cases h
  | cons v ws ih =>
    cases h with
    | head =>
      have hset : charAt (buf.set w.eq 0) w.eq = 0 := charAt_set.trans (if_pos rfl)
      have hends : charAt (ends ws (buf.set w.eq 0)) w.eq = 0 := charAt_ends_of_zero hset
      exact hends
    | tail _ h => exact ih h

/-- The pointers of a word of the line. -/
structure Word (s : List Byte) (w : Span) : Prop where
  lt : w.q < w.eq
  le : w.eq ≤ s.length
  all : ∀ m, w.q ≤ m → m < w.eq → Ordinary (charAt s m)
  stop : w.eq < s.length → ¬ Ordinary (charAt s w.eq)

theorem Lexed.word {ts : List (Token Span)} {w : Span} (h : Lexed s i ts) (hw : .word w ∈ ts) :
    Word s w := by
  induction h with
  | nil _ => cases hw
  | @cons i j t ts h _ ih =>
    cases hw with
    | head =>
      have hbounds := h.bounds
      cases h with
      | word hlt h =>
        have hrun := run_wordEnd s (Shell.skip s i)
        exact ⟨hbounds.1, hbounds.2, fun m hm hm' => of_decide_eq_true (hrun.all m hm hm'),
          fun hlt' => of_decide_eq_false (hrun.stop hlt')⟩
    | tail _ hw => exact ih hw

theorem Cmd.words_redirs {W : Type} {w : W} (c : Cmd W) (rs : List (Redir W)) :
    w ∈ (c.redirs rs).words ↔ w ∈ c.words ∨ ∃ r ∈ rs, r.file = w := by
  induction rs generalizing c with
  | nil => simp [Cmd.redirs]
  | cons r rs ih =>
    have hcons : c.redirs (r :: rs) = (Cmd.redir c r.file r.mode r.fd).redirs rs := rfl
    rw [hcons, ih, Cmd.words, List.mem_append, List.mem_singleton, List.exists_mem_cons_iff,
      or_assoc, eq_comm]

theorem Cmd.words_back {W : Type} (k : Nat) (c : Cmd W) : (Cmd.back^[k] c).words = c.words := by
  induction k generalizing c with
  | zero => rfl
  | succ k ih => exact ih (.back c)

theorem Redirs.file_mem {W : Type} {ts : List (Token W)} {rs : List (Redir W)} (h : Redirs ts rs) :
    ∀ r ∈ rs, .word r.file ∈ ts := by
  induction h with
  | nil =>
    intro r hr
    cases hr
  | cons op w _ ih =>
    intro r hr
    cases hr with
    | head => cases op <;> simp [Op.redir]
    | tail _ hr => exact List.mem_cons_of_mem _ (List.mem_cons_of_mem _ (ih r hr))

theorem Args.mem {W : Type} {ts : List (Token W)} {argv : List W} {rs : List (Redir W)}
    (h : Args ts argv rs) : (∀ w ∈ argv, .word w ∈ ts) ∧ ∀ r ∈ rs, .word r.file ∈ ts := by
  induction h with
  | nil =>
    constructor
    · intro w hw
      cases hw
    · intro r hr
      cases hr
  | word w _ ih =>
    constructor
    · intro v hv
      cases hv with
      | head => exact List.mem_cons_self
      | tail _ hv => exact List.mem_cons_of_mem _ (ih.1 v hv)
    · intro r hr
      exact List.mem_cons_of_mem _ (ih.2 r hr)
  | redir op w _ ih =>
    constructor
    · intro v hv
      exact List.mem_cons_of_mem _ (List.mem_cons_of_mem _ (ih.1 v hv))
    · intro r hr
      cases hr with
      | head => cases op <;> simp [Op.redir]
      | tail _ hr => exact List.mem_cons_of_mem _ (List.mem_cons_of_mem _ (ih.2 r hr))

/-- The strings of a command are words of its tokens. -/
theorem Derives.word_mem {W : Type} {nt : Nonterminal} {ts : List (Token W)} {c : Cmd W}
    (h : Derives nt ts c) : ∀ w ∈ c.words, .word w ∈ ts := by
  induction h with
  | exec h _ =>
    intro w hw
    obtain hw | ⟨r, hr, rfl⟩ := (Cmd.words_redirs _ _).mp hw
    · exact h.mem.1 w hw
    · exact h.mem.2 r hr
  | block _ hr ih =>
    intro w hw
    obtain hw | ⟨r, hr', rfl⟩ := (Cmd.words_redirs _ _).mp hw
    · simp [ih w hw]
    · simp [hr.file_mem r hr']
  | simple _ ih => exact ih
  | pipe _ _ ih ih' =>
    intro w hw
    obtain hw | hw := List.mem_append.mp hw
    · simp [ih w hw]
    · simp [ih' w hw]
  | last k _ ih =>
    intro w hw
    rw [Cmd.words_back] at hw
    exact List.mem_append_left _ (ih w hw)
  | list k _ _ ih ih' =>
    intro w hw
    obtain hw | hw := List.mem_append.mp hw
    · rw [Cmd.words_back] at hw
      simp [ih w hw]
    · simp [ih' w hw]

/-- What a program finds at a pointer. -/
def strings (buf : List Byte) (c : Cmd Span) : Cmd (List Byte) :=
  c.map fun w => User.cstr (buf.drop w.q)

theorem Cmd.map_congr {W V : Type} {f g : W → V} {c : Cmd W} (h : ∀ w ∈ c.words, f w = g w) :
    c.map f = c.map g := by
  induction c with
  | exec argv => exact congrArg Cmd.exec (List.map_congr_left h)
  | redir cmd file mode fd ih =>
    have hcmd := ih fun w hw => h w (List.mem_append_left _ hw)
    have hfile := h file (List.mem_append_right _ List.mem_cons_self)
    unfold Cmd.map
    rw [hcmd, hfile]
  | pipe left right ih ih' =>
    have hleft := ih fun w hw => h w (List.mem_append_left _ hw)
    have hright := ih' fun w hw => h w (List.mem_append_right _ hw)
    unfold Cmd.map
    rw [hleft, hright]
  | list left right ih ih' =>
    have hleft := ih fun w hw => h w (List.mem_append_left _ hw)
    have hright := ih' fun w hw => h w (List.mem_append_right _ hw)
    unfold Cmd.map
    rw [hleft, hright]
  | back cmd ih => exact congrArg Cmd.back (ih h)

/-- A string without NUL ends at the first one. -/
theorem cstr_append {x y : List Byte} (h : ∀ c ∈ x, c ≠ 0) : User.cstr (x ++ 0 :: y) = x := by
  induction x with
  | nil => rfl
  | cons c x ih =>
    rw [List.cons_append, User.cstr_cons (h c List.mem_cons_self),
      ih fun d hd => h d (List.mem_cons_of_mem c hd)]

theorem slice_congr {s' : List Byte} (hlen : j ≤ s.length) (hlen' : j ≤ s'.length)
    (h : ∀ m, i ≤ m → m < j → charAt s' m = charAt s m) : slice s' i j = slice s i j := by
  unfold slice
  refine List.ext_getElem ?_ ?_
  · rw [List.length_take, List.length_take, List.length_drop, List.length_drop]
    omega
  · intro k hk hk'
    rw [List.length_take, List.length_drop] at hk hk'
    have hchar := h (i + k) (Nat.le_add_right ..) (by omega)
    unfold charAt at hchar
    rw [List.getD_eq_getElem _ _ (by omega), List.getD_eq_getElem _ _ (by omega)] at hchar
    rw [List.getElem_take, List.getElem_take, List.getElem_drop, List.getElem_drop]
    exact hchar

/-- `nulterminate` makes every string of the command its word. -/
theorem strings_nulterminate (hs : ∀ c ∈ s, c ≠ 0) {c : Cmd Span} (h : ∀ w ∈ c.words, Word s w) :
    strings (nulterminate c (s ++ [0])) c = c.map (Span.text s) := by
  refine Cmd.map_congr fun w hw => ?_
  obtain ⟨hlt, hle, hall, -⟩ := h w hw
  rw [nulterminate_eq]
  have hlen : (ends c.words (s ++ [0])).length = s.length + 1 := by
    rw [length_ends, List.length_append, List.length_singleton]
  -- No string ends inside a word.
  have hsame : ∀ m, w.q ≤ m → m < w.eq → charAt (ends c.words (s ++ [0])) m = charAt s m := by
    intro m hm hm'
    rw [charAt_ends]
    · unfold charAt
      rw [List.getD_append _ _ _ _ (by omega)]
    · intro v hv heq
      obtain ⟨-, -, -, hstop⟩ := h v hv
      rw [heq] at hstop
      exact hstop (by omega) (hall m hm hm')
  have hslice : slice (ends c.words (s ++ [0])) w.q w.eq = Span.text s w :=
    slice_congr hle (by omega) hsame
  have hdrop : (ends c.words (s ++ [0])).drop w.eq =
      0 :: (ends c.words (s ++ [0])).drop (w.eq + 1) := by
    have hzero : charAt (ends c.words (s ++ [0])) w.eq = 0 := charAt_ends_eq hw
    unfold charAt at hzero
    rw [List.getD_eq_getElem _ _ (by omega)] at hzero
    rw [List.drop_eq_getElem_cons (by omega), hzero]
  rw [← slice_append_drop (Nat.le_of_lt hlt), hslice, hdrop]
  refine cstr_append ?_
  intro d hd
  obtain ⟨m, hm, hm', rfl⟩ := mem_slice hd
  exact charAt_ne_zero hs (by omega)

end Xv6.Shell
