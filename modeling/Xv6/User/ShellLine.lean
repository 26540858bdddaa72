import Xv6.User.ShellText

/-!
# What the shell makes of a line

For every line, the parser and the grammar say the same, and every command has a line.
-/

namespace Xv6.Shell
open Grep (chr)

variable {W V : Type} {f : W → V} {ts : List (Token W)}

/-! ### From words back to pointers -/

theorem Token.eq_sym_of_map {t : Token W} {c : Byte} (h : t.map f = .sym c) : t = .sym c := by
  cases t with
  | sym d =>
    cases h
    rfl
  | append => cases h
  | word w => cases h

theorem Token.eq_word_of_map {t : Token W} {v : V} (h : t.map f = .word v) :
    ∃ w, t = .word w ∧ f w = v := by
  cases t with
  | sym d => cases h
  | append => cases h
  | word w =>
    cases h
    exact ⟨w, rfl, rfl⟩

theorem Token.eq_op_of_map {t : Token W} {op : Op} (h : t.map f = op.token) : t = op.token := by
  cases op with
  | input => exact Token.eq_sym_of_map h
  | output => exact Token.eq_sym_of_map h
  | append =>
    cases t with
    | sym d => cases h
    | append => rfl
    | word w => cases h

theorem exists_op_of_map {op : Op} {v : V} {us : List (Token V)}
    (h : ts.map (Token.map f) = op.token :: .word v :: us) :
    ∃ w ts', ts = op.token :: .word w :: ts' ∧ f w = v ∧ ts'.map (Token.map f) = us := by
  obtain ⟨t, ts₁, rfl, ht, hrest⟩ := List.map_eq_cons_iff.mp h
  obtain ⟨t', ts₂, rfl, ht', hus⟩ := List.map_eq_cons_iff.mp hrest
  obtain ⟨w, rfl, hw⟩ := Token.eq_word_of_map ht'
  rw [Token.eq_op_of_map ht]
  exact ⟨w, ts₂, rfl, hw, hus⟩

theorem Redirs.of_map {us : List (Token V)} {rs' : List (Redir V)} (h : Redirs us rs')
    (hts : ts.map (Token.map f) = us) : ∃ rs, Redirs ts rs ∧ rs.map (Redir.map f) = rs' := by
  induction h generalizing ts with
  | nil =>
    rw [List.map_eq_nil_iff.mp hts]
    exact ⟨[], .nil, rfl⟩
  | cons op v _ ih =>
    obtain ⟨w, ts', rfl, rfl, hrest⟩ := exists_op_of_map hts
    obtain ⟨rs, hrs, rfl⟩ := ih hrest
    refine ⟨op.redir w :: rs, .cons op w hrs, ?_⟩
    rw [List.map_cons, Op.map_redir]

theorem Args.of_map {us : List (Token V)} {argv' : List V} {rs' : List (Redir V)}
    (h : Args us argv' rs') (hts : ts.map (Token.map f) = us) :
    ∃ argv rs, Args ts argv rs ∧ argv.map f = argv' ∧ rs.map (Redir.map f) = rs' := by
  induction h generalizing ts with
  | nil =>
    rw [List.map_eq_nil_iff.mp hts]
    exact ⟨[], [], .nil, rfl, rfl⟩
  | word v _ ih =>
    obtain ⟨t, ts', rfl, ht, hrest⟩ := List.map_eq_cons_iff.mp hts
    obtain ⟨w, rfl, rfl⟩ := Token.eq_word_of_map ht
    obtain ⟨argv, rs, hargs, rfl, rfl⟩ := ih hrest
    exact ⟨w :: argv, rs, .word w hargs, rfl, rfl⟩
  | redir op v _ ih =>
    obtain ⟨w, ts', rfl, rfl, hrest⟩ := exists_op_of_map hts
    obtain ⟨argv, rs, hargs, rfl, rfl⟩ := ih hrest
    refine ⟨argv, op.redir w :: rs, .redir op w hargs, rfl, ?_⟩
    rw [List.map_cons, Op.map_redir]

theorem eq_replicate_of_map {k : Nat} {c : Byte}
    (h : ts.map (Token.map f) = List.replicate k (.sym c)) : ts = List.replicate k (.sym c) := by
  obtain ⟨hlen, hall⟩ := List.eq_replicate_iff.mp h
  rw [List.length_map] at hlen
  refine List.eq_replicate_iff.mpr ⟨hlen, ?_⟩
  intro t ht
  exact Token.eq_sym_of_map (hall _ (List.mem_map_of_mem ht))

/-- A derivation with words is one with pointers. -/
theorem Derives.of_map {nt : Nonterminal} {us : List (Token V)} {d : Cmd V} (h : Derives nt us d)
    (hts : ts.map (Token.map f) = us) : ∃ c, Derives nt ts c ∧ c.map f = d := by
  induction h generalizing ts with
  | exec h hargs =>
    obtain ⟨argv, rs, hargs', rfl, rfl⟩ := h.of_map hts
    rw [List.length_map] at hargs
    exact ⟨_, .exec hargs' hargs, Cmd.map_redirs _ _⟩
  | block _ hrs ih =>
    obtain ⟨t, ts₁, rfl, ht, hts₁⟩ := List.map_eq_cons_iff.mp hts
    obtain ⟨ts₂, ts₃, rfl, hts₂, hts₃⟩ := List.map_eq_append_iff.mp hts₁
    obtain ⟨t', ts₄, rfl, ht', hts₄⟩ := List.map_eq_cons_iff.mp hts₃
    obtain ⟨c, hc, rfl⟩ := ih hts₂
    obtain ⟨rs, hrs', rfl⟩ := hrs.of_map hts₄
    rw [Token.eq_sym_of_map ht, Token.eq_sym_of_map ht']
    exact ⟨_, .block hc hrs', Cmd.map_redirs _ _⟩
  | simple _ ih =>
    obtain ⟨c, hc, rfl⟩ := ih hts
    exact ⟨c, .simple hc, rfl⟩
  | pipe _ _ ih ih' =>
    obtain ⟨ts₁, ts₂, rfl, hts₁, hts₂⟩ := List.map_eq_append_iff.mp hts
    obtain ⟨t, ts₃, rfl, ht, hts₃⟩ := List.map_eq_cons_iff.mp hts₂
    obtain ⟨c, hc, rfl⟩ := ih hts₁
    obtain ⟨d, hd, rfl⟩ := ih' hts₃
    rw [Token.eq_sym_of_map ht]
    exact ⟨_, .pipe hc hd, rfl⟩
  | last k _ ih =>
    obtain ⟨ts₁, ts₂, rfl, hts₁, hts₂⟩ := List.map_eq_append_iff.mp hts
    obtain ⟨c, hc, rfl⟩ := ih hts₁
    rw [eq_replicate_of_map hts₂]
    exact ⟨_, .last k hc, Cmd.map_back k c⟩
  | list k _ _ ih ih' =>
    obtain ⟨ts₁, ts₂, rfl, hts₁, hts₂⟩ := List.map_eq_append_iff.mp hts
    obtain ⟨ts₃, ts₄, rfl, hts₃, hts₄⟩ := List.map_eq_append_iff.mp hts₁
    obtain ⟨t, ts₅, rfl, ht, hts₅⟩ := List.map_eq_cons_iff.mp hts₂
    obtain ⟨c, hc, rfl⟩ := ih hts₃
    obtain ⟨d, hd, rfl⟩ := ih' hts₅
    rw [eq_replicate_of_map hts₄, Token.eq_sym_of_map ht]
    refine ⟨_, .list k hc hd, ?_⟩
    rw [← Cmd.map_back]
    rfl

/-! ### Every line -/

variable {s : List Byte}

/-- The text is cut into tokens in one way, and it is accepted if and only if the tokens are a
command; the strings of this are what a program finds in the line. Else the parser panics. -/
theorem parsecmd_spec (hs : ∀ c ∈ s, c ≠ 0) :
    ∃ ts, Layout ts s ∧ (∀ ts', Layout ts' s → ts' = ts) ∧
      (∀ c, (∃ cmd buf, parsecmd s = .ok (cmd, buf) ∧ strings buf cmd = c) ↔ Derives .line ts c) ∧
      ∀ stop, parsecmd s = .error stop → ∃ p, stop = .panic p := by
  obtain ⟨ts, hlex⟩ := exists_lexed s (Nat.zero_le _)
  have hlayout := hlex.layout
  rw [List.drop_zero] at hlayout
  obtain ⟨hok, herror⟩ := parsecmd_iff hs hlex
  have hstrings : ∀ {c}, Derives .line ts c →
      strings (nulterminate c (s ++ [0])) c = c.map (Span.text s) :=
    fun hc => strings_nulterminate hs fun w hw => hlex.word (hc.word_mem w hw)
  refine ⟨_, hlayout, fun ts' h => h.unique hlayout, ?_, herror⟩
  intro c
  constructor
  · rintro ⟨cmd, buf, hparse, rfl⟩
    obtain ⟨hder, rfl⟩ := (hok cmd buf).mp hparse
    rw [hstrings hder]
    exact hder.map
  · intro hder
    obtain ⟨cmd, hcmd, rfl⟩ := hder.of_map rfl
    exact ⟨cmd, _, (hok cmd _).mpr ⟨hcmd, rfl⟩, hstrings hcmd⟩

/-- The line `(ls >a;b)|c &`. -/
def someLine : List Byte :=
  User.ascii ['(', 'l', 's', ' ', '>', 'a', ';', 'b', ')', '|', 'c', ' ', '&', '\n']

theorem parsecmd_spec_someLine : ∃ ts, Layout ts someLine ∧ (∀ ts', Layout ts' someLine → ts' = ts) ∧
    (∀ c, (∃ cmd buf, parsecmd someLine = .ok (cmd, buf) ∧ strings buf cmd = c) ↔
      Derives .line ts c) ∧
    ∀ stop, parsecmd someLine = .error stop → ∃ p, stop = .panic p :=
  parsecmd_spec (by decide)

example : (parsecmd someLine).map (fun r => strings r.2 r.1) = .ok (.back (.pipe
    (.list (.redir (.exec [User.ascii ['l', 's']]) (User.ascii ['a']) 513 1)
      (.exec [User.ascii ['b']])) (.exec [User.ascii ['c']]))) := by
  decide +kernel

/-! ### Every command has a line -/

/-- A command that can be written: its words are words, and it opens files for what `<` and `>`
stand for. -/
def Cmd.Writable : Cmd (List Byte) → Prop
  | .exec argv => argv.length < MAXARGS ∧ ∀ w ∈ argv, (Token.word w).Valid ∧ ∀ c ∈ w, c ≠ 0
  | .redir cmd file mode fd => cmd.Writable ∧ ((Token.word file).Valid ∧ ∀ c ∈ file, c ≠ 0) ∧
    (mode = O_RDONLY ∧ fd = 0 ∨ mode = O_WRONLY ||| O_CREATE ∧ fd = 1)
  | .pipe left right => left.Writable ∧ right.Writable
  | .list left right => left.Writable ∧ right.Writable
  | .back cmd => cmd.Writable

instance decidableWritable : (c : Cmd (List Byte)) → Decidable c.Writable
  | .exec _ => inferInstanceAs (Decidable (_ ∧ _))
  | .redir cmd _ _ _ =>
    have := decidableWritable cmd
    inferInstanceAs (Decidable (_ ∧ _ ∧ _))
  | .pipe left right =>
    have := decidableWritable left
    have := decidableWritable right
    inferInstanceAs (Decidable (_ ∧ _))
  | .list left right =>
    have := decidableWritable left
    have := decidableWritable right
    inferInstanceAs (Decidable (_ ∧ _))
  | .back cmd => decidableWritable cmd

/-- A command in parentheses. -/
def inside (ts : List (Token W)) : List (Token W) := .sym (chr '(') :: (ts ++ [.sym (chr ')')])

/-- The tokens of a command, with parentheses around all its parts. -/
def Cmd.tokens : Cmd W → List (Token W)
  | .exec argv => argv.map .word
  | .redir cmd file _ fd =>
    .sym (chr '(') :: (cmd.tokens ++ .sym (chr ')') ::
      [if fd = 0 then Op.input.token else Op.output.token, .word file])
  | .pipe left right => inside left.tokens ++ .sym (chr '|') :: inside right.tokens
  | .list left right => inside left.tokens ++ .sym (chr ';') :: right.tokens
  | .back cmd => inside cmd.tokens ++ [.sym (chr '&')]

/-- The line of a command. -/
def Cmd.text (c : Cmd (List Byte)) : List Byte := c.tokens.flatMap fun t => t.text ++ [chr ' ']

theorem Args.words (argv : List W) : Args (argv.map .word) argv [] := by
  induction argv with
  | nil => exact .nil
  | cons w argv ih => exact .word w ih

theorem Derives.inside {c : Cmd W} (h : Derives .line ts c) : Derives .exec (inside ts) c :=
  .block h .nil

theorem Derives.line {c : Cmd W} (h : Derives .exec ts c) : Derives .line ts c := by
  have hline := Derives.last 0 (.simple h)
  rw [List.replicate_zero, List.append_nil] at hline
  exact hline

theorem Cmd.derives_tokens (c : Cmd (List Byte)) (h : c.Writable) : Derives .line c.tokens c := by
  induction c with
  | exec argv => exact (Derives.exec (Args.words argv) h.1).line
  | redir cmd file mode fd ih =>
    obtain ⟨hcmd, -, hop⟩ := h
    unfold Cmd.tokens
    obtain ⟨rfl, rfl⟩ | ⟨rfl, rfl⟩ := hop
    · exact (Derives.block (ih hcmd) (.cons .input file .nil)).line
    · exact (Derives.block (ih hcmd) (.cons .output file .nil)).line
  | pipe left right ih ih' =>
    have hpipe := Derives.pipe (ih h.1).inside (.simple (ih' h.2).inside)
    have hline := Derives.last 0 hpipe
    rw [List.replicate_zero, List.append_nil] at hline
    exact hline
  | list left right ih ih' =>
    have hlist := Derives.list 0 (.simple (ih h.1).inside) (ih' h.2)
    rw [List.replicate_zero, List.append_nil] at hlist
    exact hlist
  | back cmd ih => exact Derives.last 1 (.simple (ih h).inside)

/-- Tokens that a text can have. -/
def Token.Plain (t : Token (List Byte)) : Prop := t.Valid ∧ ∀ c ∈ t.text, c ≠ 0

theorem plain_sym {c : Byte} (h : c ∈ symbols) : (Token.sym c).Plain :=
  ⟨h, fun d hd => by
    rw [List.mem_singleton.mp hd]
    exact ne_zero_of_symbol h⟩

theorem plain_inside {ts : List (Token (List Byte))} (h : ∀ t ∈ ts, t.Plain) :
    ∀ t ∈ inside ts, t.Plain := by
  intro t ht
  cases ht with
  | head => exact plain_sym (by decide)
  | tail _ ht =>
    obtain ht | ht := List.mem_append.mp ht
    · exact h t ht
    · rw [List.mem_singleton.mp ht]
      exact plain_sym (by decide)

theorem Cmd.plain_tokens (c : Cmd (List Byte)) (h : c.Writable) : ∀ t ∈ c.tokens, t.Plain := by
  induction c with
  | exec argv =>
    intro t ht
    obtain ⟨w, hw, rfl⟩ := List.mem_map.mp ht
    exact h.2 w hw
  | redir cmd file mode fd ih =>
    obtain ⟨hcmd, hfile, -⟩ := h
    intro t ht
    unfold Cmd.tokens at ht
    cases ht with
    | head => exact plain_sym (by decide)
    | tail _ ht =>
      obtain ht | ht := List.mem_append.mp ht
      · exact ih hcmd t ht
      · cases ht with
        | head => exact plain_sym (by decide)
        | tail _ ht =>
          cases ht with
          | head =>
            split_ifs
            · exact plain_sym (by decide)
            · exact plain_sym (by decide)
          | tail _ ht =>
            rw [List.mem_singleton.mp ht]
            exact hfile
  | pipe left right ih ih' =>
    intro t ht
    obtain ht | ht := List.mem_append.mp ht
    · exact plain_inside (ih h.1) t ht
    · cases ht with
      | head => exact plain_sym (by decide)
      | tail _ ht => exact plain_inside (ih' h.2) t ht
  | list left right ih ih' =>
    intro t ht
    obtain ht | ht := List.mem_append.mp ht
    · exact plain_inside (ih h.1) t ht
    · cases ht with
      | head => exact plain_sym (by decide)
      | tail _ ht => exact ih' h.2 t ht
  | back cmd ih =>
    intro t ht
    obtain ht | ht := List.mem_append.mp ht
    · exact plain_inside (ih h) t ht
    · rw [List.mem_singleton.mp ht]
      exact plain_sym (by decide)

theorem Layout.blank {ts : List (Token (List Byte))} {x : List Byte} {c : Byte}
    (h : Layout ts x) (hc : c ∈ whitespace) : Layout ts (c :: x) := by
  have hall : ∀ {ws : List Byte}, (∀ d ∈ ws, d ∈ whitespace) → ∀ d ∈ c :: ws, d ∈ whitespace := by
    intro ws hws d hd
    cases hd with
    | head => exact hc
    | tail _ hd => exact hws d hd
  cases h with
  | nil hws => exact .nil (hall hws)
  | cons hws ht hend h => exact .cons (hall hws) ht hend h

theorem layout_flatMap {ts : List (Token (List Byte))} (h : ∀ t ∈ ts, t.Plain) :
    Layout ts (ts.flatMap fun t => t.text ++ [chr ' ']) := by
  induction ts with
  | nil => exact .nil fun c hc => absurd hc List.not_mem_nil
  | cons t ts ih =>
    have hrest := (ih fun u hu => h u (List.mem_cons_of_mem t hu)).blank
      (c := chr ' ') (by decide)
    have hend : t.EndsAt (chr ' ' :: ts.flatMap fun t => t.text ++ [chr ' ']) := by
      cases t with
      | sym c =>
        intro _ hno
        exact absurd (Option.some.inj hno) (by decide)
      | append => exact trivial
      | word w =>
        intro c hc
        cases hc
        decide
    have hblank : ∀ c ∈ ([] : List Byte), c ∈ whitespace := fun c hc => absurd hc List.not_mem_nil
    have hcons := Layout.cons hblank (h t List.mem_cons_self).1 hend hrest
    rw [List.nil_append] at hcons
    rw [List.flatMap_cons, List.append_assoc]
    exact hcons

/-- The parser reads every command back from its line. -/
theorem parsecmd_text (c : Cmd (List Byte)) (h : c.Writable) :
    ∃ cmd buf, parsecmd c.text = .ok (cmd, buf) ∧ strings buf cmd = c := by
  have hplain := c.plain_tokens h
  have hs : ∀ d ∈ c.text, d ≠ 0 := by
    intro d hd
    obtain ⟨t, ht, hd⟩ := List.mem_flatMap.mp hd
    obtain hd | hd := List.mem_append.mp hd
    · exact (hplain t ht).2 d hd
    · rw [List.mem_singleton.mp hd]
      decide
  obtain ⟨ts, -, hunique, hiff, -⟩ := parsecmd_spec hs
  rw [← hunique _ (layout_flatMap hplain)] at hiff
  exact (hiff c).mpr (c.derives_tokens h)

/-- A pipe into a list in the background. -/
def someCommand : Cmd (List Byte) :=
  .pipe (.redir (.exec [User.ascii ['c', 'a', 't']]) (User.ascii ['f']) O_RDONLY 0)
    (.back (.list (.exec []) (.exec [User.ascii ['w', 'c'], User.ascii ['-']])))

theorem parsecmd_text_someCommand : ∃ cmd buf,
    parsecmd someCommand.text = .ok (cmd, buf) ∧ strings buf cmd = someCommand :=
  parsecmd_text someCommand (by decide +kernel)

end Xv6.Shell
