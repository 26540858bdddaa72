import Xv6.User.Shell

/-!
# The grammar of the shell

What a command line is, apart from the parser: how a text is cut into tokens, and which sequences
of tokens are commands.
-/

namespace Xv6.Shell
open Grep (chr)

variable {W V : Type}

/-! ### Commands -/

inductive Op where
  | input | output | append
  deriving DecidableEq, Repr

def Op.token : Op → Token W
  | .input => .sym (chr '<')
  | .output => .sym (chr '>')
  | .append => .append

/-- The operator `>>` does what `>` does. -/
def Op.redir (file : W) : Op → Redir W
  | .input => ⟨file, O_RDONLY, 0⟩
  | .output => ⟨file, O_WRONLY ||| O_CREATE, 1⟩
  | .append => ⟨file, O_WRONLY ||| O_CREATE, 1⟩

inductive Redirs : List (Token W) → List (Redir W) → Prop where
  | nil : Redirs [] []
  | cons {ts : List (Token W)} {rs : List (Redir W)} (op : Op) (w : W) (h : Redirs ts rs) :
    Redirs (op.token :: .word w :: ts) (op.redir w :: rs)

/-- Arguments, with redirections in between. -/
inductive Args : List (Token W) → List W → List (Redir W) → Prop where
  | nil : Args [] [] []
  | word {ts : List (Token W)} {argv : List W} {rs : List (Redir W)} (w : W) (h : Args ts argv rs) :
    Args (.word w :: ts) (w :: argv) rs
  | redir {ts : List (Token W)} {argv : List W} {rs : List (Redir W)} (op : Op) (w : W)
    (h : Args ts argv rs) : Args (op.token :: .word w :: ts) argv (op.redir w :: rs)

inductive Nonterminal where
  | line | pipe | exec
  deriving DecidableEq, Repr

/-- A line is a pipe with any number of `&` behind it, and perhaps `;` and a line. -/
inductive Derives : Nonterminal → List (Token W) → Cmd W → Prop where
  | exec {ts : List (Token W)} {argv : List W} {rs : List (Redir W)} (h : Args ts argv rs)
    (hargs : argv.length < MAXARGS) : Derives .exec ts ((Cmd.exec argv).redirs rs)
  | block {ts us : List (Token W)} {c : Cmd W} {rs : List (Redir W)} (h : Derives .line ts c)
    (hrs : Redirs us rs) :
    Derives .exec (.sym (chr '(') :: (ts ++ .sym (chr ')') :: us)) (c.redirs rs)
  | simple {ts : List (Token W)} {c : Cmd W} (h : Derives .exec ts c) : Derives .pipe ts c
  | pipe {ts us : List (Token W)} {c d : Cmd W} (h : Derives .exec ts c) (h' : Derives .pipe us d) :
    Derives .pipe (ts ++ .sym (chr '|') :: us) (.pipe c d)
  | last {ts : List (Token W)} {c : Cmd W} (k : Nat) (h : Derives .pipe ts c) :
    Derives .line (ts ++ List.replicate k (.sym (chr '&'))) (Cmd.back^[k] c)
  | list {ts us : List (Token W)} {c d : Cmd W} (k : Nat) (h : Derives .pipe ts c)
    (h' : Derives .line us d) :
    Derives .line (ts ++ List.replicate k (.sym (chr '&')) ++ .sym (chr ';') :: us)
      (.list (Cmd.back^[k] c) d)

/-! ### Text -/

/-- The characters of a token. -/
def Token.text : Token (List Byte) → List Byte
  | .sym c => [c]
  | .append => [chr '>', chr '>']
  | .word w => w

def Token.Valid : Token (List Byte) → Prop
  | .sym c => c ∈ symbols
  | .append => True
  | .word w => w ≠ [] ∧ ∀ c ∈ w, Ordinary c

instance : (t : Token (List Byte)) → Decidable t.Valid
  | .sym c => inferInstanceAs (Decidable (c ∈ symbols))
  | .append => inferInstanceAs (Decidable True)
  | .word w => inferInstanceAs (Decidable (w ≠ [] ∧ ∀ c ∈ w, Ordinary c))

/-- The token ends in front of `rest`. -/
def Token.EndsAt (rest : List Byte) : Token (List Byte) → Prop
  | .sym c => c = chr '>' → rest.head? ≠ some (chr '>')
  | .append => True
  | .word _ => ∀ c ∈ rest.head?, ¬ Ordinary c

/-- The text consists of these tokens, with whitespace around them. -/
inductive Layout : List (Token (List Byte)) → List Byte → Prop where
  | nil {ws : List Byte} (hws : ∀ c ∈ ws, c ∈ whitespace) : Layout [] ws
  | cons {ws rest : List Byte} {t : Token (List Byte)} {ts : List (Token (List Byte))}
    (hws : ∀ c ∈ ws, c ∈ whitespace) (ht : t.Valid) (hend : t.EndsAt rest) (h : Layout ts rest) :
    Layout (t :: ts) (ws ++ t.text ++ rest)

/-! ### Maps -/

def Token.map (f : W → V) : Token W → Token V
  | .sym c => .sym c
  | .append => .append
  | .word w => .word (f w)

def Redir.map (f : W → V) (r : Redir W) : Redir V := ⟨f r.file, r.mode, r.fd⟩

def Cmd.map (f : W → V) : Cmd W → Cmd V
  | .exec argv => .exec (argv.map f)
  | .redir cmd file mode fd => .redir (cmd.map f) (f file) mode fd
  | .pipe left right => .pipe (left.map f) (right.map f)
  | .list left right => .list (left.map f) (right.map f)
  | .back cmd => .back (cmd.map f)

variable {f : W → V} {ts us : List (Token W)} {rs : List (Redir W)} {argv : List W}

theorem Cmd.map_redirs (cmd : Cmd W) (rs : List (Redir W)) :
    (cmd.redirs rs).map f = (cmd.map f).redirs (rs.map (Redir.map f)) := by
  induction rs generalizing cmd with
  | nil => rfl
  | cons r rs ih => exact ih (.redir cmd r.file r.mode r.fd)

theorem Cmd.map_back (k : Nat) (cmd : Cmd W) :
    (Cmd.back^[k] cmd).map f = Cmd.back^[k] (cmd.map f) := by
  induction k generalizing cmd with
  | zero => rfl
  | succ k ih => exact ih (.back cmd)

theorem Op.map_token (op : Op) : (op.token : Token W).map f = op.token := by
  cases op <;> rfl

theorem Op.map_redir (op : Op) (w : W) : (op.redir w).map f = op.redir (f w) := by
  cases op <;> rfl

theorem Redirs.map (h : Redirs ts rs) : Redirs (ts.map (Token.map f)) (rs.map (Redir.map f)) := by
  induction h with
  | nil => exact .nil
  | cons op w _ ih =>
    rw [List.map_cons, List.map_cons, List.map_cons, Op.map_token, Op.map_redir]
    exact .cons op (f w) ih

theorem Args.map (h : Args ts argv rs) :
    Args (ts.map (Token.map f)) (argv.map f) (rs.map (Redir.map f)) := by
  induction h with
  | nil => exact .nil
  | word w _ ih => exact .word (f w) ih
  | redir op w _ ih =>
    rw [List.map_cons, List.map_cons, List.map_cons, Op.map_token, Op.map_redir]
    exact .redir op (f w) ih

/-- The strings play no role in the grammar. -/
theorem Derives.map {nt : Nonterminal} {c : Cmd W} (h : Derives nt ts c) :
    Derives nt (ts.map (Token.map f)) (c.map f) := by
  induction h with
  | exec h hargs =>
    rw [Cmd.map_redirs]
    exact .exec h.map (by rw [List.length_map]; exact hargs)
  | block _ hrs ih =>
    rw [Cmd.map_redirs, List.map_cons, List.map_append, List.map_cons]
    exact .block ih hrs.map
  | simple _ ih => exact .simple ih
  | pipe _ _ ih ih' =>
    rw [List.map_append, List.map_cons]
    exact .pipe ih ih'
  | last k _ ih =>
    rw [List.map_append, List.map_replicate, Cmd.map_back]
    exact .last k ih
  | list k _ _ ih ih' =>
    rw [List.map_append, List.map_append, List.map_replicate, List.map_cons]
    have hlist := Derives.list k ih ih'
    rw [← Cmd.map_back] at hlist
    exact hlist

end Xv6.Shell
