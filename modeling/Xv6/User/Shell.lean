import Xv6.User.Grep

/-!
# The command lines of the shell (project3/sh.c:265-493)

The recursive descent parser. A pointer into the line is the number of characters in front of it,
and a string of the command is the pair of pointers `q` and `eq` until `nulterminate` ends it with
a NUL in the line itself. The recursion is given the depth that it may reach; it runs out of it on
no line.
-/

namespace Xv6.Shell
open Grep (chr)

def MAXARGS : Nat := 10

def O_RDONLY : Nat := 0x000
def O_WRONLY : Nat := 0x001
def O_CREATE : Nat := 0x200

/-- The characters from `q` up to `eq`. -/
structure Span where
  q : Nat
  eq : Nat
  deriving DecidableEq, Repr

/-- `struct cmd` and its kinds; `W` are the strings. -/
inductive Cmd (W : Type) where
  | exec (argv : List W)
  | redir (cmd : Cmd W) (file : W) (mode fd : Nat)
  | pipe (left right : Cmd W)
  | list (left right : Cmd W)
  | back (cmd : Cmd W)
  deriving DecidableEq, Repr

/-- What `gettoken` returns: a character of `symbols`, `+` for `>>`, or `a` with its string. -/
inductive Token (W : Type) where
  | sym (c : Byte)
  | append
  | word (w : W)
  deriving DecidableEq, Repr

inductive Panic where
  | leftovers | missingFile | parseblock | missingParen | syntaxError | tooManyArgs
  deriving DecidableEq, Repr

inductive Stop where
  | panic (p : Panic)
  | depth
  deriving DecidableEq, Repr

def whitespace : List Byte := User.ascii [' ', '\t', '\r', '\n'] ++ [11]

def symbols : List Byte := User.ascii ['<', '|', '>', '&', ';', '(', ')']

theorem lawfulBEq_byte : LawfulBEq Byte := inferInstance

scoped instance (c : Byte) (l : List Byte) : Decidable (c ∈ l) :=
  @List.instDecidableMemOfLawfulBEq Byte _ lawfulBEq_byte c l

/-! ### Tokens -/

def charAt (s : List Byte) (i : Nat) : Byte := s.getD i 0

/-- The loop over whitespace. -/
def skip (s : List Byte) (i : Nat) : Nat := i + ((s.drop i).takeWhile (· ∈ whitespace)).length

/-- The character can be part of a word. -/
def Ordinary (c : Byte) : Prop := c ∉ whitespace ∧ c ∉ symbols

instance (c : Byte) : Decidable (Ordinary c) := inferInstanceAs (Decidable (_ ∧ _))

/-- The loop over the characters of a word. -/
def wordEnd (s : List Byte) (q : Nat) : Nat := q + ((s.drop q).takeWhile (Ordinary ·)).length

/-- No token is the value 0. -/
def gettoken (s : List Byte) (i : Nat) : Option (Token Span) × Nat :=
  let q := skip s i
  let c := charAt s q
  if c = 0 then (none, skip s q)
  else if c ∈ symbols then
    if c = chr '>' ∧ charAt s (q + 1) = chr '>' then (some .append, skip s (q + 2))
    else (some (.sym c), skip s (q + 1))
  else (some (.word ⟨q, wordEnd s q⟩), skip s (wordEnd s q))

/-- With the pointer behind the whitespace. -/
def peek (s : List Byte) (i : Nat) (toks : List Byte) : Bool × Nat :=
  let i := skip s i
  (decide (charAt s i ≠ 0 ∧ charAt s i ∈ toks), i)

/-! ### Redirections -/

/-- A redirection, before it is put around its command. -/
structure Redir (W : Type) where
  file : W
  mode : Nat
  fd : Nat

def Cmd.redirs {W : Type} (cmd : Cmd W) (rs : List (Redir W)) : Cmd W :=
  rs.foldl (fun cmd r => .redir cmd r.file r.mode r.fd) cmd

/-- The `switch` of `parseredirs`. -/
def redirect (tok : Option (Token Span)) (file : Span) : List (Redir Span) :=
  if tok = some (.sym (chr '<')) then [⟨file, O_RDONLY, 0⟩]
  else if tok = some (.sym (chr '>')) then [⟨file, O_WRONLY ||| O_CREATE, 1⟩]
  else if tok = some .append then [⟨file, O_WRONLY ||| O_CREATE, 1⟩]
  else []

/-- The redirections come behind `rs`. -/
def parseredirs (s : List Byte) : Nat → List (Redir Span) → Nat →
    Except Stop (List (Redir Span) × Nat)
  | 0, _, _ => .error .depth
  | n + 1, rs, i =>
    let next := peek s i [chr '<', chr '>']
    if next.1 then
      let tok := gettoken s next.2
      match gettoken s tok.2 with
      | (some (.word w), i) => parseredirs s n (rs ++ redirect tok.1 w) i
      | _ => .error (.panic .missingFile)
    else .ok (rs, next.2)

/-! ### Commands -/

/-- The loop of `parseexec`; the command that it fills in stays the innermost one. -/
def parseargs (s : List Byte) : Nat → List Span → List (Redir Span) → Nat →
    Except Stop (Cmd Span × Nat)
  | 0, _, _, _ => .error .depth
  | n + 1, argv, rs, i =>
    let next := peek s i [chr '|', chr ')', chr '&', chr ';']
    if next.1 then .ok (Cmd.redirs (.exec argv) rs, next.2)
    else
      match gettoken s next.2 with
      | (none, i) => .ok (Cmd.redirs (.exec argv) rs, i)
      | (some (.word w), i) =>
        if MAXARGS ≤ (argv ++ [w]).length then .error (.panic .tooManyArgs)
        else (parseredirs s (s.length + 1) rs i).bind fun r => parseargs s n (argv ++ [w]) r.1 r.2
      | (some _, _) => .error (.panic .syntaxError)

/-- `line` parses the line between the parentheses. -/
def parseblock (s : List Byte) (line : Nat → Except Stop (Cmd Span × Nat)) (i : Nat) :
    Except Stop (Cmd Span × Nat) :=
  let first := peek s i [chr '(']
  if first.1 then
    (line (gettoken s first.2).2).bind fun r =>
      let last := peek s r.2 [chr ')']
      if last.1 then
        (parseredirs s (s.length + 1) [] (gettoken s last.2).2).map fun rs =>
          (r.1.redirs rs.1, rs.2)
      else .error (.panic .missingParen)
  else .error (.panic .parseblock)

def parseexec (s : List Byte) (line : Nat → Except Stop (Cmd Span × Nat)) (i : Nat) :
    Except Stop (Cmd Span × Nat) :=
  let next := peek s i [chr '(']
  if next.1 then parseblock s line next.2
  else (parseredirs s (s.length + 1) [] next.2).bind fun r => parseargs s (s.length + 1) [] r.1 r.2

def parsepipe (s : List Byte) (line : Nat → Except Stop (Cmd Span × Nat)) : Nat → Nat →
    Except Stop (Cmd Span × Nat)
  | 0, _ => .error .depth
  | n + 1, i =>
    (parseexec s line i).bind fun r =>
      let next := peek s r.2 [chr '|']
      if next.1 then
        (parsepipe s line n (gettoken s next.2).2).map fun right => (.pipe r.1 right.1, right.2)
      else .ok (r.1, next.2)

/-- The loop of `parseline`. -/
def parseback (s : List Byte) : Nat → Cmd Span → Nat → Except Stop (Cmd Span × Nat)
  | 0, _, _ => .error .depth
  | n + 1, cmd, i =>
    let next := peek s i [chr '&']
    if next.1 then parseback s n (.back cmd) (gettoken s next.2).2
    else .ok (cmd, next.2)

def parseline (s : List Byte) : Nat → Nat → Except Stop (Cmd Span × Nat)
  | 0, _ => .error .depth
  | n + 1, i =>
    ((parsepipe s (parseline s n) (s.length + 1) i).bind fun r =>
      parseback s (s.length + 1) r.1 r.2).bind fun r =>
        let next := peek s r.2 [chr ';']
        if next.1 then
          (parseline s n (gettoken s next.2).2).map fun right => (.list r.1 right.1, right.2)
        else .ok (r.1, next.2)

/-- NUL-terminate all the counted strings. -/
def nulterminate : Cmd Span → List Byte → List Byte
  | .exec argv, buf => argv.foldl (fun buf w => buf.set w.eq 0) buf
  | .redir cmd file _ _, buf => (nulterminate cmd buf).set file.eq 0
  | .pipe left right, buf => nulterminate right (nulterminate left buf)
  | .list left right, buf => nulterminate right (nulterminate left buf)
  | .back cmd, buf => nulterminate cmd buf

/-- The command, and the line with its NULs. -/
def parsecmd (s : List Byte) : Except Stop (Cmd Span × List Byte) :=
  (parseline s (s.length + 1) 0).bind fun r =>
    if (peek s r.2 []).2 ≠ s.length then .error (.panic .leftovers)
    else .ok (r.1, nulterminate r.1 (s ++ [0]))

end Xv6.Shell
