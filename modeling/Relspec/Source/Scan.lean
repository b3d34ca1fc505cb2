import Relspec.Source.Token
import Relspec.Text.Quoted
import Relspec.Text.Search

/-!
# Source/Scan — cutting a source into tokens

A source is cut into consecutive non-empty pieces.  A piece yields nothing (white space, comments), a
token, or an error; after an error the cutting goes on, so every byte of the source is in exactly one
piece.

* `Piece.first` decides, from the text ahead, how long the next piece is and what it yields;
* `pieces` cuts the whole text, `scan` collects the tokens and the errors.
-/

namespace Relspec.Source

/-- An error in the shape of a token, with the number of bytes it covers. -/
structure ScanError where
  message : String
  pos : Position
  length : Nat
deriving DecidableEq, Repr

/-- What a piece of source yields. -/
inductive Yield where
  | nothing
  | token (kind : Kind) (lexeme : String)
  | error (message : String)
deriving DecidableEq, Repr

/-- A piece of source: where it starts and ends, its text and what it yields. -/
structure Piece where
  pos : Position
  finish : Position
  text : List Char
  yields : Yield
deriving DecidableEq, Repr

/-! ## Character classes -/

def isDigit (c : Char) : Bool := '0' ≤ c && c ≤ '9'

def isHexDigit (c : Char) : Bool := isDigit c || ('a' ≤ c && c ≤ 'f') || ('A' ≤ c && c ≤ 'F')

/-- Letters: `_`, `$` and the letters below U+0100, each byte being read as the character of its
value. -/
def isLetter (c : Char) : Bool :=
  ('a' ≤ c && c ≤ 'z') || ('A' ≤ c && c ≤ 'Z') || c == '_' || c == '$' || c == '\xaa' || c == '\xb5'
    || c == '\xba' || ('\xc0' ≤ c && c ≤ '\xd6') || ('\xd8' ≤ c && c ≤ '\xf6')
    || ('\xf8' ≤ c && c ≤ '\xff')

def isSpace (c : Char) : Bool := c == ' ' || c == '\t' || c == '\r' || c == '\n'

/-! ## The pieces -/

/-- The content of a string and the number of characters up to and with its closing quote; `none` when
the text ends first.  A backslash before a quote or a backslash is dropped. -/
def stringBody : List Char → Option (List Char × Nat)
  | [] => none
  | '"' :: _ => some ([], 1)
  | '\\' :: '"' :: s => (stringBody s).map fun (content, n) => ('"' :: content, n + 2)
  | '\\' :: '\\' :: s => (stringBody s).map fun (content, n) => ('\\' :: content, n + 2)
  | c :: s => (stringBody s).map fun (content, n) => (c :: content, n + 1)

/-- A token spelled by `c` and the first `n` characters of `rest`, whose kind the spelling decides. -/
def spelled (c : Char) (rest : List Char) (n : Nat) (kindOf : String → Yield) : Nat × Yield :=
  (n, kindOf (String.ofList (c :: rest.take n)))

/-- The length of the longest beginning of `s` in a class. -/
def runLength (p : Char → Bool) (s : List Char) : Nat := (s.takeWhile p).length

/-- A number: decimal digits with an optional trailing `l` or `L`, which the token does not show, or
hexadecimal digits after an `x` in second place. -/
def numberPiece (c : Char) (rest : List Char) : Nat × Yield :=
  let decimal :=
    let n := runLength isDigit rest
    let suffix :=
      match rest.drop n with
      | 'l' :: _ | 'L' :: _ => 1
      | _ => 0
    (n + suffix, Yield.token .number (String.ofList (c :: rest.take n)))
  match rest with
  | x :: digits =>
    if x = 'x' ∨ x = 'X' then
      match runLength isHexDigit digits with
      | 0 => (1, .error "Invalid hex literal: expected hex digit after 0x")
      | n + 1 => spelled c rest (n + 2) (.token .hexNumber)
    else decimal
  | [] => decimal

/-- **The next piece** of a source whose next character is `c`: how many characters it has after `c`,
and what it yields. -/
def Piece.first (c : Char) (rest : List Char) : Nat × Yield :=
  if isSpace c then (0, .nothing)
  else if c = '/' ∧ rest.head? = some '/' then (runLength (· != '\n') rest, .nothing)
  else if c = '/' ∧ rest.head? = some '*' then
    match Text.cut? ['*', '/'] (rest.drop 1) with
    | some (comment, _) => (comment.length + 3, .nothing)
    | none => (rest.length, .error "Unterminated block comment.")
  else if c = '"' then
    match stringBody rest with
    | some (content, n) => (n, .token .string (String.ofList content))
    | none => (rest.length, .error "Unterminated string.")
  else if c = '\\' then
    spelled c rest (runLength isLetter rest) fun word =>
      match contractWords.lookup word with
      | some kind => .token kind word
      | none => .error ("Unknown contract word: " ++ word)
  else if isDigit c then numberPiece c rest
  else if isLetter c then
    spelled c rest (runLength (fun c => isLetter c || isDigit c) rest) fun word =>
      .token ((keywords.lookup word).getD .identifier) word
  else
    match symbols.find? fun e => (Text.after? e.1.toList (c :: rest)).isSome with
    | some (mark, kind) => (mark.length - 1, .token kind mark)
    | none => (0, .error ("Unexpected character: " ++ Text.quoteChar c))

/-- Cuts a text that starts at `pos`. -/
def pieces (pos : Position) (s : List Char) : List Piece :=
  match s with
  | [] => []
  | c :: rest =>
    let n := (Piece.first c rest).1
    let text := c :: rest.take n
    let finish := pos.across text
    ⟨pos, finish, text, (Piece.first c rest).2⟩ :: pieces finish (rest.drop n)
termination_by s.length
decreasing_by simp only [List.length_drop, List.length_cons]; omega

namespace Piece

/-- The token that a piece yields. -/
def token? (p : Piece) : Option Token :=
  match p.yields with
  | .token kind lexeme => some ⟨kind, lexeme, p.pos⟩
  | _ => none

/-- The error that a piece yields, which covers the piece. -/
def error? (p : Piece) : Option ScanError :=
  match p.yields with
  | .error message => some ⟨message, p.pos, p.finish.offset - p.pos.offset⟩
  | _ => none

end Piece

/-- A scanned source: its tokens, the place where it ends, and its errors. -/
structure Scanned where
  tokens : List Token
  finish : Position
  errors : List ScanError
deriving DecidableEq, Repr

/-- **The tokens and errors of a source**, which ends where its last piece does. -/
def scan (source : String) : Scanned :=
  let ps := pieces .start source.toList
  ⟨ps.filterMap Piece.token?, (ps.getLast?.map Piece.finish).getD .start, ps.filterMap Piece.error?⟩

namespace Scanned

/-- The tokens with the end of the text as a last one. -/
def withEnd (s : Scanned) : List Token := s.tokens ++ [⟨.eof, "", s.finish⟩]

end Scanned

end Relspec.Source
