import Relspec.Text.Position
import Relspec.Text.Search

/-!
# Formula/Lexeme — the words and marks of a formula text

Formula texts and the texts of contract modules are made of the same lexemes.  At each place the first
of these rules that fits takes as much as it can: a comment to the end of its line, the mark of the
pre-state, a word, a number, an operator or punctuation mark, white space.  Comments and white space
give no lexeme.

* `Lexeme.first?` takes one lexeme, `lexemes` all of them;
* `length_first?` — a lexeme takes at least one character, so `lexemes` comes to an end.
-/

namespace Relspec.Formula

/-- An operator or punctuation mark. -/
inductive Mark where
  | iff | implies | assign | and | or | ne | le | ge | override | arrow
  | minus | plus | star | slash | percent | hash | caret | bang | eq | lt | gt
  | leftParen | rightParen | leftBracket | rightBracket | leftBrace | rightBrace
  | dot | comma | colon | semicolon | bar
deriving DecidableEq, Repr

namespace Mark

def text : Mark → String
  | .iff => "<=>"
  | .implies => "=>"
  | .assign => ":="
  | .and => "&&"
  | .or => "||"
  | .ne => "!="
  | .le => "<="
  | .ge => ">="
  | .override => "++"
  | .arrow => "->"
  | .minus => "-"
  | .plus => "+"
  | .star => "*"
  | .slash => "/"
  | .percent => "%"
  | .hash => "#"
  | .caret => "^"
  | .bang => "!"
  | .eq => "="
  | .lt => "<"
  | .gt => ">"
  | .leftParen => "("
  | .rightParen => ")"
  | .leftBracket => "["
  | .rightBracket => "]"
  | .leftBrace => "\x7b"
  | .rightBrace => "\x7d"
  | .dot => "."
  | .comma => ","
  | .colon => ":"
  | .semicolon => ";"
  | .bar => "|"

/-- Every mark, in the order in which they are tried: a mark comes before those that start it. -/
def all : List Mark :=
  [.iff, .implies, .assign, .and, .or, .ne, .le, .ge, .override, .arrow,
    .minus, .plus, .star, .slash, .percent, .hash, .caret, .bang, .eq, .lt, .gt,
    .leftParen, .rightParen, .leftBracket, .rightBracket, .leftBrace, .rightBrace,
    .dot, .comma, .colon, .semicolon, .bar]

/-- The first of several marks that a text starts with, and the text after it. -/
def first? (s : List Char) : List Mark → Option (Mark × List Char)
  | [] => none
  | m :: ms =>
    match Text.after? m.text.toList s with
    | some rest => some (m, rest)
    | none => first? s ms

end Mark

/-- A word, a number, the mark of the pre-state, or another mark. -/
inductive Lexeme where
  | word (name : String)
  | number (digits : String)
  | old
  | mark (m : Mark)
deriving DecidableEq, Repr

namespace Lexeme

def isWordStart (c : Char) : Bool := c.isAlpha || c == '_' || c == '$'

def isWordPart (c : Char) : Bool := c.isAlphanum || c == '_' || c == '$' || c == '\''

def isSpace (c : Char) : Bool := c == ' ' || c == '\t' || c == '\r' || c == '\n'

def startsComment : List Char → Bool
  | '-' :: '-' :: _ => true
  | '/' :: '/' :: _ => true
  | _ => false

/-- **One lexeme** of a text that starts with `c`, or none for a comment or white space, and the text
after it.  No rule fits when there is no result. -/
def first? (c : Char) (s : List Char) : Option (Option Lexeme × List Char) :=
  if startsComment (c :: s) then some (none, s.dropWhile (· != '\n'))
  else
    match Text.after? ['\\', 'o', 'l', 'd'] (c :: s) with
    | some rest => some (some .old, rest)
    | none =>
      if isWordStart c then
        some (some (.word (String.ofList (c :: s.takeWhile isWordPart))), s.dropWhile isWordPart)
      else if c.isDigit then
        some (some (.number (String.ofList (c :: s.takeWhile Char.isDigit))), s.dropWhile Char.isDigit)
      else
        match Mark.first? (c :: s) Mark.all with
        | some (m, rest) => some (some (.mark m), rest)
        | none => if isSpace c then some (none, s) else none

/-- Whether a lexeme is one of the two spellings of a connective. -/
def spells (name : String) (m : Mark) (c : Lexeme) : Bool := c == .word name || c == .mark m

end Lexeme

/-! ## A lexeme takes at least one character -/

theorem Mark.length_text_pos (m : Mark) : 0 < m.text.toList.length := by
  cases m <;> decide

theorem Mark.length_first? {s rest : List Char} {m : Mark} :
    ∀ {ms : List Mark}, Mark.first? s ms = some (m, rest) → rest.length < s.length
  | [], h => by simp [Mark.first?] at h
  | k :: ms, h => by
    unfold Mark.first? at h
    split at h
    · rename_i r hr
      have hlen := Text.length_after? hr
      have hpos := k.length_text_pos
      obtain ⟨-, rfl⟩ := Prod.mk.injEq .. ▸ Option.some.inj h
      omega
    · exact length_first? h

theorem length_dropWhile_le (p : Char → Bool) (s : List Char) :
    (s.dropWhile p).length ≤ s.length :=
  (List.dropWhile_sublist p).length_le

theorem Lexeme.length_first? {c : Char} {s rest : List Char} {l : Option Lexeme}
    (h : Lexeme.first? c s = some (l, rest)) : rest.length ≤ s.length := by
  unfold Lexeme.first? at h
  repeat' split at h
  all_goals first
    | (obtain ⟨-, rfl⟩ := Prod.mk.injEq .. ▸ Option.some.inj h
       first
         | exact length_dropWhile_le _ _
         | (rename_i hr; have := Text.length_after? hr; simp at this; omega)
         | (rename_i hr; have := Mark.length_first? hr; simp at this; omega)
         | exact Nat.le_refl _)
    | simp at h

/-! ## All lexemes -/

/-- **The lexemes of a text**, or the rest of the text at the first place where no rule fits. -/
def lexemes (s : List Char) : Except (List Char) (List Lexeme) :=
  match s with
  | [] => .ok []
  | c :: s =>
    match _h : Lexeme.first? c s with
    | none => .error (c :: s)
    | some (none, rest) => lexemes rest
    | some (some l, rest) => (lexemes rest).map (l :: ·)
termination_by s.length
decreasing_by
  all_goals
    have := Lexeme.length_first? _h
    simp only [List.length_cons]
    omega

end Relspec.Formula
