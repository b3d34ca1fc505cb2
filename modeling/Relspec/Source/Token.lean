import Relspec.Text.Position

/-!
# Source/Token — tokens of annotated sources

* `Kind` lists the kinds of token, `Kind.all` in their customary order;
* `keywords`, `contractWords` and `symbols` give the fixed spellings;
* `Kind.name` is how a kind is shown.
-/

namespace Relspec.Source

/-- The kinds of token.  `illegal` stands for a token that was expected and is missing. -/
inductive Kind where
  | illegal | eof
  | identifier | number | hexNumber | string
  | packageWord | importWord | classWord | extendsWord | modifier | voidWord
  | ifWord | elseWord | whileWord | forWord | returnWord | throwWord | throwsWord
  | newWord | thisWord | nullWord | trueWord | falseWord | assertWord | assumeWord
  | requiresWord | ensuresWord | invariantWord | loopInvariantWord | decreasesWord
  | resultWord | oldWord | forallWord | existsWord
  | plus | increment | minus | decrement | star | slash | percent
  | bang | bangEqual | equal | equalEqual | implies | equivalent
  | less | lessEqual | greater | greaterEqual | and | or
  | plusEqual | minusEqual | starEqual | slashEqual | percentEqual
  | comma | dot | semicolon | atSign
  | leftParen | rightParen | leftBrace | rightBrace | leftBracket | rightBracket
deriving DecidableEq, Repr

/-- A token: its kind, its spelling (for a string, its content) and where it starts. -/
structure Token where
  kind : Kind
  lexeme : String
  pos : Position
deriving DecidableEq, Repr

def keywords : List (String × Kind) :=
  [("package", .packageWord), ("import", .importWord), ("class", .classWord),
    ("extends", .extendsWord), ("public", .modifier), ("private", .modifier),
    ("protected", .modifier), ("static", .modifier), ("final", .modifier), ("void", .voidWord),
    ("if", .ifWord), ("else", .elseWord), ("while", .whileWord), ("for", .forWord),
    ("return", .returnWord), ("throw", .throwWord), ("throws", .throwsWord), ("new", .newWord),
    ("this", .thisWord), ("null", .nullWord), ("true", .trueWord), ("false", .falseWord),
    ("assert", .assertWord), ("assume", .assumeWord), ("requires", .requiresWord),
    ("ensures", .ensuresWord), ("invariant", .invariantWord),
    ("loop_invariant", .loopInvariantWord), ("decreases", .decreasesWord)]

def contractWords : List (String × Kind) :=
  [("\\result", .resultWord), ("\\old", .oldWord), ("\\forall", .forallWord),
    ("\\exists", .existsWord)]

/-- The punctuation.  A spelling stands before its own beginnings, so the first match is the longest. -/
def symbols : List (String × Kind) :=
  [("<==>", .equivalent), ("==>", .implies), ("==", .equalEqual), ("!=", .bangEqual),
    ("<=", .lessEqual), (">=", .greaterEqual), ("&&", .and), ("||", .or), ("++", .increment),
    ("--", .decrement), ("+=", .plusEqual), ("-=", .minusEqual), ("*=", .starEqual),
    ("/=", .slashEqual), ("%=", .percentEqual), ("(", .leftParen), (")", .rightParen),
    ("\x7b", .leftBrace), ("\x7d", .rightBrace), ("[", .leftBracket), ("]", .rightBracket),
    (",", .comma), (".", .dot), (";", .semicolon), ("@", .atSign), ("+", .plus), ("-", .minus),
    ("*", .star), ("/", .slash), ("%", .percent), ("!", .bang), ("=", .equal), ("<", .less),
    (">", .greater)]

namespace Kind

def spelledIn (table : List (String × Kind)) (k : Kind) : Option String :=
  (table.find? fun e => e.2 = k).map (·.1)

/-- How a kind is shown: words as they are, punctuation in quotes, the rest by a name. -/
def name (k : Kind) : String :=
  match k with
  | .illegal => "ILLEGAL"
  | .eof => "EOF"
  | .identifier => "IDENTIFIER"
  | .number => "NUMBER"
  | .hexNumber => "HEX_NUMBER"
  | .string => "STRING"
  | .modifier => "modifier"
  | k =>
    match k.spelledIn keywords, k.spelledIn contractWords, k.spelledIn symbols with
    | some word, _, _ => word
    | none, some word, _ => word
    | none, none, some mark => "'" ++ mark ++ "'"
    | none, none, none => ""

/-- Every kind, in the customary order. -/
def all : List Kind :=
  [.illegal, .eof, .identifier, .number, .hexNumber, .string, .packageWord, .importWord, .classWord,
    .extendsWord, .modifier, .voidWord, .ifWord, .elseWord, .whileWord, .forWord, .returnWord,
    .throwWord, .throwsWord, .newWord, .thisWord, .nullWord, .trueWord, .falseWord, .assertWord,
    .assumeWord, .requiresWord, .ensuresWord, .invariantWord, .loopInvariantWord, .decreasesWord,
    .resultWord, .oldWord, .forallWord, .existsWord, .plus, .increment, .minus, .decrement, .star,
    .slash, .percent, .bang, .bangEqual, .equal, .equalEqual, .implies, .equivalent, .less,
    .lessEqual, .greater, .greaterEqual, .and, .or, .plusEqual, .minusEqual, .starEqual, .slashEqual,
    .percentEqual, .comma, .dot, .semicolon, .atSign, .leftParen, .rightParen, .leftBrace,
    .rightBrace, .leftBracket, .rightBracket]

/-- The name of the kind with a given ordinal; an ordinal without a kind is shown as such. -/
def nameAt (n : Int) : String :=
  if n < 0 then s!"token({n})"
  else
    match all[n.toNat]? with
    | some k => k.name
    | none => s!"token({n})"

end Kind

end Relspec.Source
