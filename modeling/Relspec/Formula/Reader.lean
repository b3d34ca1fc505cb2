import Relspec.Formula.Basic
import Relspec.Formula.Lexeme
import Relspec.Text.Number

/-!
# Formula/Reader — formulas from text

The grammar, loosest first; `[ ]` may be missing and `( )*` repeats:

    iff      ::= implies [("iff" | "<=>") iff]
    implies  ::= or [("implies" | "=>") implies ["else" implies]]
    or       ::= and (("or" | "||") and)*
    and      ::= neg (("and" | "&&") neg)*
    neg      ::= ("not" | "!") neg | quantified | cmp
    quantified ::= ("all" | mult) word ("," word)* ":" sum "|" iff
    cmp      ::= [mult] sum [("=" | "!=" | "in" | "<=" | ">=" | "<" | ">") sum]
    sum      ::= prod (("+" | "-" | "++" | "->") prod)*
    prod     ::= unary (("*" | "/" | "%") unary)*
    unary    ::= ("-" | "#" | "*" | "^") unary | dotted
    dotted   ::= primary ("." primary)*
    primary  ::= "(" iff ")" | "\old" "(" iff ")" | number | word ["[" [iff ("," iff)*] "]"]

The first alternative that fits is taken, and what an optional or repeated part has taken is never
given back; a part that fails halfway takes nothing.  Any word is an identifier where the grammar asks
for one.  A minus in front of a literal belongs to the literal.

The result of each reader carries the bound on the lexemes left that makes the next call smaller.
-/

namespace Relspec.Formula

/-- Why a text is no formula: no lexeme starts at a place, or the lexemes do not fit the grammar. -/
inductive ReadError where
  | lexeme (pos : Position)
  | grammar
deriving DecidableEq, Repr

def lexed (s : String) : Except ReadError (List Lexeme) :=
  let cs := s.toList
  (lexemes cs).mapError fun rest =>
    .lexeme (Position.start.across (cs.take (cs.length - rest.length)))

/-- Something read from the front of `s`, and what is left. -/
structure Taken (α : Type) (s : List Lexeme) where
  value : α
  rest : List Lexeme
  lt : rest.length < s.length

/-- Something read from the front of `s`, perhaps nothing, and what is left. -/
structure Trailing (α : Type) (s : List Lexeme) where
  value : α
  rest : List Lexeme
  le : rest.length ≤ s.length

namespace Reading

def mult? : Lexeme → Option Multiplicity
  | .word "some" => some .some
  | .word "no" => some .no
  | .word "one" => some .one
  | .word "lone" => some .lone
  | _ => none

def quantifier? (l : Lexeme) : Option Quantifier :=
  if l = .word "all" then some .all else (mult? l).map .mult

def comparison? : Lexeme → Option BinaryOp
  | .mark .eq => some .eq
  | .mark .ne => some .ne
  | .word "in" => some .mem
  | .mark .le => some .le
  | .mark .ge => some .ge
  | .mark .lt => some .lt
  | .mark .gt => some .gt
  | _ => none

def sumOp? : Lexeme → Option BinaryOp
  | .mark .plus => some (.arith .add)
  | .mark .minus => some (.arith .sub)
  | .mark .override => some .override
  | .mark .arrow => some .product
  | _ => none

/-- An operator between the operands of a product. -/
def prodOp? : Lexeme → Option BinaryOp
  | .mark .star => some (.arith .mul)
  | .mark .slash => some (.arith .div)
  | .mark .percent => some (.arith .rem)
  | _ => none

def unaryOp? : Lexeme → Option UnaryOp
  | .mark .minus => some .neg
  | .mark .hash => some .card
  | .mark .star => some .star
  | .mark .caret => some .closure
  | _ => none

/-- Applies an operator in front of an operand; a minus changes the sign of a literal. -/
def applyUnary : UnaryOp → Formula → Formula
  | .neg, .int v => .int (-v)
  | op, x => .unary op x

/-- The words after the first in a list of words with commas between them. -/
def moreWords : List Lexeme → List String × List Lexeme
  | .mark .comma :: .word w :: s => let (ws, rest) := moreWords s; (w :: ws, rest)
  | s => ([], s)

theorem length_moreWords (s : List Lexeme) : (moreWords s).2.length ≤ s.length := by
  fun_induction moreWords s with
  | case1 w s ws rest h ih => simp_all; omega
  | case2 s h => exact Nat.le_refl _

/-- The variables and the colon after a quantifier. -/
def variables? : (s : List Lexeme) → Option (Taken (List String) s)
  | .word w :: s =>
    match h : moreWords s with
    | (ws, .mark .colon :: rest) =>
      some ⟨w :: ws, rest, by have := length_moreWords s; simp [h] at this ⊢; omega⟩
    | _ => none
  | _ => none

/-- The operator of a conjunction. -/
def andOp? (c : Lexeme) : Option BinaryOp := if c.spells "and" .and then some .and else none

/-- The operator of a disjunction. -/
def orOp? (c : Lexeme) : Option BinaryOp := if c.spells "or" .or then some .or else none

/-- The dot of a join. -/
def dotOp? (c : Lexeme) : Option Unit := if c = .mark .dot then some () else none

section Chains

variable {ω : Type} (make : ω → Formula → Formula → Formula) (op? : Lexeme → Option ω)

/-- The operands of a chain after the first, `x`, each with an operator before it. -/
def moreChain (x : Formula) (s : List Lexeme)
    (item? : (t : List Lexeme) → t.length < s.length → Option (Taken Formula t)) : Trailing Formula s :=
  match s with
  | [] => ⟨x, [], Nat.le_refl _⟩
  | c :: t =>
    match op? c with
    | none => ⟨x, c :: t, Nat.le_refl _⟩
    | some op =>
      match item? t (by simp) with
      | none => ⟨x, c :: t, Nat.le_refl _⟩
      | some ⟨y, r, hr⟩ =>
        match moreChain (make op x y) r fun u hu => item? u (by simp; omega) with
        | ⟨z, rest, h⟩ => ⟨z, rest, by simp; omega⟩
termination_by s.length
decreasing_by simp; omega

/-- **A chain of operands** with operators of one level between them, read from the left. -/
def chain (s : List Lexeme) (item? : (t : List Lexeme) → t.length ≤ s.length → Option (Taken Formula t)) :
    Option (Taken Formula s) :=
  match item? s (Nat.le_refl _) with
  | none => none
  | some ⟨x, r, hr⟩ =>
    match moreChain make op? x r fun t ht => item? t (by omega) with
    | ⟨y, rest, h⟩ => some ⟨y, rest, by omega⟩

end Chains

mutual

def iff? (s : List Lexeme) : Option (Taken Formula s) :=
  match implies? s with
  | none => none
  | some ⟨x, r, hr⟩ =>
    match r with
    | [] => some ⟨x, [], hr⟩
    | c :: t =>
      if c.spells "iff" .iff then
        match iff? t with
        | some ⟨y, rest, h⟩ => some ⟨.binary .iff x y, rest, by simp at hr; omega⟩
        | none => some ⟨x, c :: t, hr⟩
      else some ⟨x, c :: t, hr⟩
termination_by 16 * s.length + 12
decreasing_by all_goals grind

/-- Implication, and the conditional term. -/
def implies? (s : List Lexeme) : Option (Taken Formula s) :=
  match or? s with
  | none => none
  | some ⟨x, r, hr⟩ =>
    match r with
    | [] => some ⟨x, [], hr⟩
    | c :: t =>
      if c.spells "implies" .implies then
        match implies? t with
        | none => some ⟨x, c :: t, hr⟩
        | some ⟨y, u, hu⟩ =>
          match u with
          | [] => some ⟨.binary .implies x y, [], by simp at hr hu ⊢; omega⟩
          | d :: v =>
            if d = .word "else" then
              match implies? v with
              | some ⟨z, rest, h⟩ => some ⟨.ite x y z, rest, by simp at hr hu; omega⟩
              | none => some ⟨.binary .implies x y, d :: v, by simp at hr hu ⊢; omega⟩
            else some ⟨.binary .implies x y, d :: v, by simp at hr hu ⊢; omega⟩
      else some ⟨x, c :: t, hr⟩
termination_by 16 * s.length + 11
decreasing_by all_goals grind

def or? (s : List Lexeme) : Option (Taken Formula s) := chain .binary orOp? s fun t _ => and? t
termination_by 16 * s.length + 10

def and? (s : List Lexeme) : Option (Taken Formula s) := chain .binary andOp? s fun t _ => negated? t
termination_by 16 * s.length + 9

/-- Negation, a quantified formula or a comparison. -/
def negated? (s : List Lexeme) : Option (Taken Formula s) :=
  match s with
  | [] => none
  | c :: t =>
    match (if c.spells "not" .bang then negated? t else none) with
    | some ⟨x, rest, h⟩ => some ⟨.unary .not x, rest, by simp; omega⟩
    | none =>
      match quantified? (c :: t) with
      | some q => some q
      | none => compared? (c :: t)
termination_by 16 * s.length + 8
decreasing_by all_goals grind

def quantified? (s : List Lexeme) : Option (Taken Formula s) :=
  match s with
  | [] => none
  | c :: t =>
    match quantifier? c with
    | none => none
    | some kind =>
      match variables? t with
      | none => none
      | some ⟨vars, u, hu⟩ =>
        match sum? u with
        | none => none
        | some ⟨domain, v, hv⟩ =>
          match v with
          | .mark .bar :: w =>
            match iff? w with
            | some ⟨body, rest, h⟩ =>
              some ⟨.quant kind vars domain body, rest, by simp at hv ⊢; omega⟩
            | none => none
          | _ => none
termination_by 16 * s.length + 7
decreasing_by all_goals grind

/-- A comparison or a term, perhaps under a multiplicity. -/
def compared? (s : List Lexeme) : Option (Taken Formula s) :=
  match s with
  | [] => none
  | c :: t =>
    match mult? c with
    | some m =>
      match sum? t with
      | none => none
      | some ⟨x, r, hr⟩ =>
        match moreCompared (.unary (.mult m) x) r with
        | ⟨y, rest, h⟩ => some ⟨y, rest, by simp; omega⟩
    | none =>
      match sum? (c :: t) with
      | none => none
      | some ⟨x, r, hr⟩ =>
        match moreCompared x r with
        | ⟨y, rest, h⟩ => some ⟨y, rest, by omega⟩
termination_by 16 * s.length + 7
decreasing_by all_goals grind

def moreCompared (x : Formula) (s : List Lexeme) : Trailing Formula s :=
  match s with
  | [] => ⟨x, [], Nat.le_refl _⟩
  | c :: t =>
    match comparison? c with
    | none => ⟨x, c :: t, Nat.le_refl _⟩
    | some op =>
      match sum? t with
      | none => ⟨x, c :: t, Nat.le_refl _⟩
      | some ⟨y, rest, h⟩ => ⟨.binary op x y, rest, by simp; omega⟩
termination_by 16 * s.length
decreasing_by all_goals grind

def sum? (s : List Lexeme) : Option (Taken Formula s) := chain .binary sumOp? s fun t _ => prod? t
termination_by 16 * s.length + 6

def prod? (s : List Lexeme) : Option (Taken Formula s) := chain .binary prodOp? s fun t _ => unary? t
termination_by 16 * s.length + 5

/-- An operator in front of its operand, or a join. -/
def unary? (s : List Lexeme) : Option (Taken Formula s) :=
  match s with
  | [] => none
  | c :: t =>
    match unaryOp? c with
    | some op =>
      match unary? t with
      | some ⟨x, rest, h⟩ => some ⟨applyUnary op x, rest, by simp; omega⟩
      | none => none
    | none => dotted? (c :: t)
termination_by 16 * s.length + 4
decreasing_by all_goals grind

def dotted? (s : List Lexeme) : Option (Taken Formula s) := chain (fun _ => .join) dotOp? s fun t _ => primary? t
termination_by 16 * s.length + 3

/-- A formula in parentheses, a pre-state term, a literal, an identifier or a call. -/
def primary? (s : List Lexeme) : Option (Taken Formula s) :=
  match s with
  | .mark .leftParen :: t =>
    match iff? t with
    | some ⟨x, .mark .rightParen :: rest, h⟩ => some ⟨x, rest, by simp at h ⊢; omega⟩
    | _ => none
  | .old :: .mark .leftParen :: t =>
    match iff? t with
    | some ⟨x, .mark .rightParen :: rest, h⟩ => some ⟨.old x, rest, by simp at h ⊢; omega⟩
    | _ => none
  | .number digits :: rest =>
    match Text.Literal.read digits with
    | .exact v => some ⟨.int v, rest, by simp⟩
    | _ => none
  | .word name :: .mark .leftBracket :: t =>
    match arguments? t with
    | some ⟨args, rest, h⟩ => some ⟨.call name args, rest, by simp; omega⟩
    | none => some ⟨.ident name, .mark .leftBracket :: t, by simp⟩
  | .word name :: rest => some ⟨.ident name, rest, by simp⟩
  | _ => none
termination_by 16 * s.length + 2
decreasing_by all_goals grind

/-- The arguments of a call and the bracket after them. -/
def arguments? (s : List Lexeme) : Option (Taken (List Formula) s) :=
  match iff? s with
  | none =>
    match s with
    | .mark .rightBracket :: rest => some ⟨[], rest, by simp⟩
    | _ => none
  | some ⟨x, r, hr⟩ =>
    match moreArguments r with
    | ⟨xs, .mark .rightBracket :: rest, h⟩ => some ⟨x :: xs, rest, by simp at h; omega⟩
    | _ => none
termination_by 16 * s.length + 13
decreasing_by all_goals grind

def moreArguments (s : List Lexeme) : Trailing (List Formula) s :=
  match s with
  | .mark .comma :: t =>
    match iff? t with
    | none => ⟨[], .mark .comma :: t, Nat.le_refl _⟩
    | some ⟨x, r, hr⟩ =>
      match moreArguments r with
      | ⟨xs, rest, h⟩ => ⟨x :: xs, rest, by simp; omega⟩
  | s => ⟨[], s, Nat.le_refl _⟩
termination_by 16 * s.length
decreasing_by all_goals grind

end

end Reading

/-- **Reads a formula** that is the whole of a text. -/
def read (s : String) : Except ReadError Formula := do
  match Reading.iff? (← lexed s) with
  | some ⟨x, [], _⟩ => .ok x
  | _ => .error .grammar

end Relspec.Formula
