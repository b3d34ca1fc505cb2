import Relspec.Formula.Basic

/-!
# Formula/Printer — formulas as text

Every compound formula stands in parentheses, so that the text has one reading.
-/

namespace Relspec

def Multiplicity.word : Multiplicity → String
  | .some => "some"
  | .no => "no"
  | .one => "one"
  | .lone => "lone"

namespace Formula

def UnaryOp.symbol : UnaryOp → String
  | .not => "not"
  | .neg => "-"
  | .card => "#"
  | .star => "*"
  | .closure => "^"
  | .mult m => m.word

/-- Whether a blank stands between a unary operator and its operand. -/
def UnaryOp.isWord : UnaryOp → Bool
  | .not | .mult _ => true
  | _ => false

def BinaryOp.symbol : BinaryOp → String
  | .and => "and"
  | .or => "or"
  | .implies => "implies"
  | .iff => "iff"
  | .eq => "="
  | .ne => "!="
  | .mem => "in"
  | .lt => "<"
  | .le => "<="
  | .gt => ">"
  | .ge => ">="
  | .arith op => op.symbol
  | .override => "++"
  | .product => "->"

def Quantifier.word : Quantifier → String
  | .all => "all"
  | .mult m => m.word

mutual

/-- **The text of a formula.** -/
def text : Formula → String
  | .ident name => name
  | .int value => toString value.toInt
  | .join l r => l.text ++ "." ++ r.text
  | .call name args => name ++ "[" ++ argsText args ++ "]"
  | .unary op x => "(" ++ op.symbol ++ (if op.isWord then " " else "") ++ x.text ++ ")"
  | .binary op x y => "(" ++ x.text ++ " " ++ op.symbol ++ " " ++ y.text ++ ")"
  | .quant kind vars domain body =>
    "(" ++ kind.word ++ " " ++ ", ".intercalate vars ++ ": " ++ domain.text ++ " | " ++ body.text ++ ")"
  | .old x => "\\old(" ++ x.text ++ ")"
  | .ite c t e => "(" ++ c.text ++ " implies " ++ t.text ++ " else " ++ e.text ++ ")"

/-- The texts of arguments with commas between them. -/
def argsText : List Formula → String
  | [] => ""
  | [x] => x.text
  | x :: y :: xs => x.text ++ "," ++ argsText (y :: xs)

end

end Formula

end Relspec
