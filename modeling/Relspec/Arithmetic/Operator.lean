/-!
# Arithmetic/Operator — the integer operations

The five integer operations are shared by source expressions, formulas and the relational language.
-/

namespace Relspec

/-- An integer operation. -/
inductive ArithOp where
  | add | sub | mul | div | rem
deriving DecidableEq, Repr

namespace ArithOp

def all : List ArithOp := [.add, .sub, .mul, .div, .rem]

def symbol : ArithOp → String
  | .add => "+"
  | .sub => "-"
  | .mul => "*"
  | .div => "/"
  | .rem => "%"

/-- The integer function that computes an operation. -/
def function : ArithOp → String
  | .add => "add"
  | .sub => "sub"
  | .mul => "mul"
  | .div => "div"
  | .rem => "rem"

def ofSymbol? (s : String) : Option ArithOp := all.find? fun op => op.symbol == s

end ArithOp

end Relspec
