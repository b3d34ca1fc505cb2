import Relspec.Arithmetic.Operator

/-!
# Formula/Basic — relational formulas

Contracts, statements and specifications all speak of a state in relational formulas.  Formulas and
terms share one type: a condition is a formula, a value is a relation.

* `Formula.all`, `Formula.any` and `Formula.implies` build connectives and drop trivial operands;
* `Formula.conjuncts` takes a conjunction apart;
* `Formula.rebuild` visits a formula from the leaves up with the bound names in scope.
-/

namespace Relspec

/-- How many atoms a relation holds. -/
inductive Multiplicity where
  | some | no | one | lone
deriving DecidableEq, Repr

namespace Formula

/-- The operators on one operand: negation, integer minus, the size of a relation, its reflexive
transitive and its transitive closure, and the multiplicity tests. -/
inductive UnaryOp where
  | not | neg | card | star | closure
  | mult (m : Multiplicity)
deriving DecidableEq, Repr

/-- The operators on two operands.  Integer operations stay in a formula until they become calls. -/
inductive BinaryOp where
  | and | or | implies | iff
  | eq | ne | mem | lt | le | gt | ge
  | arith (op : ArithOp)
  | override | product
deriving DecidableEq, Repr

/-- What a quantifier asks of the values that satisfy its body. -/
inductive Quantifier where
  | all
  | mult (m : Multiplicity)
deriving DecidableEq, Repr

end Formula

/-- **A relational formula or term.**  An identifier is a variable, a relation, a signature or an
atom; `old` reads its operand in the state before a program. -/
inductive Formula where
  | ident (name : String)
  | int (value : Int64)
  | join (left right : Formula)
  | call (name : String) (args : List Formula)
  | unary (op : Formula.UnaryOp) (x : Formula)
  | binary (op : Formula.BinaryOp) (x y : Formula)
  | quant (kind : Formula.Quantifier) (vars : List String) (domain body : Formula)
  | old (x : Formula)
  | ite (cond thn els : Formula)
deriving Repr, BEq

namespace Formula

/-! ## Truth and the connectives -/

def truth : Formula := .call "TruePred" []

def falsity : Formula := .call "FalsePred" []

/-- Whether a formula is `truth`. -/
def isTruth : Formula → Bool
  | .call name [] => name == "TruePred"
  | _ => false

/-- Whether a formula is `falsity`. -/
def isFalsity : Formula → Bool
  | .call name [] => name == "FalsePred"
  | _ => false

/-- `x = y`. -/
def eq (x y : Formula) : Formula := .binary .eq x y

def not (x : Formula) : Formula := .unary .not x

/-- Adds the conjuncts `fs` to the conjunction `acc`, leaving out `truth`; `falsity` decides. -/
def allFrom : Option Formula → List Formula → Formula
  | acc, [] => acc.getD truth
  | acc, f :: fs =>
    if f.isTruth then allFrom acc fs
    else if f.isFalsity then falsity
    else
      match acc with
      | none => allFrom (some f) fs
      | some g => allFrom (some (.binary .and g f)) fs

/-- **The conjunction of formulas**, nested to the left, without trivial operands. -/
def all (fs : List Formula) : Formula := allFrom none fs

/-- Adds the disjuncts `fs` to the disjunction `acc`, leaving out `falsity`; `truth` decides. -/
def anyFrom : Option Formula → List Formula → Formula
  | acc, [] => acc.getD falsity
  | acc, f :: fs =>
    if f.isFalsity then anyFrom acc fs
    else if f.isTruth then truth
    else
      match acc with
      | none => anyFrom (some f) fs
      | some g => anyFrom (some (.binary .or g f)) fs

/-- **The disjunction of formulas**, nested to the left, without trivial operands. -/
def any (fs : List Formula) : Formula := anyFrom none fs

/-- **Implication**, without trivial guards and conclusions. -/
def implies (guard f : Formula) : Formula :=
  if guard.isTruth then f
  else if guard.isFalsity || f.isTruth then truth
  else .binary .implies guard f

/-- The operands of a conjunction, at any depth. -/
def conjuncts : Formula → List Formula
  | .binary .and x y => x.conjuncts ++ y.conjuncts
  | f => if f.isTruth then [] else [f]

/-! ## Visiting -/

mutual

/-- **Rebuilds a formula from the leaves up**, replacing each node by what `f` makes of it; `f` is
given the names bound around the node. -/
def rebuild (f : List String → Formula → Formula) (bound : List String) : Formula → Formula
  | .ident name => f bound (.ident name)
  | .int value => f bound (.int value)
  | .join l r => f bound (.join (l.rebuild f bound) (r.rebuild f bound))
  | .call name args => f bound (.call name (rebuildAll f bound args))
  | .unary op x => f bound (.unary op (x.rebuild f bound))
  | .binary op x y => f bound (.binary op (x.rebuild f bound) (y.rebuild f bound))
  | .quant kind vars domain body =>
    f bound (.quant kind vars (domain.rebuild f bound) (body.rebuild f (bound ++ vars)))
  | .old x => f bound (.old (x.rebuild f bound))
  | .ite c t e => f bound (.ite (c.rebuild f bound) (t.rebuild f bound) (e.rebuild f bound))

/-- `rebuild` on each of several formulas. -/
def rebuildAll (f : List String → Formula → Formula) (bound : List String) :
    List Formula → List Formula
  | [] => []
  | x :: xs => x.rebuild f bound :: rebuildAll f bound xs

end

mutual

/-- The integer literals of a formula, from left to right. -/
def literals : Formula → List Int64
  | .ident _ => []
  | .int value => [value]
  | .join l r => l.literals ++ r.literals
  | .call _ args => literalsAll args
  | .unary _ x => x.literals
  | .binary _ x y => x.literals ++ y.literals
  | .quant _ _ domain body => domain.literals ++ body.literals
  | .old x => x.literals
  | .ite c t e => c.literals ++ t.literals ++ e.literals

def literalsAll : List Formula → List Int64
  | [] => []
  | x :: xs => x.literals ++ literalsAll xs

end

end Formula

end Relspec
