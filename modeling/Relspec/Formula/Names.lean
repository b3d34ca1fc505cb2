import Relspec.Formula.Basic
import Relspec.Table

/-!
# Formula/Names — the names of a formula

* `Formula.freeNames` lists the identifiers that no quantifier binds, in order of first occurrence;
* `Formula.substitute` puts formulas for free identifiers, `Formula.rename` puts names.

Substitution does not rename bound variables: callers choose names that cannot be captured.
-/

namespace Relspec.Formula

mutual

/-- The free occurrences of identifiers under the names `bound`, from left to right. -/
def occurrences (bound : List String) : Formula → List String
  | .ident name => if bound.contains name then [] else [name]
  | .int _ => []
  | .join l r => l.occurrences bound ++ r.occurrences bound
  | .call _ args => occurrencesAll bound args
  | .unary _ x => x.occurrences bound
  | .binary _ x y => x.occurrences bound ++ y.occurrences bound
  | .quant _ vars domain body => domain.occurrences bound ++ body.occurrences (bound ++ vars)
  | .old x => x.occurrences bound
  | .ite c t e => c.occurrences bound ++ t.occurrences bound ++ e.occurrences bound

def occurrencesAll (bound : List String) : List Formula → List String
  | [] => []
  | x :: xs => x.occurrences bound ++ occurrencesAll bound xs

end

/-- **The free identifiers of a formula**, each once, in order of first occurrence. -/
def freeNames (e : Formula) : List String := (e.occurrences []).eraseDups

/-- Whether one of `names` occurs free in a formula. -/
def mentions (e : Formula) (names : List String) : Bool := e.freeNames.any names.contains

/-- Puts a formula for an identifier that is not bound. -/
def substituteNode (σ : Table Formula) (bound : List String) : Formula → Formula
  | .ident name => if bound.contains name then .ident name else (σ.find? name).getD (.ident name)
  | n => n

/-- **Puts formulas for free identifiers**, all at once. -/
def substitute (e : Formula) (σ : Table Formula) : Formula := e.rebuild (substituteNode σ) []

/-- Puts names for free identifiers, all at once. -/
def rename (e : Formula) (names : Table String) : Formula := e.substitute (names.map .ident)

end Relspec.Formula
