import Relspec.Contract.Basic
import Relspec.Formula.Names

/-!
# Arithmetic/Extraction — integer operations of contracts as side variables

Every integer operation of a contract that does not depend on a quantified variable is replaced by a side
variable, from the leaves up, so that each definition holds one operation.  An operation under `old` is
defined under `old` as well.  Side variables are numbered over a whole pass.

* `extract` takes the operations out of a formula;
* `Extraction.side` labels the side variables with the part of the contract they come from.
-/

namespace Relspec

/-- A computation that introduces side variables; the state is how many there are. -/
abbrev SideNaming := StateM Nat

namespace Arithmetic

/-- The `n`-th side variable. -/
def sideVar (n : Nat) : String := "arith_" ++ toString n

/-- A side variable and the operation it stands for. -/
structure Definition where
  name : String
  value : Formula
deriving Repr, BEq

/-- A definition as a formula. -/
def Definition.equation (d : Definition) : Formula := .eq (.ident d.name) d.value

/-- Gives an operation a side variable. -/
def name (inOld : Bool) (node : Formula) : SideNaming (Formula × List Definition) := do
  let n ← get
  set (n + 1)
  return (.ident (sideVar n), [⟨sideVar n, if inOld then .old node else node⟩])

/-- Names an operation that depends on none of the bound variables. -/
def nameUnless (bound : List String) (inOld : Bool) (node : Formula) :
    SideNaming (Formula × List Definition) :=
  if node.mentions bound then pure (node, []) else name inOld node

mutual

/-- **Takes the operations out of a formula** that stands under the variables `bound`. -/
def extract (bound : List String) (inOld : Bool) : Formula → SideNaming (Formula × List Definition)
  | .ident name => pure (.ident name, [])
  | .int value => pure (.int value, [])
  | .binary op x y => do
    let (x, ds) ← extract bound inOld x
    let (y, es) ← extract bound inOld y
    match op with
    | .arith _ =>
      let (f, d) ← nameUnless bound inOld (.binary op x y)
      return (f, ds ++ es ++ d)
    | _ => return (.binary op x y, ds ++ es)
  | .unary op x => do
    let (x, ds) ← extract bound inOld x
    match op with
    | .neg =>
      let (f, d) ← nameUnless bound inOld (.unary op x)
      return (f, ds ++ d)
    | _ => return (.unary op x, ds)
  | .quant kind vars domain body => do
    let (domain, ds) ← extract bound inOld domain
    let (body, es) ← extract (bound ++ vars) inOld body
    return (.quant kind vars domain body, ds ++ es)
  | .old x => do
    let (x, ds) ← extract bound true x
    return (.old x, ds)
  | .join l r => do
    let (l, ds) ← extract bound inOld l
    let (r, es) ← extract bound inOld r
    return (.join l r, ds ++ es)
  | .call name args => do
    let (args, ds) ← extractAll bound inOld args
    return (.call name args, ds)
  | .ite c t e => do
    let (c, ds) ← extract bound inOld c
    let (t, es) ← extract bound inOld t
    let (e, fs) ← extract bound inOld e
    return (.ite c t e, ds ++ es ++ fs)

/-- `extract` on each of several formulas. -/
def extractAll (bound : List String) (inOld : Bool) :
    List Formula → SideNaming (List Formula × List Definition)
  | [] => pure ([], [])
  | x :: xs => do
    let (x, ds) ← extract bound inOld x
    let (xs, es) ← extractAll bound inOld xs
    return (x :: xs, ds ++ es)

end

/-- The side entries of definitions from one part of a contract. -/
def sideOf (origin : Origin) (ds : List Definition) : Side where
  vars := ds.map fun d => ⟨d.name, origin⟩
  defs := ds.map fun d => ⟨origin, d.equation⟩

/-- Takes the operations out of a part of a contract. -/
def extractPart (origin : Origin) (f : Formula) : SideNaming (Formula × Side) := do
  let (f, ds) ← extract [] false f
  return (f, sideOf origin ds)

end Arithmetic

end Relspec
