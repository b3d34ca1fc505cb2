import Relspec.Contract.Basic
import Relspec.Formula.Names
import Relspec.Relational.Operation

/-!
# Relational/Contract — contracts over the states before and after

A precondition speaks of the state before a program.  A postcondition speaks of both: names of the state
after get a prime, names under `old` do not.  Quantifiers at the top of a contract can become variables
of the program.

* `preState`, `postState` — a formula over one state, and over two;
* `define` — the definition of a side variable;
* `skolemize` — quantifiers become variables.
-/

namespace Relspec.Relational

/-- The name of a variable in the state after a program. -/
def primed (name : String) : String := name ++ "'"

/-- Drops every `old`. -/
def stripOld (f : Formula) : Formula :=
  f.rebuild (fun _ n =>
    match n with
    | .old x => x
    | _ => n) []

/-- Takes a prime off each name. -/
def unprime (f : Formula) : Formula :=
  f.rebuild (fun _ n =>
    match n with
    | .ident name => .ident (Text.dropEnd name "'")
    | _ => n) []

/-- Primes the free names of the state, but not under `old`, which is dropped. -/
def prime (state : List String) (f : Formula) : Formula :=
  f.rebuild (fun bound n =>
    match n with
    | .ident name => if state.contains name && !bound.contains name then .ident (primed name) else n
    | .old x => unprime x
    | _ => n) []

/-- **A formula over the state before a program.** -/
def preState (f : Formula) : Formula := stripOld (inline f)

/-- **A formula over the states before and after a program.** -/
def postState (state : List String) (f : Formula) : Formula := prime state (inline f)

/-! ## Side variables -/

/-- What sets `v` to the result of an operation: an equation with a call, or an arithmetic predicate. -/
def apply (native : Bool) (op : ArithOp) (a b : Formula) (v : String) : Formula :=
  if native then .call op.predicate [a, b, .ident v] else .eq (.ident v) (functionCall op a b)

/-- The operation that a side variable stands for; under `old` its operands are taken from the state
before. -/
def definedBy? (f : Formula) : Option (ArithOp × Formula × Formula) :=
  match f with
  | .old x => (operation? x).map fun (op, a, b) => (op, .old a, .old b)
  | f => operation? f

/-- The definition of a side variable in the chosen arithmetic. -/
def applied (native : Bool) (f : Formula) : Formula :=
  match f with
  | .binary .eq (.ident v) rhs =>
    match definedBy? rhs with
    | some (op, a, b) => apply native op a b v
    | none => f
  | _ => f

/-- **The definition of a side variable** over the states that its part of the contract speaks of. -/
def define (native : Bool) (state : List String) (d : SideDef) : SideDef :=
  let f := applied native d.formula
  { d with
    formula := match d.origin with
      | .ensures => postState state f
      | .requires | .invariant => preState f }

/-! ## Quantifiers as variables -/

/-- The type of a variable that ranges over a relation. -/
def skolemType (domain : String) : ValueType :=
  if domain = "Int" then .int else if domain = "boolean" then .bool else .ref domain

/-- The variable that stands for a quantified one. -/
def skolemName (n : Nat) (var : String) : String := "sk_" ++ toString n ++ "_" ++ var

/-- Quantified variables with the variables that stand for them, numbered from `n`. -/
def skolemNames (n : Nat) : List String → List (String × String)
  | [] => []
  | v :: vs => (v, skolemName n v) :: skolemNames (n + 1) vs

/-- Puts variables for a quantifier of the kind `kind` at the root of a conjunct, numbered from `n`. -/
def skolemizeConjunct (kind : Formula.Quantifier) (n : Nat) (c : Formula) : Formula × List Var :=
  match c with
  | .quant k vars (.ident domain) body =>
    if k = kind then
      let names := skolemNames n vars
      let ranges := names.map fun v => Formula.binary .mem (.ident v.2) (.ident domain)
      let body := body.rename (.ofList names)
      (match kind with
        | .mult .some => .all (ranges ++ [body])
        | _ => .implies (.all ranges) body,
        names.map fun v => ⟨v.2, skolemType domain⟩)
    else (c, [])
  | _ => (c, [])

/-- Puts variables for the quantifiers at the root of conjuncts, numbered from `n`. -/
def skolemizeAll (kind : Formula.Quantifier) (n : Nat) : List Formula → List Formula × List Var
  | [] => ([], [])
  | c :: cs =>
    let (c, vs) := skolemizeConjunct kind n c
    let (cs, ws) := skolemizeAll kind (n + vs.length) cs
    (c :: cs, vs ++ ws)

/-- **Puts variables for the quantifiers at the top of a formula**, numbered from `n`. -/
def skolemize (kind : Formula.Quantifier) (n : Nat) (f : Formula) : Formula × List Var :=
  let (cs, vs) := skolemizeAll kind n f.conjuncts
  (.all cs, vs)

end Relspec.Relational
