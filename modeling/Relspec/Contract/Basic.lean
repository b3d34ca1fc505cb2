import Relspec.Formula.Basic
import Relspec.Text.Number
import Relspec.Text.Search
import Relspec.Var

/-!
# Contract/Basic — contract modules

A class becomes a contract module: its fields, its predicates and one program per method, with contracts
and bodies written as relational formulas.  Integer operations of contracts stand apart as side
variables, each with a defining formula.

* `Module`, `Program`, `Stmt` — the tree;
* `programId` names a program, `splitProgramId` takes such a name apart again.
-/

namespace Relspec

/-- A named formula over its parameters. -/
structure Predicate where
  name : String
  params : List Var
  body : Formula
deriving Repr, BEq

/-! ## Side variables -/

/-- The part of a contract that a side variable comes from. -/
inductive Origin where
  | requires
  | ensures
  | invariant
deriving DecidableEq, Repr

namespace Origin

def word : Origin → String
  | .requires => "requires"
  | .ensures => "ensures"
  | .invariant => "invariant"

def ofWord? (w : String) : Option Origin :=
  [Origin.requires, .ensures, .invariant].find? fun o => o.word == w

end Origin

/-- A variable that stands for one integer operation of a contract. -/
structure SideVar where
  name : String
  origin : Origin
deriving DecidableEq, Repr

/-- The formula that defines a side variable. -/
structure SideDef where
  origin : Origin
  formula : Formula
deriving Repr, BEq

/-- **The side variables of a contract** and their definitions. -/
structure Side where
  vars : List SideVar := []
  defs : List SideDef := []
deriving Repr, BEq

namespace Side

/-- Two side sets, one after the other. -/
def append (s t : Side) : Side := ⟨s.vars ++ t.vars, s.defs ++ t.defs⟩

instance : Append Side := ⟨append⟩

def ofOrigin (s : Side) (o : Origin) : Side :=
  ⟨s.vars.filter (·.origin == o), s.defs.filter (·.origin == o)⟩

def names (s : Side) : List String := s.vars.map (·.name)

def formulas (s : Side) : List Formula := s.defs.map (·.formula)

end Side

namespace Contract

/-- A statement of a program.  The target of an assignment is a variable or a field of an object; a loop
carries the conjunction of its invariants and its variant. -/
inductive Stmt where
  | assign (target value : Formula)
  | branch (cond : Formula) (thn els : List Stmt)
  | loop (cond : Formula) (invariant variant : Option Formula) (body : List Stmt)
  | assert (cond : Formula)
  | assume (cond : Formula)
  | ret (value : Option Formula)
  | raise (exception : String)
deriving Repr, BEq

/-- **A program**: a method with its contract.  `returns` is missing when the method has no result. -/
structure Program where
  id : String
  method : String
  overload : Nat
  params : List Var := []
  returns : Option ValueType := none
  locals : List Var := []
  requires : Formula := .truth
  ensures : Formula := .truth
  side : Side := {}
  body : List Stmt := []
deriving Repr, BEq

/-- **A contract module**: what one class becomes.  `invariant` names the predicate that is its object
invariant. -/
structure Module where
  id : String
  className : String
  fields : List Var := []
  predicates : List Predicate := []
  invariant : Option String := none
  side : Side := {}
  programs : List Program := []
deriving Repr, Inhabited, BEq

namespace Module

def program? (m : Module) (id : String) : Option Program := m.programs.find? (·.id == id)

def predicate? (m : Module) (name : String) : Option Predicate := m.predicates.find? (·.name == name)

def field? (m : Module) (name : String) : Option Var := m.fields.find? (·.name == name)

end Module

/-! ## Program ids -/

/-- The id of a program: module, method and the number of the overload. -/
def programId (owner method : String) (overload : Nat) : String :=
  owner ++ "_" ++ method ++ "_" ++ toString overload

/-- The method and the overload in a program id.  An id without a number is a method of its own. -/
def splitProgramId (owner id : String) : String × Nat :=
  let rest := Text.dropStart id (owner ++ "_")
  match Text.cutLast? '_' rest with
  | none => (rest, 0)
  | some (method, number) =>
    match Text.integer? number with
    | some n => (method, n.toNat)
    | none => (rest, 0)

end Contract

end Relspec
