import Relspec.Contract.Basic

/-!
# Relational/Basic — relational modules

A relational module is a contract module in the terms of the model finder: every integer operation is a
call or a predicate, every operation of a body is a statement of its own, and postconditions name the
state after a program with primes.

* `Module`, `Program`, `Stmt` — the tree;
* `Stmt.walk` lists the statements of a body, `Program.exceptions` what it throws.
-/

namespace Relspec.Relational

/-- A statement.  `compute` sets its target through an arithmetic predicate; a loop runs its lead
before every test. -/
inductive Stmt where
  | assign (target : String) (value : Formula)
  | update (field : String) (object value : Formula)
  | compute (target pred : String) (args : List Formula)
  | branch (cond : Formula) (thn els : List Stmt)
  | loop (lead : List Stmt) (cond : Formula) (invariant variant : Option Formula)
      (body : List Stmt)
  | assert (cond : Formula)
  | assume (cond : Formula)
  | ret (value : Option Formula)
  | raise (exception : String)
deriving Repr, BEq

/-- **A relational program.**  `locals` are the local variables of the method and then the temporaries;
`skolems` stand for quantified variables of the contract. -/
structure Program where
  id : String
  owner : String
  method : String
  overload : Nat
  params : List Var := []
  locals : List Var := []
  returns : Option ValueType := none
  pre : Formula := .truth
  post : Formula := .truth
  side : Side := {}
  skolems : List Var := []
  body : List Stmt := []
deriving Repr, BEq

/-- **A relational module**, with its object invariant. -/
structure Module where
  id : String
  className : String
  fields : List Var := []
  invariant : Predicate
  side : Side := {}
  programs : List Program := []
deriving Repr, BEq

def Module.program? (m : Module) (id : String) : Option Program := m.programs.find? (·.id == id)

mutual

/-- A statement and all statements within it, each before its parts. -/
def Stmt.walk : Stmt → List Stmt
  | .branch cond thn els => .branch cond thn els :: (Stmt.walkAll thn ++ Stmt.walkAll els)
  | .loop lead cond invariant variant body =>
    .loop lead cond invariant variant body :: (Stmt.walkAll lead ++ Stmt.walkAll body)
  | s => [s]

def Stmt.walkAll : List Stmt → List Stmt
  | [] => []
  | s :: ss => s.walk ++ Stmt.walkAll ss

end

/-- The exception that a statement itself throws. -/
def Stmt.thrown? : Stmt → Option String
  | .raise exception => some exception
  | _ => none

/-- The exceptions that a program throws, each once, in the order of the text. -/
def Program.exceptions (p : Program) : List String :=
  ((Stmt.walkAll p.body).filterMap Stmt.thrown?).eraseDups

end Relspec.Relational
