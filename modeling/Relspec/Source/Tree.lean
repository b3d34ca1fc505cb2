import Relspec.Arithmetic.Operator
import Relspec.Text.Position

/-!
# Source/Tree — annotated classes

The syntax trees of annotated sources: expressions with the contract words `\old`, `\result` and the
quantifiers, statements with loop clauses, and classes whose members carry contracts.  Every node keeps
the place it was read at; the file is kept once, with the class.

* `Expr.pos` — where an expression starts;
* `ClassDecl.qualifiedName`, `Method.signature` — the names by which classes and methods are known.
-/

namespace Relspec.Source

/-- A type as written: a possibly dotted name, with or without `[]`. -/
structure TypeRef where
  name : String
  array : Bool
deriving DecidableEq, Repr

/-- The operators before an operand. -/
inductive UnaryOp where
  | not | neg
deriving DecidableEq, Repr

/-- The operators between two operands. -/
inductive BinaryOp where
  | iff | implies | or | and
  | eq | ne | lt | le | gt | ge
  | arith (op : ArithOp)
deriving DecidableEq, Repr

/-- The quantifiers of contracts. -/
inductive Quantifier where
  | all | any
deriving DecidableEq, Repr

/-- An expression. -/
inductive Expr where
  | ident (pos : Position) (name : String)
  | int (pos : Position) (value : Int64)
  | bool (pos : Position) (value : Bool)
  | string (pos : Position) (value : String)
  | null (pos : Position)
  | self (pos : Position)
  | result (pos : Position)
  | old (pos : Position) (inner : Expr)
  | field (pos : Position) (object : Expr) (name : String)
  | call (pos : Position) (name : String) (args : List Expr)
  | invoke (pos : Position) (receiver : Expr) (name : String) (args : List Expr)
  | index (pos : Position) (array position : Expr)
  | new (pos : Position) (type : String) (args : List Expr)
  | unary (pos : Position) (op : UnaryOp) (operand : Expr)
  | binary (pos : Position) (op : BinaryOp) (left right : Expr)
  | quant (pos : Position) (quantifier : Quantifier) (var : String) (type : TypeRef) (body : Expr)
  | quantOver (pos : Position) (quantifier : Quantifier) (var : String) (type : TypeRef)
      (range body : Expr)
deriving Repr

/-- The kinds of contract clause. -/
inductive ClauseKind where
  | precondition | postcondition | loopInvariant | loopVariant | assertion | assumption
  | objectInvariant
deriving DecidableEq, Repr

/-- A contract clause: a kind and an expression. -/
structure Clause where
  pos : Position
  kind : ClauseKind
  expr : Expr
deriving Repr

/-- A statement.  The bodies of branches and loops are lists of statements with the place of their
opening; a branch without `else` has a constructor of its own. -/
inductive Stmt where
  | block (pos : Position) (body : List Stmt)
  | declare (pos : Position) (name : String) (type : TypeRef) (init : Option Expr)
  | assign (pos : Position) (target value : Expr)
  | ifThen (pos : Position) (cond : Expr) (thenPos : Position) (thenBody : List Stmt)
  | ifElse (pos : Position) (cond : Expr) (thenPos : Position) (thenBody : List Stmt)
      (elsePos : Position) (elseBody : List Stmt)
  | loop (pos : Position) (cond : Expr) (invariants : List Clause) (variant : Option Clause)
      (bodyPos : Position) (body : List Stmt)
  | ret (pos : Position) (value : Option Expr)
  | raise (pos : Position) (exception : Expr)
  | assert (pos : Position) (cond : Expr)
  | assume (pos : Position) (cond : Expr)
  | eval (pos : Position) (expr : Expr)
deriving Repr

/-- The kinds of pragma. -/
inductive PragmaKind where
  | invariant | requires | ensures
deriving DecidableEq, Repr

/-- A pragma `@Kind("...")`: a formula of the assertion language, kept as text. -/
structure Pragma where
  pos : Position
  kind : PragmaKind
  formula : String
deriving DecidableEq, Repr

/-- A field.  Its type is absent when it was declared `void`. -/
structure Field where
  pos : Position
  name : String
  type : Option TypeRef
deriving DecidableEq, Repr

/-- A parameter. -/
structure Param where
  pos : Position
  name : String
  type : TypeRef
deriving DecidableEq, Repr

/-- A method body: the place of its opening brace and its statements. -/
structure Body where
  pos : Position
  stmts : List Stmt
deriving Repr

/-- A method with its contract.  `returns` is absent for `void`, `body` when the method has none. -/
structure Method where
  pos : Position := .start
  name : String
  params : List Param := []
  returns : Option TypeRef := none
  throws : List String := []
  clauses : List Clause := []
  pragmas : List Pragma := []
  body : Option Body := none
deriving Repr

/-- A class: its members and contracts in source order. -/
structure ClassDecl where
  file : String
  pos : Position := .start
  package : Option String := none
  name : String
  superclass : Option String := none
  fields : List Field := []
  invariants : List Clause := []
  pragmas : List Pragma := []
  methods : List Method := []
deriving Repr

def Expr.pos : Expr → Position
  | ident pos .. | int pos .. | bool pos .. | string pos .. | null pos | self pos | result pos
  | old pos .. | field pos .. | call pos .. | invoke pos .. | index pos .. | new pos ..
  | unary pos .. | binary pos .. | quant pos .. | quantOver pos .. => pos

namespace UnaryOp

def symbol : UnaryOp → String
  | .not => "!"
  | .neg => "-"

end UnaryOp

namespace BinaryOp

def symbol : BinaryOp → String
  | .iff => "<==>"
  | .implies => "==>"
  | .or => "||"
  | .and => "&&"
  | .eq => "=="
  | .ne => "!="
  | .lt => "<"
  | .le => "<="
  | .gt => ">"
  | .ge => ">="
  | .arith op => op.symbol

def precedence : BinaryOp → Nat
  | .iff => 1
  | .implies => 2
  | .or => 3
  | .and => 4
  | .eq | .ne => 5
  | .lt | .le | .gt | .ge => 6
  | .arith .add | .arith .sub => 7
  | .arith .mul | .arith .div | .arith .rem => 8

/-- The least precedence of an operator that may stand in the right operand without parentheses: one
more than the operator's own, except for the implication, which associates to the right. -/
def rightLevel (op : BinaryOp) : Nat :=
  match op with
  | .implies => op.precedence
  | _ => op.precedence + 1

end BinaryOp

namespace ClauseKind

def keyword : ClauseKind → String
  | .precondition => "requires"
  | .postcondition => "ensures"
  | .loopInvariant => "loop_invariant"
  | .loopVariant => "decreases"
  | .assertion => "assert"
  | .assumption => "assume"
  | .objectInvariant => "invariant"

/-- Every kind, in the customary order. -/
def all : List ClauseKind :=
  [.precondition, .postcondition, .loopInvariant, .loopVariant, .assertion, .assumption,
    .objectInvariant]

def nameAt (n : Int) : String :=
  if n < 0 then "unknown" else ((all[n.toNat]?).map keyword).getD "unknown"

end ClauseKind

namespace PragmaKind

def word : PragmaKind → String
  | .invariant => "Invariant"
  | .requires => "Requires"
  | .ensures => "Ensures"

def ofWord? (s : String) : Option PragmaKind :=
  [PragmaKind.invariant, .requires, .ensures].find? fun k => k.word == s

end PragmaKind

namespace TypeRef

def text (t : TypeRef) : String := if t.array then t.name ++ "[]" else t.name

end TypeRef

namespace ClassDecl

def qualifiedName (c : ClassDecl) : String :=
  match c.package with
  | some p => p ++ "." ++ c.name
  | none => c.name

end ClassDecl

namespace Method

def signature (m : Method) : String :=
  m.name ++ "(" ++ ",".intercalate (m.params.map fun p => p.type.text) ++ ")"

/-- The clauses of one kind, in source order. -/
def clausesOf (m : Method) (kind : ClauseKind) : List Clause :=
  m.clauses.filter fun c => c.kind = kind

end Method

end Relspec.Source
