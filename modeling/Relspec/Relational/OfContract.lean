import Relspec.Relational.Basic
import Relspec.Relational.Contract
import Relspec.Settings.Basic
import Relspec.Formula.Printer

/-!
# Relational/OfContract — the relational module of a contract module

Contracts are put over the states before and after, and the operations of bodies are taken apart into
temporaries, innermost first.  Every integer literal has to fit the bit width; the first that does not,
from left to right, is the fault.

* `flatten` takes the operations out of an expression of a body;
* `ofProgram`, `ofModule`, `ofModules`.
-/

namespace Relspec.Relational

/-! ## Literals -/

/-- The largest integer of a width. -/
def maxInt (bits : Int) : Int := if bits ≤ 64 then Int.pow 2 (bits - 1).toNat - 1 else -1

/-- Whether an integer fits a width. -/
def fits (bits : Int) (v : Int64) : Bool :=
  decide (-maxInt bits - 1 ≤ v.toInt) && decide (v.toInt ≤ maxInt bits)

/-- Fails with the first literal of a formula that does not fit. -/
def checkLiterals (bits : Int) (owner : String) (f : Formula) : Except Fault Unit :=
  match f.literals.find? fun v => !fits bits v with
  | some v => .error (.literalRange v.toInt bits owner)
  | none => .ok ()

/-! ## Bodies -/

/-- A computation that uses temporaries; the state is how many there are. -/
abbrev Temporaries := StateM Nat

/-- The `n`-th temporary. -/
def tempName (n : Nat) : String := "t_" ++ toString n

/-- The statement that sets a temporary to the result of an operation. -/
def setTemp (native : Bool) (op : ArithOp) (a b : Formula) (t : String) : Stmt :=
  if native then .compute t op.predicate [a, b] else .assign t (functionCall op a b)

/-- Puts the result of an operation into a temporary. -/
def toTemp (native : Bool) (op : ArithOp) (a b : Formula) : Temporaries (Formula × List Stmt) := do
  let n ← get
  set (n + 1)
  return (.ident (tempName n), [setTemp native op a b (tempName n)])

mutual

/-- **Takes the operations out of an expression**, with the statements that compute them. -/
def flatten (native : Bool) : Formula → Temporaries (Formula × List Stmt)
  | .binary (.arith op) x y => do
    let (x, ss) ← flatten native x
    let (y, ts) ← flatten native y
    let (f, us) ← toTemp native op x y
    return (f, ss ++ ts ++ us)
  | .unary .neg x => do
    let (x, ss) ← flatten native x
    let (f, us) ← toTemp native .sub (.int 0) x
    return (f, ss ++ us)
  | .binary op x y => do
    let (x, ss) ← flatten native x
    let (y, ts) ← flatten native y
    return (.binary op x y, ss ++ ts)
  | .unary op x => do
    let (x, ss) ← flatten native x
    return (.unary op x, ss)
  | .join x y => do
    let (x, ss) ← flatten native x
    let (y, ts) ← flatten native y
    return (.join x y, ss ++ ts)
  | .call name args => do
    let (args, ss) ← flattenAll native args
    return (.call name args, ss)
  | .ite c t e => do
    let (c, ss) ← flatten native c
    let (t, ts) ← flatten native t
    let (e, us) ← flatten native e
    return (.ite c t e, ss ++ ts ++ us)
  | .quant kind vars domain body => pure (inline (.quant kind vars domain body), [])
  | .old x => pure (.old x, [])
  | .ident name => pure (.ident name, [])
  | .int value => pure (.int value, [])

/-- `flatten` on each of several expressions. -/
def flattenAll (native : Bool) : List Formula → Temporaries (List Formula × List Stmt)
  | [] => pure ([], [])
  | x :: xs => do
    let (x, ss) ← flatten native x
    let (xs, ts) ← flattenAll native xs
    return (x :: xs, ss ++ ts)

end

/-- How bodies are lowered: the arithmetic, the bit width, and the program for faults. -/
structure Mode where
  native : Bool
  bits : Int
  owner : String

/-- A computation that uses temporaries and may fail. -/
abbrev Flattening := ExceptT Fault Temporaries

/-- An expression of a body, with its literals checked. -/
def exprOf (mode : Mode) (f : Formula) : Flattening (Formula × List Stmt) := do
  checkLiterals mode.bits mode.owner f
  (flatten mode.native f : Temporaries _)

/-- A formula of a loop that stays in one piece. -/
def loopFormula (mode : Mode) (f : Formula) : Flattening Formula := do
  checkLiterals mode.bits mode.owner f
  return inline f

mutual

/-- **The relational statements of a statement.** -/
def ofStmt (mode : Mode) : Contract.Stmt → Flattening (List Stmt)
  | .assign target value => do
    let (value, ss) ← exprOf mode value
    match target with
    | .ident name => return ss ++ [.assign name value]
    | .join object (.ident field) =>
      let (object, ts) ← exprOf mode object
      return ss ++ ts ++ [.update field object value]
    | _ => throw (.unsupported ("assignment to '" ++ target.text ++ "'") mode.owner .nowhere)
  | .branch cond thn els => do
    let (cond, ss) ← exprOf mode cond
    let thn ← ofStmts mode thn
    let els ← ofStmts mode els
    return ss ++ [.branch cond thn els]
  | .loop cond invariant variant body => do
    let (cond, lead) ← exprOf mode cond
    let body ← ofStmts mode body
    let invariant ← invariant.mapM (loopFormula mode)
    let variant ← variant.mapM (loopFormula mode)
    return [.loop lead cond invariant variant body]
  | .assert cond => do
    let (cond, ss) ← exprOf mode cond
    return ss ++ [.assert cond]
  | .assume cond => do
    let (cond, ss) ← exprOf mode cond
    return ss ++ [.assume cond]
  | .ret none => return [.ret none]
  | .ret (some value) => do
    let (value, ss) ← exprOf mode value
    return ss ++ [.ret (some value)]
  | .raise exception => return [.raise exception]

/-- Lowers statements in order. -/
def ofStmts (mode : Mode) : List Contract.Stmt → Flattening (List Stmt)
  | [] => return []
  | s :: ss => do
    let first ← ofStmt mode s
    let rest ← ofStmts mode ss
    return first ++ rest

end

/-! ## Programs and modules -/

/-- The names that have a value before and after a program: result, exception and fields. -/
def stateNames (modules : List Contract.Module) : List String :=
  ["return", "throw"] ++ modules.flatMap fun m => m.fields.map (·.name)

/-- The definitions of side variables, with their literals checked. -/
def sideOf (mode : Mode) (state : List String) (s : Side) : Except Fault Side := do
  let defs ← s.defs.mapM fun d => do
    checkLiterals mode.bits mode.owner d.formula
    return define mode.native state d
  return { s with defs }

/-- The precondition of a program, with variables for quantified ones if these are removed. -/
def requiresOf (s : Settings) (p : Contract.Program) : Formula × List Var :=
  if s.removeQuantifiers then skolemize (.mult .some) 0 p.requires else (p.requires, [])

/-- The postcondition of a program, with the variables that come after those of the precondition. -/
def ensuresOf (s : Settings) (p : Contract.Program) : Formula × List Var :=
  if s.removeQuantifiers then skolemize .all (requiresOf s p).2.length p.ensures else (p.ensures, [])

/-- **The relational program of a program.** -/
def ofProgram (s : Settings) (state : List String) (owner : String) (p : Contract.Program) :
    Except Fault Program := do
  let mode : Mode := ⟨s.nativeArithmetic, s.bitWidth, p.id⟩
  let (requires, skolems) := requiresOf s p
  let (ensures, moreSkolems) := ensuresOf s p
  checkLiterals mode.bits mode.owner requires
  checkLiterals mode.bits mode.owner ensures
  let side ← sideOf mode state p.side
  let (body, temps) := (ofStmts mode p.body).run.run 0
  return { id := p.id, owner, method := p.method, overload := p.overload, params := p.params,
           locals := p.locals ++ (List.range temps).map fun n => ⟨tempName n, .int⟩,
           returns := p.returns, pre := preState requires, post := postState state ensures, side,
           skolems := skolems ++ moreSkolems, body := ← body }

/-- The object invariant of a contract module; one that names none has an invariant that always holds. -/
def invariantOf (m : Contract.Module) : Predicate :=
  (m.predicate? (m.invariant.getD "")).getD
    ⟨m.invariant.getD "", [⟨"thiz", .ref m.id⟩], .truth⟩

/-- **The relational module of a contract module.** -/
def ofModule (s : Settings) (state : List String) (m : Contract.Module) : Except Fault Module := do
  let mode : Mode := ⟨s.nativeArithmetic, s.bitWidth, m.invariant.getD ""⟩
  let invariant := invariantOf m
  checkLiterals mode.bits mode.owner invariant.body
  let side ← sideOf mode state m.side
  let programs ← m.programs.mapM (ofProgram s state m.id)
  return { id := m.id, className := m.className, fields := m.fields,
           invariant := { invariant with body := preState invariant.body }, side, programs }

/-- **The relational modules of contract modules.** -/
def ofModules (s : Settings) (modules : List Contract.Module) : Except Fault (List Module) :=
  modules.mapM (ofModule s (stateNames modules))

end Relspec.Relational
