import Relspec.Contract.Basic
import Relspec.Contract.Meaning

/-!
# Contract/Body — method bodies as statements of programs

A renamed body has no declarations left and every variable has a name of its own, so nested blocks
dissolve.  The first fault from left to right decides.
-/

namespace Relspec.Contract

open Source (Expr)

/-- The target of an assignment: a variable or a field. -/
def targetOf (site : Site) (vars : Table ValueType) (e : Expr) : Except Fault Formula :=
  match e with
  | .ident .. | .field .. => (meaning site vars e).term.map (·.1)
  | _ => .error (site.unsupported ("assignment to '" ++ e.text ++ "'") e.pos)

/-- An expression as a term. -/
def valueOf (site : Site) (vars : Table ValueType) (e : Expr) : Except Fault Formula :=
  (meaning site vars e).term.map (·.1)

/-- An expression as a condition. -/
def condOf (site : Site) (vars : Table ValueType) (e : Expr) : Except Fault Formula :=
  (meaning site vars e).cond

/-- The conjunction of loop invariants, if there are any. -/
def invariantOf (site : Site) (vars : Table ValueType) (clauses : List Source.Clause) :
    Except Fault (Option Formula) := do
  let fs ← clauses.mapM fun c => condOf site vars c.expr
  return if fs.isEmpty then none else some (.all fs)

mutual

/-- **The statements of programs that a statement becomes.** -/
def ofStmt (site : Site) (vars : Table ValueType) : Source.Stmt → Except Fault (List Stmt)
  | .block _ body => ofStmts site vars body
  | .assign _ target value => do
    let t ← targetOf site vars target
    let v ← valueOf site vars value
    return [.assign t v]
  | .ifThen _ cond _ thn => do
    let c ← condOf site vars cond
    let t ← ofStmts site vars thn
    return [.branch c t []]
  | .ifElse _ cond _ thn _ els => do
    let c ← condOf site vars cond
    let t ← ofStmts site vars thn
    let e ← ofStmts site vars els
    return [.branch c t e]
  | .loop _ cond invariants variant _ body => do
    let c ← condOf site vars cond
    let i ← invariantOf site vars invariants
    let v ← variant.mapM fun v => valueOf site vars v.expr
    let b ← ofStmts site vars body
    return [.loop c i v b]
  | .ret _ value => do
    let v ← value.mapM (valueOf site vars)
    return [.ret v]
  | .raise _ (.new _ type _) => return [.raise (Source.ClassTable.exceptionAtom site.classes type)]
  | .raise p e => .error (site.unsupported ("throw of '" ++ e.text ++ "'") p)
  | .assert _ e => do return [.assert (← condOf site vars e)]
  | .assume _ e => do return [.assume (← condOf site vars e)]
  | .eval p (.call _ name _) | .eval p (.invoke _ _ name _) =>
    .error (site.unsupported ("method call '" ++ name ++ "'") p)
  | .eval p _ => .error (site.unsupported "expression statement" p)
  | .declare .. => return []

/-- The statements of programs that statements become. -/
def ofStmts (site : Site) (vars : Table ValueType) : List Source.Stmt → Except Fault (List Stmt)
  | [] => return []
  | s :: ss => do
    let first ← ofStmt site vars s
    let rest ← ofStmts site vars ss
    return first ++ rest

end

end Relspec.Contract
