import Relspec.Source.Naming
import Relspec.Source.Tree
import Relspec.Table

/-!
# Source/Renaming — bodies whose variables have names of their own

Renaming takes the declarations out of a method body and gives every local variable a name of its own, so
that blocks no longer matter.  A declaration is in force from the end of its initial value to the end of
its block; conditions, invariants and variants of a loop stand outside its body; a quantified variable
scopes over range and body.

* `Expr.rename` renames the free variables of an expression;
* `Stmt.rename` and `renameAll` rename statements and collect their declarations;
* `Method.rename` renames a method.
-/

namespace Relspec.Source

/-- The names that the variables in force go by. -/
abbrev Scope := Table String

/-- A local variable taken out of a body. -/
structure Declaration where
  name : String
  unique : String
  type : TypeRef
  pos : Position
deriving Repr

mutual

/-- **Renames the variables of an expression.** -/
def Expr.rename (scope : Scope) : Expr → Naming Expr
  | .ident p name => pure (.ident p ((scope.find? name).getD name))
  | .int p v => pure (.int p v)
  | .bool p v => pure (.bool p v)
  | .string p v => pure (.string p v)
  | .null p => pure (.null p)
  | .self p => pure (.self p)
  | .result p => pure (.result p)
  | .old p x => return .old p (← x.rename scope)
  | .field p x f => return .field p (← x.rename scope) f
  | .call p name args => return .call p name (← Expr.renameAll scope args)
  | .invoke p receiver name args => do
    let args ← Expr.renameAll scope args
    return .invoke p (← receiver.rename scope) name args
  | .index p x i => return .index p (← x.rename scope) (← i.rename scope)
  | .new p type args => return .new p type (← Expr.renameAll scope args)
  | .unary p op x => return .unary p op (← x.rename scope)
  | .binary p op x y => return .binary p op (← x.rename scope) (← y.rename scope)
  | .quant p q var type body => do
    let v ← Naming.binding var
    return .quant p q v type (← body.rename (scope.insert var v))
  | .quantOver p q var type range body => do
    let v ← Naming.binding var
    let body ← body.rename (scope.insert var v)
    return .quantOver p q v type (← range.rename (scope.insert var v)) body

/-- Renames the variables of expressions, from left to right. -/
def Expr.renameAll (scope : Scope) : List Expr → Naming (List Expr)
  | [] => pure []
  | e :: es => return (← e.rename scope) :: (← Expr.renameAll scope es)

end

def Clause.rename (scope : Scope) (c : Clause) : Naming Clause :=
  return { c with expr := ← c.expr.rename scope }

/-- What renaming makes of a statement: the statements in its place, the scope after it and the
declarations taken out of it. -/
structure Renamed where
  stmts : List Stmt
  scope : Scope
  declarations : List Declaration

mutual

/-- **Renames a statement.** -/
def Stmt.rename (scope : Scope) : Stmt → Naming Renamed
  | .declare p name type none => do
    let unique ← Naming.fresh name
    return ⟨[], scope.insert name unique, [⟨name, unique, type, p⟩]⟩
  | .declare p name type (some init) => do
    let init ← init.rename scope
    let unique ← Naming.fresh name
    return ⟨[.assign p (.ident p unique) init], scope.insert name unique, [⟨name, unique, type, p⟩]⟩
  | .assign p target value => do
    let target ← target.rename scope
    let value ← value.rename scope
    return ⟨[.assign p target value], scope, []⟩
  | .block p body => do
    let (body, ds) ← Stmt.renameAll scope body
    return ⟨[.block p body], scope, ds⟩
  | .ifThen p cond tp thn => do
    let cond ← cond.rename scope
    let (thn, ds) ← Stmt.renameAll scope thn
    return ⟨[.ifThen p cond tp thn], scope, ds⟩
  | .ifElse p cond tp thn ep els => do
    let cond ← cond.rename scope
    let (thn, ds) ← Stmt.renameAll scope thn
    let (els, es) ← Stmt.renameAll scope els
    return ⟨[.ifElse p cond tp thn ep els], scope, ds ++ es⟩
  | .loop p cond invariants variant bp body => do
    let cond ← cond.rename scope
    let invariants ← invariants.mapM (Clause.rename scope)
    let variant ← variant.mapM (Clause.rename scope)
    let (body, ds) ← Stmt.renameAll scope body
    return ⟨[.loop p cond invariants variant bp body], scope, ds⟩
  | .ret p value => do
    let value ← value.mapM (Expr.rename scope)
    return ⟨[.ret p value], scope, []⟩
  | .raise p e => return ⟨[.raise p (← e.rename scope)], scope, []⟩
  | .assert p e => return ⟨[.assert p (← e.rename scope)], scope, []⟩
  | .assume p e => return ⟨[.assume p (← e.rename scope)], scope, []⟩
  | .eval p e => return ⟨[.eval p (← e.rename scope)], scope, []⟩

/-- **Renames the statements of a block.** -/
def Stmt.renameAll (scope : Scope) : List Stmt → Naming (List Stmt × List Declaration)
  | [] => pure ([], [])
  | s :: ss => do
    let r ← s.rename scope
    let (stmts, ds) ← Stmt.renameAll r.scope ss
    return (r.stmts ++ stmts, r.declarations ++ ds)

end

/-- Binds parameters, from left to right; the last of several with one name counts. -/
def bindParams (scope : Scope) : List Param → Naming Scope
  | [] => pure scope
  | p :: ps => do
    let name ← Naming.binding p.name
    bindParams (scope.insert p.name name) ps

/-- A renamed method: its body, the names of its parameters, and its local variables. -/
structure RenamedMethod where
  body : List Stmt
  params : Scope
  declarations : List Declaration

/-- **Renames a method.** -/
def Method.rename (m : Method) : Naming RenamedMethod := do
  let params ← bindParams .empty m.params
  let (body, declarations) ← Stmt.renameAll params ((m.body.map (·.stmts)).getD [])
  return ⟨body, params, declarations⟩

end Relspec.Source
