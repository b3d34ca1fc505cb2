import Relspec.Diagnostic.Fault
import Relspec.Formula.Basic
import Relspec.Source.ClassTable
import Relspec.Source.Printer

/-!
# Contract/Meaning — source expressions as formulas

A source expression means a condition where a truth value is asked for, and a term with a type where a
value is.  Both are found together, from the leaves up: a comparison is a condition, and becomes a term
by choosing between the two truth atoms; a variable is a term, and becomes a condition by comparing it
with the atom of truth.  The first fault from left to right decides.

* `Site` is where an expression stands, `Meaning` what it means there;
* `Expr.meaning` finds it.
-/

namespace Relspec.Contract

open Source (ClassDecl Expr)

/-- Where expressions stand: the classes of the run, the class and the method they belong to, and the type
of its result. -/
structure Site where
  classes : List ClassDecl
  self : ClassDecl
  owner : String
  returns : Option ValueType := none

namespace Site

/-- The fault of a construct without a relational meaning. -/
def unsupported (site : Site) (construct : String) (pos : Position) : Fault :=
  .unsupported construct site.owner (pos.inFile site.self.file)

/-- The fault of an unknown name. -/
def unknownName (site : Site) (name : String) (pos : Position) : Fault :=
  .unknownName name site.owner (pos.inFile site.self.file)

/-- The fault of a condition that is not a truth value. -/
def notBool (site : Site) (e : Expr) : Fault :=
  site.unsupported ("non-boolean condition '" ++ e.text ++ "'") e.pos

/-- The field `name` of `object`, which has the type `type`. -/
def field (site : Site) (object : Formula) (type : ValueType) (name : String) (pos : Position) :
    Except Fault (Formula × ValueType) :=
  let owner :=
    match type with
    | .ref id => Source.ClassTable.lookup? site.classes id
    | _ => none
  match owner.bind fun c => (Source.ClassTable.fieldsOf site.classes c).find? name with
  | some v => .ok (.join object (.ident v.name), v.type)
  | none => .error (site.unknownName name pos)

/-- A variable, or else a field of the object at hand. -/
def ident (site : Site) (vars : Table ValueType) (name : String) (pos : Position) :
    Except Fault (Formula × ValueType) :=
  match vars.find? name with
  | some type => .ok (.ident name, type)
  | none =>
    if (Source.ClassTable.fieldsOf site.classes site.self).contains name then
      site.field (.ident "thiz") (.ref site.self.id) name pos
    else .error (site.unknownName name pos)

end Site

/-- **What an expression means**: as a condition, and as a term with its type. -/
structure Meaning where
  cond : Except Fault Formula
  term : Except Fault (Formula × ValueType)

namespace Meaning

/-- The meaning of an expression that is a condition by itself. -/
def ofCond (cond : Except Fault Formula) : Meaning where
  cond := cond
  term := do return (.ite (← cond) (.ident "true") (.ident "false"), .bool)

/-- The meaning of an expression that is a term by itself; a condition has to be a truth value. -/
def ofTerm (site : Site) (e : Expr) (term : Except Fault (Formula × ValueType)) : Meaning where
  cond := do
    let (t, type) ← term
    if type = .bool then return .eq t (.ident "true") else throw (site.notBool e)
  term := term

/-- The meaning of an expression that has none. -/
def fault (f : Fault) : Meaning := ⟨.error f, .error f⟩

/-- Two terms under an operator. -/
def both (x y : Meaning) (f : Formula → Formula → Formula) : Except Fault Formula := do
  let (a, _) ← x.term
  let (b, _) ← y.term
  return f a b

end Meaning

/-- The relation that a quantified variable ranges over. -/
def domainOf : ValueType → Formula
  | .int => .ident "Int"
  | .bool => .ident "boolean"
  | .ref id => .ident id

/-- The connective of a quantifier and its range. -/
def guarded : Source.Quantifier → Formula → Formula → Formula
  | .all, range, body => .binary .implies range body
  | .any, range, body => .binary .and range body

/-- The quantifier of formulas. -/
def quantifierOf : Source.Quantifier → Formula.Quantifier
  | .all => .all
  | .any => .mult .some

/-- The operator of formulas that compares as a source operator does. -/
def comparisonOf : Source.BinaryOp → Option Formula.BinaryOp
  | .eq => some .eq
  | .ne => some .ne
  | .lt => some .lt
  | .le => some .le
  | .gt => some .gt
  | .ge => some .ge
  | _ => none

/-- The connective of formulas that joins conditions as a source operator does. -/
def connectiveOf : Source.BinaryOp → Option Formula.BinaryOp
  | .and => some .and
  | .or => some .or
  | .implies => some .implies
  | .iff => some .iff
  | _ => none

/-- What a quantifier over a type means. -/
def quantifiedMeaning (site : Site) (pos : Position) (q : Source.Quantifier) (var : String)
    (type : Source.TypeRef) (body : Except Fault Formula) : Meaning :=
  .ofCond <|
    match Source.ClassTable.typeOf? site.classes (some type) with
    | none => .error (site.unsupported "array quantifier" pos)
    | some t => body.map fun b => .quant (quantifierOf q) [var] (domainOf t) b

/-- The variables under a quantifier. -/
def below (site : Site) (vars : Table ValueType) (var : String) (type : Source.TypeRef) :
    Table ValueType :=
  vars.insert var ((Source.ClassTable.typeOf? site.classes (some type)).getD .int)

/-- **The meaning of an expression** where `vars` are the variables in force. -/
def meaning (site : Site) (vars : Table ValueType) (e : Expr) : Meaning :=
  match e with
  | .ident p name => .ofTerm site e (site.ident vars name p)
  | .int _ v => .ofTerm site e (.ok (.int v, .int))
  | .bool _ v =>
    ⟨.ok (if v then .truth else .falsity), .ok (.ident (if v then "true" else "false"), .bool)⟩
  | .null _ => .ofTerm site e (.ok (.ident "null", .ref "null"))
  | .self _ => .ofTerm site e (.ok (.ident "thiz", .ref site.self.id))
  | .result p =>
    .ofTerm site e <|
      match site.returns with
      | some t => .ok (.ident "return", t)
      | none => .error (site.unknownName "\\result" p)
  | .old _ x =>
    let m := meaning site vars x
    ⟨m.cond.map .old, m.term.map fun (t, type) => (.old t, type)⟩
  | .field p x name =>
    .ofTerm site e (do
      let (t, type) ← (meaning site vars x).term
      site.field t type name p)
  | .unary _ .not x => .ofCond ((meaning site vars x).cond.map .not)
  | .unary _ .neg x =>
    .ofTerm site e ((meaning site vars x).term.map fun (t, _) => (.unary .neg t, .int))
  | .binary _ op x y =>
    let mx := meaning site vars x
    let my := meaning site vars y
    match op with
    | .arith a => .ofTerm site e ((mx.both my (.binary (.arith a))).map fun t => (t, .int))
    | _ =>
      match connectiveOf op, comparisonOf op with
      | some c, _ => .ofCond (do return .binary c (← mx.cond) (← my.cond))
      | none, some c => .ofCond (mx.both my (.binary c))
      | none, none => .fault (site.notBool e)
  | .quant p q var type body =>
    quantifiedMeaning site p q var type (meaning site (below site vars var type) body).cond
  | .quantOver p q var type range body =>
    let vars := below site vars var type
    quantifiedMeaning site p q var type (do
      let b ← (meaning site vars body).cond
      let r ← (meaning site vars range).cond
      return guarded q r b)
  | .string p _ => .fault (site.unsupported "string literal" p)
  | .index p _ _ => .fault (site.unsupported "array access" p)
  | .new p _ _ => .fault (site.unsupported "object creation" p)
  | .call p name _ | .invoke p _ name _ => .fault (site.unsupported ("method call '" ++ name ++ "'") p)

end Relspec.Contract
