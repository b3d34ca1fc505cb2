import Relspec.Arithmetic.Extraction
import Relspec.Contract.Body
import Relspec.Contract.Catalog
import Relspec.Source.Renaming

/-!
# Contract/OfClass — the contract module of a class

The fields of a class become relations, its invariants one predicate, and each method a program.  A class
that fails is left out and recorded in the catalog, unless it is the class to check, whose fault ends the
pass.

* `ofMethod`, `ofClass` — one method, one class;
* `ofClasses` — all relevant classes of a run, in order.
-/

namespace Relspec.Contract

open Source (ClassDecl Method)

/-- How many names and side variables have been issued. -/
structure Supply where
  names : Nat := 0
  sides : Nat := 0
deriving DecidableEq, Repr

/-- A computation that issues names and side variables. -/
abbrev Supplied := StateM Supply

/-- Issues names. -/
def withNames {α : Type} (x : Naming α) : Supplied α := do
  let s ← get
  let (a, n) := x.run s.names
  set { s with names := n }
  return a

/-- Issues side variables. -/
def withSides {α : Type} (x : SideNaming α) : Supplied α := do
  let s ← get
  let (a, n) := x.run s.sides
  set { s with sides := n }
  return a

/-- A computation that issues names and side variables and may fail; what was issued stays issued. -/
abbrev Lowering := ExceptT Fault Supplied

/-- The type of a parameter, a result or a local variable. -/
def typeOrFault (site : Site) (t : Source.TypeRef) (what : String) (pos : Position) :
    Except Fault ValueType :=
  match Source.ClassTable.typeOf? site.classes (some t) with
  | some v => .ok v
  | none => .error (site.unsupported what pos)

/-- The parameters of a method under the names they go by. -/
def paramsOf (site : Site) (m : Method) (names : Source.Scope) : Except Fault (List Var) :=
  m.params.mapM fun p => do
    let type ← typeOrFault site p.type ("array parameter '" ++ p.name ++ "'") p.pos
    return ⟨(names.find? p.name).getD p.name, type⟩

/-- The local variables of a method. -/
def localsOf (site : Site) (ds : List Source.Declaration) : Except Fault (List Var) :=
  ds.mapM fun d => do
    let type ← typeOrFault site d.type ("array local '" ++ d.name ++ "'") d.pos
    return ⟨d.unique, type⟩

/-- The variables with their types, by name. -/
def typing (vars : List Var) : Table ValueType := .ofList (vars.map fun v => (v.name, v.type))

/-- Clauses as one formula. -/
def clausesOf (site : Site) (vars : Table ValueType) (clauses : List Source.Clause) :
    Except Fault Formula :=
  (clauses.mapM fun c => condOf site vars c.expr).map .all

/-- **The program of a method**, and the names of its parameters. -/
def ofMethod (classes : List ClassDecl) (self : ClassDecl) (m : Method) (overload : Nat) :
    Lowering (Program × Source.Scope) := do
  let renamed ← (withNames m.rename : Supplied _)
  let site : Site := { classes, self, owner := m.signature }
  let params ← paramsOf site m renamed.params
  let returns ← m.returns.mapM fun t => typeOrFault site t "array return type" m.pos
  let site := { site with returns }
  let locals ← localsOf site renamed.declarations
  let vars := typing (params ++ locals)
  let requires ← (withNames ((m.clausesOf .precondition).mapM (·.rename renamed.params)) : Supplied _)
  let ensures ← (withNames ((m.clausesOf .postcondition).mapM (·.rename renamed.params)) : Supplied _)
  let requires ← clausesOf site vars requires
  let ensures ← clausesOf site vars ensures
  let body ← ofStmts site vars renamed.body
  let (requires, side) ← (withSides (Arithmetic.extractPart .requires requires) : Supplied _)
  let (ensures, side') ← (withSides (Arithmetic.extractPart .ensures ensures) : Supplied _)
  return ({ id := programId self.id m.name overload, method := m.name, overload, params, returns,
            locals, requires, ensures, side := side ++ side', body }, renamed.params)

/-- Methods with the number of earlier methods of the same name. -/
def numbered (earlier : List String) : List Method → List (Method × Nat)
  | [] => []
  | m :: ms => (m, earlier.count m.name) :: numbered (m.name :: earlier) ms

/-- The name of the predicate that is the object invariant of a module. -/
def invariantName (id : String) : String := id ++ "_object_invariant"

/-- The object at hand. -/
def selfParam (id : String) : Var := ⟨"thiz", .ref id⟩

/-- A class as it was lowered: its module, the programs of its methods by signature, and the names of
their parameters. -/
structure LoweredClass where
  body : Module
  programs : Table String
  params : Table (Table String)

/-- **The contract module of a class.** -/
def ofClass (classes : List ClassDecl) (c : ClassDecl) : Lowering LoweredClass := do
  let site : Site := { classes, self := c, owner := c.name }
  for f in c.fields do
    if (Source.ClassTable.typeOf? classes f.type).isNone then
      throw (site.unsupported ("array field '" ++ f.name ++ "'") f.pos)
  let invariants ← (withNames (c.invariants.mapM (·.rename .empty)) : Supplied _)
  let invariant ← clausesOf site .empty invariants
  let (invariant, side) ← (withSides (Arithmetic.extractPart .invariant invariant) : Supplied _)
  let programs ← (numbered [] c.methods).mapM fun (m, k) => ofMethod classes c m k
  return {
    body := { id := c.id, className := c.qualifiedName, fields := Source.ClassTable.ownFields classes c,
              invariant := some (invariantName c.id),
              predicates := [⟨invariantName c.id, [selfParam c.id], invariant⟩],
              side, programs := programs.map (·.1) }
    programs := .ofList ((c.methods.zip programs).map fun (m, p) =>
      (c.qualifiedName ++ "." ++ m.signature, p.1.id))
    params := .ofList (programs.map fun p => (p.1.id, p.2)) }

/-- The classes of a run; when it asks for an object invariant, the class to check has the method that
asks for it, with an empty body unless it declares one. -/
def withQueryMethod (s : Settings) (classes : List ClassDecl) : List ClassDecl :=
  if s.isInvariantQuery then
    classes.map fun c =>
      if ClassName.same c.qualifiedName s.className &&
          !c.methods.any (·.name == MethodName.generateInvariant) then
        { c with methods := c.methods ++
            [{ pos := c.pos, name := MethodName.generateInvariant, params := [], returns := none,
               throws := [], clauses := [], pragmas := [], body := none }] }
      else c
  else classes

/-- Modules so far, with the catalog that goes with them. -/
structure Lowered where
  result : Except Fault (List Module)
  catalog : Catalog

/-- The modules of the classes `cs` after `done`. -/
def ofEach (s : Settings) (classes : List ClassDecl) (done : List Module) (catalog : Catalog) :
    List ClassDecl → Supplied Lowered
  | [] => return ⟨.ok done, catalog⟩
  | c :: cs =>
    if s.isRelevant c.qualifiedName then do
      match ← (ofClass classes c).run with
      | .ok l =>
        ofEach s classes (done ++ [l.body]) (catalog.add c.qualifiedName l.body l.programs l.params) cs
      | .error f =>
        if ClassName.same c.qualifiedName s.className then return ⟨.error f, catalog⟩
        else
          ofEach s classes done (catalog.fail c.qualifiedName (c.pos.inFile c.file) f) cs
    else ofEach s classes done catalog cs

/-- **The contract modules of the relevant classes**, in order, and their catalog. -/
def ofClasses (s : Settings) (classes : List ClassDecl) : Supplied Lowered :=
  let classes := withQueryMethod s classes
  ofEach s classes [] {} classes

end Relspec.Contract
