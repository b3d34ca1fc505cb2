import Relspec.Contract.OfClass
import Relspec.Formula.Reader

/-!
# Contract/Pragmas — pragmas as part of contracts

The pragmas of a class and its methods are formulas over the names of the source.  They are read, their
names are resolved to relations, and they are added to the invariant of the module or to the contract of
the program they belong to.  A class with a pragma that does not read is left out, unless it is the class
to check, whose fault ends the pass.  A class of the same name that was read before it loses its module
with it, and is stranded if it has a pragma to add.

* `Resolver.resolve` turns names of the source into relations;
* `mergePragmas` adds the pragmas of all classes.
-/

namespace Relspec.Contract

open Source (ClassDecl Pragma)

/-! ## Names -/

/-- What names mean in pragmas: the fields of each module, the modules in order, and the classes. -/
structure Resolver where
  fields : Table (Table String)
  order : List String
  classes : Table String

namespace Resolver

/-- The fields of a module by their name in the source. -/
def fieldsOf (m : Module) : Table String :=
  .ofList (m.fields.map fun f => (Text.dropStart f.name (m.id ++ "_"), f.name))

/-- The resolver of modules and classes. -/
def of (modules : List Module) (classes : List ClassDecl) : Resolver where
  fields := .ofList (modules.map fun m => (m.id, fieldsOf m))
  order := modules.map (·.id)
  classes := .ofList (classes.flatMap fun c => [(c.name, c.id), (c.qualifiedName, c.id)])

/-- The relation of a field of a module. -/
def field? (r : Resolver) (id name : String) : Option String :=
  (r.fields.find? id).bind (·.find? name)

/-- A name by itself: a bound variable, the object at hand, one of its fields, or a class. -/
def ident (r : Resolver) (self : String) (bound : List String) (name : String) : Formula :=
  if bound.contains name then .ident name
  else if name = "this" then .ident "thiz"
  else
    match r.field? self name with
    | some rel => .join (.ident "thiz") (.ident rel)
    | none => .ident ((r.classes.find? name).getD name)

/-- A name on the right of a dot: a field of the module at hand, or else of the first module that has
it. -/
def navigated (r : Resolver) (self name : String) : Formula :=
  .ident (((self :: r.order).findSome? fun id => r.field? id name).getD name)

mutual

/-- **Resolves the names of a formula**; `dotted` says whether it stands on the right of a dot. -/
def resolve (r : Resolver) (self : String) (bound : List String) (dotted : Bool) : Formula → Formula
  | .ident name => if dotted then r.navigated self name else r.ident self bound name
  | .int value => .int value
  | .join x y => .join (r.resolve self bound dotted x) (r.resolve self bound true y)
  | .call name args => .call name (r.resolveAll self bound args)
  | .unary op x => .unary op (r.resolve self bound dotted x)
  | .binary op x y => .binary op (r.resolve self bound false x) (r.resolve self bound false y)
  | .quant kind vars domain body =>
    .quant kind vars (r.resolve self bound false domain) (r.resolve self (bound ++ vars) false body)
  | .old x => .old (r.resolve self bound false x)
  | .ite c t e =>
    .ite (r.resolve self bound false c) (r.resolve self bound false t) (r.resolve self bound false e)

/-- Resolves the names of several formulas. -/
def resolveAll (r : Resolver) (self : String) (bound : List String) : List Formula → List Formula
  | [] => []
  | x :: xs => r.resolve self bound false x :: r.resolveAll self bound xs

end

end Resolver

/-! ## Reading -/

/-- A pragma that was read: its kind, the program it belongs to, if any, with the names of its
parameters, and its formula. -/
structure Assertion where
  kind : Source.PragmaKind
  program : Option Program
  params : Table String
  formula : Formula

/-- The formula of a pragma. -/
def readPragma (file : String) (a : Pragma) : Except Fault Formula :=
  match Formula.read a.formula with
  | .ok f => .ok f
  | .error _ => .error (.pragma a.formula Fault.badText (a.pos.inFile file))

/-- The pragmas of a method, unless the module has no program for it. -/
def readMethod (c : ClassDecl) (m : Module) (catalog : Catalog) (method : Source.Method) :
    Except Fault (List Assertion) :=
  let id := (catalog.programs.find? (c.qualifiedName ++ "." ++ method.signature)).getD ""
  match m.program? id with
  | none => .ok []
  | some p =>
    method.pragmas.mapM fun a => do
      return ⟨a.kind, some p, (catalog.params.find? id).getD .empty, ← readPragma c.file a⟩

/-- The pragmas of a class and of its methods. -/
def readClass (c : ClassDecl) (m : Module) (catalog : Catalog) : Except Fault (List Assertion) := do
  let own ← c.pragmas.mapM fun a => do return ⟨a.kind, none, .empty, ← readPragma c.file a⟩
  let methods ← c.methods.mapM (readMethod c m catalog)
  return own ++ methods.flatten

/-- The module of a class: the last one with its id. -/
def moduleOf? (modules : List Module) (catalog : Catalog) (c : ClassDecl) : Option Module :=
  (catalog.modules.find? c.qualifiedName).bind fun id => modules.reverse.find? (·.id == id)

/-- What reading the pragmas of classes leads to: the classes with their pragmas, the ids of the modules
left out, and the catalog. -/
structure ReadPragmas where
  assertions : List (ClassDecl × List Assertion) := []
  dropped : List String := []
  catalog : Catalog

/-- Reads the pragmas of classes, one after the other; a fault of the class to check ends it. -/
def readClasses (s : Settings) (modules : List Module) (read : ReadPragmas) :
    List ClassDecl → Except Fault Unit × ReadPragmas
  | [] => (.ok (), read)
  | c :: cs =>
    match moduleOf? modules read.catalog c with
    | none => readClasses s modules read cs
    | some m =>
      match readClass c m read.catalog with
      | .ok as => readClasses s modules { read with assertions := read.assertions ++ [(c, as)] } cs
      | .error f =>
        if ClassName.same c.qualifiedName s.className then (.error f, read)
        else
          readClasses s modules
            { read with
              dropped := read.dropped ++ [m.id]
              catalog := read.catalog.drop c.qualifiedName (c.pos.inFile c.file) f } cs

/-! ## Merging -/

/-- Changes the first member that passes a test. -/
def updateFirst {α : Type} (p : α → Bool) (f : α → SideNaming α) : List α → SideNaming (List α)
  | [] => pure []
  | a :: as => do
    if p a then return (← f a) :: as
    else return a :: (← updateFirst p f as)

/-- The module with a predicate of a name, added when there is none. -/
def Module.withPredicate (m : Module) (name : String) : Module :=
  if (m.predicate? name).isSome then m
  else { m with predicates := m.predicates ++ [⟨name, [selfParam m.id], .truth⟩] }

/-- Adds a formula to the invariant of a module. -/
def mergeInvariant (f : Formula) (m : Module) : SideNaming Module := do
  let (f, side) ← Arithmetic.extractPart .invariant f
  let name := m.invariant.getD ""
  let m := m.withPredicate name
  let predicates ← updateFirst (·.name == name) (fun p => pure { p with body := .all [p.body, f] })
    m.predicates
  return { m with predicates, side := m.side ++ side }

/-- Adds a formula to the contract of a program. -/
def mergeContract (kind : Source.PragmaKind) (f : Formula) (p : Program) : SideNaming Program :=
  match kind with
  | .requires => do
    let (f, side) ← Arithmetic.extractPart .requires f
    return { p with requires := .all [p.requires, f], side := p.side ++ side }
  | .ensures => do
    let (f, side) ← Arithmetic.extractPart .ensures f
    return { p with ensures := .all [p.ensures, f], side := p.side ++ side }
  | .invariant => pure p

/-- The names of parameters that go by another name. -/
def renamedOnly (params : Table String) : Table String :=
  ⟨params.entries.filter fun e => e.1 != e.2⟩

/-- Adds a pragma to the module it belongs to.  Only invariants are taken from classes, and only pre-
and postconditions from methods. -/
def mergeAssertion (r : Resolver) (a : Assertion) (m : Module) : SideNaming Module :=
  match a.program with
  | none =>
    if a.kind = .invariant then mergeInvariant (r.resolve m.id [] false a.formula) m else pure m
  | some p => do
    let f := r.resolve m.id (p.params.map (·.name)) false (a.formula.rename (renamedOnly a.params))
    let programs ← updateFirst (·.id == p.id) (mergeContract a.kind f) m.programs
    return { m with programs }

/-- Whether a pragma is added to something; one of another kind on a class is passed over. -/
def Assertion.needsModule (a : Assertion) : Bool := a.program.isSome || a.kind = .invariant

/-- Adds the pragmas of classes to their modules, unless one of them is stranded: it has a pragma to add,
and its module was taken out. -/
def mergeEach (r : Resolver) (catalog : Catalog) (modules : List Module) :
    List (ClassDecl × List Assertion) → SideNaming (Except Fault (List Module))
  | [] => return .ok modules
  | (c, as) :: rest =>
    match catalog.modules.find? c.qualifiedName with
    | none =>
      if as.any (·.needsModule) then return .error (.stranded c.qualifiedName)
      else mergeEach r catalog modules rest
    | some id => do
      let merge (m : Module) := as.foldlM (fun m a => mergeAssertion r a m) m
      let reversed ← updateFirst (·.id == id) merge modules.reverse
      mergeEach r catalog reversed.reverse rest

/-- **Adds the pragmas of classes to their modules.** -/
def mergePragmas (s : Settings) (modules : List Module) (classes : List ClassDecl) (catalog : Catalog) :
    Supplied Lowered := do
  match readClasses s modules { catalog } classes with
  | (.error f, read) => return ⟨.error f, read.catalog⟩
  | (.ok (), read) =>
    let isKept (m : Module) := !read.dropped.contains m.id
    let resolver := Resolver.of (modules.filter isKept) classes
    let merged ← withSides (mergeEach resolver read.catalog modules read.assertions)
    return ⟨merged.map (·.filter isKept), read.catalog⟩

/-- Whether a class was stranded. -/
def Lowered.brokeOff (l : Lowered) : Bool :=
  match l.result with
  | .error (.stranded _) => true
  | _ => false

end Relspec.Contract
