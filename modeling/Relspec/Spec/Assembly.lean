import Relspec.Relational.SideIndex
import Relspec.Settings.Basic
import Relspec.Spec.Basic

/-!
# Spec/Assembly — the specification of a program

The specification of a program is put together from all relational modules and the index of side
variables: the object invariant of its class, its contract as two predicates, and its body as a
verification condition.

* `Frame` — the program with the modules around it;
* `specify` — its specification, `assemble` — finds the program first.
-/

namespace Relspec.Spec

open Relational (SideIndex primed)

/-- A field with the class that declares it. -/
structure FieldOf where
  owner : String
  var : Var
deriving DecidableEq, Repr

/-- **The program to check** with the modules around it. -/
structure Frame where
  modules : List Relational.Module
  owner : Relational.Module
  program : Relational.Program

/-! ## Types as text -/

/-- The type of exceptions, with the atom for none. -/
def throwType : String := "java_lang_Throwable + null"

/-- The type of a variable in a specification. -/
def valueType : ValueType → String
  | .int => "Int"
  | .bool => "boolean"
  | .ref id => id ++ " + null"

/-- The type of the relation of a field. -/
def relationType (f : FieldOf) : String := f.owner ++ " -> one " ++ paren (valueType f.var.type)

namespace Frame

/-- All fields of all modules, in order. -/
def fields (a : Frame) : List FieldOf := a.modules.flatMap fun m => m.fields.map fun f => ⟨m.id, f⟩

/-! ## Signatures -/

/-- The variables of the program, of whatever kind. -/
def vars (a : Frame) : List Var := a.program.params ++ a.program.locals ++ a.program.skolems

/-- The types that fields and variables mention. -/
def mentioned (a : Frame) : List ValueType :=
  a.fields.map (·.var.type) ++ a.vars.map (·.type) ++ a.program.returns.toList

/-- The classes that are mentioned but have no module, sorted. -/
def otherClasses (a : Frame) : List String :=
  let ids := a.mentioned.filterMap fun
    | .ref id => if (a.modules.map (·.id)).contains id then none else some id
    | _ => none
  ids.eraseDups.mergeSort

/-- The class signatures: every module, then every other class. -/
def classes (a : Frame) : List String := a.modules.map (·.id) ++ a.otherClasses

/-- The signatures of the specification: classes, and the exceptions that the program throws. -/
def sigs (a : Frame) : List Sig :=
  a.classes.map (fun c => { name := c, parent := some "java_lang_Object" }) ++
    a.program.exceptions.map fun e => { name := e, parent := some "java_lang_Throwable", one := true }

/-- A bound for each class. -/
def scopes (a : Frame) (s : Settings) : List (Int × String) :=
  a.classes.map fun c =>
    let name := ((a.modules.reverse.find? (·.id == c)).map (·.className)).getD c
    (s.scopeOf name, c)

/-! ## Predicates -/

/-- The parameters for fields, before or after the program. -/
def fieldParams (a : Frame) (after : Bool) : List Param :=
  a.fields.map fun f => ⟨if after then primed f.var.name else f.var.name, relationType f⟩

/-- Variables as parameters. -/
def varParams (vs : List Var) : List Param := vs.map fun v => ⟨v.name, valueType v.type⟩

/-- The object at hand as a parameter. -/
def selfParam (a : Frame) : Param := ⟨"thiz", a.owner.id⟩

/-- The parameters of the object invariant. -/
def invariantParams (a : Frame) : List Param := a.selfParam :: a.fieldParams false

/-- The parameters of the precondition. -/
def preParams (a : Frame) : List Param :=
  [⟨"throw", throwType⟩, a.selfParam] ++ varParams a.program.params ++ a.fieldParams false ++
    varParams a.program.skolems

/-- The parameters of the postcondition. -/
def postParams (a : Frame) : List Param :=
  [a.selfParam] ++ varParams a.program.params ++ a.fieldParams false ++ a.fieldParams true ++
    (a.program.returns.toList.map fun t => ⟨primed "return", valueType t⟩) ++
    [⟨primed "throw", throwType⟩] ++ varParams a.program.skolems

/-- The name of the contract predicates of the program; only a later overload is numbered. -/
def contractName (a : Frame) : String :=
  a.owner.id ++ "_" ++ a.program.method ++
    (if a.program.overload = 0 then "" else "_" ++ toString a.program.overload)

/-- The name of the precondition. -/
def preName (a : Frame) : String := "precondition_" ++ a.contractName

/-- The name of the postcondition. -/
def postName (a : Frame) : String := "postcondition_" ++ a.contractName

/-- The object invariant of the object at hand, before or after the program. -/
def invariantCall (a : Frame) (after : Bool) : Formula :=
  .call a.owner.invariant.name (.ident "thiz" :: (a.fieldParams after).map fun p => .ident p.name)

/-- Binds side variables around a formula, together with their definitions. -/
def withSide (s : Side) (f : Formula) : Formula :=
  if s.vars.isEmpty then f
  else .quant (.mult .some) s.names (.ident "Int") (.all (s.formulas ++ [f]))

/-- The object invariant. -/
def invariantPred (a : Frame) (side : Side) : Pred where
  name := a.owner.invariant.name
  params := a.invariantParams
  body := .conjuncts [withSide side a.owner.invariant.body]

/-- The precondition: no exception, the object invariant, and what the program requires. -/
def prePred (a : Frame) (side : Side) : Pred where
  name := a.preName
  params := a.preParams
  body := .conjuncts
    [.eq (.ident "throw") (.ident "null"), a.invariantCall false,
      withSide (side.ofOrigin .requires) a.program.pre]

/-- The postcondition: no exception, the object invariant, and what the program ensures. -/
def postPred (a : Frame) (side : Side) : Pred where
  name := a.postName
  params := a.postParams
  body := .conjuncts
    [.eq (.ident (primed "throw")) (.ident "null"), a.invariantCall true,
      withSide (side.ofOrigin .ensures) a.program.post]

/-! ## The verification condition -/

/-- Declares variables. -/
def declareVars (v : Verification) (vs : List Var) : Verification :=
  vs.foldl (fun v x => v.declare x.name ⟨valueType x.type, false⟩) v

/-- The state before the program: every variable at version zero. -/
def initial (a : Frame) : Verification :=
  let v : Verification := {}
  let v := (v.declare "throw" ⟨throwType, false⟩).declare "thiz" ⟨a.owner.id, false⟩
  let v := declareVars v a.program.params
  let v := a.fields.foldl (fun v f => v.declare f.var.name ⟨relationType f, true⟩) v
  let v := declareVars v (a.program.returns.toList.map fun t => ⟨"return", t⟩)
  let v := declareVars v a.program.locals
  a.program.skolems.foldl (fun v x => v.constant x.name ⟨valueType x.type, false⟩) v

/-- The state after the program. -/
def final (a : Frame) (s : Settings) : Verification :=
  runAll s.loopUnroll.toNat a.program.body a.initial

/-- What the precondition is given. -/
def preArgs (a : Frame) : List String :=
  [versioned "throw" 0, versioned "thiz" 0] ++ a.program.params.map (fun p => versioned p.name 0) ++
    a.fields.map (fun f => versioned f.var.name 0) ++ a.program.skolems.map (·.name)

/-- The arguments of the postcondition after a run. -/
def postArgs (a : Frame) (v : Verification) : List String :=
  [versioned "thiz" 0] ++ a.program.params.map (fun p => versioned p.name 0) ++
    a.fields.map (fun f => versioned f.var.name 0) ++ a.fields.map (fun f => v.current f.var.name) ++
    (a.program.returns.toList.map fun _ => v.current "return") ++ [v.current "throw"] ++
    a.program.skolems.map (·.name)

/-- **The verification condition**: the transitions imply the obligations and the postcondition. -/
def verificationPred (a : Frame) (v : Verification) : Pred :=
  let goals := v.obligations ++ [.call a.postName ((a.postArgs v).map .ident)]
  { name := a.program.id
    params := v.vars.map fun s => ⟨s.name, s.shape.type⟩
    body :=
      if v.transitions.isEmpty then .conjuncts goals
      else .follows (v.transitions.map (·.formula)) goals }

/-- **The specification of the program**, given the side variables of its module and its own. -/
def specify (a : Frame) (s : Settings) (moduleSide programSide : Side) : Specification :=
  let v := a.final s
  { program := a.program.id
    sigs := a.sigs
    preds := [a.invariantPred moduleSide, a.prePred programSide, a.postPred programSide,
      a.verificationPred v]
    vars := v.vars
    fact := ⟨a.preName, a.preArgs⟩
    goal := ⟨a.program.id, v.vars.map (·.name)⟩
    scopes := a.scopes s
    bits := s.bitWidth }

end Frame

/-- The program with an id in the module with an id; of several modules with one id the last counts. -/
def frame? (modules : List Relational.Module) (owner program : String) : Option Frame := do
  let m ← modules.reverse.find? (·.id == owner)
  let p ← m.program? program
  return ⟨modules, m, p⟩

/-- **Assembles the specification of a program.** -/
def assemble (s : Settings) (modules : List Relational.Module) (index : SideIndex)
    (owner program : String) : Except Fault Specification := do
  index.complete modules
  match frame? modules owner program with
  | none => throw (.methodNotFound owner program [])
  | some a =>
    let moduleSide ← index.ofModule owner
    let programSide ← index.ofProgram program
    return a.specify s moduleSide programSide

end Relspec.Spec
