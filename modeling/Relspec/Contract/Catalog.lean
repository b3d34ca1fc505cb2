import Relspec.Contract.Basic
import Relspec.Diagnostic.Basic
import Relspec.Settings.Basic

/-!
# Contract/Catalog — which class became which module

The catalog of a pass records the module of each class, the program of each method, the names that
parameters go by, and the classes that were left out.

* `Catalog.drop` takes out a class that failed later on;
* `Catalog.target` finds the module and the program that the settings ask for.
-/

namespace Relspec.Contract

/-- A class that was left out, and why. -/
structure Failure where
  className : String
  place : Location
  fault : Fault
deriving Repr

/-- **The catalog of a pass.** -/
structure Catalog where
  /-- The module of each class, by qualified name. -/
  modules : Table String := .empty
  /-- The program of each method, by `class.signature`. -/
  programs : Table String := .empty
  /-- The names of the parameters of each program. -/
  params : Table (Table String) := .empty
  /-- The programs of each module, in order. -/
  programsOf : Table (List String) := .empty
  failures : List Failure := []
deriving Repr

namespace Catalog

/-- The programs of a module, in order. -/
def programIds (c : Catalog) (id : String) : List String := (c.programsOf.find? id).getD []

/-- Puts a class without a module on record. -/
def fail (c : Catalog) (className : String) (place : Location) (fault : Fault) : Catalog :=
  { c with failures := c.failures ++ [⟨className, place, fault⟩] }

/-- Records the module of a class with the programs and parameters of its methods. -/
def add (c : Catalog) (qualified : String) (m : Module) (programs : Table String)
    (params : Table (Table String)) : Catalog :=
  { c with
    modules := c.modules.insert qualified m.id
    programs := c.programs.union programs
    params := c.params.union params
    programsOf :=
      if m.programs.isEmpty then c.programsOf
      else c.programsOf.insert m.id (c.programIds m.id ++ m.programs.map (·.id)) }

/-- **Takes out a class** and records why. -/
def drop (c : Catalog) (qualified : String) (place : Location) (fault : Fault) : Catalog :=
  match c.modules.find? qualified with
  | none => c
  | some id =>
    { modules := c.modules.erase qualified
      programs := c.programs.filterKeys fun k => !Text.startsWith k (qualified ++ ".")
      params := c.params.filterKeys fun k => !(c.programIds id).contains k
      programsOf := c.programsOf.erase id
      failures := c.failures ++ [⟨qualified, place, fault⟩] }

/-- A warning for each class that was left out. -/
def diagnostics (c : Catalog) : List Diagnostic :=
  c.failures.map fun f => .skipped f.className f.fault f.place

/-- The program that the settings ask for in the class `qualified` with the module `id`.  A method with a
parameter list is found by its signature, any other by its overload number. -/
def programFor (c : Catalog) (s : Settings) (qualified id : String) : Option String :=
  if s.method.toList.contains '(' then c.programs.find? (qualified ++ "." ++ Text.squeeze s.method)
  else
    let (base, overload) := MethodName.split (MethodName.normalize s.method)
    some (programId id base overload.toNat)

/-- **The module and the program to check.**  Of several classes that the settings may mean, the first by
name counts. -/
def target (c : Catalog) (s : Settings) : Except Fault (String × String) :=
  match c.modules.keys.mergeSort.find? fun q => ClassName.same q s.className with
  | none => .error (.methodNotFound s.className s.method [])
  | some qualified =>
    let id := (c.modules.find? qualified).getD ""
    let programs := c.programIds id
    match c.programFor s qualified id with
    | some p =>
      if p != "" && programs.contains p then .ok (id, p)
      else .error (.methodNotFound s.className s.method programs)
    | none => .error (.methodNotFound s.className s.method programs)

end Catalog

end Relspec.Contract
