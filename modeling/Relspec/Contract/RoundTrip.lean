import Relspec.Contract.Printer
import Relspec.Contract.Reader
import Relspec.Disk

/-!
# Contract/RoundTrip — modules through their text

Before a run goes on, every contract module is written as text and read back, and what was read is used
from then on.  The modules' texts can be kept as files.

* `sameIdentifiers` compares the names of a module with those of what was read;
* `roundTrip` passes modules through their text.
-/

namespace Relspec.Contract

def sameMembers (a b : List String) : Bool := a.all b.contains && b.all a.contains

def namesText (names : List String) : String := "[" ++ Text.join " " names ++ "]"

/-- **Whether two modules have the same id, predicates and programs.** -/
def sameIdentifiers (want got : Module) : Except Fault Unit := do
  let predicates (m : Module) := m.predicates.map (·.name)
  let programs (m : Module) := m.programs.map (·.id)
  if want.id != got.id then throw (.roundTrip want.id ("module id became '" ++ got.id ++ "'"))
  if !sameMembers (predicates want) (predicates got) then
    throw (.roundTrip want.id
      ("predicates " ++ namesText (predicates want) ++ " became " ++ namesText (predicates got)))
  if !sameMembers (programs want) (programs got) then
    throw (.roundTrip want.id
      ("programs " ++ namesText (programs want) ++ " became " ++ namesText (programs got)))

/-- The module that the text of a module reads as. -/
def reread (m : Module) : Except Fault Module := do
  match Module.read m.text with
  | .error _ => throw (.roundTrip m.id (m.id ++ ".dj: " ++ Fault.badText))
  | .ok got =>
    sameIdentifiers m got
    pure got

/-- Passes a module through its text, which is kept in the directory `dir` unless that is empty. -/
def roundTripOne (dir : String) (m : Module) : OnDisk Module := do
  if dir != "" then
    OnDisk.createDir dir
    OnDisk.writeFile (Path.join dir (m.id ++ ".dj")) m.text
  match reread m with
  | .ok got => pure got
  | .error f => throw f

/-- **Passes modules through their texts**, one after the other. -/
def roundTrip (modules : List Module) (dir : String) : OnDisk (List Module) :=
  modules.mapM (roundTripOne dir)

end Relspec.Contract
