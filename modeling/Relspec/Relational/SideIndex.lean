import Relspec.Diagnostic.Fault
import Relspec.Relational.Basic
import Relspec.Table

/-!
# Relational/SideIndex — the side variables of every module and program

The index is built once from all modules; a specification is assembled from it and not from the modules.
Every module and program has an entry, perhaps an empty one.
-/

namespace Relspec.Relational

/-- **The side variables of modules and programs**, by id. -/
structure SideIndex where
  modules : Table Side := .empty
  programs : Table Side := .empty
deriving Repr

namespace SideIndex

/-- Adds a module and its programs. -/
def add (i : SideIndex) (m : Module) : SideIndex where
  modules := i.modules.insert m.id m.side
  programs := m.programs.foldl (fun t p => t.insert p.id p.side) i.programs

/-- **The index of modules.** -/
def collect (modules : List Module) : SideIndex := modules.foldl add {}

/-- The side variables of a module. -/
def ofModule (i : SideIndex) (id : String) : Except Fault Side :=
  match i.modules.find? id with
  | some s => .ok s
  | none => .error (.noSideEntry "module" id)

/-- The side variables of a program. -/
def ofProgram (i : SideIndex) (id : String) : Except Fault Side :=
  match i.programs.find? id with
  | some s => .ok s
  | none => .error (.noSideEntry "program" id)

/-- Fails with the first module or program that has no entry. -/
def complete (i : SideIndex) (modules : List Module) : Except Fault Unit :=
  modules.forM fun m => do
    discard (i.ofModule m.id)
    m.programs.forM fun p => discard (i.ofProgram p.id)

end SideIndex

end Relspec.Relational
