import Relspec.Run.Pass
import Relspec.Spec.Query

/-!
# Run/Basic — a whole run

A run checks the method that the settings name, and then derives the query for the object invariant of
its class.  A failed check ends the run; a failed query leaves the specification of the check in place.  A pass
that breaks off ends the program, and the run returns nothing.
-/

namespace Relspec.Run

/-- **The record of a run**: its two passes, and the query that was written. -/
structure Record where
  check : Option Pass := none
  invariant : Option Pass := none
  queryPath : String := ""
  fault : Option Fault := none
deriving Repr

/-- **What a run returns**: its record, unless a pass broke off. -/
def Record.returned? (r : Record) : Option Record :=
  if r.check.any (·.brokeOff) || r.invariant.any (·.brokeOff) then none else some r

/-- The pass for the object invariant, and the query made of its specification. -/
def queryPass {σ : Type} (engine : Engine σ) (s : Settings) (classes : List Source.ClassDecl)
    (r : Record) : StateM (World σ) Record := do
  let p ← pass engine (s.forMethod MethodName.generateInvariant) classes false
  match p.fault, p.artifact with
  | some f, _ => return { r with invariant := some p, fault := some f }
  | none, none => return { r with invariant := some p }
  | none, some a =>
    match ← onDisk (Spec.synthesize a.path) with
    | .ok path => return { r with invariant := some (p.advance .invariantSynthesized), queryPath := path }
    | .error f => return { r with invariant := some (p.fail f), fault := some f }

/-- **Runs the check and the query.** -/
def run {σ : Type} (engine : Engine σ) (s : Settings) (classes : List Source.ClassDecl) :
    StateM (World σ) Record := do
  match s.validate with
  | .error f => return { fault := some f }
  | .ok () =>
    let p ← pass engine s classes true
    match p.fault with
    | some f => return { check := some p, fault := some f }
    | none => queryPass engine s classes { check := some p }

end Relspec.Run
