import Relspec.Disk

/-!
# Run/Engine — what becomes of a written specification

The model finder is not part of a run; an engine is given each specification that was written and says
what became of it.  An engine may keep a state.
-/

namespace Relspec.Run

/-- A specification as it is written: its name, its place and its text. -/
structure Artifact where
  name : String
  path : String
  text : String
deriving DecidableEq, Repr

/-- What an analysis found. -/
inductive Verdict where
  | unknown | valid | counterexample
deriving DecidableEq, Repr

namespace Verdict

def word : Verdict → String
  | .unknown => "unknown"
  | .valid => "valid"
  | .counterexample => "counterexample"

/-- Every verdict, in order. -/
def all : List Verdict := [.unknown, .valid, .counterexample]

def nameAt (n : Int) : String :=
  if n < 0 then "unknown" else ((all[n.toNat]?).map word).getD "unknown"

end Verdict

/-- What an engine says about a specification. -/
structure Outcome where
  name : String
  path : String
  verdict : Verdict
deriving DecidableEq, Repr

/-- The answer of an engine: an outcome, a fault, or both. -/
structure Analysis where
  outcome : Option Outcome
  fault : Option Fault
deriving Repr

/-- **An engine** with a state. -/
structure Engine (σ : Type) where
  analyze : Artifact → StateM σ Analysis

/-- The outcome of a specification that was not analysed. -/
def Artifact.unanalyzed (a : Artifact) : Outcome := ⟨a.name, a.path, .unknown⟩

def cancellation (cancelled : Bool) : Option Fault := if cancelled then some .cancelled else none

/-- The engine that keeps what it is given, until the run is called off. -/
def recorder (cancelled : Bool) : Engine (List Artifact) where
  analyze a :=
    if cancelled then pure ⟨none, cancellation cancelled⟩
    else do
      modify (· ++ [a])
      return ⟨some a.unanalyzed, none⟩

def noEngine {σ : Type} (cancelled : Bool) : Engine σ where
  analyze a := pure ⟨some a.unanalyzed, cancellation cancelled⟩

/-- Writes a specification, and makes its directory. -/
def Artifact.write (a : Artifact) : OnDisk Unit := do
  OnDisk.createDir (Path.parent a.path)
  OnDisk.writeFile a.path a.text

end Relspec.Run
