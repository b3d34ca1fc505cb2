import Relspec.Contract.Pragmas
import Relspec.Contract.RoundTrip
import Relspec.Relational.OfContract
import Relspec.Run.Engine
import Relspec.Spec.Assembly

/-!
# Run/Pass — from classes to one specification

A pass takes the classes of a run to the specification of one method: contract modules, pragmas, the
round trip through text, relational modules, assembly, and the written file.  The first fault ends it.

* `World` — what passes share: names issued, files, and the engine's state;
* `Pass` — the record of a pass;
* `pass` — runs one.
-/

namespace Relspec.Run

/-- How far a pass has come. -/
inductive Progress where
  | idle | frontEndLowered | assertionsMerged | roundTripped | relationallyLowered | assembled
  | checkComplete | invariantSynthesized | failed
deriving DecidableEq, Repr

namespace Progress

def word : Progress → String
  | .idle => "idle"
  | .frontEndLowered => "front end lowered"
  | .assertionsMerged => "assertions merged"
  | .roundTripped => "round tripped"
  | .relationallyLowered => "relationally lowered"
  | .assembled => "assembled"
  | .checkComplete => "check complete"
  | .invariantSynthesized => "invariant synthesized"
  | .failed => "failed"

/-- Every stage of progress, in order. -/
def all : List Progress :=
  [.idle, .frontEndLowered, .assertionsMerged, .roundTripped, .relationallyLowered, .assembled,
    .checkComplete, .invariantSynthesized, .failed]

def nameAt (n : Int) : String :=
  if n < 0 then "unknown" else ((all[n.toNat]?).map word).getD "unknown"

end Progress

/-- **The record of a pass.** -/
structure Pass where
  method : String
  state : Progress := .idle
  fault : Option Fault := none
  /-- The module and the program to check. -/
  target : Option (String × String) := none
  /-- A warning for each class that was left out. -/
  diagnostics : List Diagnostic := []
  modules : List Relational.Module := []
  index : Option Relational.SideIndex := none
  artifact : Option Artifact := none
  outcome : Option Outcome := none
  /-- Whether the pass broke off, so that nobody gets to see its record. -/
  brokeOff : Bool := false
deriving Repr

namespace Pass

def advance (p : Pass) (state : Progress) : Pass := { p with state }

def fail (p : Pass) (f : Fault) : Pass := { p with state := .failed, fault := some f }

end Pass

/-- **What passes share.** -/
structure World (σ : Type) where
  /-- How many names have been issued. -/
  names : Nat := 0
  disk : Disk := {}
  engine : σ

/-- Issues names and side variables, and goes on with the count of names; of side variables there were
`sides`, and the count of these is returned. -/
def supplied {α : Type} (sides : Nat) (x : Contract.Supplied α) : StateM Nat (α × Nat) := do
  let (a, s) := x.run ⟨← get, sides⟩
  set s.names
  return (a, s.sides)

/-- A computation that issues names, in the world. -/
def onNames {σ α : Type} (x : StateM Nat α) : StateM (World σ) α := do
  let w ← get
  let (a, n) := x.run w.names
  set { w with names := n }
  return a

/-- A computation on the disk, whose fault is a result. -/
def onDisk {σ α : Type} (x : OnDisk α) : StateM (World σ) (Except Fault α) := do
  let w ← get
  let (r, d) := x.run.run w.disk
  set { w with disk := d }
  return r

/-- A computation of the engine. -/
def onEngine {σ α : Type} (x : StateM σ α) : StateM (World σ) α := do
  let w ← get
  let (a, e) := x.run w.engine
  set { w with engine := e }
  return a

/-- A pass under way: it ends early with a failed record. -/
abbrev Passing (σ : Type) := ExceptT Pass (StateM (World σ))

/-- The value of a step, or the end of the pass. -/
def orFail {m : Type → Type} [Monad m] {α : Type} (p : Pass) (r : Except Fault α) : ExceptT Pass m α :=
  match r with
  | .ok a => pure a
  | .error f => throw (p.fail f)

/-- The specification as a file in the directory for results. -/
def artifactOf (s : Settings) (spec : Spec.Specification) : Artifact where
  name := spec.program
  path := Path.join s.outputDir (spec.program ++ ".als")
  text := spec.text

/-- Contract modules with their pragmas, and the pass that has come so far.  All they take is names. -/
def contracts (s : Settings) (classes : List Source.ClassDecl) (p : Pass) :
    ExceptT Pass (StateM Nat) (Pass × List Contract.Module) := do
  let (lowered, sides) ← (supplied 0 (Contract.ofClasses s classes) : StateM Nat _)
  let p := { p with diagnostics := lowered.catalog.diagnostics }
  let modules ← orFail p lowered.result
  let target ← orFail p (lowered.catalog.target s)
  let p := { p with target := some target }.advance .frontEndLowered
  let (merged, _) ←
    (supplied sides (Contract.mergePragmas s modules classes lowered.catalog) : StateM Nat _)
  let p := { p with diagnostics := merged.catalog.diagnostics }
  let modules ← orFail { p with brokeOff := merged.brokeOff } merged.result
  return (p.advance .assertionsMerged, modules)

/-- The specification of the target, and the pass that has come so far. -/
def specification {σ : Type} (s : Settings) (p : Pass) (modules : List Contract.Module) :
    Passing σ (Pass × Spec.Specification) := do
  let dir := if s.keepIntermediate then s.outputDir else ""
  let modules ← orFail p (← (onDisk (Contract.roundTrip modules dir) : StateM (World σ) _))
  let p := p.advance .roundTripped
  let modules ← orFail p (Relational.ofModules s modules)
  let index := Relational.SideIndex.collect modules
  let p := { p with modules, index := some index }.advance .relationallyLowered
  let (owner, program) := p.target.getD ("", "")
  let spec ← orFail p (Spec.assemble s modules index owner program)
  return (p, spec)

/-- Gives the specification to the engine, and adds its outcome to the pass. -/
def analysis {σ : Type} (engine : Engine σ) (a : Artifact) (p : Pass) : Passing σ Pass := do
  let answer ← (onEngine (engine.analyze a) : StateM (World σ) _)
  let p := { p with outcome := answer.outcome }
  match answer.fault with
  | some f => throw (p.fail f)
  | none => return p.advance .checkComplete

/-- The steps of a pass that has contract modules, up to the written specification and, when it is to be
analysed, the engine. -/
def laterSteps {σ : Type} (engine : Engine σ) (s : Settings) (analyze : Bool)
    (r : Pass × List Contract.Module) : Passing σ Pass := do
  let (p, spec) ← specification s r.1 r.2
  let a := artifactOf s spec
  orFail p (← (onDisk a.write : StateM (World σ) _))
  let p := { p with artifact := some a }.advance .assembled
  if analyze then analysis engine a p else return p

/-- The steps of a pass. -/
def steps {σ : Type} (engine : Engine σ) (s : Settings) (classes : List Source.ClassDecl) (analyze : Bool) :
    Passing σ Pass :=
  ExceptT.mk (onNames (contracts s classes { method := MethodName.normalize s.method }).run) >>=
    laterSteps engine s analyze

/-- The record that a pass ends with, whether early or not. -/
def ended : Except Pass Pass → Pass
  | .ok p => p
  | .error p => p

/-- **Runs a pass.** -/
def pass {σ : Type} (engine : Engine σ) (s : Settings) (classes : List Source.ClassDecl) (analyze : Bool) :
    StateM (World σ) Pass := return ended (← (steps engine s classes analyze).run)

end Relspec.Run
