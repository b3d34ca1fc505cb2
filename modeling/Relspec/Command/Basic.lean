import Relspec.Command.Options
import Relspec.Diagnostic.Report
import Relspec.Run.Basic
import Relspec.Settings.File
import Relspec.Source.Diagnostics

/-!
# Command/Basic — the commands

`check` reads sources and checks a method, `init-config` writes the default settings, `version` prints the
version.  A command prints text and comes to an end of one of few kinds; the ends of a check tell how long
it took, which only the caller knows.

* `Reply` — what a command printed and how it ended;
* `run` runs the command on a command line.
-/

namespace Relspec.Command

open Diagnostic (Reporter Ink paint)

def program : String := "taco"

def version : String := "0.1.0"

/-- **How a command ended.** -/
inductive Ending where
  /-- All is said. -/
  | done
  /-- A check wrote its specification and its query. -/
  | wrote (spec query : String)
  /-- A source does not read. -/
  | parsingFailed
  /-- The check failed. -/
  | checkFailed
  /-- The check broke off, and the program with it. -/
  | brokeOff
  /-- The command was refused; the message is for the caller to print. -/
  | refused (message : String)
deriving DecidableEq, Repr

namespace Ending

/-- The last line of a command that took some time. -/
def lastLine (colour : Bool) (elapsed : String) : Ending → String
  | .done | .brokeOff | .refused _ => ""
  | .wrote spec query =>
    paint colour .green ("Wrote " ++ spec ++ " and " ++ query ++ " in " ++ elapsed ++ "\n")
  | .parsingFailed => paint colour .red ("Parsing failed after " ++ elapsed ++ "\n")
  | .checkFailed => paint colour .red ("Translation failed after " ++ elapsed ++ "\n")

/-- Whether the command failed and has said so. -/
def reported : Ending → Bool
  | .parsingFailed | .checkFailed => true
  | _ => false

def message? : Ending → Option String
  | .refused message => some message
  | _ => none

/-- What a command has to say besides its output. -/
def complaint? : Ending → Option String
  | .refused message => some (program ++ ": " ++ message)
  | .brokeOff => some ("panic: " ++ (Fault.stranded "").message)
  | _ => none

/-- What a command tells the shell. -/
def code : Ending → UInt32
  | .done | .wrote .. => 0
  | .parsingFailed | .checkFailed | .refused _ => 1
  | .brokeOff => 2

end Ending

/-- **What a command printed, and how it ended.** -/
structure Reply where
  out : String := ""
  ending : Ending := .done
deriving Repr

/-! ## Reading sources -/

/-- The sources of a check so far: reporters by path, classes, and the remarks that were printed. -/
structure Sources where
  reporters : Table Reporter := .empty
  classes : List Source.ClassDecl := []
  out : String := ""

namespace Sources

def add (colour : Bool) (s : Sources) (path source : String) : Sources :=
  let reporter := Reporter.of path source colour
  let content := Source.read path source
  { reporters := s.reporters.insert path reporter
    classes := s.classes ++ content.classes
    out := s.out ++ String.join ((content.diagnostics path).map reporter.format) }

/-- Reads sources, up to the first that cannot be read. -/
def readAll (colour : Bool) (s : Sources) : List String → StateM Disk (Sources × Option Fault)
  | [] => return (s, none)
  | path :: paths => do
    match ← (OnDisk.readFile path).run with
    | .ok source => readAll colour (s.add colour path source) paths
    | .error f => return (s, some f)

def reporterAt (colour : Bool) (s : Sources) (file : String) : Reporter :=
  (s.reporters.find? file).getD (Reporter.of file "" colour)

/-- The reporter of the file that a fault points into. -/
def reporterFor (colour : Bool) (s : Sources) (f : Fault) : Reporter :=
  match f.place? with
  | some place => s.reporterAt colour place.file
  | none => Reporter.of "" "" colour

end Sources

/-! ## Commands -/

/-- What is printed about a run, and how it ended. -/
def runReply (colour : Bool) (sources : Sources) (r : Run.Record) : Reply :=
  let remarks := String.join (((r.check.map (·.diagnostics)).getD []).map fun d =>
    (sources.reporterAt colour d.place.file).format d)
  let spec := ((r.check.bind (·.artifact)).map (·.path)).getD ""
  match r.fault with
  | none => ⟨remarks, .wrote spec r.queryPath⟩
  | some f =>
    let kept := if (r.check.map (·.state)) = some .checkComplete then
      paint colour .yellow ("Kept " ++ spec ++ "\n") else ""
    ⟨remarks ++ (sources.reporterFor colour f).describe f ++ kept, .checkFailed⟩

/-- **Checks a method** of the sources at some paths. -/
def check (colour : Bool) (s : Settings) (paths : List String) : StateM Disk Reply := do
  match ← Sources.readAll colour {} paths with
  | (sources, some f) => return ⟨sources.out, .refused f.message⟩
  | (sources, none) =>
    if sources.out != "" then return ⟨sources.out, .parsingFailed⟩
    else
      let disk ← get
      let (r, w) := (Run.run (Run.noEngine false) s sources.classes).run { disk, engine := () }
      set w.disk
      return (r.returned?.map (runReply colour sources)).getD { ending := .brokeOff }

/-- The settings of a check: those of the settings file, if one is given, with the options in their
place. -/
def settingsOf (o : Options) : OnDisk Settings := do
  let s ← if o.settingsPath = "" then pure {} else Settings.load o.settingsPath
  return o.apply s

def initSettings (colour : Bool) (path : String) : StateM Disk Reply := do
  match ← (Settings.save {} path).run with
  | .ok () => return ⟨paint colour .green ("Wrote " ++ path ++ "\n"), .done⟩
  | .error f => return { ending := .refused f.message }

def help : String :=
  program ++ " translates classes annotated with contracts into a relational specification checked by a " ++
    "bounded model finder, and derives the object invariant query of the class under check.\n\n" ++
    "Commands:\n  check <source files...>\n  init-config [path]\n  version\n"

def misused (u : Usage) : Reply := { ending := .refused u.message }

/-- Parses the flags of a command and goes on with the options and operands, unless help is asked for. -/
def withOptions (flags : List (Flag Options)) (args : List String)
    (go : Options → List String → StateM Disk Reply) : StateM Disk Reply :=
  match parse (Options.common ++ flags) args {} with
  | .error u => return misused u
  | .ok (o, operands) => if o.help then return { out := help } else go o operands

/-- **Runs the command on a command line.** -/
def run (colour : Bool) (args : List String) : StateM Disk Reply :=
  match commandWord args with
  | none => withOptions [] args fun _ _ => return { out := help }
  | some ("check", args) =>
    withOptions Options.ofCheck args fun o paths => do
      if paths.isEmpty then return misused (.tooFew 1 0)
      match ← (settingsOf o).run with
      | .error f => return { ending := .refused f.message }
      | .ok s => check colour s paths
  | some ("init-config", args) =>
    withOptions [] args fun _ operands =>
      match operands with
      | [] => initSettings colour (program ++ ".yaml")
      | [path] => initSettings colour path
      | operands => return misused (.tooMany 1 operands.length)
  | some ("version", args) =>
    withOptions [] args fun _ operands =>
      match operands with
      | [] => return { out := program ++ " " ++ version ++ "\n" }
      | word :: _ => return misused (.unknownCommand word (program ++ " version"))
  | some (word, _) => return misused (.unknownCommand word program)

end Relspec.Command
