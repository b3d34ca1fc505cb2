import Relspec.Arithmetic.Duration
import Relspec.Command.Basic

/-!
# Main — the command line

Loads the files that a command line may touch, runs the command on them, and writes back what has changed.
-/

namespace Relspec.Main

def bytes (s : String) : ByteArray := ⟨(s.toList.map fun c => c.toNat.toUInt8).toArray⟩

def ofBytes (b : ByteArray) : String := String.ofList (b.toList.map fun n => Char.ofNat n.toNat)

def native (path : String) : String := (Text.unicode? path).getD path

/-- The words of a command line and the values inside of them. -/
def mentioned (args : List String) : List String :=
  args ++ args.filterMap fun s => (Text.cut? ['='] s.toList).map fun e => String.ofList e.2

/-- The directories on the way to a path, and the path. -/
def onTheWay (path : String) : List String :=
  (Disk.ancestors (Path.place path)).map Path.text ++ [path]

/-- The directory that a command line writes to, if it is one of a check. -/
def outputDir? (args : List String) : StateM Disk (Option String) := do
  match Command.commandWord args with
  | some ("check", args) =>
    match Command.parse (Command.Options.common ++ Command.Options.ofCheck) args {} with
    | .ok (o, _) => return (← (Command.settingsOf o).run).toOption.map (·.outputDir)
    | .error _ => return none
  | _ => return none

/-- Puts the file at a path on a disk, if there is one. -/
def load (d : Disk) (path : String) : IO Disk := do
  try
    let content ← IO.FS.readBinFile (native path)
    return d.addFile path (ofBytes content)
  catch _ => return d

/-- Whether a disk holds a file with some content at a place. -/
def holds (d : Disk) (place : List String) (content : String) : Bool :=
  match d.entry? place with
  | some (.file c) => c == content
  | _ => false

/-- Writes what a disk has that another had not, and removes what it has no longer. -/
def store (before after : Disk) : IO Unit := do
  for (place, e) in after.entries.reverse do
    match e with
    | .dir => IO.FS.createDirAll (native (Path.text place))
    | .file content =>
      if !holds before place content then
        IO.FS.writeBinFile (native (Path.text place)) (bytes content)
  for (place, e) in before.entries do
    match e with
    | .file _ => if (after.entry? place).isNone then IO.FS.removeFile (native (Path.text place))
    | .dir => pure ()

end Relspec.Main

open Relspec in
def main (args : List String) : IO UInt32 := do
  let start ← IO.monoNanosNow
  let args := args.map Text.utf8
  let stdout ← IO.getStdout
  let colour := (← stdout.isTty) && (← IO.getEnv "NO_COLOR").isNone
  let named ← (Main.mentioned args).foldlM Main.load {}
  let output := ((Main.outputDir? args).run named).1
  let disk ← ((output.map Main.onTheWay).getD []).foldlM Main.load named
  let (reply, after) := (Command.run colour args).run disk
  Main.store disk after
  let elapsed := Duration.text ((← IO.monoNanosNow) - start : Nat)
  stdout.write (Main.bytes (reply.out ++ reply.ending.lastLine colour elapsed))
  match reply.ending.complaint? with
  | some complaint => (← IO.getStderr).write (Main.bytes (complaint ++ "\n"))
  | none => pure ()
  return reply.ending.code
