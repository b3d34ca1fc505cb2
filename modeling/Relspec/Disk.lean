import Relspec.Diagnostic.Fault
import Relspec.Table

/-!
# Disk — the files a run reads and writes

A disk holds files and directories by their place, the list of names on the way from the working
directory or, with a slash in front, from the root.  Every operation says why it fails in the words of the operating system.

* `Path.join`, `Path.clean` — path texts;
* `Disk.read`, `Disk.write`, `Disk.makeDirs`, `Disk.remove`;
* `OnDisk` — computations that use the disk and may fail; what was written before a failure stays.
-/

namespace Relspec

namespace Path

/-- Follows the names of a path from a place, given backwards. -/
def follow : List String → List String → List String
  | place, [] => place
  | place, name :: names =>
    if name = "" ∨ name = "." then follow place names
    else if name = ".." then
      match place with
      | [] => follow [".."] names
      | up :: rest => if up = ".." then follow (".." :: place) names else follow rest names
    else follow (name :: place) names

/-- The name of the outermost directory, in which paths that start with a slash begin. -/
def root : String := "/"

/-- The place of a path: its names without `.`, empty names, and names that `..` takes back.  Nothing lies
above the root. -/
def place (path : String) : List String :=
  let names := (follow [] (Text.split path '/')).reverse
  if Text.startsWith path root then root :: names.dropWhile (· == "..") else names

def text : List String → String
  | [] => "."
  | name :: names => if name = root then root ++ Text.join "/" names else Text.join "/" (name :: names)

def clean (path : String) : String := text (place path)

/-- The path of `name` in the directory `dir`. -/
def join (dir name : String) : String :=
  if dir = "" then (if name = "" then "" else clean name) else clean (dir ++ "/" ++ name)

def parent (path : String) : String :=
  match Text.cutLast? '/' path with
  | some (dir, _) => clean (dir ++ "/")
  | none => "."

def base (path : String) : String :=
  match Text.cutLast? '/' path with
  | some (_, name) => name
  | none => path

end Path

/-- What stands at a place. -/
inductive Disk.Entry where
  | file (content : String)
  | dir
deriving DecidableEq, Repr

/-- **The files and directories** by their places. -/
structure Disk where
  entries : List (List String × Disk.Entry) := []
deriving Repr

namespace Disk

/-- What stands at a place; the working directory and the root are always there. -/
def entry? (d : Disk) (place : List String) : Option Entry :=
  if place = [] ∨ place = [Path.root] then some .dir else d.entries.lookup place

def put (d : Disk) (place : List String) (e : Entry) : Disk :=
  ⟨(place, e) :: d.entries.filter (·.1 != place)⟩

/-- The places on the way to a place, the outermost first, without the working directory. -/
def ancestors (place : List String) : List (List String) :=
  (List.range place.length).tail.map place.take

/-- Whether a file stands on the way to a place. -/
def blocked (d : Disk) (place : List String) : Bool :=
  (ancestors place).any fun a =>
    match d.entry? a with
    | some (.file _) => true
    | _ => false

/-- Why a place that holds nothing cannot be opened. -/
def absent (d : Disk) (place : List String) : String :=
  if d.blocked place then "not a directory" else "no such file or directory"

/-- **The content of a file**, or why there is none. -/
def read (d : Disk) (path : String) : Except String String :=
  if path = "" then .error "open : no such file or directory"
  else
    match d.entry? (Path.place path) with
    | some (.file content) => .ok content
    | some .dir => .error ("read " ++ path ++ ": is a directory")
    | none => .error ("open " ++ path ++ ": " ++ d.absent (Path.place path))

/-- **Writes a file** into a directory that is there. -/
def write (d : Disk) (path content : String) : Except String Disk :=
  if path = "" then .error "open : no such file or directory"
  else
    let place := Path.place path
    match d.entry? place with
    | some .dir => .error ("open " ++ path ++ ": is a directory")
    | some (.file _) => .ok (d.put place (.file content))
    | none =>
      if d.entry? place.dropLast = some .dir then .ok (d.put place (.file content))
      else .error ("open " ++ path ++ ": " ++ d.absent place)

/-- Makes the directories at several places, in order; each comes with the text that names it. -/
def makeEach (d : Disk) : List (List String × String) → Except String Disk
  | [] => .ok d
  | (place, name) :: rest =>
    match d.entry? place with
    | some .dir => d.makeEach rest
    | some (.file _) => .error ("mkdir " ++ name ++ ": not a directory")
    | none => (d.put place .dir).makeEach rest

/-- The beginnings of a path that end before a slash, the shortest first, and the path itself. -/
def beginnings (path : String) : List String :=
  let names := Text.split path '/'
  (List.range names.length).map fun k => Text.join "/" (names.take (k + 1))

/-- **Makes a directory** and those on the way to it. -/
def makeDirs (d : Disk) (path : String) : Except String Disk :=
  if path = "" then .error "mkdir : no such file or directory"
  else d.makeEach ((beginnings path).map fun p => (Path.place p, p))

/-- **Removes a file.** -/
def remove (d : Disk) (path : String) : Except String Disk :=
  let place := Path.place path
  match d.entry? place with
  | some (.file _) => .ok ⟨d.entries.filter (·.1 != place)⟩
  | some .dir => .error ("remove " ++ path ++ ": directory not empty")
  | none => .error ("remove " ++ path ++ ": " ++ d.absent place)

/-- Adds a file together with the directories on the way to it. -/
def addFile (d : Disk) (path content : String) : Disk :=
  let place := Path.place path
  let d := (ancestors place).foldl (fun d a => if (d.entry? a).isSome then d else d.put a .dir) d
  d.put place (.file content)

/-- Whether a place lies below the working directory. -/
def isInside (place : List String) : Bool := !(place.head? == some Path.root || place.head? == some "..")

/-- The files below the working directory with their paths, sorted by path. -/
def files (d : Disk) : List (String × String) :=
  (d.entries.filterMap fun (place, e) =>
    match e with
    | .file content => if isInside place then some (Path.text place, content) else none
    | .dir => none).mergeSort fun a b => a.1 ≤ b.1

end Disk

/-- A computation that uses the disk and may fail. -/
abbrev OnDisk := ExceptT Fault (StateM Disk)

namespace OnDisk

/-- The content of a file. -/
def readFile (path : String) : OnDisk String := do
  match (← get).read path with
  | .ok content => pure content
  | .error cause => throw (.file "read" path cause)

/-- Changes the disk, or fails. -/
def change (op : Disk → Except String Disk) (fault : String → Fault) : OnDisk Unit := do
  match op (← get) with
  | .ok d => set d
  | .error cause => throw (fault cause)

/-- Writes a file. -/
def writeFile (path content : String) : OnDisk Unit := change (·.write path content) (.file "write" path)

/-- Makes a directory. -/
def createDir (path : String) : OnDisk Unit := change (·.makeDirs path) (.file "create" path)

/-- Removes a file. -/
def removeFile (path : String) : OnDisk Unit := change (·.remove path) (.file "remove" path)

end OnDisk

end Relspec
