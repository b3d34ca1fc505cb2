import Relspec.Settings.Basic
import Relspec.Settings.Document
import Relspec.Settings.Scalar

/-!
# Settings/Reader — settings from a document

Keys that are not known are passed over, keys that are missing keep the value they have by default, and
so do keys without a value.  A key that stands twice, or a value of the wrong kind, spoils the document.
-/

namespace Relspec.Settings

open Document (Node)

def setText (old : String) : Node → Option String
  | .scalar s plain => some (if plain && Document.isNull s then old else s)
  | _ => none

def setInt (old : Int) : Node → Option Int
  | .scalar s true => if Document.isNull s then some old else Document.integer? s
  | _ => none

def setBool (old : Bool) : Node → Option Bool
  | .scalar s true =>
    if Document.isNull s then some old else Document.truth? s <|> Document.switch? s
  | .scalar s false => Document.switch? s
  | _ => none

/-- The text of a list item, nothing when it has no value. -/
def itemTexts : Node → Option (List String)
  | .scalar s plain => some (if plain && Document.isNull s then [] else [s])
  | _ => none

/-- Sets a list of texts; items without a value are left out. -/
def setList : Node → Option (List String)
  | .list items => (items.mapM itemTexts).map List.flatten
  | .scalar s true => if Document.isNull s then some [] else none
  | _ => none

/-- Puts the value of one key into the settings. -/
def set (s : Settings) (key : String) (v : Node) : Option Settings :=
  match key with
  | "classToCheck" => (setText s.className v).map fun x => { s with className := x }
  | "methodToCheck" => (setText s.method v).map fun x => { s with method := x }
  | "relevantClasses" => (setList v).map fun x => { s with relevant := x }
  | "bitwidth" => (setInt s.bitWidth v).map fun x => { s with bitWidth := x }
  | "objectScope" => (setInt s.objectScope v).map fun x => { s with objectScope := x }
  | "typeScopes" => (setText s.typeScopes v).map fun x => { s with typeScopes := x }
  | "loopUnroll" => (setInt s.loopUnroll v).map fun x => { s with loopUnroll := x }
  | "removeQuantifiers" => (setBool s.removeQuantifiers v).map fun x => { s with removeQuantifiers := x }
  | "useJavaArithmetic" => (setBool s.nativeArithmetic v).map fun x => { s with nativeArithmetic := x }
  | "outputDir" => (setText s.outputDir v).map fun x => { s with outputDir := x }
  | "keepIntermediate" => (setBool s.keepIntermediate v).map fun x => { s with keepIntermediate := x }
  | _ => some s

/-- The text of a key, when it has one. -/
def keyText : Node → Option String
  | .scalar s plain => if plain && Document.isNull s then none else some s
  | _ => none

/-- **Reads settings** from the text of a document, on top of the defaults. -/
def read (source : String) : Option Settings := do
  let entries ← Document.read source
  let texts := entries.map fun e =>
    match e.1 with
    | .scalar s _ => s
    | _ => ""
  guard (texts.eraseDups.length = texts.length)
  entries.foldlM (fun s e =>
    match keyText e.1 with
    | some key => s.set key e.2
    | none => some s) {}

end Relspec.Settings
