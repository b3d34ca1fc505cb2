import Relspec.Settings.Basic
import Relspec.Settings.Scalar

/-!
# Settings/Printer — settings as a document

Every key is written, in a fixed order.  A text is written plain where it reads back as itself, between
double quotes where a plain scalar would mean something else, and between single quotes where only its
punctuation is in the way.
-/

namespace Relspec.Document

/-- Whether `c`, standing first and followed by `next`, would be taken for punctuation. -/
def leadsAsMark (c : Char) (next : Option Char) : Bool :=
  let gap := next.all fun d => d == ' ' || d == '\t'
  if c == '?' || c == ':' || c == '-' then gap
  else ['#', ',', '[', ']', Char.ofNat 0x7B, Char.ofNat 0x7D, '&', '*', '!', '|', '>', '\'', '"', '%',
    '@', Char.ofNat 0x60].contains c

/-- Whether a colon or a comment mark inside a text would end a plain scalar. -/
def breaksPlain : Char → List Char → Bool
  | _, [] => false
  | prev, c :: s =>
    (c == ':' && (s.head?.all fun d => d == ' ' || d == '\t')) ||
      (c == '#' && (prev == ' ' || prev == '\t')) || breaksPlain c s

/-- Whether every character of a text can be written as itself. -/
def isPlainText (s : String) : Bool :=
  match Text.unicode? s with
  | some u => u.toList.all fun c =>
      (0x20 ≤ c.toNat && c.toNat ≤ 0x7E) || (0xA0 ≤ c.toNat && c.toNat != 0xFEFF)
  | none => false

/-- Whether the punctuation of a text allows a plain scalar. -/
def fitsPlain (s : String) : Bool :=
  match s.toList with
  | [] => true
  | c :: rest =>
    !(Text.startsWith s "---" || Text.startsWith s "...") && !leadsAsMark c rest.head? &&
      !breaksPlain c rest && c != ' ' && rest.getLast? != some ' '

def doubleQuotes (s : String) : String := Text.quote s

def singleQuotes (s : String) : String :=
  "'" ++ String.ofList (Text.replaceFrom ['\''] ['\'', '\''] 0 s.toList) ++ "'"

/-- **A text as a scalar.** -/
def scalarText (s : String) : String :=
  if isSpecial s || isSexagesimal s || (switch? s).isSome || !isPlainText s then doubleQuotes s
  else if fitsPlain s then s
  else singleQuotes s

end Relspec.Document

namespace Relspec.Settings

open Document (scalarText)

def boolText (b : Bool) : String := if b then "true" else "false"

def listText (key : String) (items : List String) : String :=
  if items.isEmpty then key ++ ": []\n"
  else key ++ ":\n" ++ String.join (items.map fun i => "    - " ++ scalarText i ++ "\n")

/-- **The settings as a document.** -/
def text (s : Settings) : String :=
  let line (key value : String) := key ++ ": " ++ value ++ "\n"
  line "classToCheck" (scalarText s.className) ++
    line "methodToCheck" (scalarText s.method) ++
    listText "relevantClasses" s.relevant ++
    line "bitwidth" (toString s.bitWidth) ++
    line "objectScope" (toString s.objectScope) ++
    line "typeScopes" (scalarText s.typeScopes) ++
    line "loopUnroll" (toString s.loopUnroll) ++
    line "removeQuantifiers" (boolText s.removeQuantifiers) ++
    line "useJavaArithmetic" (boolText s.nativeArithmetic) ++
    line "outputDir" (scalarText s.outputDir) ++
    line "keepIntermediate" (boolText s.keepIntermediate)

end Relspec.Settings
