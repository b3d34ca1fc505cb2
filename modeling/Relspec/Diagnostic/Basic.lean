import Relspec.Diagnostic.EditDistance
import Relspec.Diagnostic.Fault

/-!
# Diagnostic/Basic — what is said about a source

A diagnostic points at a stretch of a source and says what is wrong there, with suggestions, notes and
help.

* `Diagnostic.ofFault` words a fault of a source construct, `Diagnostic.skipped` a class left out;
* `Diagnostic.similar` finds the names a misspelt one may stand for.
-/

namespace Relspec

namespace Diagnostic

/-- How bad it is. -/
inductive Level where
  | error | warning | note | help
deriving DecidableEq, Repr

def Level.word : Level → String
  | .error => "error"
  | .warning => "warning"
  | .note => "note"
  | .help => "help"

end Diagnostic

/-- **A remark about a stretch of a source.** -/
structure Diagnostic where
  level : Diagnostic.Level := .error
  code : String
  message : String
  place : Location
  length : Int := 1
  suggestions : List String := []
  notes : List String := []
  help : String := ""
deriving DecidableEq, Repr

namespace Diagnostic

/-- The candidates that differ from a name, but by no more than a third of its length and one. -/
def similar (name : String) (candidates : List String) : List String :=
  candidates.filter fun c => c != name && decide (editDistance name c ≤ name.length / 3 + 1)

/-- The remark on an error in the structure of a source. -/
def syntaxError (message : String) (place : Location) : Diagnostic :=
  { code := Code.sourceText.text, message, place,
    help := "contracts are written as requires/ensures/invariant clauses before the annotated member" }

/-- The remark on an error in the characters of a source. -/
def scanError (message : String) (place : Location) (length : Int) : Diagnostic :=
  { code := Code.sourceText.text, message, place, length }

/-- The remark on a pragma whose text is no formula. -/
def badPragma (text message : String) (place : Location) : Diagnostic :=
  { code := Code.pragmaText.text, message := (Fault.pragma text message place).message, place,
    notes := ["annotations use the relational assertion language, e.g. " ++
      "@Invariant(\"all n: this.(*next) | n.value >= 0\")"] }

/-- The remark on a name that is not known, with the names it may stand for. -/
def unknownName (name message : String) (place : Location) (candidates : List String) : Diagnostic :=
  let d : Diagnostic :=
    { code := Code.unknownName.text, message, place, length := name.length }
  match similar name candidates with
  | [] => { d with notes := ["identifiers must name a field, a parameter or a local variable"] }
  | [c] => { d with suggestions := ["did you mean '" ++ c ++ "'?"] }
  | cs => { d with suggestions := ["did you mean one of: '" ++ Text.join "', '" cs ++ "'?"] }

/-- **The remark on a fault of a source construct.**  The candidates are names in scope. -/
def ofFault (f : Fault) (candidates : List String) : Diagnostic :=
  match f.root with
  | .unknownName name _ place => unknownName name f.root.message place candidates
  | .pragma text message place => badPragma text message place
  | g =>
    { code := (g.code?.map Code.text).getD "", message := g.message,
      place := g.place?.getD .nowhere,
      help := "rewrite the method without this construct or exclude its class from relevantClasses" }

/-- The warning that a class was left out of a run. -/
def skipped (className : String) (cause : Fault) (place : Location) : Diagnostic :=
  { level := .warning, code := Code.skippedClass.text, message := "class '" ++ className ++ "' skipped",
    place, notes := [cause.message] }

end Diagnostic

end Relspec
