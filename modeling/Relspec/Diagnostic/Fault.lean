import Relspec.Diagnostic.Code
import Relspec.Text.Position
import Relspec.Text.Quoted
import Relspec.Text.Search

/-!
# Diagnostic/Fault — why a run fails

Every way in which a run can fail is one constructor of `Fault`; `Fault.message` is the one place that
words them.
-/

namespace Relspec

/-- **The cause of a failure.** -/
inductive Fault where
  /-- A setting without which nothing can be checked. -/
  | missingSetting (key : String)
  /-- A setting whose value cannot be used. -/
  | badSetting (key message : String)
  /-- A settings file that does not read. -/
  | settingsText (path : String)
  /-- The method to check is not among the programs. -/
  | methodNotFound (className method : String) (available : List String)
  /-- A construct that has no relational meaning. -/
  | unsupported (construct owner : String) (place : Location)
  /-- A name that is no field, parameter or variable. -/
  | unknownName (name owner : String) (place : Location)
  /-- An integer that does not fit the bit width. -/
  | literalRange (value bits : Int) (owner : String)
  /-- A module whose text does not read back as the module. -/
  | roundTrip (owner detail : String)
  /-- A pragma whose text is no formula. -/
  | pragma (text message : String) (place : Location)
  /-- A class whose module is gone when its pragmas are to be added; nothing goes on from there. -/
  | stranded (className : String)
  /-- An identifier without an entry in the side index. -/
  | noSideEntry (kind id : String)
  /-- A specification text that lacks a marker. -/
  | noMarker (marker path : String)
  /-- A file operation that failed. -/
  | file (action path cause : String)
  /-- Any other failure. -/
  | other (message : String)
  /-- A failure while doing something. -/
  | within (context : String) (cause : Fault)
deriving Repr, DecidableEq

namespace Fault

def cancelled : Fault := .other "context canceled"

/-- What is wrong with a text that is no formula or module. -/
def badText : String := "<parse error>"

/-- The wording of a construct that is not supported. -/
def unsupportedText (construct owner : String) (place : Location) : String :=
  (if place.known then s!"{place.file}:{place.line}:{place.column}: " else "") ++
    "unsupported " ++ construct ++ " in '" ++ owner ++ "'"

/-- **The message of a fault.** -/
def message : Fault → String
  | .missingSetting key => "Config key '" ++ key ++ "' is mandatory"
  | .badSetting key message => "config key '" ++ key ++ "': " ++ message
  | .settingsText path => "parsing config " ++ path ++ ": " ++ badText
  | .methodNotFound className method available =>
    "method '" ++ method ++ "' of class '" ++ className ++ "' was not found among translated programs" ++
      (if available.isEmpty then "" else " (available: " ++ Text.join ", " available ++ ")")
  | .unsupported construct owner place => unsupportedText construct owner place
  | .unknownName name owner place => unsupportedText ("identifier '" ++ name ++ "'") owner place
  | .literalRange value bits owner =>
    unsupportedText s!"literal {value} outside {bits}-bit range" owner .nowhere
  | .roundTrip owner detail => "round trip of module '" ++ owner ++ "' failed: " ++ detail
  | .pragma text message _ => "malformed annotation " ++ Text.quote text ++ ": " ++ message
  | .stranded _ => "runtime error: invalid memory address or nil pointer dereference"
  | .noSideEntry kind id => "arithmetic constraint index has no entry for " ++ kind ++ " '" ++ id ++ "'"
  | .noMarker marker path =>
    "invariant synthesis: marker " ++ Text.quote marker ++ " not found in " ++ path
  | .file action path cause => "failed to " ++ action ++ " " ++ path ++ ": " ++ cause
  | .other message => message
  | .within context cause => context ++ ": " ++ cause.message

/-- The fault itself, without what was being done. -/
def root : Fault → Fault
  | .within _ cause => cause.root
  | f => f

/-- The code of a fault, if it has one. -/
def code? (f : Fault) : Option Diagnostic.Code :=
  match f.root with
  | .missingSetting _ => some .missingSetting
  | .badSetting .. => some .badSetting
  | .settingsText _ => none
  | .methodNotFound .. => some .methodNotFound
  | .unsupported .. => some .unsupported
  | .unknownName .. => some .unknownName
  | .literalRange .. => some .literalRange
  | .roundTrip .. => some .roundTrip
  | .pragma .. => some .pragmaText
  | .noSideEntry .. => some .noSideEntry
  | .noMarker .. => some .noMarker
  | .file .. => some .file
  | .stranded _ | .other _ | .within .. => none

/-- Where the fault is, for the faults that come from a construct of a source. -/
def place? (f : Fault) : Option Location :=
  match f.root with
  | .unsupported _ _ place | .unknownName _ _ place | .pragma _ _ place => some place
  | .literalRange .. | .roundTrip .. => some .nowhere
  | _ => none

end Fault

end Relspec
