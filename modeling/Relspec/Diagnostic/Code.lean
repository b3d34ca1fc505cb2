/-!
# Diagnostic/Code — the codes of faults and warnings

A code is a letter and four digits.  `T0001` to `T0599` are errors, one hundred for each category, and
codes that start with `W` are warnings.  Descriptions and categories are looked up by the text of a
code, which need not be one of the known ones.
-/

namespace Relspec.Diagnostic

/-- What a fault or a warning is about. -/
inductive Code where
  | missingSetting | badSetting
  | sourceText | pragmaText
  | unsupported | unknownName | literalRange | roundTrip | methodNotFound
  | noSideEntry
  | noMarker
  | file
  | skippedClass
deriving DecidableEq, Repr

namespace Code

def all : List Code :=
  [.missingSetting, .badSetting, .sourceText, .pragmaText, .unsupported, .unknownName, .literalRange,
    .roundTrip, .methodNotFound, .noSideEntry, .noMarker, .file, .skippedClass]

def text : Code → String
  | .missingSetting => "T0001"
  | .badSetting => "T0002"
  | .sourceText => "T0100"
  | .pragmaText => "T0101"
  | .unsupported => "T0200"
  | .unknownName => "T0201"
  | .literalRange => "T0202"
  | .roundTrip => "T0203"
  | .methodNotFound => "T0204"
  | .noSideEntry => "T0300"
  | .noMarker => "T0400"
  | .file => "T0500"
  | .skippedClass => "W0001"

def description : Code → String
  | .missingSetting => "A mandatory configuration key is missing"
  | .badSetting => "A configuration value is malformed or out of range"
  | .sourceText => "The annotated source could not be parsed"
  | .pragmaText => "An assertion annotation could not be parsed"
  | .unsupported => "The construct has no relational translation"
  | .unknownName => "Identifier is not a field, parameter or local variable"
  | .literalRange => "Integer literal exceeds the configured bit width"
  | .roundTrip => "Intermediate module did not survive its text round trip"
  | .methodNotFound => "The method to check was not translated"
  | .noSideEntry => "Arithmetic constraint index has no entry for an emitted identifier"
  | .noMarker => "Generated specification lacks a marker needed for invariant synthesis"
  | .file => "Artifact file operation failed"
  | .skippedClass => "Unit skipped after a translation failure"

end Code

def describe (code : String) : String :=
  ((Code.all.find? fun c => c.text == code).map Code.description).getD "Unknown error code"

def isWarning (code : String) : Bool := code.toList.head? == some 'W'

/-- The categories of errors, each with the first code that is no longer in it. -/
def categories : List (String × String) :=
  [("T0100", "Configuration"), ("T0200", "Front End"), ("T0300", "Translation"), ("T0400", "Assembly"),
    ("T0500", "Synthesis"), ("T0600", "I/O")]

/-- The category of a code.  Codes are compared as texts, so every text between two known codes falls
into a category. -/
def category (code : String) : String :=
  let known := if "T0001" ≤ code then categories.find? fun c => code < c.1 else none
  match known with
  | some c => c.2
  | none => if isWarning code then "Warning" else "Unknown"

end Relspec.Diagnostic
