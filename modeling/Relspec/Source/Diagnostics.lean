import Relspec.Diagnostic.Basic
import Relspec.Source.Reading.Classes

/-!
# Source/Diagnostics — remarks on a source

The errors of a source as diagnostics: those in its characters first, then those in its structure.
-/

namespace Relspec.Source

/-- The remark on an error in the characters of a file; it marks at least one character. -/
def ScanError.diagnostic (file : String) (e : ScanError) : Diagnostic :=
  .scanError e.message (e.pos.inFile file) (max e.length 1)

/-- The remark on an error in the structure of a file. -/
def Reading.ParseError.diagnostic (file : String) (e : Reading.ParseError) : Diagnostic :=
  .syntaxError e.message (e.pos.inFile file)

/-- **The remarks on the source of a file.** -/
def Content.diagnostics (file : String) (c : Content) : List Diagnostic :=
  c.scanErrors.map (·.diagnostic file) ++ c.parseErrors.map (·.diagnostic file)

end Relspec.Source
