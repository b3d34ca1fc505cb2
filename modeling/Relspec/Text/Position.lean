/-!
# Text/Position — places in a text

A text is read as a sequence of bytes, one character per byte.  A `Position` counts lines and
columns from one and offsets from zero; a `Location` adds the file, and is what diagnostics carry.

* `Position.across` moves a position across a stretch of text;
* `Position.inFile` turns a position into a location.
-/

namespace Relspec

/-- A place in a text: line and column from one, offset from zero. -/
structure Position where
  line : Nat
  column : Nat
  offset : Nat
deriving DecidableEq, Repr, Inhabited

namespace Position

def start : Position := ⟨1, 1, 0⟩

/-- The place just after the character `c` standing at `p`. -/
def step (p : Position) (c : Char) : Position :=
  if c = '\n' then ⟨p.line + 1, 1, p.offset + 1⟩ else ⟨p.line, p.column + 1, p.offset + 1⟩

/-- The place just after the stretch `s` starting at `p`. -/
def across (p : Position) (s : List Char) : Position := s.foldl step p

/-- `line:column:offset`. -/
def text (p : Position) : String := s!"{p.line}:{p.column}:{p.offset}"

end Position

/-- A place in a file.  A line of zero or less stands for no place at all. -/
structure Location where
  file : String
  line : Int
  column : Int
  offset : Int
deriving DecidableEq, Repr

namespace Location

def nowhere : Location := ⟨"", 0, 0, 0⟩

def known (l : Location) : Bool := decide (0 < l.line)

/-- `line:column:offset`. -/
def text (l : Location) : String := s!"{l.line}:{l.column}:{l.offset}"

end Location

/-- The location of `p` in `file`. -/
def Position.inFile (p : Position) (file : String) : Location :=
  ⟨file, p.line, p.column, p.offset⟩

end Relspec
