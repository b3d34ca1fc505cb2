import Relspec.Diagnostic.Basic

/-!
# Diagnostic/Report — diagnostics as text

A report shows the message of a diagnostic, the source lines around its place with the stretch
underlined, and the suggestions and notes.  Colour is given by terminal escapes and can be left out.
-/

namespace Relspec.Diagnostic

/-! ## Colour -/

/-- A way to set off a piece of text: what is written before and after it. -/
structure Ink where
  on : String
  off : String

namespace Ink

def bold : Ink := ⟨"1", "22"⟩
def faint : Ink := ⟨"2", "22"⟩
def red : Ink := ⟨"31", "0"⟩
def green : Ink := ⟨"32", "0"⟩
def yellow : Ink := ⟨"33", "0"⟩
def blue : Ink := ⟨"34", "0"⟩
def cyan : Ink := ⟨"36", "0"⟩

/-- A colour, bold. -/
def strong (i : Ink) : Ink := ⟨i.on ++ ";1", i.off ++ ";22"⟩

def ofLevel : Level → Ink
  | .error => red.strong
  | .warning => yellow.strong
  | .note => blue.strong
  | .help => green.strong

end Ink

/-- A source to report on: its name, its lines, and whether reports are coloured. -/
structure Reporter where
  file : String
  lines : List String
  colour : Bool := false

def Reporter.of (file source : String) (colour : Bool) : Reporter :=
  ⟨file, Text.split source '\n', colour⟩

/-- Text in ink, or plain when there is no colour. -/
def paint (colour : Bool) (i : Ink) (s : String) : String :=
  if colour then "\x1b[" ++ i.on ++ "m" ++ s ++ "\x1b[" ++ i.off ++ "m" else s

def blanks (n : Nat) : String := String.ofList (List.replicate n ' ')

namespace Reporter

def header (colour : Bool) (level : Level) (code message : String) : String :=
  paint colour (Ink.ofLevel level) level.word ++ (if code = "" then "" else "[" ++ code ++ "]") ++ ": " ++
    message ++ "\n"

/-- The line of the source with a number, counted from one. -/
def line? (r : Reporter) (n : Int) : Option String :=
  if 0 < n then r.lines[(n - 1).toNat]? else none

def bar (r : Reporter) : String := paint r.colour .faint (Text.utf8 "│")

def margin (r : Reporter) (width : Nat) : String := blanks width ++ " " ++ r.bar

def numbered (r : Reporter) (width : Nat) (n : Int) (ink : Ink) : String :=
  let digits := toString n
  paint r.colour ink (blanks (width - digits.length) ++ digits) ++ " " ++ r.bar

def marks (r : Reporter) (d : Diagnostic) : String :=
  let ink := Ink.ofLevel (if d.level = .warning then .warning else .error)
  blanks (d.place.column - 1).toNat ++
    paint r.colour ink (String.ofList (List.replicate (max 1 d.length.toNat) '^'))

/-- The reported line between its neighbours, as far as the source has them. -/
def excerpt (r : Reporter) (width : Nat) (d : Diagnostic) : String :=
  let line := d.place.line
  let plain (n : Int) : String :=
    match r.line? n with
    | some s => r.numbered width n .faint ++ " " ++ s ++ "\n"
    | none => ""
  plain (line - 1) ++
    (match r.line? line with
      | some s =>
        r.numbered width line .bold ++ " " ++ s ++ "\n" ++ r.margin width ++ " " ++ r.marks d ++ "\n"
      | none => "") ++
    plain (line + 1)

/-- The lines of the suggestions; only the first is labelled. -/
def suggestionLines (r : Reporter) (width : Nat) : List String → String
  | [] => ""
  | s :: ss =>
    let line (label s : String) := blanks width ++ " " ++ label ++ " " ++ s ++ "\n"
    line (paint r.colour .cyan "help" ++ " " ++ paint r.colour .cyan "try" ++ ":") s ++
      String.join (ss.map (line (paint r.colour .cyan "    ")))

/-- **The report of a diagnostic.** -/
def format (r : Reporter) (d : Diagnostic) : String :=
  let width := max 3 (toString (d.place.line + 1)).length
  header r.colour d.level d.code d.message ++
    blanks width ++ " " ++ paint r.colour .faint "-->" ++
    s!" {r.file}:{d.place.line}:{d.place.column}\n" ++
    r.margin width ++ "\n" ++ r.excerpt width d ++ r.suggestionLines width d.suggestions ++
    String.join (d.notes.map fun n =>
      r.margin width ++ " " ++ paint r.colour .blue "note:" ++ " " ++ n ++ "\n") ++
    (if d.help = "" then ""
      else r.margin width ++ " " ++ paint r.colour .green "help:" ++ " " ++ d.help ++ "\n") ++
    "\n"

/-- **The report of a fault.**  A fault at a place of the reporter's source is shown there; any other
gets a head line and its category. -/
def describe (r : Reporter) (f : Fault) : String :=
  let place := f.place?.getD .nowhere
  if place.known && place.file == r.file then r.format (.ofFault f [])
  else
    match f.code? with
    | none => header r.colour .error "" f.message
    | some code =>
      header r.colour .error code.text f.message ++ "    " ++ paint r.colour .faint "=" ++ " " ++
        paint r.colour .faint (category code.text ++ ": " ++ code.description) ++ "\n"

end Reporter

end Relspec.Diagnostic
