import Relspec.Contract.OfClass
import Relspec.Disk
import Relspec.Spec.Basic

/-!
# Spec/Query — the query for object invariants

The specification of the method that asks for an object invariant becomes a query by four edits of its
text: the fact is joined with the line after it; the precondition in it becomes a run of the object
invariant over the same arguments, without the exception; the scope of the check command is copied behind
the run; the check command goes.

* `splitArgs` takes an argument list apart at its outer commas;
* `query` edits a text, `synthesize` a file.
-/

namespace Relspec.Spec

open Text (cut?)

/-- A marker that a text lacks. -/
abbrev Missing := String

/-! ## Arguments -/

def deepen (depth : Int) (c : Char) : Int :=
  if c = '[' ∨ c = '(' then depth + 1 else if c = ']' ∨ c = ')' then depth - 1 else depth

/-- The pieces of a list between commas outside of brackets, at a depth to start with. -/
def pieces (depth : Int) : List Char → List (List Char)
  | [] => [[]]
  | c :: s =>
    if c = ',' ∧ depth = 0 then [] :: pieces depth s
    else
      match pieces (deepen depth c) s with
      | [] => [[c]]
      | p :: ps => (c :: p) :: ps

/-- Whether a piece is nothing but white space. -/
def isBlankPiece (p : List Char) : Bool := (Text.trimChars p).isEmpty

/-- **The arguments of a list**; a blank list has none. -/
def splitArgs (s : List Char) : List (List Char) :=
  match pieces 0 s with
  | [p] => if isBlankPiece p then [] else [p]
  | ps => ps

/-- Whether an argument is a version of the exception. -/
def isThrow (p : List Char) : Bool :=
  (Text.after? (held "throw_").toList ((Text.trimChars p).dropWhile (· == '('))).isSome

/-- The arguments without blank ones and versions of the exception. -/
def withoutThrows (ps : List (List Char)) : List (List Char) :=
  ps.filter fun p => !isThrow p && !isBlankPiece p

/-- The text inside a bracket and after it, `depth` brackets further in. -/
def closing : Nat → List Char → Option (List Char × List Char)
  | _, [] => none
  | depth, c :: s =>
    if c = '[' ∨ c = '(' then (closing (depth + 1) s).map fun (a, b) => (c :: a, b)
    else if c = ']' ∨ c = ')' then
      match depth with
      | 0 => some ([], s)
      | d + 1 => (closing d s).map fun (a, b) => (c :: a, b)
    else (closing depth s).map fun (a, b) => (c :: a, b)

/-! ## Edits -/

/-- What the fact to edit calls, in messages. -/
def queryMark : String := "precondition_<Type>_" ++ MethodName.generateInvariant

/-- The class whose invariant the predicate of a fact asks for. -/
def queriedClass? (pred : String) : Option String :=
  let ending := "_" ++ MethodName.generateInvariant
  if Text.startsWith pred "precondition_" && Text.endsWith pred ending then
    some (Text.dropEnd (Text.dropStart pred "precondition_") ending)
  else none

def joinFacts (s : List Char) : Except Missing (List Char) :=
  match cut? factMark.toList s with
  | none => .error factMark
  | some _ => .ok (Text.replaceFrom (factMark.toList ++ ['\n']) factMark.toList 0 s)

/-- The run of an object invariant in place of a precondition with the arguments `args`. -/
def runText (blanks : List Char) (className : String) (args : List Char) : List Char :=
  "run \x7b".toList ++ blanks ++ (Contract.invariantName className).toList ++ ['['] ++
    [','].intercalate (withoutThrows (splitArgs args)) ++ [']']

/-- **Turns the first fact that asks for an invariant into a run.**  The result is the text up to the end
of the call, and the text after it. -/
def runInvariant (s : List Char) : Except Missing (List Char × List Char) :=
  match _h : cut? factMark.toList s with
  | none => .error queryMark
  | some (before, after) =>
    let blanks := after.takeWhile (· == ' ')
    let call := after.dropWhile (· == ' ')
    let skip := (runInvariant after).map fun (a, b) => (before ++ factMark.toList ++ a, b)
    match cut? ['['] call with
    | none => skip
    | some (pred, args) =>
      match queriedClass? (String.ofList pred) with
      | none => skip
      | some className =>
        match closing 0 args with
        | none => .error "]"
        | some (inside, rest) => .ok (before ++ runText blanks className inside, rest)
termination_by s.length
decreasing_by
  have hs := congrArg List.length (Text.eq_append_of_cut? _h)
  have : 0 < factMark.toList.length := by decide
  simp at hs
  omega

/-- The scope of a command: from its marker to the end of the line. -/
def scopeOf (s : List Char) : Except Missing (List Char) :=
  match cut? scopeMark.toList s with
  | none => .error scopeMark
  | some (_, rest) =>
    let line := scopeMark.toList ++ rest.takeWhile (· != '\n')
    .ok (line.reverse.dropWhile fun c => c == '\r' || c == ' ').reverse

/-- Copies the scope of the check command behind the run. -/
def injectScope (s : List Char) : Except Missing (List Char) := do
  let scope ← scopeOf s
  match cut? [Char.ofNat 0x7D] s with
  | none => .error "\x7d"
  | some (block, rest) => .ok (block ++ Char.ofNat 0x7D :: ' ' :: scope ++ rest)

def checkMark : String := "check check"

def dropCheck (s : List Char) : Except Missing (List Char) :=
  match cut? checkMark.toList s with
  | none => .error checkMark
  | some (before, rest) => .ok (before ++ (rest.dropWhile (· != '\n')).drop 1)

/-- **The query of a specification text**, or the first marker that the text lacks. -/
def query (text : String) : Except Missing String := do
  let (head, rest) ← runInvariant (← joinFacts text.toList)
  let rest ← dropCheck (← injectScope rest)
  return String.ofList (head ++ rest)

/-- **Turns the specification file at a path into a query file** beside it. -/
def synthesize (path : String) : OnDisk String := do
  let text ← OnDisk.readFile path
  match query text with
  | .error marker => throw (.noMarker marker path)
  | .ok edited =>
    let out := Text.dropEnd path ".als" ++ ".inv"
    OnDisk.writeFile out edited
    OnDisk.removeFile path
    return out

end Relspec.Spec
