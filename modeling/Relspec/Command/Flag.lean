import Relspec.Text.Number
import Relspec.Text.Quoted
import Relspec.Text.Search

/-!
# Command/Flag — flags on a command line

A flag has a name, perhaps a letter, and a value: a text, a number, a list, or a switch that needs none.
Long flags are written `--name value` or `--name=value`; letters may stand together as in `-vw4`.  What is
no flag is an operand, and after `--` everything is.

* `Usage` — what is wrong with a command line;
* `Flag` — a flag with the way it changes the options;
* `parse` reads a command line.
-/

namespace Relspec.Command

/-- **What is wrong with a command line.** -/
inductive Usage where
  | unknownFlag (name : String)
  | unknownLetter (letter : Char) (group : String)
  | badFlag (word : String)
  | needsValue (word : String)
  | letterNeedsValue (letter : Char) (group : String)
  | badValue (value flag cause : String)
  | tooFew (least count : Nat)
  | tooMany (most count : Nat)
  | unknownCommand (word path : String)
deriving DecidableEq, Repr

def Usage.message : Usage → String
  | .unknownFlag name => "unknown flag: --" ++ name
  | .unknownLetter c group => "unknown shorthand flag: " ++ Text.quoteChar c ++ " in -" ++ group
  | .badFlag word => "bad flag syntax: " ++ word
  | .needsValue word => "flag needs an argument: " ++ word
  | .letterNeedsValue c group => "flag needs an argument: " ++ Text.quoteChar c ++ " in -" ++ group
  | .badValue value flag cause =>
    "invalid argument " ++ Text.quote value ++ " for " ++ Text.quote flag ++ " flag: " ++ cause
  | .tooFew least count => s!"requires at least {least} arg(s), only received {count}"
  | .tooMany most count => s!"accepts at most {most} arg(s), received {count}"
  | .unknownCommand word path =>
    "unknown command " ++ Text.quote word ++ " for " ++ Text.quote path

/-- How the value of a flag changes options of type `α`. -/
inductive Effect (α : Type) where
  | text (set : String → α → α)
  | number (set : Int → α → α)
  | list (set : List String → α → α)
  | switch (set : Bool → α → α)
  | count (set : Int → α → α) (step : α → α)

/-- **A flag.** -/
structure Flag (α : Type) where
  name : String
  letter : Option Char := none
  effect : Effect α

namespace Flag

variable {α : Type}

def label (f : Flag α) : String :=
  match f.letter with
  | some c => "-" ++ c.toString ++ ", --" ++ f.name
  | none => "--" ++ f.name

/-- The fault of a value that a reader refuses. -/
def refused (f : Flag α) (reader value : String) (why : String) : Usage :=
  .badValue value f.label ("strconv." ++ reader ++ ": parsing " ++ Text.quote value ++ ": " ++ why)

def numberOf (f : Flag α) (value : String) : Except Usage Int :=
  match Text.flexible? value with
  | .ok n => .ok n
  | .error .malformed => .error (f.refused "ParseInt" value "invalid syntax")
  | .error .outOfRange => .error (f.refused "ParseInt" value "value out of range")

def switchOf (f : Flag α) (value : String) : Except Usage Bool :=
  if ["1", "t", "T", "true", "TRUE", "True"].contains value then .ok true
  else if ["0", "f", "F", "false", "FALSE", "False"].contains value then .ok false
  else .error (f.refused "ParseBool" value "invalid syntax")

/-- A list as the value of a flag, its parts between commas. -/
def listOf (value : String) : List String := if value = "" then [] else Text.split value ','

def set (f : Flag α) (value : String) (a : α) : Except Usage α :=
  match f.effect with
  | .text put => .ok (put value a)
  | .number put => return put (← f.numberOf value) a
  | .list put => .ok (put (listOf value) a)
  | .switch put => return put (← f.switchOf value) a
  | .count put _ => return put (← f.numberOf value) a

/-- The options after a flag without a value, when it needs none. -/
def setAlone? (f : Flag α) (a : α) : Option α :=
  match f.effect with
  | .switch put => some (put true a)
  | .count _ step => some (step a)
  | _ => none

end Flag

variable {α : Type}

/-- The reading of one word: an operand, the end of the flags, new options, or a flag whose value is the
next word; without a next word the fault holds. -/
inductive Word (α : Type) where
  | operand
  | finish
  | done (a : α)
  | pending (f : Flag α) (a : α) (missing : Usage)

def longFlag (flags : List (Flag α)) (word : String) (body : List Char) (a : α) : Except Usage (Word α) :=
  let name := String.ofList (body.takeWhile (· != '='))
  if body.head? == some '-' || body.head? == some '=' then .error (.badFlag word)
  else
    match flags.find? fun f => f.name == name with
    | none => .error (.unknownFlag name)
    | some f =>
      match Text.cut? ['='] body with
      | some (_, value) => return .done (← f.set (String.ofList value) a)
      | none =>
        match f.setAlone? a with
        | some a => .ok (.done a)
        | none => .ok (.pending f a (.needsValue word))

/-- Reads letters that stand together.  A letter that takes a value takes the rest of its word. -/
def letters (flags : List (Flag α)) : List Char → α → Except Usage (Word α)
  | [], a => .ok (.done a)
  | c :: rest, a =>
    match flags.find? fun f => f.letter == some c with
    | none => .error (.unknownLetter c (String.ofList (c :: rest)))
    | some f =>
      match rest, f.setAlone? a with
      | '=' :: d :: value, _ => return .done (← f.set (String.ofList (d :: value)) a)
      | rest, some a => letters flags rest a
      | [], none => .ok (.pending f a (.letterNeedsValue c (String.ofList [c])))
      | d :: value, none => return .done (← f.set (String.ofList (d :: value)) a)

def word (flags : List (Flag α)) (s : String) (a : α) : Except Usage (Word α) :=
  match s.toList with
  | ['-', '-'] => .ok .finish
  | '-' :: '-' :: body => longFlag flags s body a
  | '-' :: c :: group => letters flags (c :: group) a
  | _ => .ok .operand

/-- **Reads a command line**: the options and the operands. -/
def parse (flags : List (Flag α)) : List String → α → Except Usage (α × List String)
  | [], a => .ok (a, [])
  | s :: rest, a => do
    match ← word flags s a with
    | .operand =>
      let (a, operands) ← parse flags rest a
      return (a, s :: operands)
    | .finish => return (a, rest)
    | .done a => parse flags rest a
    | .pending f a missing =>
      match rest with
      | [] => throw missing
      | value :: rest => parse flags rest (← f.set value a)

end Relspec.Command
