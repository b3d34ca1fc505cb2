import Relspec.Formula.Printer
import Relspec.Spec.Library
import Relspec.Spec.Verification

/-!
# Spec/Basic — specifications and their text

A specification declares signatures and predicates, holds every version of every variable in one
signature, assumes the precondition of the program, and checks its verification condition.

* `Specification` — the parts;
* `Specification.text` — the text for the model finder.
-/

namespace Relspec.Spec

/-- A predicate's parameter with its type as text. -/
structure Param where
  name : String
  type : String
deriving DecidableEq, Repr

def Param.text (p : Param) : String := p.name ++ ": " ++ p.type

/-- The body of a predicate: conjuncts, or conjuncts that follow from others. -/
inductive Body where
  | conjuncts (goals : List Formula)
  | follows (hypotheses goals : List Formula)
deriving Repr

/-- A predicate. -/
structure Pred where
  name : String
  params : List Param
  body : Body
deriving Repr

/-- A call of a predicate with names as arguments. -/
structure Call where
  name : String
  args : List String
deriving DecidableEq, Repr

/-- **A specification.** -/
structure Specification where
  /-- The program that is checked. -/
  program : String
  sigs : List Sig
  preds : List Pred
  /-- The versions of all variables. -/
  vars : List StateVar
  /-- What is assumed: the precondition of the program. -/
  fact : Call
  /-- What is checked: the verification condition. -/
  goal : Call
  /-- How many atoms each signature has. -/
  scopes : List (Int × String)
  /-- The number of bits of an integer. -/
  bits : Int
deriving Repr

/-! ## Text -/

/-- The signature that holds the versions of all variables. -/
def holder : String := "QF"

/-- A version of a variable, as a field of its holder. -/
def held (name : String) : String := holder ++ "." ++ name

/-- A text with a blank in it, between parentheses. -/
def paren (s : String) : String := if s.toList.contains ' ' then "(" ++ s ++ ")" else s

/-- The lines of conjuncts without trivial ones, all but the first after `and`. -/
def conjunctLines (fs : List Formula) : List String :=
  match fs.filter (!·.isTruth) with
  | [] => [Formula.truth.text]
  | f :: rest => f.text :: rest.map fun g => "and " ++ g.text

def indented (blanks : String) (ls : List String) : String :=
  String.join (ls.map fun l => blanks ++ l ++ "\n")

def Body.text : Body → String
  | .conjuncts goals => indented "  " (conjunctLines goals)
  | .follows hypotheses goals =>
    "  (\n" ++ indented "    " (conjunctLines hypotheses) ++ "  ) implies (\n" ++
      indented "    " (conjunctLines goals) ++ "  )\n"

def Pred.text (p : Pred) : String :=
  "pred " ++ p.name ++ "[" ++ Text.join ", " (p.params.map Param.text) ++ "] \x7b\n" ++ p.body.text ++
    "\x7d\n\n"

/-- A call whose arguments are fields of the holder. -/
def Call.text (c : Call) : String := c.name ++ "[" ++ Text.join "," (c.args.map held) ++ "]"

def StateVar.fieldText (s : StateVar) : String :=
  s.name ++ ": " ++ (if s.shape.relation then s.shape.type else "one " ++ paren s.shape.type)

/-- The lines of the holder, with a comma after each but the last. -/
def fieldLines : List StateVar → List String
  | [] => []
  | [s] => [s.fieldText]
  | s :: t :: ss => (s.fieldText ++ ",") :: fieldLines (t :: ss)

def factMark : String := "fact \x7b"

def scopeMark : String := "for 0 but"

def checkName (program : String) : String := "check_" ++ program

def Specification.scopeText (s : Specification) : String :=
  Text.join ", " (s.scopes.map (fun (n, sig) => toString n ++ " " ++ sig) ++ [toString s.bits ++ " int"])

/-- **The text of a specification.** -/
def Specification.text (s : Specification) : String :=
  "module " ++ s.program ++ "\n\n" ++ String.join (Library.all.map Library.text) ++
    String.join (s.sigs.map fun g => g.text ++ "\n") ++ "\n" ++
    String.join (s.preds.map Pred.text) ++
    "one sig " ++ holder ++ " \x7b\n" ++ indented "  " (fieldLines s.vars) ++ "\x7d\n\n" ++
    factMark ++ "\n  " ++ s.fact.text ++ "\n\x7d\n\n" ++
    "assert " ++ checkName s.program ++ " \x7b\n  " ++ s.goal.text ++ "\n\x7d\n\n" ++
    "check " ++ checkName s.program ++ " " ++ scopeMark ++ " " ++ s.scopeText ++ "\n"

end Relspec.Spec
