import Relspec.Text.Search

/-!
# Source/Naming — names that nothing else has

Local variables get names of their own, numbered in the order in which they are issued over a whole run.
Parameters and quantified variables keep their name unless it would mean something else in a relational
text.

* `Naming` counts the names issued;
* `fresh` issues a name, `binding` decides whether one is needed.
-/

namespace Relspec

/-- A computation that issues names; the state is how many have been issued. -/
abbrev Naming := StateM Nat

namespace Naming

/-- The `n`-th issued name, for a variable called `name`. -/
def issued (n : Nat) (name : String) : String :=
  "var_" ++ toString n ++ "_" ++
    String.ofList (name.toList.map fun c => if c = '$' then '_' else c)

/-- **A name that was not issued before.** -/
def fresh (name : String) : Naming String := do
  let n := (← get) + 1
  set n
  pure (issued n name)

/-- The words of contract modules and of the relational language. -/
def reserved : List String :=
  ["abstract", "all", "and", "as", "assert", "but", "check", "disj", "else", "exactly", "extends",
    "fact", "for", "fun", "iden", "iff", "implies", "in", "Int", "let", "lone", "module", "no", "none",
    "not", "one", "open", "or", "pred", "run", "seq", "set", "sig", "some", "sum", "univ", "enum",
    "private", "this", "String",
    "arithpred", "arithvar", "assume", "body", "class", "decreases", "ensures", "field", "if",
    "invariant", "program", "requires", "return", "returns", "throw", "var", "while",
    "thiz", "QF", "true", "false", "null", "boolean", "Bool"]

/-- How the names start that are made up on the way to a specification. -/
def generated : List String := ["var_", "arith_", "t_", "sk_"]

def needsFresh (name : String) : Bool :=
  reserved.contains name || name.toList.contains '$' || generated.any (Text.startsWith name)

/-- **The name that a parameter or a quantified variable goes by.** -/
def binding (name : String) : Naming String :=
  if needsFresh name then fresh name else pure name

end Naming

end Relspec
