import Relspec.Contract.Printer
import Relspec.Relational.Basic

/-!
# Relational/Printer — relational bodies as text

One line for each simple statement, and nested lines moved right by two blanks.
-/

namespace Relspec.Relational

mutual

def Stmt.lines : Stmt → List String
  | .assign target value => [target ++ " := " ++ value.text]
  | .update field object value => [object.text ++ "." ++ field ++ " := " ++ value.text]
  | .compute target pred args =>
    [pred ++ "[" ++ Text.join "," (args.map Formula.text ++ [target]) ++ "]"]
  | .branch cond thn [] => ["if " ++ cond.text ++ " \x7b"] ++ deeper (Stmt.linesAll thn) ++ ["\x7d"]
  | .branch cond thn (s :: els) =>
    ["if " ++ cond.text ++ " \x7b"] ++ deeper (Stmt.linesAll thn) ++ ["\x7d else \x7b"] ++
      deeper (s.lines ++ Stmt.linesAll els) ++ ["\x7d"]
  | .loop [] cond _ _ body =>
    ["while " ++ cond.text ++ " \x7b"] ++ deeper (Stmt.linesAll body) ++ ["\x7d"]
  | .loop (s :: lead) cond _ _ body =>
    ["prelude \x7b"] ++ deeper (s.lines ++ Stmt.linesAll lead) ++ ["\x7d"] ++
      ["while " ++ cond.text ++ " \x7b"] ++ deeper (Stmt.linesAll body) ++ ["\x7d"]
  | .assert cond => ["assert " ++ cond.text]
  | .assume cond => ["assume " ++ cond.text]
  | .ret none => ["return"]
  | .ret (some value) => ["return " ++ value.text]
  | .raise exception => ["throw " ++ exception]

def Stmt.linesAll : List Stmt → List String
  | [] => []
  | s :: ss => s.lines ++ Stmt.linesAll ss

end

/-- **Statements as text.** -/
def bodyText (ss : List Stmt) : String := linesText (Stmt.linesAll ss)

end Relspec.Relational
