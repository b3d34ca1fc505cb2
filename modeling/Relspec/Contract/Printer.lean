import Relspec.Contract.Basic
import Relspec.Formula.Printer

/-!
# Contract/Printer — contract modules as text

Each item of a module and each statement of a body stands on lines of its own, moved right by two blanks
for each level of nesting.
-/

namespace Relspec

def Var.text (v : Var) : String := v.name ++ ": " ++ v.type.text

def varsText (vs : List Var) : String := Text.join ", " (vs.map Var.text)

def deeper (ls : List String) : List String := ls.map ("  " ++ ·)

/-- Lines as text, each ended. -/
def linesText (ls : List String) : String := String.join (ls.map (· ++ "\n"))

/-- The lines of side variables and their definitions. -/
def Side.lines (s : Side) : List String :=
  s.vars.map (fun v => "arithvar " ++ v.origin.word ++ " " ++ v.name ++ ";") ++
    s.defs.map (fun d => "arithpred " ++ d.origin.word ++ " " ++ d.formula.text ++ ";")

def Predicate.lines (p : Predicate) : List String :=
  ["pred " ++ p.name ++ "[" ++ varsText p.params ++ "] \x7b", "  " ++ p.body.text, "\x7d"]

namespace Contract

def inBraces (word : String) (f : Formula) : String := word ++ " \x7b " ++ f.text ++ " \x7d"

mutual

def Stmt.lines : Stmt → List String
  | .assign target value => [target.text ++ " := " ++ value.text ++ ";"]
  | .branch cond thn [] => ["if " ++ cond.text ++ " \x7b"] ++ deeper (Stmt.linesAll thn) ++ ["\x7d"]
  | .branch cond thn (s :: els) =>
    ["if " ++ cond.text ++ " \x7b"] ++ deeper (Stmt.linesAll thn) ++ ["\x7d else \x7b"] ++
      deeper (s.lines ++ Stmt.linesAll els) ++ ["\x7d"]
  | .loop cond invariant variant body =>
    ["while " ++ cond.text ++ ((invariant.map fun f => " " ++ inBraces "invariant" f).getD "") ++
        ((variant.map fun f => " " ++ inBraces "decreases" f).getD "") ++ " \x7b"] ++
      deeper (Stmt.linesAll body) ++ ["\x7d"]
  | .assert cond => ["assert " ++ cond.text ++ ";"]
  | .assume cond => ["assume " ++ cond.text ++ ";"]
  | .ret none => ["return;"]
  | .ret (some value) => ["return " ++ value.text ++ ";"]
  | .raise exception => ["throw " ++ exception ++ ";"]

def Stmt.linesAll : List Stmt → List String
  | [] => []
  | s :: ss => s.lines ++ Stmt.linesAll ss

end

def Program.lines (p : Program) : List String :=
  ["program " ++ p.id ++ "[" ++ varsText p.params ++ "]" ++
      ((p.returns.map fun t => " returns " ++ t.text).getD "") ++ " \x7b"] ++
    deeper
      (p.locals.map (fun v => "var " ++ v.text ++ ";") ++
        [inBraces "requires" p.requires, inBraces "ensures" p.ensures] ++ p.side.lines ++
        ["body \x7b"] ++ deeper (Stmt.linesAll p.body) ++ ["\x7d"]) ++
    ["\x7d"]

def Module.lines (m : Module) : List String :=
  ["module " ++ m.id ++ " class " ++ m.className ++ " \x7b"] ++
    deeper
      (m.fields.map (fun f => "field " ++ f.text ++ ";") ++ m.predicates.flatMap Predicate.lines ++
        m.invariant.toList.map (fun i => "invariant " ++ i ++ ";") ++ m.side.lines ++
        m.programs.flatMap Program.lines) ++
    ["\x7d"]

/-- **The text of a module.** -/
def Module.text (m : Module) : String := linesText m.lines

end Contract

end Relspec
