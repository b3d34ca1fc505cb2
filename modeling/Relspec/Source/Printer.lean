import Relspec.Source.Tree
import Relspec.Text.Quoted
import Relspec.Text.Search

/-!
# Source/Printer — sources as text

Binary expressions are always parenthesised, so a printed expression shows its tree.  Nested lines are
moved right by two blanks, whatever they hold.

* `Expr.text`, `Stmt.text`, `ClassDecl.text` print the three layers.
-/

namespace Relspec.Source

open Text (join nest quote)

namespace Quantifier

def word : Quantifier → String
  | .all => "\\forall"
  | .any => "\\exists"

end Quantifier

mutual

def Expr.text : Expr → String
  | .ident _ name => name
  | .int _ value => toString value.toInt
  | .bool _ value => if value then "true" else "false"
  | .string _ value => quote value
  | .null _ => "null"
  | .self _ => "this"
  | .result _ => "\\result"
  | .old _ inner => "\\old(" ++ inner.text ++ ")"
  | .field _ object name => object.text ++ "." ++ name
  | .call _ name args => name ++ "(" ++ join ", " (Expr.texts args) ++ ")"
  | .invoke _ receiver name args =>
    receiver.text ++ "." ++ name ++ "(" ++ join ", " (Expr.texts args) ++ ")"
  | .index _ array position => array.text ++ "[" ++ position.text ++ "]"
  | .new _ type args => "new " ++ type ++ "(" ++ join ", " (Expr.texts args) ++ ")"
  | .unary _ op operand => op.symbol ++ operand.text
  | .binary _ op left right => "(" ++ left.text ++ " " ++ op.symbol ++ " " ++ right.text ++ ")"
  | .quant _ q var type body =>
    "(" ++ q.word ++ " " ++ type.text ++ " " ++ var ++ "; " ++ body.text ++ ")"
  | .quantOver _ q var type range body =>
    "(" ++ q.word ++ " " ++ type.text ++ " " ++ var ++ "; " ++ range.text ++ "; " ++ body.text ++ ")"

def Expr.texts : List Expr → List String
  | [] => []
  | e :: es => e.text :: Expr.texts es

end

def Clause.text (c : Clause) : String := c.kind.keyword ++ " " ++ c.expr.text ++ ";"

def Pragma.text (a : Pragma) : String := "@" ++ a.kind.word ++ "(" ++ quote a.formula ++ ")"

/-- Texts as lines, each ended. -/
def lines (ts : List String) : String := String.join (ts.map (· ++ "\n"))

/-- A list of printed statements between braces. -/
def braced : List String → String
  | [] => "\x7b\x7d"
  | ts => "\x7b\n" ++ lines (ts.map fun t => "  " ++ nest t) ++ "\x7d"

/-- A type as text, `void` when there is none. -/
def typeText (t : Option TypeRef) : String := (t.map TypeRef.text).getD "void"

mutual

def Stmt.text : Stmt → String
  | .block _ body => braced (Stmt.texts body)
  | .declare _ name type none => type.text ++ " " ++ name ++ ";"
  | .declare _ name type (some init) => type.text ++ " " ++ name ++ " = " ++ init.text ++ ";"
  | .assign _ target value => target.text ++ " = " ++ value.text ++ ";"
  | .ifThen _ cond _ body => "if (" ++ cond.text ++ ") " ++ braced (Stmt.texts body)
  | .ifElse _ cond _ thenBody _ elseBody =>
    "if (" ++ cond.text ++ ") " ++ braced (Stmt.texts thenBody) ++ " else " ++
      braced (Stmt.texts elseBody)
  | .loop _ cond invariants variant _ body =>
    lines (invariants.map Clause.text) ++ lines (variant.toList.map Clause.text) ++
      "while (" ++ cond.text ++ ") " ++ braced (Stmt.texts body)
  | .ret _ none => "return;"
  | .ret _ (some value) => "return " ++ value.text ++ ";"
  | .raise _ exception => "throw " ++ exception.text ++ ";"
  | .assert _ cond => "assert " ++ cond.text ++ ";"
  | .assume _ cond => "assume " ++ cond.text ++ ";"
  | .eval _ expr => expr.text ++ ";"

def Stmt.texts : List Stmt → List String
  | [] => []
  | s :: ss => s.text :: Stmt.texts ss

end

def Body.text (b : Body) : String := braced (Stmt.texts b.stmts)

def Param.text (p : Param) : String := p.type.text ++ " " ++ p.name

def Field.text (f : Field) : String := typeText f.type ++ " " ++ f.name ++ ";"

/-- A method as text: pragmas, clauses, heading and body. -/
def Method.text (m : Method) : String :=
  lines (m.pragmas.map Pragma.text) ++ lines (m.clauses.map Clause.text) ++
    typeText m.returns ++ " " ++ m.name ++ "(" ++ join ", " (m.params.map Param.text) ++ ")" ++
    (if m.throws.isEmpty then "" else " throws " ++ join ", " m.throws) ++ " " ++
    ((m.body.map Body.text).getD (braced []))

def ClassDecl.text (c : ClassDecl) : String :=
  ((c.package.map fun p => "package " ++ p ++ ";\n\n").getD "") ++
    lines (c.pragmas.map Pragma.text) ++ "class " ++ c.name ++
    ((c.superclass.map fun s => " extends " ++ s).getD "") ++ " \x7b\n" ++
    lines (c.fields.map fun f => "  " ++ f.text) ++
    lines (c.invariants.map fun i => "  " ++ i.text) ++
    lines (c.methods.map fun m => "  " ++ nest m.text) ++ "\x7d"

end Relspec.Source
