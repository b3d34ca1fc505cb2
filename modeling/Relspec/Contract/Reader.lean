import Relspec.Contract.Basic
import Relspec.Formula.Reader

/-!
# Contract/Reader — contract modules from text

The text of a module is made of the lexemes of formulas.  Items of a module come in any order, and the
last of several invariants counts.  As in formulas, the first alternative that fits is taken and a part
that fails halfway takes nothing.

* `Reader` is a reader that may fail, and `Reader.many` repeats one;
* `Reading.statement?` reads a statement, `Module.read` a whole module.
-/

namespace Relspec.Contract

open Formula (Lexeme Mark Taken Trailing)

/-- A reader of lexemes. -/
abbrev Reader := StateT (List Lexeme) Option

namespace Reader

def word : Reader String
  | .word w :: s => some (w, s)
  | _ => none

def keyword (w : String) : Reader Unit
  | .word v :: s => if v = w then some ((), s) else none
  | _ => none

def mark (m : Mark) : Reader Unit
  | .mark k :: s => if k = m then some ((), s) else none
  | _ => none

def taking {α : Type} (r : (s : List Lexeme) → Option (Taken α s)) : Reader α :=
  fun s => (r s).map fun t => (t.value, t.rest)

def formula : Reader Formula := taking Formula.Reading.iff?

/-- Repeats a reader until it fails or takes nothing. -/
def many {α : Type} (r : Reader α) (s : List Lexeme) : Option (List α × List Lexeme) :=
  match r s with
  | none => some ([], s)
  | some (a, rest) =>
    if rest.length < s.length then (many r rest).map fun (as, t) => (a :: as, t) else some ([], s)
termination_by s.length

/-- What a reader takes, if it takes something. -/
def maybe {α : Type} (r : Reader α) : Reader (Option α) :=
  fun s =>
    match r s with
    | some (a, rest) => some (some a, rest)
    | none => some (none, s)

/-- Several items with commas between them, perhaps none. -/
def listed {α : Type} (r : Reader α) : Reader (List α) := do
  match ← maybe r with
  | none => pure []
  | some a => return a :: (← many (do mark .comma; r))

def braced (w : String) : Reader Formula := do
  keyword w; mark .leftBrace
  let f ← formula
  mark .rightBrace
  pure f

end Reader

/-! ## Statements -/

namespace Reading

open Reader

def simple : Reader Stmt :=
  (do keyword "assert"; let f ← formula; mark .semicolon; pure (.assert f)) <|>
  (do keyword "assume"; let f ← formula; mark .semicolon; pure (.assume f)) <|>
  (do keyword "return"; let f ← maybe formula; mark .semicolon; pure (.ret f)) <|>
  (do keyword "throw"; let e ← word; mark .semicolon; pure (.raise e)) <|>
  (do let t ← formula; mark .assign; let v ← formula; mark .semicolon; pure (.assign t v))

/-- A simple statement, when it takes something. -/
def simple? (s : List Lexeme) : Option (Taken Stmt s) :=
  match simple s with
  | some (stmt, rest) => if h : rest.length < s.length then some ⟨stmt, rest, h⟩ else none
  | none => none

/-- The condition of a branch and the brace after it. -/
def branchHead? (s : List Lexeme) : Option (Taken Formula s) :=
  match (do keyword "if"; let f ← formula; mark .leftBrace; pure f : Reader Formula) s with
  | some (f, rest) => if h : rest.length < s.length then some ⟨f, rest, h⟩ else none
  | none => none

/-- Condition, invariant and variant of a loop and the brace after them. -/
def loopHead? (s : List Lexeme) :
    Option (Taken (Formula × Option Formula × Option Formula) s) :=
  let head : Reader (Formula × Option Formula × Option Formula) := do
    keyword "while"
    let f ← formula
    let invariant ← maybe (braced "invariant")
    let variant ← maybe (braced "decreases")
    mark .leftBrace
    pure (f, invariant, variant)
  match head s with
  | some (f, rest) => if h : rest.length < s.length then some ⟨f, rest, h⟩ else none
  | none => none

mutual

def statement? (s : List Lexeme) : Option (Taken Stmt s) :=
  match branch? s with
  | some t => some t
  | none =>
    match loop? s with
    | some t => some t
    | none => simple? s
termination_by 4 * s.length + 2

def branch? (s : List Lexeme) : Option (Taken Stmt s) :=
  match branchHead? s with
  | none => none
  | some ⟨cond, t, ht⟩ =>
    match statements t with
    | ⟨thn, .mark .rightBrace :: u, hu⟩ =>
      match alternative u with
      | ⟨els, rest, h⟩ => some ⟨.branch cond thn els, rest, by simp at hu; omega⟩
    | _ => none
termination_by 4 * s.length + 1
decreasing_by all_goals grind

def alternative (s : List Lexeme) : Trailing (List Stmt) s :=
  match s with
  | .word w :: .mark .leftBrace :: t =>
    if w = "else" then
      match statements t with
      | ⟨els, .mark .rightBrace :: rest, h⟩ => ⟨els, rest, by simp at h ⊢; omega⟩
      | _ => ⟨[], .word w :: .mark .leftBrace :: t, Nat.le_refl _⟩
    else ⟨[], .word w :: .mark .leftBrace :: t, Nat.le_refl _⟩
  | s => ⟨[], s, Nat.le_refl _⟩
termination_by 4 * s.length
decreasing_by all_goals grind

def loop? (s : List Lexeme) : Option (Taken Stmt s) :=
  match loopHead? s with
  | none => none
  | some ⟨(cond, invariant, variant), t, ht⟩ =>
    match statements t with
    | ⟨body, .mark .rightBrace :: rest, h⟩ =>
      some ⟨.loop cond invariant variant body, rest, by simp at h; omega⟩
    | _ => none
termination_by 4 * s.length + 1
decreasing_by all_goals grind

/-- Statements, as many as there are. -/
def statements (s : List Lexeme) : Trailing (List Stmt) s :=
  match statement? s with
  | none => ⟨[], s, Nat.le_refl _⟩
  | some ⟨stmt, t, ht⟩ =>
    match statements t with
    | ⟨stmts, rest, h⟩ => ⟨stmt :: stmts, rest, by omega⟩
termination_by 4 * s.length + 3
decreasing_by all_goals grind

end

/-! ## Modules -/

def var : Reader Var := do
  let name ← word
  mark .colon
  let type ← word
  pure ⟨name, .ofName type⟩

def origin : Reader Origin := do
  match Origin.ofWord? (← word) with
  | some o => pure o
  | none => failure

def sideEntry : Reader Side :=
  (do keyword "arithvar"; let o ← origin; let n ← word; mark .semicolon
      pure { vars := [⟨n, o⟩] }) <|>
  (do keyword "arithpred"; let o ← origin; let f ← formula; mark .semicolon
      pure { defs := [⟨o, f⟩] })

def predicate : Reader Predicate := do
  keyword "pred"
  let name ← word
  mark .leftBracket
  let params ← listed var
  mark .rightBracket; mark .leftBrace
  let body ← formula
  mark .rightBrace
  pure ⟨name, params, body⟩

def block : Reader (List Stmt) :=
  taking fun s =>
    match statements s with
    | ⟨stmts, .mark .rightBrace :: rest, h⟩ => some ⟨stmts, rest, h⟩
    | _ => none

/-- A program of the module `owner`. -/
def program (owner : String) : Reader Program := do
  keyword "program"
  let id ← word
  mark .leftBracket
  let params ← listed var
  mark .rightBracket
  let returns ← maybe (do keyword "returns"; word)
  mark .leftBrace
  let locals ← many (do keyword "var"; let v ← var; mark .semicolon; pure v)
  let requires ← braced "requires"
  let ensures ← braced "ensures"
  let sides ← many sideEntry
  keyword "body"; mark .leftBrace
  let body ← block
  mark .rightBrace
  let (method, overload) := splitProgramId owner id
  pure { id, method, overload, params, returns := returns.map .ofName, locals, requires, ensures,
         side := sides.foldl (· ++ ·) {}, body }

/-- An item of the module `m`, added to it. -/
def item (m : Module) : Reader Module :=
  (do keyword "field"; let v ← var; mark .semicolon
      pure { m with fields := m.fields ++ [v] }) <|>
  (do let p ← predicate
      pure { m with predicates := m.predicates ++ [p] }) <|>
  (do keyword "invariant"; let n ← word; mark .semicolon
      pure { m with invariant := some n }) <|>
  (do let e ← sideEntry
      pure { m with side := m.side ++ e }) <|>
  (do let p ← program m.id
      pure { m with programs := m.programs ++ [p] })

/-- Items of the module `m`, as many as there are. -/
def items (m : Module) (s : List Lexeme) : Option (Module × List Lexeme) :=
  match item m s with
  | none => some (m, s)
  | some (m', rest) => if rest.length < s.length then items m' rest else some (m, s)
termination_by s.length

def wholeModule : Reader Module := do
  keyword "module"
  let id ← word
  keyword "class"
  let head ← word
  let tail ← many (do mark .dot; word)
  mark .leftBrace
  let m ← items { id, className := Text.join "." (head :: tail) }
  mark .rightBrace
  pure m

end Reading

/-- **Reads a module** that is the whole of a text. -/
def Module.read (s : String) : Except Formula.ReadError Module := do
  match Reading.wholeModule (← Formula.lexed s) with
  | some (m, []) => .ok m
  | _ => .error .grammar

end Relspec.Contract
