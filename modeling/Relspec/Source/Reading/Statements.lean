import Relspec.Source.Reading.Expressions

/-!
# Source/Reading/Statements — reading statements

Compound assignments and increments become plain assignments, and a counting loop becomes a block that
holds its initializer and a conditional loop whose body ends with the update.  Loop clauses are
statements of their own: they wait in the state for the loop that follows.

* `statement` reads one statement; it yields none for a loop clause and for a lone `;`;
* `block` reads a block with its braces.
-/

namespace Relspec.Source.Reading

variable {ts : Tokens}

/-- A clause from its keyword on, which stands at `pos`: an expression and a semicolon. -/
def clause (kind : ClauseKind) (pos : Position) (s : State ts) : Step Clause s :=
  (expression s).andThen fun e s₁ _ =>
    (s₁.expect .semicolon ("expected ';' after " ++ kind.keyword ++ " clause")).map fun _ => ⟨pos, kind, e⟩

/-- The operation of a compound assignment. -/
def compound? : Kind → Option ArithOp
  | .plusEqual => some .add
  | .minusEqual => some .sub
  | .starEqual => some .mul
  | .slashEqual => some .div
  | .percentEqual => some .rem
  | _ => none

/-- The operation of an increment or decrement. -/
def bump? : Kind → Option ArithOp
  | .increment => some .add
  | .decrement => some .sub
  | _ => none

/-- A declaration: type, name and optional initializer. -/
def declaration (s : State ts) : Step Stmt s :=
  (typeRef s).andThen fun type s₁ _ =>
    (s₁.expect .identifier "expected variable name").andThen fun name s₂ _ =>
      s₂.accepting .equal
        (fun s₃ _ => (expression s₃).map fun init => .declare s.here name.lexeme type (some init))
        (.here (.declare s.here name.lexeme type none))

/-- What follows an expression that starts a statement: an assignment, a compound assignment, an
increment, or nothing. -/
def afterExpression (e : Expr) (s : State ts) : Step Stmt s :=
  if h : s.kind = .eof then .here (.eval e.pos e)
  else if s.kind = .equal then
    s.taking h fun _ s₁ _ => (expression s₁).map fun value => .assign e.pos e value
  else
    match compound? s.kind, bump? s.kind with
    | some op, _ =>
      s.taking h fun _ s₁ _ =>
        (expression s₁).map fun value => .assign e.pos e (.binary e.pos (.arith op) e value)
    | none, some op =>
      s.taking h fun _ _ _ => .here (.assign e.pos e (.binary e.pos (.arith op) e (.int e.pos 1)))
    | none, none => .here (.eval e.pos e)

/-- A declaration, an assignment, an increment or an expression, without the closing semicolon. -/
def simple (s : State ts) : Step Stmt s :=
  if s.startsDeclaration then declaration s
  else (expression s).andThen fun e s₁ _ => afterExpression e s₁

/-- A simple statement with its semicolon. -/
def plain (s : State ts) : Step (Option Stmt) s :=
  (simple s).andThen fun stmt s₁ _ =>
    (s₁.expect .semicolon "expected ';' after statement").map fun _ => some stmt

/-- An expression between a keyword and a semicolon. -/
def keyworded (message : String) (s : State ts) : Step Expr s :=
  (expression s).andThen fun e s₁ _ => (s₁.expect .semicolon message).map fun _ => e

/-- An expression in parentheses. -/
def condition (before after : String) (s : State ts) : Step Expr s :=
  (s.expect .leftParen before).andThen fun _ s₁ _ =>
    (expression s₁).andThen fun e s₂ _ => (s₂.expect .rightParen after).map fun _ => e

/-- The clauses waiting for a loop: its invariants in order and the last of its variants. -/
def State.loopContract (s : State ts) : List Clause × Option Clause :=
  (s.loopClauses.filter fun c => c.kind ≠ .loopVariant,
    (s.loopClauses.filter fun c => c.kind = .loopVariant).getLast?)

/-- A part of the header of a counting loop, left out where a token of the given kind is next. -/
def headerPart {α : Type} (stop : Kind) (omitted : α) (part : (s : State ts) → Step α s) (s : State ts) :
    Step α s :=
  if s.kind = stop then .here omitted else part s

/-- The header of a counting loop: initializer, condition (true when left out) and update. -/
def forHeader (pos : Position) (s : State ts) : Step (Option Stmt × Expr × Option Stmt) s :=
  (s.expect .leftParen "expected '(' after 'for'").andThen fun _ s₁ _ =>
    (headerPart .semicolon none (fun s' => (simple s').map some) s₁).andThen fun first s₂ _ =>
      (s₂.expect .semicolon "expected ';' after for initializer").andThen fun _ s₃ _ =>
        (headerPart .semicolon (.bool pos true) expression s₃).andThen fun test s₄ _ =>
          (s₄.expect .semicolon "expected ';' after for condition").andThen fun _ s₅ _ =>
            (headerPart .rightParen none (fun s' => (simple s').map some) s₅).andThen fun last s₆ _ =>
              (s₆.expect .rightParen "expected ')' after for clauses").map fun _ => (first, test, last)

/-- A counting loop as a block: the initializer, then a loop whose body ends with the update. -/
def forLoop (pos : Position) (contract : List Clause × Option Clause)
    (header : Option Stmt × Expr × Option Stmt) (body : Body) : Stmt :=
  .block pos
    (header.1.toList ++
      [.loop pos header.2.1 contract.1 contract.2 body.pos (body.stmts ++ header.2.2.toList)])

/-- Reports loop clauses that no loop has taken, and forgets them. -/
def Notes.dropLoopClauses (pos : Position) (n : Notes) : Notes :=
  if n.loopClauses.isEmpty then n
  else { n.report "loop clause not followed by a loop" pos with loopClauses := [] }

/-- Forgets the loop clauses, which a loop has taken. -/
def Notes.tookLoopClauses (n : Notes) : Notes := { n with loopClauses := [] }

/-- Adds a clause to those waiting for a loop. -/
def Notes.addLoopClause (c : Clause) (n : Notes) : Notes := { n with loopClauses := n.loopClauses ++ [c] }

/-- A clause that waits for the next loop. -/
def loopClause (kind : ClauseKind) (pos : Position) (s : State ts) : Step (Option Stmt) s :=
  (clause kind pos s).andThen fun c s₁ _ => s₁.noting (·.addLoopClause c) fun _ _ => .here none

mutual

/-- A statement; none for a loop clause and for a lone `;`. -/
def statement (s : State ts) : Step (Option Stmt) s :=
  if h : s.kind = .eof then plain s
  else
    match s.kind with
    | .leftBrace => s.taking h fun t s₁ _ => (blockRest s₁).map fun body => some (.block t.pos body)
    | .ifWord =>
      s.taking h fun t s₁ _ =>
        (condition "expected '(' after 'if'" "expected ')' after if condition" s₁).andThen fun cond s₂ _ =>
          (branch s₂).andThen fun thn s₃ _ =>
            s₃.accepting .elseWord
              (fun s₄ _ => (branch s₄).map fun els =>
                some (.ifElse t.pos cond thn.pos thn.stmts els.pos els.stmts))
              (.here (some (.ifThen t.pos cond thn.pos thn.stmts)))
    | .whileWord =>
      s.taking h fun t s₁ _ => s₁.noting .tookLoopClauses fun s₂ _ =>
        (condition "expected '(' after 'while'" "expected ')' after loop condition" s₂).andThen fun cond s₃ _ =>
          (branch s₃).map fun body =>
            some (.loop t.pos cond s.loopContract.1 s.loopContract.2 body.pos body.stmts)
    | .forWord =>
      s.taking h fun t s₁ _ => s₁.noting .tookLoopClauses fun s₂ _ =>
        (forHeader t.pos s₂).andThen fun header s₃ _ =>
          (branch s₃).map fun body => some (forLoop t.pos s.loopContract header body)
    | .returnWord =>
      s.taking h fun t s₁ _ =>
        if s₁.kind = .semicolon then
          (s₁.expect .semicolon "expected ';' after return statement").map fun _ => some (.ret t.pos none)
        else (keyworded "expected ';' after return statement" s₁).map fun e => some (.ret t.pos (some e))
    | .throwWord =>
      s.taking h fun t s₁ _ =>
        (keyworded "expected ';' after throw statement" s₁).map fun e => some (.raise t.pos e)
    | .assertWord =>
      s.taking h fun t s₁ _ =>
        (keyworded "expected ';' after assert statement" s₁).map fun e => some (.assert t.pos e)
    | .assumeWord =>
      s.taking h fun t s₁ _ =>
        (keyworded "expected ';' after assume statement" s₁).map fun e => some (.assume t.pos e)
    | .loopInvariantWord => s.taking h fun t s₁ _ => loopClause .loopInvariant t.pos s₁
    | .decreasesWord => s.taking h fun t s₁ _ => loopClause .loopVariant t.pos s₁
    | .semicolon => s.taking h fun _ _ _ => .here none
    | _ => plain s
termination_by 4 * s.left

/-- The statements up to the closing brace or the end of the text. -/
def statements (s : State ts) : Step (List Stmt) s := many s fun s' _ => statementTurn s'
termination_by 4 * s.left + 2

/-- Another statement, unless the block is over.  Where it consumed nothing, tokens are skipped. -/
def statementTurn (s : State ts) : Turn (List Stmt) s :=
  if h : s.kind = .eof then .last (.here [])
  else if s.kind = .rightBrace then .last (.here [])
  else
    let r := (statement s).map Option.toList
    if hlt : r.next.left < s.left then .again ⟨r, hlt⟩ else .again (s.recovering h r)
termination_by 4 * s.left + 1

/-- The rest of a block after its opening brace. -/
def blockRest (s : State ts) : Step (List Stmt) s :=
  (statements s).andThen fun stmts s₁ _ => s₁.noting (.dropLoopClauses s₁.here) fun s₂ _ =>
    (s₂.expect .rightBrace "expected '\x7d' to close block").map fun _ => stmts
termination_by 4 * s.left + 3

/-- The body of a branch or loop: a block, or a single statement taken as one. -/
def branch (s : State ts) : Step Body s :=
  s.accepting .leftBrace (fun s₁ _ => (blockRest s₁).map fun body => ⟨s.here, body⟩)
    ((statement s).map fun stmt => ⟨s.here, stmt.toList⟩)
termination_by 4 * s.left + 1

end

/-- A block with its braces. -/
def block (s : State ts) : Step Body s :=
  (s.expect .leftBrace "expected '\x7b' to start block").andThen fun t s₁ _ =>
    (blockRest s₁).map fun stmts => ⟨t.pos, stmts⟩

end Relspec.Source.Reading
