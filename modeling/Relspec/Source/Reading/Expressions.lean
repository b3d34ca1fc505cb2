import Relspec.Source.Reading.State
import Relspec.Text.Number

/-!
# Source/Reading/Expressions — reading expressions

Binary operators are read by precedence climbing: `operators` goes on with the operand read so far as
long as the next operator binds tightly enough.  All operators associate to the left except the
implication.

* `expression` reads one expression; the readers below it are mutually recursive, and the tokens left
  together with a rank bound their recursion.
-/

namespace Relspec.Source

/-- The operator a token stands for between two operands. -/
def BinaryOp.ofKind? : Kind → Option BinaryOp
  | .equivalent => some .iff
  | .implies => some .implies
  | .or => some .or
  | .and => some .and
  | .equalEqual => some .eq
  | .bangEqual => some .ne
  | .less => some .lt
  | .lessEqual => some .le
  | .greater => some .gt
  | .greaterEqual => some .ge
  | .plus => some (.arith .add)
  | .minus => some (.arith .sub)
  | .star => some (.arith .mul)
  | .slash => some (.arith .div)
  | .percent => some (.arith .rem)
  | _ => none

/-- The operator a token stands for before an operand. -/
def UnaryOp.ofKind? : Kind → Option UnaryOp
  | .minus => some .neg
  | .bang => some .not
  | _ => none

/-- An operator applied to an operand at a place; minus before an integer is a negative integer. -/
def Expr.prefixed (pos : Position) (op : UnaryOp) (operand : Expr) : Expr :=
  match op, operand with
  | .neg, .int _ value => .int pos (-value)
  | op, operand => .unary pos op operand

namespace Reading

variable {ts : Tokens}

theorem ne_eof_of_binary {s : State ts} {op : BinaryOp} (h : BinaryOp.ofKind? s.kind = some op) :
    s.kind ≠ .eof := by
  intro heof
  rw [heof] at h
  cases h

theorem ne_eof_of_unary {s : State ts} {op : UnaryOp} (h : UnaryOp.ofKind? s.kind = some op) :
    s.kind ≠ .eof := by
  intro heof
  rw [heof] at h
  cases h

/-- An integer token as an expression; a token that is no integer of 64 bits is reported. -/
def integer (t : Token) (s : State ts) : Step Expr s :=
  match Text.Literal.read t.lexeme with
  | .exact value => .here (.int t.pos value)
  | other =>
    s.noting (·.report ("invalid integer literal " ++ t.lexeme) t.pos) fun _ _ =>
      .here (.int t.pos other.value)

/-- The place of an expression that is missing; the next token is reported and passed over. -/
def unexpected (s : State ts) : Step Expr s :=
  s.reporting "unexpected token in expression" fun s₁ _ => s₁.pass.map fun t => .ident t.pos "error"

mutual

/-- An expression whose outermost operators have at least the precedence `level`. -/
def climb (level : Nat) (s : State ts) : Step Expr s :=
  (operand s).andThen fun left s₁ _ => operators level left s₁
termination_by 8 * s.left + 4

/-- Goes on after the operand `left` with the operators of at least the precedence `level`. -/
def operators (level : Nat) (left : Expr) (s : State ts) : Step Expr s :=
  iterate left s fun left s' _ => operatorTurn level left s'
termination_by 8 * s.left + 1

/-- Another operator of at least the precedence `level`, with its right side. -/
def operatorTurn (level : Nat) (left : Expr) (s : State ts) : Turn Expr s :=
  match h : BinaryOp.ofKind? s.kind with
  | none => .last (.here left)
  | some op =>
    if op.precedence < level then .last (.here left)
    else
      .again ((s.take (ne_eof_of_binary h)).andThen fun _ s₁ _ =>
        (climb op.rightLevel s₁).map fun right => .binary left.pos op left right)
termination_by 8 * s.left

/-- An operand: signs before a primary expression with its selectors. -/
def operand (s : State ts) : Step Expr s :=
  match h : UnaryOp.ofKind? s.kind with
  | some op => s.taking (ne_eof_of_unary h) fun t s₁ _ => (operand s₁).map fun e => .prefixed t.pos op e
  | none => (primary s).andThen fun e s₁ _ => selectors e s₁
termination_by 8 * s.left + 3

/-- The selectors after an expression: members, calls and indices. -/
def selectors (e : Expr) (s : State ts) : Step Expr s :=
  iterate e s fun e s' _ => selectorTurn e s'
termination_by 8 * s.left + 1

/-- Another selector after an expression; a dot without a name is the last. -/
def selectorTurn (e : Expr) (s : State ts) : Turn Expr s :=
  match s.accept? .dot, s.accept? .leftBracket with
  | some dot, _ =>
    let name := dot.after (dot.next.expect .identifier "expected member name after '.'")
    if name.value.kind = .illegal then .last (name.toStep.map fun _ => e)
    else
      .again (name.andThen fun name s₁ _ =>
        s₁.accepting .leftParen
          (fun s₂ _ => (arguments s₂).andThen fun args s₃ _ =>
            (s₃.expect .rightParen "expected ')' after arguments").map fun _ =>
              .invoke e.pos e name.lexeme args)
          (.here (.field e.pos e name.lexeme)))
  | none, some bracket =>
    .again (bracket.andThen fun _ s₁ _ =>
      (climb 0 s₁).andThen fun position s₂ _ =>
        (s₂.expect .rightBracket "expected ']' after index").map fun _ => .index e.pos e position)
  | none, none => .last (.here e)
termination_by 8 * s.left

/-- A primary expression. -/
def primary (s : State ts) : Step Expr s :=
  if h : s.kind = .eof then unexpected s
  else
    match s.kind with
    | .number | .hexNumber => s.taking h fun t s₁ _ => integer t s₁
    | .string => s.taking h fun t _ _ => .here (.string t.pos t.lexeme)
    | .trueWord => s.taking h fun t _ _ => .here (.bool t.pos true)
    | .falseWord => s.taking h fun t _ _ => .here (.bool t.pos false)
    | .nullWord => s.taking h fun t _ _ => .here (.null t.pos)
    | .thisWord => s.taking h fun t _ _ => .here (.self t.pos)
    | .resultWord => s.taking h fun t _ _ => .here (.result t.pos)
    | .oldWord =>
      s.taking h fun t s₁ _ =>
        (s₁.expect .leftParen "expected '(' after \\old").andThen fun _ s₂ _ =>
          (climb 0 s₂).andThen fun inner s₃ _ =>
            (s₃.expect .rightParen "expected ')' after \\old expression").map fun _ => .old t.pos inner
    | .newWord =>
      s.taking h fun t s₁ _ =>
        (qualifiedName "expected type after 'new'" s₁).andThen fun type s₂ _ =>
          (s₂.expect .leftParen "expected '(' after type").andThen fun _ s₃ _ =>
            (arguments s₃).andThen fun args s₄ _ =>
              (s₄.expect .rightParen "expected ')' after constructor arguments").map fun _ =>
                .new t.pos type args
    | .identifier =>
      s.taking h fun t s₁ _ =>
        s₁.accepting .leftParen
          (fun s₂ _ => (arguments s₂).andThen fun args s₃ _ =>
            (s₃.expect .rightParen "expected ')' after arguments").map fun _ => .call t.pos t.lexeme args)
          (.here (.ident t.pos t.lexeme))
    | .leftParen =>
      s.taking h fun t s₁ _ =>
        s₁.accepting .forallWord (fun s₂ _ => quantified t.pos .all s₂)
          (s₁.accepting .existsWord (fun s₂ _ => quantified t.pos .any s₂)
            ((climb 0 s₁).andThen fun inner s₂ _ => (s₂.expect .rightParen "expected ')'").map fun _ => inner))
    | _ => unexpected s
termination_by 8 * s.left + 2

/-- The rest of a quantified expression after its quantifier: the variable, an optional range and the
body. -/
def quantified (pos : Position) (q : Quantifier) (s : State ts) : Step Expr s :=
  (typeRef s).andThen fun type s₁ _ =>
    (s₁.expect .identifier "expected quantified variable name").andThen fun name s₂ _ =>
      (s₂.expect .semicolon "expected ';' after quantified variable").andThen fun _ s₃ _ =>
        (climb 0 s₃).andThen fun first s₄ _ =>
          (s₄.accepting .semicolon
            (fun s₅ _ => (climb 0 s₅).map fun body => .quantOver pos q name.lexeme type first body)
            (.here (.quant pos q name.lexeme type first))).andThen fun e s₅ _ =>
              (s₅.expect .rightParen "expected ')' to close quantifier").map fun _ => e
termination_by 8 * s.left + 5

/-- The arguments of a call, up to the closing parenthesis. -/
def arguments (s : State ts) : Step (List Expr) s :=
  if s.kind = .rightParen then .here []
  else (climb 0 s).andThen fun e s₁ _ => (moreArguments s₁).map fun es => e :: es
termination_by 8 * s.left + 5

/-- The arguments after the first. -/
def moreArguments (s : State ts) : Step (List Expr) s := many s fun s' _ => argumentTurn s'
termination_by 8 * s.left + 1

/-- Another argument after a comma. -/
def argumentTurn (s : State ts) : Turn (List Expr) s :=
  match s.accept? .comma with
  | some comma => .again (comma.andThen fun _ s₁ _ => (climb 0 s₁).map fun e => [e])
  | none => .last (.here [])
termination_by 8 * s.left

end

/-- An expression. -/
def expression (s : State ts) : Step Expr s := climb 0 s

end Reading

end Relspec.Source
