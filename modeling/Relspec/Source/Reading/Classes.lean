import Relspec.Source.Reading.Statements

/-!
# Source/Reading/Classes — reading classes and whole sources

A source holds an optional package, imports, and classes.  Inside a class, contract clauses and pragmas
wait in the state for the method that follows them; object invariants belong to the class itself.

* `read` reads a source: its classes, the errors in their structure and the errors in its tokens.
-/

namespace Relspec.Source

namespace Reading

variable {ts : Tokens}

/-! ## Pragmas -/

/-- A pragma `@Kind("formula")` behind its `@`, which stands at `pos`.  It yields none when its name is
missing or unknown. -/
def pragma (pos : Position) (s : State ts) : Step (Option Pragma) s :=
  (s.expect .identifier "expected annotation name").andThen fun name s₁ _ =>
    if name.kind = .illegal then s₁.recover.map fun _ => none
    else
      (s₁.expect .leftParen "expected '(' after annotation name").andThen fun _ s₂ _ =>
        (s₂.expect .string "expected string argument").andThen fun text s₃ _ =>
          (s₃.expect .rightParen "expected ')' after annotation argument").andThen fun _ s₄ _ =>
            match PragmaKind.ofWord? name.lexeme with
            | some kind => .here (some ⟨pos, kind, text.lexeme⟩)
            | none => s₄.noting (·.report ("unknown annotation @" ++ name.lexeme) name.pos) fun _ _ => .here none

/-- Another pragma. -/
def pragmaTurn (s : State ts) : Turn (List Pragma) s :=
  match s.accept? .atSign with
  | some mark => .again (mark.andThen fun t s₁ _ => (pragma t.pos s₁).map Option.toList)
  | none => .last (.here [])

/-- The pragmas before a class. -/
def pragmas (s : State ts) : Step (List Pragma) s := many s fun s' _ => pragmaTurn s'

/-! ## Methods -/

/-- A parameter, and another one after a comma. -/
def parameterTurn (s : State ts) : Turn (List Param) s :=
  if s.kind = .rightParen ∨ s.kind = .eof then .last (.here [])
  else
    let type := s.skipModifiers.andThen fun _ s₁ _ => typeRef s₁
    let name := type.after (type.next.expect .identifier "expected parameter name")
    let param : Param := ⟨name.value.pos, name.value.lexeme, type.value⟩
    if name.value.kind = .illegal then .last (name.map fun _ => [])
    else
      match name.next.accept? .comma with
      | some comma => .again (name.bite (comma.map fun _ => [param]))
      | none => .last (name.map fun _ => [param])

/-- The parameters up to the closing parenthesis, which is left ahead. -/
def parameterList (s : State ts) : Step (List Param) s := many s fun s' _ => parameterTurn s'

/-- The parameters with their parentheses. -/
def parameters (s : State ts) : Step (List Param) s :=
  (s.expect .leftParen "expected '(' after method name").andThen fun _ s₁ _ =>
    (parameterList s₁).andThen fun ps s₂ _ =>
      (s₂.expect .rightParen "expected ')' after parameter list").map fun _ => ps

/-- The name of an exception, and another one after a comma. -/
def exceptionTurn (s : State ts) : Turn (List String) s :=
  let name := qualifiedName "expected exception name" s
  match name.next.accept? .comma with
  | some comma => .again (name.bite (comma.map fun _ => [name.value]))
  | none => .last (name.map fun n => [n])

/-- The names of the exceptions that a method throws. -/
def exceptions (s : State ts) : Step (List String) s := many s fun s' _ => exceptionTurn s'

/-- Forgets the clauses and pragmas, which a method has taken. -/
def Notes.tookContract (n : Notes) : Notes := { n with clauses := [], pragmas := [] }

/-- A method from its parameters on; it takes the contract that waits. -/
def method (pos : Position) (returns : Option TypeRef) (name : String) (s : State ts) :
    Step Method s :=
  s.noting .tookContract fun s₁ _ =>
    (parameters s₁).andThen fun params s₂ _ =>
      (s₂.accepting .throwsWord (fun s₃ _ => exceptions s₃) (.here [])).andThen fun names s₃ _ =>
        (s₃.accepting .semicolon (fun _ _ => .here none) ((block s₃).map some)).map fun body =>
          ⟨pos, name, params, returns, names, s.clauses, s.pragmas, body⟩

/-! ## Members -/

/-- A member of a class. -/
inductive Member where
  | field (f : Field)
  | invariant (c : Clause)
  | pragma (p : Pragma)
  | method (m : Method)

/-- Adds a clause to those waiting for a method. -/
def Notes.addClause (c : Clause) (n : Notes) : Notes := { n with clauses := n.clauses ++ [c] }

/-- Adds a pragma to those waiting for a method. -/
def Notes.addPragma (p : Pragma) (n : Notes) : Notes := { n with pragmas := n.pragmas ++ [p] }

/-- Reports a field without a type. -/
def Notes.checkFieldType (type : Option TypeRef) (pos : Position) (n : Notes) : Notes :=
  if type.isNone then n.report "field cannot have type void" pos else n

/-- The rest of a field after its name.  A field with an initializer is dropped. -/
def fieldRest (type : Option TypeRef) (name : Token) (s : State ts) : Step (Option Member) s :=
  s.noting (.checkFieldType type s.here) fun s₁ _ =>
    if s₁.kind = .equal then
      s₁.reporting "field initializers are not supported" fun s₂ _ => s₂.recover.map fun _ => none
    else
      (s₁.expect .semicolon "expected ';' after field declaration").map fun _ =>
        some (.field ⟨name.pos, name.lexeme, type⟩)

/-- The rest of a field or method after its type. -/
def typedMember (pos : Position) (type : Option TypeRef) (s : State ts) : Step (Option Member) s :=
  (s.expect .identifier "expected member name").andThen fun name s₁ _ =>
    if name.kind = .illegal then s₁.recover.map fun _ => none
    else if s₁.kind = .leftParen then (method pos type name.lexeme s₁).map fun m => some (.method m)
    else fieldRest type name s₁

/-- A field or method, when a token is ahead. -/
def declared (s : State ts) (h : s.kind ≠ .eof) : Bite (Option Member) s :=
  let start := s.skipModifiers
  match start.next.accept? .voidWord with
  | some void => start.bite (void.andThen fun t s₁ _ => typedMember t.pos none s₁)
  | none =>
    if hk : start.next.kind = .identifier then
      start.bite ((typeHere start.next hk).andThen fun type s₁ _ =>
        typedMember start.next.here (some type) s₁)
    else
      s.recovering h (start.andThen fun _ s₁ _ =>
        s₁.reporting "expected field or method declaration" fun _ _ => .here none)

/-- A clause that waits for the next method. -/
def methodClause (kind : ClauseKind) (pos : Position) (s : State ts) : Step (Option Member) s :=
  (clause kind pos s).andThen fun c s₁ _ => s₁.noting (·.addClause c) fun _ _ => .here none

/-- A pragma as a member: an invariant of the class, or one that waits for the next method. -/
def memberPragma (p : Option Pragma) (s : State ts) : Step (Option Member) s :=
  match p with
  | some p =>
    if p.kind = .invariant then .here (some (.pragma p))
    else s.noting (·.addPragma p) fun _ _ => .here none
  | none => .here none

/-- One member of a class, when a token is ahead.  Clauses and pragmas of methods are put to wait. -/
def member (s : State ts) (h : s.kind ≠ .eof) : Bite (Option Member) s :=
  match s.kind with
  | .atSign => (s.take h).andThen fun t s₁ _ => (pragma t.pos s₁).andThen fun p s₂ _ => memberPragma p s₂
  | .invariantWord =>
    (s.take h).andThen fun t s₁ _ => (clause .objectInvariant t.pos s₁).map fun c => some (.invariant c)
  | .requiresWord => (s.take h).andThen fun t s₁ _ => methodClause .precondition t.pos s₁
  | .ensuresWord => (s.take h).andThen fun t s₁ _ => methodClause .postcondition t.pos s₁
  | _ => declared s h

/-- Another member, unless the class is over. -/
def memberTurn (s : State ts) : Turn (List Member) s :=
  if h : s.kind = .eof then .last (.here [])
  else if s.kind = .rightBrace then .last (.here [])
  else .again ((member s h).map Option.toList)

/-- The members up to the closing brace or the end of the text. -/
def members (s : State ts) : Step (List Member) s := many s fun s' _ => memberTurn s'

/-! ## Classes -/

/-- Reports clauses and pragmas that no method has taken, and forgets them. -/
def Notes.dropContract (pos : Position) (n : Notes) : Notes :=
  if n.clauses.isEmpty && n.pragmas.isEmpty then n
  else (n.report "method contract not followed by a method" pos).tookContract

/-- A dotted name, none when it is missing. -/
def someName (name : String) : Option String := if name.isEmpty then none else some name

namespace Member

/-- The field that a member is. -/
def field? : Member → Option Field
  | .field f => some f
  | _ => none

/-- The object invariant that a member is. -/
def invariant? : Member → Option Clause
  | .invariant c => some c
  | _ => none

/-- The pragma that a member is. -/
def pragma? : Member → Option Pragma
  | .pragma p => some p
  | _ => none

/-- The method that a member is. -/
def method? : Member → Option Method
  | .method m => some m
  | _ => none

end Member

/-- A class behind its name, with the pragmas read before it. -/
def classRest (file : String) (pos : Position) (package : Option String) (name : String)
    (pragmas : List Pragma) (s : State ts) : Step ClassDecl s :=
  (s.accepting .extendsWord (fun s₁ _ => (qualifiedName "expected superclass name" s₁).map someName)
    (.here none)).andThen fun superclass s₁ _ =>
    (s₁.expect .leftBrace "expected '\x7b' to start class body").andThen fun _ s₂ _ =>
      (members s₂).andThen fun ms s₃ _ =>
        (s₃.expect .rightBrace "expected '\x7d' to close class body").andThen fun _ s₄ _ =>
          s₄.noting (.dropContract s₄.here) fun _ _ => .here
            { file, pos, package, name, superclass
              fields := ms.filterMap Member.field?
              invariants := ms.filterMap Member.invariant?
              pragmas := pragmas ++ ms.filterMap Member.pragma?
              methods := ms.filterMap Member.method? }

/-- A class from its name on, with the pragmas read before it; none when the name is missing. -/
def classNamed (file : String) (pos : Position) (package : Option String) (pragmas : List Pragma)
    (s : State ts) : Step (Option ClassDecl) s :=
  (s.expect .identifier "expected class name").andThen fun name s₁ _ =>
    if name.kind = .illegal then s₁.recover.map fun _ => none
    else (classRest file pos package name.lexeme pragmas s₁).map some

/-- One class with what stands before it, when a token is ahead. -/
def outer (file : String) (package : Option String) (s : State ts) (h : s.kind ≠ .eof) :
    Bite (Option ClassDecl) s :=
  let start := (pragmas s).andThen fun ps s₁ _ => s₁.skipModifiers.map fun _ => ps
  match start.next.accept? .classWord with
  | some word => start.bite (word.andThen fun t s₁ _ => classNamed file t.pos package start.value s₁)
  | none =>
    s.recovering h (start.andThen fun _ s₁ _ =>
      s₁.reporting "expected class declaration" fun _ _ => .here none)

/-- Another class, unless the text is over. -/
def classTurn (file : String) (package : Option String) (s : State ts) : Turn (List ClassDecl) s :=
  if h : s.kind = .eof then .last (.here [])
  else .again ((outer file package s h).map Option.toList)

/-- The classes up to the end of the text. -/
def classes (file : String) (package : Option String) (s : State ts) : Step (List ClassDecl) s :=
  many s fun s' _ => classTurn file package s'

/-! ## Sources -/

/-- The package declaration, if there is one. -/
def packageName (s : State ts) : Step (Option String) s :=
  s.accepting .packageWord
    (fun s₁ _ => (qualifiedName "expected package name" s₁).andThen fun name s₂ _ =>
      (s₂.expect .semicolon "expected ';' after package declaration").map fun _ => someName name)
    (.here none)

/-- Another import, which is read and dropped. -/
def importTurn (s : State ts) : Turn Unit s :=
  match s.accept? .importWord with
  | some word =>
    .again (word.andThen fun _ s₁ _ => (qualifiedName "expected import name" s₁).andThen fun _ s₂ _ =>
      (s₂.accepting .dot (fun s₃ _ => (s₃.expect .star "expected '*' or name in import").map fun _ => ())
        (.here ())).andThen fun _ s₃ _ => (s₃.expect .semicolon "expected ';' after import").map fun _ => ())
  | none => .last (.here ())

/-- The imports. -/
def imports (s : State ts) : Step Unit s := iterate () s fun _ s' _ => importTurn s'

/-- A source: package, imports and classes. -/
def unit (file : String) (s : State ts) : Step (List ClassDecl) s :=
  (packageName s).andThen fun package s₁ _ =>
    (imports s₁).andThen fun _ s₂ _ => classes file package s₂

end Reading

/-- A source that has been read: its classes and its errors. -/
structure Content where
  classes : List ClassDecl
  parseErrors : List Reading.ParseError
  scanErrors : List ScanError

/-- The tokens of a scanned source. -/
def Scanned.closed (s : Scanned) : Reading.Tokens := .of s.tokens s.finish

/-- Reads a source. -/
def read (file source : String) : Content :=
  let scanned := scan source
  let result := Reading.unit file (.start scanned.closed)
  ⟨result.value, result.next.errors, scanned.errors⟩

end Relspec.Source
