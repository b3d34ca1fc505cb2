import Relspec.Source.Scan
import Relspec.Source.Tree

/-!
# Source/Reading/State — what reading a source threads along

Reading goes left to right through the tokens of one source, which the end of the text closes, and never
back.  Errors are recorded and reading goes on.  A state stands at one of the tokens, so there is always
a next one; whether one was asked for before the first is written down.  The step types carry how far
reading has come, so that every reader built from them is total by construction: after a `Step` no more
tokens are left, after a `Bite` there are fewer.

* `State.expect` demands a token, `State.accept?` takes one that is there;
* `iterate` is the one loop of all readers: it goes on only after a bite;
* `State.recover` skips to a place where reading can go on after an error.
-/

namespace Relspec.Source.Reading

/-- An error in the structure of a source. -/
structure ParseError where
  message : String
  pos : Position
deriving DecidableEq, Repr

/-- **The tokens of a source**; the last one is the end of the text. -/
structure Tokens where
  list : Array Token
  closed : list.back?.map Token.kind = some .eof

theorem Tokens.closed_push (l : Array Token) (finish : Position) :
    (l.push ⟨.eof, "", finish⟩).back?.map Token.kind = some .eof := by simp

/-- Tokens, closed by the end of the text. -/
def Tokens.of (l : List Token) (finish : Position) : Tokens :=
  ⟨l.toArray.push ⟨.eof, "", finish⟩, closed_push l.toArray finish⟩

theorem Tokens.size_pos (ts : Tokens) : 0 < ts.list.size := by
  refine Nat.pos_of_ne_zero fun h => ?_
  have := ts.closed
  simp [Array.eq_empty_of_size_eq_zero h] at this

/-- What has been noted on the way: the errors, the clauses and pragmas that wait for the next method and
the clauses that wait for the next loop. -/
structure Notes where
  errors : List ParseError := []
  clauses : List Clause := []
  pragmas : List Pragma := []
  loopClauses : List Clause := []

/-- Records an error at a place. -/
def Notes.report (n : Notes) (message : String) (pos : Position) : Notes :=
  { n with errors := n.errors ++ [⟨message, pos⟩] }

/-- **The state of reading**: the place of the next token, whether a token before the first one has been
asked for, and the notes. -/
structure State (ts : Tokens) extends Notes where
  current : Nat
  inside : current < ts.list.size
  stray : Bool := false

variable {ts : Tokens} {α β : Type}

namespace State

/-- Where reading starts. -/
def start (ts : Tokens) : State ts := { current := 0, inside := ts.size_pos }

/-- The next token. -/
def peek (s : State ts) : Token := getElem ts.list s.current s.inside

/-- The kind of the next token, `eof` at the end. -/
def kind (s : State ts) : Kind := s.peek.kind

/-- The place of the next token. -/
def here (s : State ts) : Position := s.peek.pos

/-- Whether the token `n` places ahead is there and of a kind. -/
def checkAt (s : State ts) (n : Nat) (kind : Kind) : Bool :=
  ts.list[s.current + n]?.any fun t => t.kind = kind

/-- The token before the next one, if there is one. -/
def previous? (s : State ts) : Option Token :=
  match s.current with
  | 0 => none
  | n + 1 => ts.list[n]?

/-- The number of tokens from here on, with the end of the text. -/
def left (s : State ts) : Nat := ts.list.size - s.current

theorem succ_lt_size (s : State ts) (h : s.kind ≠ .eof) : s.current + 1 < ts.list.size := by
  have hlast := ts.closed
  have hinside := s.inside
  refine Nat.lt_of_le_of_ne hinside fun heq => h ?_
  rw [Array.back?_eq_getElem?, ← heq, Nat.add_sub_cancel, Array.getElem?_eq_getElem hinside] at hlast
  exact Option.some.inj hlast

/-- Past the next token, unless the text is over. -/
def moved (s : State ts) : State ts :=
  if h : s.kind = .eof then s else { s with current := s.current + 1, inside := s.succ_lt_size h }

/-- **Moves on and asks for the token before**, the one moved past. -/
def advance (s : State ts) : State ts :=
  { s.moved with stray := s.stray || s.moved.previous?.isNone }

/-- The state with other notes. -/
def note (s : State ts) (f : Notes → Notes) : State ts := { s with toNotes := f s.toNotes }

/-- There is a token before, or a next one that is not the end: `advance` asks for no token before the
first. -/
def Begun (s : State ts) : Prop := 0 < s.current ∨ s.kind ≠ .eof

/-- **What reading keeps to** on its way to another state: it does not go back, and once it has begun it asks
for no token before the first. -/
structure Reaches (s s' : State ts) : Prop where
  le : s'.left ≤ s.left
  calm : s.Begun → s'.stray = s.stray

section Reaching
variable {s s₁ s₂ : State ts}

theorem left_le_iff : s₁.left ≤ s.left ↔ s.current ≤ s₁.current := by
  have := s.inside
  have := s₁.inside
  simp only [left]
  omega

theorem left_lt_iff : s₁.left < s.left ↔ s.current < s₁.current := by
  have := s.inside
  have := s₁.inside
  simp only [left]
  omega

theorem kind_eq_of_current (h : s₁.current = s.current) : s₁.kind = s.kind := by
  simp only [kind, peek, h]

theorem Begun.mono (h : s.Begun) (hle : s₁.left ≤ s.left) : s₁.Begun := by
  obtain hlt | heq := Nat.lt_or_eq_of_le (left_le_iff.mp hle)
  · exact .inl (Nat.zero_lt_of_lt hlt)
  · rw [Begun, kind_eq_of_current heq.symm, ← heq]
    exact h

theorem Reaches.refl (s : State ts) : s.Reaches s := ⟨Nat.le_refl _, fun _ => rfl⟩

theorem Reaches.trans (h : s.Reaches s₁) (h₁ : s₁.Reaches s₂) : s.Reaches s₂ :=
  ⟨Nat.le_trans h₁.le h.le, fun hb => (h₁.calm (hb.mono h.le)).trans (h.calm hb)⟩

theorem reaches_note (s : State ts) (f : Notes → Notes) : s.Reaches (s.note f) :=
  ⟨Nat.le_refl _, fun _ => rfl⟩

theorem moved_of_ne (h : s.kind ≠ .eof) : s.moved.current = s.current + 1 := by
  rw [moved, dif_neg h]

theorem current_le_moved (s : State ts) : s.current ≤ s.moved.current := by
  unfold moved
  split
  · exact Nat.le_refl _
  · exact Nat.le_succ _

/-- The token before is there as soon as reading has moved past one. -/
theorem previous?_of_pos (h : 0 < s.current) : ∃ t, s.previous? = some t := by
  have hinside := s.inside
  unfold previous?
  split
  · next h' => omega
  · next n hn => exact ⟨_, Array.getElem?_eq_getElem (by omega)⟩

theorem current_advance_pos (s : State ts) (h : s.Begun) : 0 < s.advance.current := by
  obtain hpos | hk := h
  · exact Nat.lt_of_lt_of_le hpos s.current_le_moved
  · exact Nat.lt_of_lt_of_eq (Nat.succ_pos _) (moved_of_ne hk).symm

theorem reaches_advance (s : State ts) : s.Reaches s.advance := by
  refine ⟨left_le_iff.mpr s.current_le_moved, fun hb => ?_⟩
  obtain ⟨t, ht⟩ : ∃ t, s.moved.previous? = some t := previous?_of_pos (s.current_advance_pos hb)
  rw [advance, ht, Option.isNone_some, Bool.or_false]

theorem left_advance_lt (s : State ts) (h : s.kind ≠ .eof) : s.advance.left < s.left :=
  left_lt_iff.mpr (Nat.lt_of_lt_of_eq (Nat.lt_succ_self _) (moved_of_ne h).symm)

end Reaching

end State

/-- A result with the state after it. -/
structure Step (α : Type) (s : State ts) where
  value : α
  next : State ts
  reach : s.Reaches next

/-- A result with the state after it; at least one token has been consumed. -/
structure Bite (α : Type) (s : State ts) extends Step α s where
  lt : next.left < s.left

section Steps
variable {s : State ts}

theorem Step.le (r : Step α s) : r.next.left ≤ s.left := r.reach.le

namespace Step

/-- A result without reading on. -/
def here (a : α) : Step α s := ⟨a, s, .refl s⟩

/-- Another result in the place of one. -/
def map (f : α → β) (r : Step α s) : Step β s := ⟨f r.value, r.next, r.reach⟩

/-- Reads on where a step has left off. -/
def after (r : Step α s) (u : Step β r.next) : Step β s := ⟨u.value, u.next, r.reach.trans u.reach⟩

/-- Reads on where a step has left off, knowing what it gave. -/
def andThen (r : Step α s) (f : (a : α) → (s' : State ts) → s'.left ≤ s.left → Step β s') : Step β s :=
  r.after (f r.value r.next r.le)

theorem andThen_lt {r : Step α s} (h : r.next.left < s.left)
    (f : (a : α) → (s' : State ts) → s'.left ≤ s.left → Step β s') : (r.andThen f).next.left < s.left :=
  Nat.lt_of_le_of_lt (f r.value r.next r.le).le h

theorem bite_lt (r : Step α s) (u : Bite β r.next) : u.next.left < s.left := Nat.lt_of_lt_of_le u.lt r.le

/-- A bite where a step has left off. -/
def bite (r : Step α s) (u : Bite β r.next) : Bite β s := ⟨r.after u.toStep, r.bite_lt u⟩

end Step

namespace Bite

theorem after_lt (r : Bite α s) (u : Step β r.next) : u.next.left < s.left := Nat.lt_of_le_of_lt u.le r.lt

/-- Reads on where a bite has left off. -/
def after (r : Bite α s) (u : Step β r.next) : Bite β s := ⟨r.toStep.after u, r.after_lt u⟩

/-- Reads on where a bite has left off, knowing what it gave. -/
def andThen (r : Bite α s) (f : (a : α) → (s' : State ts) → s'.left < s.left → Step β s') : Bite β s :=
  r.after (f r.value r.next r.lt)

/-- Another result in the place of one. -/
def map (f : α → β) (r : Bite α s) : Bite β s := ⟨r.toStep.map f, r.lt⟩

theorem le_of_le (r : Bite α s) {s' : State ts} (h : s'.left ≤ r.next.left) : s'.left ≤ s.left :=
  Nat.le_trans h r.le

end Bite

end Steps

/-! ## Loops -/

/-- **What a turn of a loop leaves**: the loop is over, or a token has been consumed and there is another
turn. -/
inductive Turn (α : Type) (s : State ts) where
  | last (r : Step α s)
  | again (r : Bite α s)

/-- Another result in the place of one. -/
def Turn.map {s : State ts} (f : α → β) : Turn α s → Turn β s
  | .last r => .last (r.map f)
  | .again r => .again (r.map f)

theorem State.left_le_refl (s : State ts) : s.left ≤ s.left := Nat.le_refl _

/-- **A loop**: turns from a state on, each with the result of the one before, up to the last. -/
def iterate (a : α) (s : State ts) (turn : α → (s' : State ts) → s'.left ≤ s.left → Turn α s') : Step α s :=
  match turn a s s.left_le_refl with
  | .last r => r
  | .again r => r.toStep.after (iterate r.value r.next fun a' s' h => turn a' s' (r.le_of_le h))
termination_by s.left
decreasing_by exact r.lt

/-- A loop that collects what its turns give. -/
def many (s : State ts) (turn : (s' : State ts) → s'.left ≤ s.left → Turn (List α) s') : Step (List α) s :=
  iterate [] s fun items s' h => (turn s' h).map (items ++ ·)

namespace State

/-! ## Tokens -/

/-- The next token, whatever it is. -/
def pass (s : State ts) : Step Token s := ⟨s.peek, s.advance, s.reaches_advance⟩

/-- The next token, which is not the end. -/
def take (s : State ts) (h : s.kind ≠ .eof) : Bite Token s := ⟨s.pass, s.left_advance_lt h⟩

/-- Reads on behind the next token, which is not the end. -/
def taking (s : State ts) (h : s.kind ≠ .eof)
    (f : (t : Token) → (s' : State ts) → s'.left < s.left → Step α s') : Step α s :=
  ((s.take h).andThen f).toStep

/-- Reads on with other notes. -/
def noting (s : State ts) (f : Notes → Notes) (k : (s' : State ts) → s'.left ≤ s.left → Step α s') : Step α s :=
  Step.andThen ⟨(), s.note f, s.reaches_note f⟩ fun _ s' h => k s' h

/-- Reads on after recording an error at the next token. -/
def reporting (s : State ts) (message : String) (k : (s' : State ts) → s'.left ≤ s.left → Step α s') :
    Step α s :=
  s.noting (·.report message s.here) k

/-- Consumes a token of the given kind, if it is the next. -/
def accept? (s : State ts) (kind : Kind) : Option (Bite Token s) :=
  if h : s.kind = kind ∧ s.kind ≠ .eof then some (s.take h.2) else none

/-- Reads on behind a token of the given kind, if it is the next, or else from here. -/
def accepting (s : State ts) (kind : Kind) (yes : (s' : State ts) → s'.left < s.left → Step α s')
    (no : Step α s) : Step α s :=
  match s.accept? kind with
  | some r => (r.andThen fun _ s' h => yes s' h).toStep
  | none => no

/-- Consumes a token of the given kind; if another is there, records the message, passes over that
token and yields an illegal one in its place. -/
def expect (s : State ts) (kind : Kind) (message : String) : Step Token s :=
  if s.kind = kind then s.pass
  else s.reporting message fun s' _ => s'.pass.map fun t => ⟨.illegal, "", t.pos⟩

theorem left_expect_lt {s : State ts} (h : s.kind ≠ .eof) (kind : Kind) (message : String) :
    (s.expect kind message).next.left < s.left := by
  unfold expect
  split
  · exact s.left_advance_lt h
  · exact (s.note (·.report message s.here)).left_advance_lt h

/-- The kinds at which reading can go on after an error. -/
def starters : List Kind :=
  [.classWord, .ifWord, .whileWord, .forWord, .returnWord, .throwWord, .requiresWord, .ensuresWord,
    .atSign]

/-- Another token to skip, unless the one before ended a statement or member, or the next can start one. -/
def skipTurn (s : State ts) : Turn Unit s :=
  if h : s.kind = .eof then .last (.here ())
  else if s.previous?.any (fun t => t.kind = .semicolon ∨ t.kind = .rightBrace) ∨ s.kind ∈ starters then
    .last (.here ())
  else .again ((s.take h).map fun _ => ())

/-- Skips tokens up to a statement or member boundary. -/
def skip (s : State ts) : Step Unit s := iterate () s fun _ s' _ => s'.skipTurn

/-- Skips the next token and goes on to a statement or member boundary. -/
def recover (s : State ts) : Step Unit s := s.pass.andThen fun _ s' _ => s'.skip

/-- Where a reader made no way, there is a token to skip. -/
theorem left_recover_lt {s : State ts} (h : s.kind ≠ .eof) (r : Step α s) :
    r.next.recover.next.left < s.left := by
  obtain hlt | heq := Nat.lt_or_eq_of_le r.le
  · exact Nat.lt_of_le_of_lt r.next.recover.le hlt
  · have hcurrent : r.next.current = s.current := Nat.le_antisymm
      (left_le_iff.mp (Nat.le_of_eq heq.symm)) (left_le_iff.mp (Nat.le_of_eq heq))
    rw [← kind_eq_of_current hcurrent] at h
    exact Nat.lt_of_le_of_lt r.next.pass.next.skip.le (heq ▸ r.next.left_advance_lt h)

/-- What a reader gives, and a token skipped behind it at the least. -/
def recovering (s : State ts) (h : s.kind ≠ .eof) (r : Step α s) : Bite α s :=
  ⟨r.after (r.next.recover.map fun _ => r.value), left_recover_lt h r⟩

/-- Another modifier. -/
def modifierTurn (s : State ts) : Turn Unit s :=
  match s.accept? .modifier with
  | some r => .again (r.map fun _ => ())
  | none => .last (.here ())

/-- Passes over the modifiers. -/
def skipModifiers (s : State ts) : Step Unit s := iterate () s fun _ s' _ => s'.modifierTurn

end State

/-! ## Names and types -/

/-- Another `.name` behind a name. -/
def dottedTurn (name : String) (s : State ts) : Turn String s :=
  if s.checkAt 1 .identifier then
    match s.accept? .dot with
    | some dot => .again (dot.andThen fun _ s₁ _ => s₁.pass.map fun t => name ++ "." ++ t.lexeme)
    | none => .last (.here name)
  else .last (.here name)

/-- A dotted name; the empty name when there is none. -/
def qualifiedName (message : String) (s : State ts) : Step String s :=
  (s.expect .identifier message).andThen fun t s₁ _ =>
    if t.kind = .illegal then .here "" else iterate t.lexeme s₁ fun name s' _ => dottedTurn name s'

/-- A type: a dotted name with an optional `[]`. -/
def typeRef (s : State ts) : Step TypeRef s :=
  (qualifiedName "expected type name" s).andThen fun name s₁ _ =>
    if s₁.checkAt 1 .rightBracket then
      s₁.accepting .leftBracket (fun s₂ _ => s₂.pass.map fun _ => ⟨name, true⟩) (.here ⟨name, false⟩)
    else .here ⟨name, false⟩

theorem ne_eof_of_identifier {s : State ts} (h : s.kind = .identifier) : s.kind ≠ .eof := by
  rw [h]
  decide

theorem left_typeRef_lt {s : State ts} (h : s.kind = .identifier) : (typeRef s).next.left < s.left :=
  Step.andThen_lt (Step.andThen_lt (State.left_expect_lt (ne_eof_of_identifier h) _ _) _) _

/-- A type that starts with the next token. -/
def typeHere (s : State ts) (h : s.kind = .identifier) : Bite TypeRef s := ⟨typeRef s, left_typeRef_lt h⟩

/-- The place behind a dotted name of which the first `n` tokens are known, counted from the next token. -/
def State.dottedEnd (s : State ts) (n : Nat) : Nat :=
  if s.checkAt n .dot && s.checkAt (n + 1) .identifier then s.dottedEnd (n + 2) else n
termination_by ts.list.size - (s.current + n)
decreasing_by
  next h =>
  have : s.current + n < ts.list.size := by
    simp only [State.checkAt, Bool.and_eq_true, Option.any_eq_true_iff_get, isSome_getElem?] at h
    exact h.1.1
  omega

/-- Whether the tokens ahead read as a type followed by a name. -/
def State.startsDeclaration (s : State ts) : Bool :=
  let n := s.dottedEnd 1
  let n := if s.checkAt n .leftBracket && s.checkAt (n + 1) .rightBracket then n + 2 else n
  s.kind == .identifier && s.checkAt n .identifier

end Relspec.Source.Reading
