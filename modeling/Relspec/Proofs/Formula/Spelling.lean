import Mathlib
import Relspec.Formula.Printer
import Relspec.Formula.Reader
import Relspec.Proofs.Formula.Names
import Relspec.Proofs.Text.Number

/-!
# Proofs/Formula/Spelling — the lexemes of the text of a formula

The text of a formula falls into lexemes at the places where the printer put them together: nothing
runs into its neighbours.

* `Spells`, `Closes` — the lexemes of a text, whatever stands after it;
* `legible` — the formulas whose texts have one reading;
* `spells_text` — the text of such a formula spells its own lexemes, one case for each constructor.
-/

namespace Relspec.Formula

open List
open Lexeme (first? startsComment isWordStart isWordPart)

variable {c : Char} {s rest : List Char}

/-! ## Texts and their lexemes -/

/-- The result of cutting a text into lexemes, with lexemes before it. -/
def before (ls : List Lexeme) (r : Except (List Char) (List Lexeme)) :
    Except (List Char) (List Lexeme) :=
  r.map (ls ++ ·)

@[simp] theorem before_nil (r : Except (List Char) (List Lexeme)) : before [] r = r := by
  cases r <;> rfl

@[simp] theorem before_before (ls ms : List Lexeme) (r : Except (List Char) (List Lexeme)) :
    before ls (before ms r) = before (ls ++ ms) r := by
  cases r <;> simp [before, Except.map]

theorem lexemes_of_first? {l : Lexeme} (h : first? c s = some (some l, rest)) :
    lexemes (c :: s) = before [l] (lexemes rest) := by
  rw [lexemes]
  split
  · simp_all
  · simp_all
  · rename_i l' rest' h'
    obtain ⟨rfl, rfl⟩ : l = l' ∧ rest = rest' := by simpa using h.symm.trans h'
    rfl

theorem lexemes_of_skipped (h : first? c s = some (none, rest)) : lexemes (c :: s) = lexemes rest := by
  rw [lexemes]
  split <;> simp_all

@[simp] theorem lexemes_blank (s : List Char) : lexemes (' ' :: s) = lexemes s :=
  lexemes_of_skipped rfl

@[simp] theorem lexemes_newline (s : List Char) : lexemes ('\n' :: s) = lexemes s :=
  lexemes_of_skipped rfl

/-- The characters that make another lexeme of a mark when they stand right after it. -/
def Mark.joins : Mark → List Char
  | .minus => ['-', '>']
  | .slash => ['/']
  | .lt | .gt | .bang | .colon => ['=']
  | .le | .eq => ['>']
  | .plus => ['+']
  | .bar => ['|']
  | _ => []

/-- **A mark is a lexeme** unless it runs into what stands after it. -/
theorem lexemes_mark (m : Mark) (s : List Char) (h : ∀ c ∈ s.head?, c ∉ m.joins) :
    lexemes (m.text.toList ++ s) = before [.mark m] (lexemes s) := by
  cases s with
  | nil => cases m <;> exact lexemes_of_first? rfl
  | cons c s =>
    have hne : ∀ j ∈ m.joins, j ≠ c ∧ c ≠ j := fun j hj =>
      ⟨fun hjc => h c rfl (hjc ▸ hj), fun hcj => h c rfl (hcj ▸ hj)⟩
    cases m
    case minus | slash | lt | le | gt | bang | colon | eq | plus | bar =>
      simp only [Mark.joins, forall_mem_cons] at hne
      simp only [Mark.text, String.reduceToList, cons_append, nil_append]
      refine lexemes_of_first? ?_
      simp [first?, startsComment, isWordStart, Mark.first?, Mark.all, Mark.text,
        Text.after?, hne]
    all_goals exact lexemes_of_first? rfl

/-- Whether a character right after a lexeme can be a part of it or make another of it. -/
def goesOn (c : Char) : Bool := isWordPart c || ['-', '>', '/', '=', '+', '|'].contains c

/-- What goes on no lexeme. -/
def Parted (s : List Char) : Prop := ∀ c ∈ s.head?, goesOn c = false

theorem Mark.goesOn_of_mem_joins {m : Mark} (h : c ∈ m.joins) : goesOn c = true := by
  have hjoins : ∀ m : Mark, m.joins.all goesOn = true := by
    intro m
    cases m <;> decide
  exact all_eq_true.mp (hjoins m) c h

theorem Parted.takeWhile_dropWhile {p : Char → Bool} (hs : Parted s)
    (hp : ∀ c, p c = true → isWordPart c = true) : s.takeWhile p = [] ∧ s.dropWhile p = s := by
  cases s with
  | nil => exact ⟨rfl, rfl⟩
  | cons c s =>
    have hgoes := hs c rfl
    have hc : p c = false := by
      cases hpc : p c with
      | false => rfl
      | true => rw [goesOn, hp c hpc, Bool.true_or] at hgoes; cases hgoes
    simp [hc]

/-- **A text spells lexemes** when these are its lexemes, whatever stands after it that goes on none. -/
def Spells (text : String) (ls : List Lexeme) : Prop :=
  ∀ s, Parted s → lexemes (text.toList ++ s) = before ls (lexemes s)

/-- **A text spells lexemes and ends them**: these are its lexemes, whatever stands after it. -/
def Closes (text : String) (ls : List Lexeme) : Prop :=
  ∀ s, lexemes (text.toList ++ s) = before ls (lexemes s)

/-- Whether a text ends the lexeme before it. -/
def parts (text : String) : Bool :=
  match text.toList with
  | [] => false
  | c :: _ => !goesOn c

theorem parted_append {text : String} (h : parts text = true) (s : List Char) :
    Parted (text.toList ++ s) := by
  unfold parts at h
  split at h
  · cases h
  · rename_i c t hct
    rw [hct]
    intro d hd
    obtain rfl : c = d := by simpa using hd
    simpa using h

theorem closes_blank : Closes " " [] := fun s => by
  rw [before_nil]
  exact lexemes_blank s

theorem closes_mark (m : Mark) (h : m.joins = []) : Closes m.text [.mark m] := fun s =>
  lexemes_mark m s fun _ _ => h ▸ not_mem_nil

theorem spells_mark (m : Mark) : Spells m.text [.mark m] := fun s hs =>
  lexemes_mark m s fun c hc hj => by
    have := hs c hc
    rw [Mark.goesOn_of_mem_joins hj] at this
    cases this

/-! ## Texts one after the other -/

section

variable {a b : String} {la lb : List Lexeme}

theorem Closes.spells (h : Closes a la) : Spells a la := fun s _ => h s

theorem Closes.append (ha : Closes a la) (hb : Spells b lb) : Spells (a ++ b) (la ++ lb) := fun s hs => by
  rw [String.toList_append, append_assoc, ha, hb s hs, before_before]

theorem Closes.trans (ha : Closes a la) (hb : Closes b lb) : Closes (a ++ b) (la ++ lb) := fun s => by
  rw [String.toList_append, append_assoc, ha, hb, before_before]

theorem Spells.close (ha : Spells a la) (hb : Closes b lb) (h : parts b = true) :
    Closes (a ++ b) (la ++ lb) := fun s => by
  rw [String.toList_append, append_assoc, ha _ (parted_append h s), hb, before_before]

theorem Spells.blank (ha : Spells a la) : Closes (a ++ " ") la := by
  have h := ha.close closes_blank rfl
  rwa [append_nil] at h

theorem Spells.rightParen (ha : Spells a la) : Spells (a ++ ")") (la ++ [.mark .rightParen]) :=
  (ha.close (closes_mark .rightParen rfl) rfl).spells

end

/-- Whether a text is one word. -/
def Lexeme.isWord (w : String) : Bool :=
  match w.toList with
  | [] => false
  | c :: s => isWordStart c && s.all isWordPart

/-- Neither a comment nor the mark of the pre-state starts like a word or a number. -/
theorem startsComment_eq_false (hc : isWordPart c = true) (s : List Char) :
    startsComment (c :: s) = false ∧ Text.after? ['\\', 'o', 'l', 'd'] (c :: s) = none := by
  have hne : ∀ d : Char, isWordPart d = false → d ≠ c := by
    rintro d hd rfl
    rw [hc] at hd
    cases hd
  constructor
  · unfold startsComment
    split
    · rename_i heq
      exact absurd (List.cons.inj heq).1.symm (hne '-' rfl)
    · rename_i heq
      exact absurd (List.cons.inj heq).1.symm (hne '/' rfl)
    · rfl
  · rw [Text.after?, if_neg (hne '\\' rfl)]

theorem isWordPart_of_isWordStart (h : isWordStart c = true) :
    isWordPart c = true := by
  simp only [isWordStart, Bool.or_eq_true] at h
  rcases h with (h | h) | h <;> simp [isWordPart, Char.isAlphanum, h]

theorem isWordPart_of_isDigit (h : c.isDigit = true) : isWordPart c = true := by
  simp [isWordPart, Char.isAlphanum, h]

theorem spells_word {w : String} (h : Lexeme.isWord w = true) : Spells w [.word w] := by
  intro s hs
  unfold Lexeme.isWord at h
  split at h
  · cases h
  rename_i c t hw
  obtain ⟨hstart, hparts⟩ := Bool.and_eq_true_iff.mp h
  obtain ⟨hcomment, hold⟩ := startsComment_eq_false (isWordPart_of_isWordStart hstart) (t ++ s)
  obtain ⟨htake, hdrop⟩ := hs.takeWhile_dropWhile fun _ => id
  rw [hw, cons_append]
  refine lexemes_of_first? ?_
  rw [first?, hcomment, hold]
  simp only [Bool.false_eq_true, if_false, hstart, if_true]
  rw [takeWhile_append_of_pos (all_eq_true.mp hparts), htake, append_nil, ← hw,
    String.ofList_toList, dropWhile_append_of_pos (all_eq_true.mp hparts), hdrop]

theorem not_isWordStart_of_isDigit (h : c.isDigit = true) :
    isWordStart c = false := by
  have hle : 48 ≤ c.val.toNat ∧ c.val.toNat ≤ 57 := by
    simpa [Char.isDigit, UInt32.le_iff_toNat_le] using h
  have hne : ∀ d : Char, 57 < d.val.toNat ∨ d.val.toNat < 48 → c ≠ d := by
    rintro d hd rfl
    omega
  have hupper : ¬ (65 : UInt32) ≤ c.val := fun hA => by
    have : 65 ≤ c.val.toNat := UInt32.le_iff_toNat_le.mp hA
    omega
  have hlower : ¬ (97 : UInt32) ≤ c.val := fun ha => by
    have : 97 ≤ c.val.toNat := UInt32.le_iff_toNat_le.mp ha
    omega
  unfold isWordStart Char.isAlpha Char.isUpper Char.isLower
  simp [hupper, hlower, hne '_' (by decide), hne '$' (by decide)]

theorem spells_number (n : Nat) : Spells n.repr [.number n.repr] := by
  intro s hs
  obtain ⟨c, t, hct, hdigit, -⟩ := Text.exists_toDigits_eq_cons n
  have hdigits : ∀ d ∈ t, d.isDigit = true := fun d hd =>
    Text.isDigit_of_mem_toDigits (hct ▸ mem_cons_of_mem c hd)
  obtain ⟨hcomment, hold⟩ := startsComment_eq_false (isWordPart_of_isDigit hdigit) (t ++ s)
  obtain ⟨htake, hdrop⟩ := hs.takeWhile_dropWhile fun _ => isWordPart_of_isDigit
  rw [Nat.toList_repr, hct, cons_append]
  refine lexemes_of_first? ?_
  rw [first?, hcomment, hold]
  simp only [Bool.false_eq_true, if_false, not_isWordStart_of_isDigit hdigit, hdigit, if_true]
  rw [takeWhile_append_of_pos hdigits, htake, append_nil, ← hct, ← Nat.toList_repr,
    String.ofList_toList, dropWhile_append_of_pos hdigits, hdrop]

/-! ## Formulas -/

/-- The words that stand for operators. -/
def keywords : List String :=
  ["and", "or", "implies", "iff", "else", "not", "in", "some", "no", "one", "lone", "all"]

/-- Whether a text is a word that stands for no operator. -/
def isName (w : String) : Bool := Lexeme.isWord w && !keywords.contains w

/-- Whether a formula is a literal. -/
def isLiteral : Formula → Bool
  | .int _ => true
  | _ => false

/-- Whether a formula is a literal with a sign. -/
def isNegative : Formula → Bool
  | .int value => decide (value.toInt < 0)
  | _ => false

/-- Whether a formula is a join. -/
def isJoin : Formula → Bool
  | .join _ _ => true
  | _ => false

mutual

/-- **Whether the text of a formula has one reading.**  A join is written without parentheses and takes
no sign, a minus before a literal belongs to the literal, and the smallest integer has no literal. -/
def legible : Formula → Bool
  | .ident name => isName name
  | .int value => decide (-2 ^ 63 < value.toInt)
  | .join l r => l.legible && r.legible && !l.isNegative && !r.isNegative && !r.isJoin
  | .call name args => isName name && legibleAll args
  | .unary op x => x.legible && !(op = .neg && x.isLiteral)
  | .binary _ x y => x.legible && y.legible
  | .quant _ vars domain body => !vars.isEmpty && vars.all isName && domain.legible && body.legible
  | .old x => x.legible
  | .ite c t e => c.legible && t.legible && e.legible

/-- Whether the texts of several formulas have one reading each. -/
def legibleAll : List Formula → Bool
  | [] => true
  | x :: xs => x.legible && legibleAll xs

end

/-- The lexeme of a unary operator. -/
def UnaryOp.lexeme : UnaryOp → Lexeme
  | .not => .word "not"
  | .neg => .mark .minus
  | .card => .mark .hash
  | .star => .mark .star
  | .closure => .mark .caret
  | .mult m => .word m.word

/-- The lexeme of a binary operator. -/
def BinaryOp.lexeme : BinaryOp → Lexeme
  | .and => .word "and"
  | .or => .word "or"
  | .implies => .word "implies"
  | .iff => .word "iff"
  | .eq => .mark .eq
  | .ne => .mark .ne
  | .mem => .word "in"
  | .lt => .mark .lt
  | .le => .mark .le
  | .gt => .mark .gt
  | .ge => .mark .ge
  | .arith .add => .mark .plus
  | .arith .sub => .mark .minus
  | .arith .mul => .mark .star
  | .arith .div => .mark .slash
  | .arith .rem => .mark .percent
  | .override => .mark .override
  | .product => .mark .arrow

/-- The lexemes of an integer. -/
def integerSpelling : Int → List Lexeme
  | .ofNat n => [.number n.repr]
  | .negSucc n => [.mark .minus, .number (n + 1).repr]

/-- The lexemes of several items with a mark between them. -/
def separated {α : Type} (m : Mark) (f : α → List Lexeme) : List α → List Lexeme
  | [] => []
  | [x] => f x
  | x :: y :: xs => f x ++ [.mark m] ++ separated m f (y :: xs)

mutual

/-- **The lexemes of the text of a formula.** -/
def spelling : Formula → List Lexeme
  | .ident name => [.word name]
  | .int value => integerSpelling value.toInt
  | .join l r => l.spelling ++ [.mark .dot] ++ r.spelling
  | .call name args =>
    [.word name] ++ [.mark .leftBracket] ++ spellingAll args ++ [.mark .rightBracket]
  | .unary op x => [.mark .leftParen] ++ [op.lexeme] ++ x.spelling ++ [.mark .rightParen]
  | .binary op x y =>
    [.mark .leftParen] ++ x.spelling ++ [op.lexeme] ++ y.spelling ++ [.mark .rightParen]
  | .quant kind vars domain body =>
    [.mark .leftParen] ++ [.word kind.word] ++ separated .comma (fun v => [.word v]) vars ++
      [.mark .colon] ++ domain.spelling ++ [.mark .bar] ++ body.spelling ++ [.mark .rightParen]
  | .old x => [.old, .mark .leftParen] ++ x.spelling ++ [.mark .rightParen]
  | .ite c t e =>
    [.mark .leftParen] ++ c.spelling ++ [.word "implies"] ++ t.spelling ++ [.word "else"] ++
      e.spelling ++ [.mark .rightParen]

/-- The lexemes of arguments with commas between them. -/
def spellingAll : List Formula → List Lexeme
  | [] => []
  | [x] => x.spelling
  | x :: y :: xs => x.spelling ++ [.mark .comma] ++ spellingAll (y :: xs)

end

/-! ## The text of a formula spells its lexemes -/

theorem isWord_of_isName {w : String} (h : isName w = true) : Lexeme.isWord w = true :=
  (Bool.and_eq_true_iff.mp h).1

/-- A minus does not run into what stands after it. -/
theorem Spells.minus {a : String} {la : List Lexeme} (ha : Spells a la) {t : List Char}
    (hc : a.toList = c :: t) (hne : c ∉ ['-', '>']) : Spells ("-" ++ a) ([.mark .minus] ++ la) := fun s hs => by
  have hminus : lexemes ("-".toList ++ (a.toList ++ s)) = before [.mark .minus] (lexemes (a.toList ++ s)) := by
    refine lexemes_mark .minus (a.toList ++ s) ?_
    rw [hc]
    rintro d hd
    obtain rfl : c = d := by simpa using hd
    exact hne
  rw [String.toList_append, append_assoc, hminus, ha s hs, before_before]

theorem spells_integer (i : Int) : Spells (toString i) (integerSpelling i) := by
  cases i with
  | ofNat n => exact spells_number n
  | negSucc n =>
    obtain ⟨c, t, hct, hdigit, -⟩ := Text.exists_toDigits_eq_cons (n + 1)
    refine (spells_number (n + 1)).minus (Nat.toList_repr.trans hct) fun hc => ?_
    simp only [mem_cons, not_mem_nil, or_false] at hc
    rcases hc with rfl | rfl <;> exact absurd hdigit (by decide)

/-! ### Pieces -/

theorem closes_leftParen : Closes "(" [.mark .leftParen] := closes_mark .leftParen rfl

theorem closes_comma : Closes ", " [.mark .comma] := (spells_mark .comma).blank

theorem closes_colon : Closes ": " [.mark .colon] := (spells_mark .colon).blank

theorem Quantifier.spells_word (k : Quantifier) : Spells k.word [.word k.word] := by
  cases k with
  | all => exact Formula.spells_word rfl
  | mult m => cases m <;> exact Formula.spells_word rfl

theorem BinaryOp.spells_symbol (op : BinaryOp) : Spells op.symbol [op.lexeme] := by
  have hmark : ∀ {t : String} {l : Lexeme} (m : Mark), l = .mark m → t = m.text → Spells t [l] :=
    fun m hl ht => hl ▸ ht ▸ spells_mark m
  cases op with
  | and | or | implies | iff | mem => exact Formula.spells_word rfl
  | arith op => cases op <;> exact hmark _ rfl rfl
  | _ => exact hmark _ rfl rfl

theorem spells_nil : Spells "" [] := fun _ _ => (before_nil _).symm

theorem spells_separated {α : Type} {text : α → String} {f : α → List Lexeme} {m : Mark} {sep : String}
    (hsep : Closes sep [.mark m]) (hparts : parts sep = true) :
    ∀ {xs : List α}, (∀ x ∈ xs, Spells (text x) (f x)) →
      Spells (sep.intercalate (xs.map text)) (separated m f xs)
  | [], _ => by simpa [separated] using spells_nil
  | [x], h => by simpa [separated] using h x mem_cons_self
  | x :: y :: xs, h => by
    have hx := (h x mem_cons_self).close hsep hparts
    have hxs := spells_separated hsep hparts fun z hz => h z (mem_cons_of_mem x hz)
    rw [map_cons, map_cons, String.intercalate_cons_cons, separated]
    exact hx.append hxs

theorem exists_toList_eq_cons {w : String} (h : Lexeme.isWord w = true) :
    ∃ c t, w.toList = c :: t ∧ isWordStart c = true := by
  unfold Lexeme.isWord at h
  split at h
  · cases h
  · rename_i c t hct
    exact ⟨c, t, hct, (Bool.and_eq_true_iff.mp h).1⟩

theorem not_mem_joins_of_isWordPart (h : isWordPart c = true) : c ∉ ['-', '>'] := by
  intro hc
  simp only [mem_cons, not_mem_nil, or_false] at hc
  rcases hc with rfl | rfl <;> exact absurd h (by decide)

/-! ### Legible formulas -/

theorem legible_of_mem {es : List Formula} (h : legibleAll es = true) : ∀ e ∈ es, e.legible = true := by
  induction es with
  | nil => exact nofun
  | cons e es ih =>
    obtain ⟨he, hes⟩ := Bool.and_eq_true_iff.mp h
    exact forall_mem_cons.mpr ⟨he, ih hes⟩

/-- What a minus stands before does not start with what would run into it. -/
theorem exists_text_eq_cons : ∀ {e : Formula}, e.legible = true → e.isNegative = false →
    ∃ c t, e.text.toList = c :: t ∧ c ∉ ['-', '>']
  | .ident name, h, _ => by
    obtain ⟨c, t, hct, hc⟩ := exists_toList_eq_cons (isWord_of_isName h)
    exact ⟨c, t, hct, not_mem_joins_of_isWordPart (isWordPart_of_isWordStart hc)⟩
  | .int value, _, hn => by
    rw [text]
    rw [isNegative, decide_eq_false_iff_not, Int.not_lt] at hn
    obtain ⟨n, hvalue⟩ := Int.eq_ofNat_of_zero_le hn
    obtain ⟨c, t, hct, hdigit, -⟩ := Text.exists_toDigits_eq_cons n
    rw [hvalue]
    exact ⟨c, t, Nat.toList_repr.trans hct, not_mem_joins_of_isWordPart (isWordPart_of_isDigit hdigit)⟩
  | .join l r, h, _ => by
    simp only [legible, Bool.and_eq_true, Bool.not_eq_true'] at h
    obtain ⟨c, t, hct, hc⟩ := exists_text_eq_cons h.1.1.1.1 h.1.1.2
    exact ⟨c, t ++ ('.' :: r.text.toList), by simp [text, hct], hc⟩
  | .call name args, h, _ => by
    simp only [legible, Bool.and_eq_true] at h
    obtain ⟨c, t, hct, hc⟩ := exists_toList_eq_cons (isWord_of_isName h.1)
    exact ⟨c, t ++ ('[' :: ((argsText args).toList ++ [']'])), by simp [text, hct],
      not_mem_joins_of_isWordPart (isWordPart_of_isWordStart hc)⟩
  | .unary op x, _, _ | .binary op x y, _, _ | .quant kind vars domain body, _, _ | .old x, _, _
  | .ite c t e, _, _ => by simp [text]

theorem spells_unary (op : UnaryOp) {x : Formula} (hx : Spells x.text x.spelling)
    (hop : op = .neg → ∃ c t, x.text.toList = c :: t ∧ c ∉ ['-', '>']) :
    Spells (text (.unary op x)) (spelling (.unary op x)) := by
  rw [text, spelling]
  have hword : ∀ {w : String}, Lexeme.isWord w = true → Spells ("(" ++ w ++ " " ++ x.text ++ ")")
      ([.mark .leftParen] ++ [.word w] ++ x.spelling ++ [.mark .rightParen]) := fun hw =>
    ((closes_leftParen.append (spells_word hw)).blank.append hx).rightParen
  have hmark : ∀ m : Mark, m.joins = [] → Spells ("(" ++ m.text ++ "" ++ x.text ++ ")")
      ([.mark .leftParen] ++ [.mark m] ++ x.spelling ++ [.mark .rightParen]) := fun m hm => by
    rw [String.append_empty]
    exact ((closes_leftParen.trans (closes_mark m hm)).append hx).rightParen
  cases op with
  | not => exact hword rfl
  | mult m => exact hword (by cases m <;> rfl)
  | card => exact hmark .hash rfl
  | star => exact hmark .star rfl
  | closure => exact hmark .caret rfl
  | neg =>
    obtain ⟨c, t, hct, hc⟩ := hop rfl
    have hopen := closes_leftParen.append (hx.minus hct hc)
    rw [← String.append_assoc, ← append_assoc] at hopen
    exact hopen.rightParen

theorem spells_argsText : ∀ {args : List Formula}, (∀ a ∈ args, Spells a.text a.spelling) →
    Spells (argsText args) (spellingAll args)
  | [], _ => spells_nil
  | [x], h => h x mem_cons_self
  | x :: y :: xs, h => by
    obtain ⟨hx, hxs⟩ := forall_mem_cons.mp h
    exact (hx.close (closes_mark .comma rfl) rfl).append (spells_argsText hxs)

/-- **The text of a legible formula spells its lexemes.** -/
theorem spells_text {e : Formula} (h : e.legible = true) : Spells e.text e.spelling := by
  induction e with
  | ident name => exact spells_word (isWord_of_isName h)
  | int value => exact spells_integer value.toInt
  | join l r ihl ihr =>
    simp only [legible, Bool.and_eq_true] at h
    exact ((ihl h.1.1.1.1).close (closes_mark .dot rfl) rfl).append (ihr h.1.1.1.2)
  | call name args ih =>
    simp only [legible, Bool.and_eq_true] at h
    have hargs := spells_argsText fun a ha => ih a ha (legible_of_mem h.2 a ha)
    have hopen := (spells_word (isWord_of_isName h.1)).close (closes_mark .leftBracket rfl) rfl
    exact ((hopen.append hargs).close (closes_mark .rightBracket rfl) rfl).spells
  | unary op x ih =>
    simp only [legible, Bool.and_eq_true] at h
    refine spells_unary op (ih h.1) fun hop => exists_text_eq_cons h.1 ?_
    subst hop
    cases x <;> first | rfl | simp [isLiteral] at h
  | binary op x y ihx ihy =>
    simp only [legible, Bool.and_eq_true] at h
    have hop := ((closes_leftParen.append (ihx h.1)).blank.append op.spells_symbol).blank
    exact (hop.append (ihy h.2)).rightParen
  | quant kind vars domain body ihd ihb =>
    simp only [legible, Bool.and_eq_true] at h
    obtain ⟨⟨⟨-, hvars⟩, hdomain⟩, hbody⟩ := h
    have hnames := spells_separated closes_comma rfl fun v hv =>
      spells_word (isWord_of_isName (all_eq_true.mp hvars v hv))
    rw [map_id'] at hnames
    have hbar : Closes " | " [.mark .bar] := (closes_blank.append (spells_mark .bar)).blank
    have hhead := ((closes_leftParen.append kind.spells_word).blank.append hnames).close closes_colon rfl
    exact (((hhead.append (ihd hdomain)).close hbar rfl).append (ihb hbody)).rightParen
  | old x ih =>
    have hmark : Closes "\\old" [.old] := fun s => lexemes_of_first? rfl
    exact ((hmark.trans closes_leftParen).append (ih h)).rightParen
  | ite c t e ihc iht ihe =>
    simp only [legible, Bool.and_eq_true] at h
    have himplies : Closes " implies " [.word "implies"] := (closes_blank.append (spells_word (w := "implies") rfl)).blank
    have helse : Closes " else " [.word "else"] := (closes_blank.append (spells_word (w := "else") rfl)).blank
    have hcond := (closes_leftParen.append (ihc h.1.1)).close himplies rfl
    exact (((hcond.append (iht h.1.2)).close helse rfl).append (ihe h.2)).rightParen

end Relspec.Formula
