import Relspec.Contract.Printer
import Relspec.Proofs.Failing
import Relspec.Proofs.Formula.Spelling

/-!
# Proofs/Contract/Spelling — the lexemes of the text of a module

The text of a module is made of lines, and each line ends its lexemes.  So the lexemes of a module are
those of its lines, one after the other, however far they are moved right.

* `Lined` — the lexemes of lines;
* `Stmt.legible`, `Program.Legible`, `Module.Legible` — the trees whose texts have one reading;
* `Stmt.lined`, `Program.Legible.lined` — the lexemes of statements and programs;
* `Module.spells_text` — the text of such a module spells its own lexemes.
-/

namespace Relspec

open List
open Formula
open Lexeme (isWord)

/-! ## Lines -/

/-- **The lexemes of lines.** -/
inductive Lined : List String → List Lexeme → Prop
  | nil : Lined [] []
  | cons {line : String} {lines : List String} {la lb : List Lexeme} :
      Spells line la → Lined lines lb → Lined (line :: lines) (la ++ lb)

namespace Lined

variable {lines lines' : List String} {line : String} {la lb : List Lexeme}

theorem one (h : Spells line la) : Lined [line] la := by
  have hone := cons h nil
  rwa [append_nil] at hone

theorem append (h : Lined lines la) (h' : Lined lines' lb) : Lined (lines ++ lines') (la ++ lb) := by
  induction h with
  | nil => exact h'
  | cons hline _ ih =>
    rw [cons_append, append_assoc]
    exact cons hline ih

/-- Blanks before lines change nothing. -/
theorem deeper (h : Lined lines la) : Lined (deeper lines) la := by
  have hblanks : Closes "  " [] := closes_blank.trans closes_blank
  induction h with
  | nil => exact nil
  | cons hline _ ih => exact cons (hblanks.append hline) ih

theorem flatMap {α : Type} {text : α → List String} {f : α → List Lexeme} :
    ∀ {xs : List α}, (∀ x ∈ xs, Lined (text x) (f x)) → Lined (xs.flatMap text) (xs.flatMap f)
  | [], _ => nil
  | x :: xs, h => by
    rw [flatMap_cons, flatMap_cons]
    exact (h x mem_cons_self).append (flatMap fun y hy => h y (mem_cons_of_mem x hy))

theorem map {α : Type} {text : α → String} {f : α → List Lexeme} {xs : List α}
    (h : ∀ x ∈ xs, Spells (text x) (f x)) : Lined (xs.map text) (xs.flatMap f) := by
  rw [map_eq_flatMap]
  exact flatMap fun x hx => one (h x hx)

theorem parted_newline (s : List Char) : Parted ('\n' :: s) := fun c hc => by
  obtain rfl : '\n' = c := by simpa using hc
  rfl

/-- **Lines end their lexemes.** -/
theorem closes (h : Lined lines la) : Closes (linesText lines) la := by
  induction h with
  | nil => exact fun s => by simp [linesText]
  | @cons line lines la lb hline _ ih =>
    intro s
    have htext : (linesText (line :: lines)).toList = line.toList ++ ('\n' :: (linesText lines).toList) := by
      simp [linesText, String.join_cons]
    rw [htext, append_assoc, cons_append, hline _ (parted_newline _), lexemes_newline, ih,
      before_before]

end Lined

/-! ## Pieces of lines -/

/-- A word in front of a blank. -/
theorem closes_word (w : String) (h : isWord w = true) : Closes (w ++ " ") [.word w] :=
  (spells_word h).blank

theorem closes_brace : Closes " \x7b" [.mark .leftBrace] := closes_blank.trans (closes_mark .leftBrace rfl)

theorem spells_semicolon {a : String} {la : List Lexeme} (h : Spells a la) :
    Spells (a ++ ";") (la ++ [.mark .semicolon]) := (h.close (closes_mark .semicolon rfl) rfl).spells

theorem spells_rightBrace : Spells "\x7d" [.mark .rightBrace] := (closes_mark .rightBrace rfl).spells

/-! ## Variables, side variables and predicates -/

/-- Whether a type is read back from its name. -/
def ValueType.legible : ValueType → Bool
  | .ref name => isWord name && name != "Int" && name != "Bool"
  | _ => true

theorem ValueType.isWord_text {t : ValueType} (h : t.legible = true) :
    isWord t.text = true := by
  cases t with
  | int => rfl
  | bool => rfl
  | ref name =>
    simp only [legible, Bool.and_eq_true] at h
    exact h.1.1

theorem ValueType.ofName_text {t : ValueType} (h : t.legible = true) : ofName t.text = t := by
  cases t with
  | int => rfl
  | bool => rfl
  | ref name =>
    simp only [legible, Bool.and_eq_true, bne_iff_ne] at h
    simp [ofName, text, h.1.2, h.2]

/-- Whether a variable is read back from its text. -/
def Var.legible (v : Var) : Bool := isWord v.name && v.type.legible

/-- The lexemes of a variable with its type. -/
def Var.spelling (v : Var) : List Lexeme := [.word v.name] ++ [.mark .colon] ++ [.word v.type.text]

theorem Var.spells_text {v : Var} (h : v.legible = true) : Spells v.text v.spelling := by
  obtain ⟨hname, htype⟩ := Bool.and_eq_true_iff.mp h
  exact ((spells_word hname).close closes_colon rfl).append (spells_word (ValueType.isWord_text htype))

theorem spells_varsText {vs : List Var} (h : vs.all Var.legible = true) :
    Spells (varsText vs) (separated .comma Var.spelling vs) :=
  spells_separated closes_comma rfl fun v hv => Var.spells_text (all_eq_true.mp h v hv)

/-- Whether side variables and their definitions are read back from their texts. -/
def Side.legible (s : Side) : Bool :=
  s.vars.all (fun v => isWord v.name) && s.defs.all fun d => d.formula.legible

/-- The lexemes of the line of a side variable. -/
def SideVar.spelling (v : SideVar) : List Lexeme :=
  [.word "arithvar"] ++ [.word v.origin.word] ++ [.word v.name] ++ [.mark .semicolon]

/-- The lexemes of the line of a definition. -/
def SideDef.spelling (d : SideDef) : List Lexeme :=
  [.word "arithpred"] ++ [.word d.origin.word] ++ d.formula.spelling ++ [.mark .semicolon]

/-- The lexemes of side variables and their definitions. -/
def Side.spelling (s : Side) : List Lexeme :=
  s.vars.flatMap SideVar.spelling ++ s.defs.flatMap SideDef.spelling

theorem Origin.isWord_word (o : Origin) : isWord o.word = true := by cases o <;> rfl

theorem Side.lined {s : Side} (h : s.legible = true) : Lined s.lines s.spelling := by
  obtain ⟨hvars, hdefs⟩ := Bool.and_eq_true_iff.mp h
  refine (Lined.map fun v hv => ?_).append (Lined.map fun d hd => ?_)
  · have hhead := (closes_word "arithvar" rfl).trans (closes_word _ v.origin.isWord_word)
    exact spells_semicolon (hhead.append (spells_word (all_eq_true.mp hvars v hv)))
  · have hhead := (closes_word "arithpred" rfl).trans (closes_word _ d.origin.isWord_word)
    exact spells_semicolon (hhead.append (Formula.spells_text (all_eq_true.mp hdefs d hd)))

/-- Whether a predicate is read back from its text. -/
def Predicate.legible (p : Predicate) : Bool :=
  isWord p.name && p.params.all Var.legible && p.body.legible

/-- The lexemes of a predicate. -/
def Predicate.spelling (p : Predicate) : List Lexeme :=
  [.word "pred"] ++ [.word p.name] ++ [.mark .leftBracket] ++ separated .comma Var.spelling p.params ++
    [.mark .rightBracket, .mark .leftBrace] ++ p.body.spelling ++ [.mark .rightBrace]

theorem Predicate.lined {p : Predicate} (h : p.legible = true) : Lined p.lines p.spelling := by
  simp only [legible, Bool.and_eq_true] at h
  have hname := ((closes_word "pred" rfl).append (spells_word h.1.1)).close (closes_mark .leftBracket rfl) rfl
  have hbracket : Closes "] \x7b" [.mark .rightBracket, .mark .leftBrace] :=
    (closes_mark .rightBracket rfl).trans closes_brace
  have hhead := (hname.append (spells_varsText h.1.2)).close hbracket rfl
  have hbody : Spells ("  " ++ p.body.text) p.body.spelling :=
    (closes_blank.trans closes_blank).append (Formula.spells_text h.2)
  exact ((Lined.one hhead.spells).append (.one hbody)).append (.one spells_rightBrace)

/-! ## Statements -/

namespace Contract

/-- **Induction over statements**: the statements in one have the property as well. -/
@[induction_eliminator]
theorem Stmt.induction {P : Stmt → Prop} (assign : ∀ target value, P (.assign target value))
    (branch : ∀ cond thn els, (∀ s ∈ thn, P s) → (∀ s ∈ els, P s) → P (.branch cond thn els))
    (loop : ∀ cond invariant variant body, (∀ s ∈ body, P s) → P (.loop cond invariant variant body))
    (assert : ∀ cond, P (.assert cond)) (assume : ∀ cond, P (.assume cond)) (ret : ∀ value, P (.ret value))
    (raise : ∀ exception, P (.raise exception)) (s : Stmt) : P s :=
  s.rec (motive_2 := fun ss => ∀ s ∈ ss, P s) assign branch loop assert assume ret raise nofun
    fun _ _ hs hss => forall_mem_cons.mpr ⟨hs, hss⟩

mutual

/-- Whether a statement is read back from its text. -/
def Stmt.legible : Stmt → Bool
  | .assign target value => target.legible && value.legible
  | .branch cond thn els => cond.legible && legibleAll thn && legibleAll els
  | .loop cond invariant variant body =>
    cond.legible && invariant.all Formula.legible && variant.all Formula.legible && legibleAll body
  | .assert cond => cond.legible
  | .assume cond => cond.legible
  | .ret value => value.all Formula.legible
  | .raise exception => isWord exception

/-- Whether statements are read back from their texts. -/
def Stmt.legibleAll : List Stmt → Bool
  | [] => true
  | s :: ss => s.legible && legibleAll ss

end

/-- The lexemes of a formula between braces after a word. -/
def bracedSpelling (word : String) (f : Formula) : List Lexeme :=
  [.word word] ++ [.mark .leftBrace] ++ f.spelling ++ [.mark .rightBrace]

theorem closes_inBraces (word : String) (hword : isWord word = true) {f : Formula}
    (h : f.legible = true) : Closes (inBraces word f) (bracedSpelling word f) := by
  have hleft : Closes " \x7b " [.mark .leftBrace] := closes_brace.spells.blank
  have hright : Closes " \x7d" [.mark .rightBrace] := closes_blank.trans (closes_mark .rightBrace rfl)
  exact (((spells_word hword).close hleft rfl).append (Formula.spells_text h)).close hright rfl

/-- The lexemes of a clause that may be missing. -/
def clauseSpelling (word : String) (f : Option Formula) : List Lexeme :=
  (f.map (bracedSpelling word)).getD []

theorem spells_clause {a : String} {la : List Lexeme} (ha : Spells a la) (word : String)
    (hword : isWord word = true) {f : Option Formula} (h : f.all Formula.legible = true) :
    Spells (a ++ (f.map fun f => " " ++ inBraces word f).getD "") (la ++ clauseSpelling word f) := by
  cases f with
  | none => simpa [clauseSpelling] using ha
  | some f =>
    have hclause := ha.blank.trans (closes_inBraces word hword h)
    rw [String.append_assoc] at hclause
    exact hclause.spells

mutual

/-- **The lexemes of a statement.** -/
def Stmt.spelling : Stmt → List Lexeme
  | .assign target value =>
    target.spelling ++ [.mark .assign] ++ value.spelling ++ [.mark .semicolon]
  | .branch cond thn [] =>
    [.word "if"] ++ cond.spelling ++ [.mark .leftBrace] ++ spellingAll thn ++ [.mark .rightBrace]
  | .branch cond thn (s :: els) =>
    [.word "if"] ++ cond.spelling ++ [.mark .leftBrace] ++ spellingAll thn ++
      [.mark .rightBrace, .word "else", .mark .leftBrace] ++ (s.spelling ++ spellingAll els) ++
      [.mark .rightBrace]
  | .loop cond invariant variant body =>
    [.word "while"] ++ cond.spelling ++ clauseSpelling "invariant" invariant ++
      clauseSpelling "decreases" variant ++ [.mark .leftBrace] ++ spellingAll body ++
      [.mark .rightBrace]
  | .assert cond => [.word "assert"] ++ cond.spelling ++ [.mark .semicolon]
  | .assume cond => [.word "assume"] ++ cond.spelling ++ [.mark .semicolon]
  | .ret none => [.word "return"] ++ [.mark .semicolon]
  | .ret (some value) => [.word "return"] ++ value.spelling ++ [.mark .semicolon]
  | .raise exception => [.word "throw"] ++ [.word exception] ++ [.mark .semicolon]

/-- The lexemes of statements. -/
def Stmt.spellingAll : List Stmt → List Lexeme
  | [] => []
  | s :: ss => s.spelling ++ spellingAll ss

end

theorem Stmt.linedAll : ∀ {ss : List Stmt}, (∀ s ∈ ss, s.legible = true → Lined s.lines s.spelling) →
    legibleAll ss = true → Lined (linesAll ss) (spellingAll ss)
  | [], _, _ => .nil
  | s :: ss, h, hss => by
    obtain ⟨hs, hss⟩ := Bool.and_eq_true_iff.mp hss
    obtain ⟨hfirst, hrest⟩ := forall_mem_cons.mp h
    exact (hfirst hs).append (linedAll hrest hss)

/-- **The lines of a statement have its lexemes.** -/
theorem Stmt.lined {s : Stmt} (h : s.legible = true) : Lined s.lines s.spelling := by
  induction s with
  | assign target value =>
    simp only [legible, Bool.and_eq_true] at h
    have hassign : Closes " := " [.mark .assign] := (closes_blank.append (spells_mark .assign)).blank
    exact .one (spells_semicolon (((Formula.spells_text h.1).close hassign rfl).append (Formula.spells_text h.2)))
  | branch cond thn els ihthn ihels =>
    simp only [legible, Bool.and_eq_true] at h
    have hcond := ((closes_word "if" rfl).append (Formula.spells_text h.1.1)).close closes_brace rfl
    have hthn := (Lined.one hcond.spells).append (linedAll ihthn h.1.2).deeper
    cases els with
    | nil => exact hthn.append (.one spells_rightBrace)
    | cons s els =>
      have helse : Spells "\x7d else \x7b" [.mark .rightBrace, .word "else", .mark .leftBrace] :=
        ((spells_rightBrace.blank.append (spells_word (w := "else") rfl)).close closes_brace rfl).spells
      have hels := linedAll ihels h.2
      rw [linesAll, spellingAll] at hels
      rw [lines, spelling]
      exact ((hthn.append (.one helse)).append hels.deeper).append (.one spells_rightBrace)
  | loop cond invariant variant body ih =>
    simp only [legible, Bool.and_eq_true] at h
    have hcond := (closes_word "while" rfl).append (Formula.spells_text h.1.1.1)
    have hclauses := spells_clause (spells_clause hcond "invariant" rfl h.1.1.2) "decreases" rfl h.1.2
    have hhead := Lined.one (hclauses.close closes_brace rfl).spells
    exact (hhead.append (linedAll ih h.2).deeper).append (.one spells_rightBrace)
  | assert cond => exact .one (spells_semicolon ((closes_word "assert" rfl).append (Formula.spells_text h)))
  | assume cond => exact .one (spells_semicolon ((closes_word "assume" rfl).append (Formula.spells_text h)))
  | ret value =>
    cases value with
    | none => exact .one (spells_semicolon (spells_word (w := "return") rfl))
    | some value => exact .one (spells_semicolon ((closes_word "return" rfl).append (Formula.spells_text h)))
  | raise exception => exact .one (spells_semicolon ((closes_word "throw" rfl).append (spells_word h)))

/-! ## Programs -/

/-- **A program that is read back from its text**, in a module with the id `owner`.  The number of the
overload is an integer of 64 bits. -/
structure Program.Legible (owner : String) (p : Program) : Prop where
  id : p.id = programId owner p.method p.overload
  word : isWord p.id = true
  overload : p.overload < 2 ^ 63
  params : p.params.all Var.legible = true
  returns : p.returns.all ValueType.legible = true
  locals : p.locals.all Var.legible = true
  requires : p.requires.legible = true
  ensures : p.ensures.legible = true
  side : p.side.legible = true
  body : Stmt.legibleAll p.body = true

/-- The lexemes of a local variable. -/
def localSpelling (v : Var) : List Lexeme := [.word "var"] ++ v.spelling ++ [.mark .semicolon]

/-- The lexemes of the result type. -/
def returnsSpelling (t : Option ValueType) : List Lexeme :=
  (t.map fun t => [.word "returns"] ++ [.word t.text]).getD []

theorem spells_returns {a : String} {la : List Lexeme} (ha : Closes a la) {t : Option ValueType}
    (h : t.all ValueType.legible = true) :
    Spells (a ++ (t.map fun t => " returns " ++ t.text).getD "") (la ++ returnsSpelling t) := by
  cases t with
  | none => simpa [returnsSpelling] using ha.spells
  | some t =>
    have hword : Closes " returns " [.word "returns"] := closes_blank.trans (closes_word "returns" rfl)
    exact ha.append (hword.append (spells_word (ValueType.isWord_text h)))

/-- **The lexemes of a program.** -/
def Program.spelling (p : Program) : List Lexeme :=
  [.word "program"] ++ [.word p.id] ++ [.mark .leftBracket] ++
      separated .comma Var.spelling p.params ++ [.mark .rightBracket] ++ returnsSpelling p.returns ++
      [.mark .leftBrace] ++
    (p.locals.flatMap localSpelling ++
      (bracedSpelling "requires" p.requires ++ bracedSpelling "ensures" p.ensures) ++
      p.side.spelling ++ ([.word "body"] ++ [.mark .leftBrace]) ++ Stmt.spellingAll p.body ++
      [.mark .rightBrace]) ++
    [.mark .rightBrace]

theorem Program.Legible.lined {owner : String} {p : Program} (h : p.Legible owner) :
    Lined p.lines p.spelling := by
  have hname := ((closes_word "program" rfl).append (spells_word h.word)).close (closes_mark .leftBracket rfl) rfl
  have hparams := (hname.append (spells_varsText h.params)).close (closes_mark .rightBracket rfl) rfl
  have hhead := (spells_returns hparams h.returns).close closes_brace rfl
  have hlocals : Lined (p.locals.map fun v => "var " ++ v.text ++ ";") (p.locals.flatMap localSpelling) :=
    .map fun v hv => spells_semicolon
      ((closes_word "var" rfl).append (Var.spells_text (all_eq_true.mp h.locals v hv)))
  have hcontract := (Lined.one (closes_inBraces "requires" rfl h.requires).spells).append
    (.one (closes_inBraces "ensures" rfl h.ensures).spells)
  have hbody := Lined.one ((spells_word (w := "body") rfl).close closes_brace rfl).spells
  have hinside := ((((hlocals.append hcontract).append (Side.lined h.side)).append hbody).append
    (Stmt.linedAll (fun _ _ => Stmt.lined) h.body).deeper).append (.one spells_rightBrace)
  exact ((Lined.one hhead.spells).append hinside.deeper).append (.one spells_rightBrace)

/-! ## Modules -/

/-- **A module that is read back from its text.**  The name of its class is made of words with dots
between them. -/
structure Module.Legible (m : Module) : Prop where
  id : isWord m.id = true
  className : ∃ head tail, m.className = Text.join "." (head :: tail) ∧
    ∀ w ∈ head :: tail, isWord w = true
  fields : m.fields.all Var.legible = true
  predicates : m.predicates.all Predicate.legible = true
  invariant : m.invariant.all isWord = true
  side : m.side.legible = true
  programs : ∀ p ∈ m.programs, p.Legible m.id

/-- The lexemes of a field. -/
def fieldSpelling (v : Var) : List Lexeme := [.word "field"] ++ v.spelling ++ [.mark .semicolon]

/-- The lexemes of the name of an object invariant. -/
def invariantSpelling (name : String) : List Lexeme :=
  [.word "invariant"] ++ [.word name] ++ [.mark .semicolon]

/-- **The lexemes of a module** whose class has the name with the words `words`. -/
def Module.spelling (m : Module) (words : List String) : List Lexeme :=
  [.word "module"] ++ [.word m.id] ++ [.word "class"] ++ separated .dot (fun w => [.word w]) words ++
      [.mark .leftBrace] ++
    (m.fields.flatMap fieldSpelling ++ m.predicates.flatMap Predicate.spelling ++
      m.invariant.toList.flatMap invariantSpelling ++ m.side.spelling ++
      m.programs.flatMap Program.spelling) ++
    [.mark .rightBrace]

/-- **The text of a module spells its lexemes.** -/
theorem Module.spells_text {m : Module} (h : m.Legible) {words : List String}
    (hclass : m.className = Text.join "." words) (hwords : ∀ w ∈ words, isWord w = true) :
    Spells m.text (m.spelling words) := by
  have hdotted : Spells m.className (separated .dot (fun w => [.word w]) words) := by
    have hjoined := spells_separated (closes_mark .dot rfl) rfl fun w hw => spells_word (hwords w hw)
    rw [map_id'] at hjoined
    rw [hclass]
    exact hjoined
  have hclassWord : Closes " class " [.word "class"] := closes_blank.trans (closes_word "class" rfl)
  have hid := ((closes_word "module" rfl).append (spells_word h.id)).close hclassWord rfl
  have hhead := (hid.append hdotted).close closes_brace rfl
  have hfields : Lined (m.fields.map fun f => "field " ++ f.text ++ ";") (m.fields.flatMap fieldSpelling) :=
    .map fun v hv => spells_semicolon
      ((closes_word "field" rfl).append (Var.spells_text (all_eq_true.mp h.fields v hv)))
  have hpredicates := Lined.flatMap fun p hp => Predicate.lined (all_eq_true.mp h.predicates p hp)
  have hinvariant : Lined (m.invariant.toList.map fun i => "invariant " ++ i ++ ";")
      (m.invariant.toList.flatMap invariantSpelling) := by
    refine .map fun i hi => spells_semicolon ((closes_word "invariant" rfl).append (spells_word ?_))
    have hword := h.invariant
    rwa [Option.mem_toList.mp hi] at hword
  have hprograms := Lined.flatMap fun p hp => (h.programs p hp).lined
  have hinside :=
    (((hfields.append hpredicates).append hinvariant).append (Side.lined h.side)).append hprograms
  have hlines : Lined m.lines (m.spelling words) :=
    ((Lined.one hhead.spells).append hinside.deeper).append (.one spells_rightBrace)
  exact hlines.closes.spells

end Contract

end Relspec
