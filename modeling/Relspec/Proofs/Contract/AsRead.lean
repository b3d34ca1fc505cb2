import Relspec.Contract.OfClass
import Relspec.Proofs.Contract.RoundTrip
import Relspec.Proofs.Formula.Reassociation
import Relspec.Proofs.Relational.Modes

/-!
# Proofs/Contract/AsRead — what the text of a module reads as

A module over plain formulas and words need not be legible: a class called like a type of the formula
language reads as that type, and a join on the right of a join reads as one on its left.  Nothing else is
lost.

* `Module.map` — a module with other formulas and types in the same places;
* `Module.Plain` — modules over plain formulas and words;
* `Module.asRead` — the module that the text of a plain module reads as;
* `roundTrip_of_plain`, `map_eq_self_iff` — what becomes of plain modules, and which stay as they are.
-/

namespace Relspec

open List
open Formula (Lexeme)

/-! ## Types and variables -/

namespace ValueType

/-- The type that the name of a type reads as. -/
def asRead (t : ValueType) : ValueType := .ofName t.text

/-- Whether the name of a type is a word. -/
def plain (t : ValueType) : Bool := Lexeme.isWord t.text

theorem text_ofName (name : String) : (ofName name).text = name := by
  unfold ofName
  split_ifs with hint hbool
  · exact hint.symm
  · exact hbool.symm
  · rfl

theorem text_asRead (t : ValueType) : t.asRead.text = t.text := text_ofName t.text

theorem legible_asRead {t : ValueType} (h : t.plain = true) : t.asRead.legible = true := by
  unfold asRead ofName
  split_ifs with hint hbool
  · rfl
  · rfl
  · simp [legible, hint, hbool, show Lexeme.isWord t.text = true from h]

/-- **A type reads as itself** unless it is a class called like another type. -/
theorem asRead_eq_self_iff {t : ValueType} : t.asRead = t ↔ t ≠ .ref "Int" ∧ t ≠ .ref "Bool" := by
  cases t with
  | int | bool => exact iff_of_true rfl ⟨nofun, nofun⟩
  | ref name =>
    unfold asRead ofName text
    split_ifs with hint hbool <;> simp_all

end ValueType

/-- A variable with another type. -/
def Var.map (τ : ValueType → ValueType) (v : Var) : Var := { v with type := τ v.type }

/-- Whether the names of a variable and its type are words. -/
def Var.plain (v : Var) : Bool := Lexeme.isWord v.name && v.type.plain

/-- A relation: its name can stand in formulas, and that of its type is a word. -/
def Var.IsRelation (v : Var) : Prop := Formula.isName v.name = true ∧ v.type.plain = true

theorem Var.IsRelation.plain {v : Var} (h : v.IsRelation) : v.plain = true :=
  Bool.and_eq_true_iff.mpr ⟨Formula.isWord_of_isName h.1, h.2⟩

/-- Side definitions with other formulas. -/
def Side.map (φ : Formula → Formula) (s : Side) : Side :=
  { s with defs := s.defs.map fun d => { d with formula := φ d.formula } }

/-- Side variables that are words, with plain definitions. -/
structure Side.Plain (s : Side) : Prop where
  vars : ∀ v ∈ s.vars, Lexeme.isWord v.name = true
  defs : ∀ d ∈ s.defs, d.formula.plain = true

/-- A predicate with other types and another body. -/
def Predicate.map (φ : Formula → Formula) (τ : ValueType → ValueType) (p : Predicate) : Predicate where
  name := p.name
  params := p.params.map (Var.map τ)
  body := φ p.body

/-- A predicate over words with a plain body. -/
structure Predicate.Plain (p : Predicate) : Prop where
  name : Lexeme.isWord p.name = true
  params : ∀ v ∈ p.params, v.plain = true
  body : p.body.plain = true

namespace Contract

/-! ## Statements, programs and modules -/

namespace Stmt

mutual

/-- A statement with other formulas. -/
def map (φ : Formula → Formula) : Stmt → Stmt
  | .assign target value => .assign (φ target) (φ value)
  | .branch cond thn els => .branch (φ cond) (mapAll φ thn) (mapAll φ els)
  | .loop cond invariant variant body =>
    .loop (φ cond) (invariant.map φ) (variant.map φ) (mapAll φ body)
  | .assert cond => .assert (φ cond)
  | .assume cond => .assume (φ cond)
  | .ret value => .ret (value.map φ)
  | .raise exception => .raise exception

/-- Statements with other formulas. -/
def mapAll (φ : Formula → Formula) : List Stmt → List Stmt
  | [] => []
  | s :: ss => s.map φ :: mapAll φ ss

end

mutual

/-- Whether the formulas of a statement are plain and its exceptions are words. -/
def plain : Stmt → Bool
  | .assign target value => target.plain && value.plain
  | .branch cond thn els => cond.plain && plainAll thn && plainAll els
  | .loop cond invariant variant body =>
    cond.plain && invariant.all Formula.plain && variant.all Formula.plain && plainAll body
  | .assert cond => cond.plain
  | .assume cond => cond.plain
  | .ret value => value.all Formula.plain
  | .raise exception => Lexeme.isWord exception

/-- Whether statements are plain. -/
def plainAll : List Stmt → Bool
  | [] => true
  | s :: ss => s.plain && plainAll ss

end

end Stmt

/-- A program with other formulas and types. -/
def Program.map (φ : Formula → Formula) (τ : ValueType → ValueType) (p : Program) : Program :=
  { p with
    params := p.params.map (Var.map τ)
    returns := p.returns.map τ
    locals := p.locals.map (Var.map τ)
    requires := φ p.requires
    ensures := φ p.ensures
    side := p.side.map φ
    body := Stmt.mapAll φ p.body }

/-- **A plain program** of the module with the id `owner`. -/
structure Program.Plain (owner : String) (p : Program) : Prop where
  id : p.id = programId owner p.method p.overload
  word : Lexeme.isWord p.id = true
  overload : p.overload < 2 ^ 63
  params : ∀ v ∈ p.params, v.plain = true
  returns : ∀ t ∈ p.returns, t.plain = true
  locals : ∀ v ∈ p.locals, v.plain = true
  requires : p.requires.plain = true
  ensures : p.ensures.plain = true
  side : p.side.Plain
  body : Stmt.plainAll p.body = true

/-- A module with other formulas and types. -/
def Module.map (φ : Formula → Formula) (τ : ValueType → ValueType) (m : Module) : Module :=
  { m with
    fields := m.fields.map (Var.map τ)
    predicates := m.predicates.map (Predicate.map φ τ)
    side := m.side.map φ
    programs := m.programs.map (Program.map φ τ) }

/-- **A plain module**: its names are words, its formulas are plain, and its object invariant is called
after it. -/
structure Module.Plain (m : Module) : Prop where
  id : Lexeme.isWord m.id = true
  className : ∃ head tail, m.className = Text.join "." (head :: tail) ∧
    ∀ w ∈ head :: tail, Lexeme.isWord w = true
  fields : ∀ v ∈ m.fields, v.IsRelation
  predicates : ∀ p ∈ m.predicates, p.Plain
  invariant : m.invariant = some (invariantName m.id)
  side : m.side.Plain
  programs : ∀ p ∈ m.programs, p.Plain m.id

/-- **The module that the text of a plain module reads as.** -/
def Module.asRead (m : Module) : Module := m.map Formula.asRead ValueType.asRead

/-! ## The same text -/

section Text

variable {φ : Formula → Formula} {τ : ValueType → ValueType}

namespace Stmt

mutual

theorem lines_map (hφ : ∀ f, (φ f).text = f.text) : ∀ s : Stmt, (s.map φ).lines = s.lines
  | .assign target value => by rw [map, lines, hφ, hφ, lines]
  | .branch cond thn [] => by
    rw [map, mapAll, lines, hφ, linesAll_map hφ thn, lines]
  | .branch cond thn (s :: els) => by
    rw [map, mapAll, lines, hφ, linesAll_map hφ thn, lines_map hφ s,
      linesAll_map hφ els, lines]
  | .loop cond invariant variant body => by
    rw [map, lines, hφ, linesAll_map hφ body, lines, Option.map_map, Option.map_map]
    simp only [Function.comp_def, inBraces, hφ]
  | .assert cond | .assume cond => by rw [map, lines, hφ, lines]
  | .ret none => rfl
  | .ret (some value) => by rw [map, Option.map_some, lines, hφ, lines]
  | .raise _ => rfl

theorem linesAll_map (hφ : ∀ f, (φ f).text = f.text) : ∀ ss : List Stmt,
    linesAll (mapAll φ ss) = linesAll ss
  | [] => rfl
  | s :: ss => by rw [mapAll, linesAll, lines_map hφ s, linesAll_map hφ ss, linesAll]

end

end Stmt

variable (hφ : ∀ f, (φ f).text = f.text) (hτ : ∀ t, (τ t).text = t.text)

include hφ in
theorem side_lines_map (s : Side) : (s.map φ).lines = s.lines := by
  simp only [Side.map, Side.lines, map_map, Function.comp_def, hφ]

include hτ in
theorem var_text_map (v : Var) : (v.map τ).text = v.text := by rw [Var.map, Var.text, hτ, Var.text]

include hτ in
theorem varsText_map (vs : List Var) : varsText (vs.map (Var.map τ)) = varsText vs := by
  simp only [varsText, map_map, Function.comp_def, var_text_map hτ]

include hφ hτ

theorem Program.lines_map (p : Program) : (p.map φ τ).lines = p.lines := by
  simp only [map, lines, varsText_map hτ, map_map, Function.comp_def,
    var_text_map hτ, Option.map_map, hτ, inBraces, hφ, side_lines_map hφ, Stmt.linesAll_map hφ]

theorem predicate_lines_map (p : Predicate) : (p.map φ τ).lines = p.lines := by
  simp only [Predicate.map, Predicate.lines, varsText_map hτ, hφ]

/-- **A module has the text of one with other formulas and types** that have the same texts. -/
theorem Module.text_map (m : Module) : (m.map φ τ).text = m.text := by
  simp only [map, text, lines, map_map, flatMap_map, Function.comp_def,
    var_text_map hτ, predicate_lines_map hφ hτ, side_lines_map hφ, Program.lines_map hφ hτ]

end Text

theorem Module.text_asRead (m : Module) : m.asRead.text = m.text :=
  m.text_map Formula.text_asRead ValueType.text_asRead

/-! ## Legible modules -/

theorem legible_asRead_var {v : Var} (h : v.plain = true) : (v.map ValueType.asRead).legible = true := by
  obtain ⟨hname, htype⟩ := Bool.and_eq_true_iff.mp h
  exact Bool.and_eq_true_iff.mpr ⟨hname, ValueType.legible_asRead htype⟩

theorem legible_asRead_vars {vs : List Var} (h : ∀ v ∈ vs, v.plain = true) :
    (vs.map (Var.map ValueType.asRead)).all Var.legible = true :=
  all_eq_true.mpr (forall_mem_map.mpr fun v hv => legible_asRead_var (h v hv))

theorem legible_asRead_side {s : Side} (h : s.Plain) : (s.map Formula.asRead).legible = true :=
  Bool.and_eq_true_iff.mpr ⟨all_eq_true.mpr h.vars, all_eq_true.mpr
    (forall_mem_map.mpr fun d hd => Formula.legible_asRead (h.defs d hd))⟩

theorem legible_asRead_option {f : Option Formula} (h : f.all Formula.plain = true) :
    (f.map Formula.asRead).all Formula.legible = true := by
  cases f with
  | none => rfl
  | some f => exact Formula.legible_asRead h

namespace Stmt

mutual

theorem legible_asRead : ∀ {s : Stmt}, s.plain = true → (s.map Formula.asRead).legible = true
  | .assign target value, h => by
    obtain ⟨htarget, hvalue⟩ := Bool.and_eq_true_iff.mp h
    exact Bool.and_eq_true_iff.mpr ⟨Formula.legible_asRead htarget, Formula.legible_asRead hvalue⟩
  | .branch cond thn els, h => by
    simp only [plain, Bool.and_eq_true] at h
    simp only [map, legible, Bool.and_eq_true]
    exact ⟨⟨Formula.legible_asRead h.1.1, legibleAll_asRead h.1.2⟩, legibleAll_asRead h.2⟩
  | .loop cond invariant variant body, h => by
    simp only [plain, Bool.and_eq_true] at h
    simp only [map, legible, Bool.and_eq_true]
    exact ⟨⟨⟨Formula.legible_asRead h.1.1.1, legible_asRead_option h.1.1.2⟩,
      legible_asRead_option h.1.2⟩, legibleAll_asRead h.2⟩
  | .assert cond, h | .assume cond, h => Formula.legible_asRead (f := cond) h
  | .ret value, h => legible_asRead_option (f := value) h
  | .raise _, h => h

theorem legibleAll_asRead : ∀ {ss : List Stmt}, plainAll ss = true →
    legibleAll (mapAll Formula.asRead ss) = true
  | [], _ => rfl
  | s :: ss, h => by
    obtain ⟨hs, hss⟩ := Bool.and_eq_true_iff.mp h
    exact Bool.and_eq_true_iff.mpr ⟨legible_asRead hs, legibleAll_asRead hss⟩

end

end Stmt

theorem Program.legible_asRead {owner : String} {p : Program} (h : p.Plain owner) :
    (p.map Formula.asRead ValueType.asRead).Legible owner where
  id := h.id
  word := h.word
  overload := h.overload
  params := legible_asRead_vars h.params
  returns := by
    have hreturns := h.returns
    rw [map]
    cases hp : p.returns with
    | none => rfl
    | some t => exact ValueType.legible_asRead (hreturns t hp)
  locals := legible_asRead_vars h.locals
  requires := Formula.legible_asRead h.requires
  ensures := Formula.legible_asRead h.ensures
  side := legible_asRead_side h.side
  body := Stmt.legibleAll_asRead h.body

/-- **The module that a plain module reads as is legible.** -/
theorem Module.legible_asRead {m : Module} (h : m.Plain) : m.asRead.Legible where
  id := h.id
  className := h.className
  fields := legible_asRead_vars fun v hv => (h.fields v hv).plain
  predicates := by
    refine all_eq_true.mpr (forall_mem_map.mpr fun p hp => ?_)
    have hp := h.predicates p hp
    simp only [Predicate.map, Predicate.legible, Bool.and_eq_true]
    exact ⟨⟨hp.name, legible_asRead_vars hp.params⟩, Formula.legible_asRead hp.body⟩
  invariant := by
    have hname : Lexeme.isWord (invariantName m.id) = true := Formula.isWord_append h.id (by decide)
    exact h.invariant ▸ hname
  side := legible_asRead_side h.side
  programs := forall_mem_map.mpr fun p hp => Program.legible_asRead (h.programs p hp)

/-! ## Modules that stay as they are -/

/-- The types of the variables of a program and of its result. -/
def Program.types (p : Program) : List ValueType :=
  (p.params ++ p.locals).map (·.type) ++ p.returns.toList

/-- The formulas of a program, in its contract and its body. -/
def Program.formulas (p : Program) : List Formula :=
  p.requires :: p.ensures :: (p.side.formulas ++ Stmt.formulasAll p.body)

/-- **The types in a module.** -/
def Module.types (m : Module) : List ValueType :=
  m.fields.map (·.type) ++ (m.predicates.flatMap fun p => p.params.map (·.type)) ++
    m.programs.flatMap Program.types

/-- **The formulas in a module.** -/
def Module.formulas (m : Module) : List Formula :=
  m.predicates.map (·.body) ++ m.side.formulas ++ m.programs.flatMap Program.formulas

section Same

variable {φ : Formula → Formula} {τ : ValueType → ValueType}

theorem list_map_eq_self_iff {α : Type} {g : α → α} {l : List α} : l.map g = l ↔ ∀ a ∈ l, g a = a := by
  conv_lhs => rhs; rw [← map_id l]
  exact map_inj_left

theorem option_map_eq_self_iff {α : Type} {g : α → α} {o : Option α} :
    o.map g = o ↔ ∀ a ∈ o.toList, g a = a := by
  cases o <;> simp

theorem var_map_eq_self_iff {v : Var} : v.map τ = v ↔ τ v.type = v.type := by
  cases v
  rw [Var.map, Var.mk.injEq, eq_self, true_and]

theorem vars_map_eq_self_iff {vs : List Var} :
    vs.map (Var.map τ) = vs ↔ ∀ t ∈ vs.map (·.type), τ t = t := by
  rw [list_map_eq_self_iff, forall_mem_map]
  exact forall₂_congr fun v _ => var_map_eq_self_iff

theorem side_map_eq_self_iff {s : Side} : s.map φ = s ↔ ∀ f ∈ s.formulas, φ f = f := by
  obtain ⟨vars, defs⟩ := s
  rw [Side.map, Side.mk.injEq, eq_self, true_and, list_map_eq_self_iff, Side.formulas,
    forall_mem_map]
  refine forall₂_congr fun d _ => ?_
  cases d
  rw [SideDef.mk.injEq, eq_self, true_and]

theorem predicate_map_eq_self_iff {p : Predicate} :
    p.map φ τ = p ↔ (∀ t ∈ p.params.map (·.type), τ t = t) ∧ φ p.body = p.body := by
  cases p
  rw [Predicate.map, Predicate.mk.injEq, eq_self, true_and, vars_map_eq_self_iff]

namespace Stmt

mutual

theorem map_eq_self_iff : ∀ {s : Stmt}, s.map φ = s ↔ ∀ f ∈ s.formulas, φ f = f
  | .assign target value | .assert cond | .assume cond | .raise exception => by simp [map, formulas]
  | .branch cond thn els => by
    rw [map, branch.injEq, mapAll_eq_self_iff, mapAll_eq_self_iff, formulas,
      forall_mem_cons, forall_mem_append]
  | .loop cond invariant variant body => by
    rw [map, loop.injEq, mapAll_eq_self_iff, option_map_eq_self_iff,
      option_map_eq_self_iff, formulas, forall_mem_cons, forall_mem_append,
      forall_mem_append, and_assoc]
  | .ret value => by rw [map, ret.injEq, option_map_eq_self_iff, formulas]

theorem mapAll_eq_self_iff : ∀ {ss : List Stmt},
    mapAll φ ss = ss ↔ ∀ f ∈ formulasAll ss, φ f = f
  | [] => by simp [mapAll, formulasAll]
  | s :: ss => by
    rw [mapAll, List.cons.injEq, map_eq_self_iff, mapAll_eq_self_iff, formulasAll,
      forall_mem_append]

end

end Stmt

theorem Program.map_eq_self_iff {p : Program} : p.map φ τ = p ↔
    (∀ t ∈ p.types, τ t = t) ∧ ∀ f ∈ p.formulas, φ f = f := by
  cases p
  simp only [map, mk.injEq, true_and, vars_map_eq_self_iff, option_map_eq_self_iff,
    side_map_eq_self_iff, Stmt.mapAll_eq_self_iff, types, formulas, map_append,
    forall_mem_append, forall_mem_cons]
  grind

/-- **Which modules stay as they are** under a change of formulas and types. -/
theorem Module.map_eq_self_iff {m : Module} : m.map φ τ = m ↔
    (∀ t ∈ m.types, τ t = t) ∧ ∀ f ∈ m.formulas, φ f = f := by
  cases m
  simp only [map, mk.injEq, true_and, list_map_eq_self_iff, var_map_eq_self_iff,
    predicate_map_eq_self_iff, side_map_eq_self_iff, Program.map_eq_self_iff, types,
    formulas, forall_mem_append, forall_mem_flatMap, forall_mem_map, forall_and]
  constructor
  · rintro ⟨hfields, ⟨hparams, hbodies⟩, hside, htypes, hformulas⟩
    exact ⟨⟨⟨hfields, hparams⟩, htypes⟩, ⟨hbodies, hside⟩, hformulas⟩
  · rintro ⟨⟨⟨hfields, hparams⟩, htypes⟩, ⟨hbodies, hside⟩, hformulas⟩
    exact ⟨hfields, ⟨hparams, hbodies⟩, hside, htypes, hformulas⟩

end Same

mutual

theorem Stmt.plain_formulas : ∀ {s : Stmt}, s.plain = true → ∀ f ∈ s.formulas, f.plain = true
  | .assign target value, h => by simpa [plain, formulas] using h
  | .branch cond thn els, h => by
    simp only [plain, Bool.and_eq_true] at h
    rw [formulas, forall_mem_cons, forall_mem_append]
    exact ⟨h.1.1, plainAll_formulas h.1.2, plainAll_formulas h.2⟩
  | .loop cond invariant variant body, h => by
    simp only [plain, Bool.and_eq_true] at h
    rw [formulas, forall_mem_cons, forall_mem_append, forall_mem_append]
    exact ⟨h.1.1.1, ⟨by simpa [Option.all_eq_true] using h.1.1.2, by simpa [Option.all_eq_true] using h.1.2⟩,
      plainAll_formulas h.2⟩
  | .assert cond, h | .assume cond, h => forall_mem_singleton.mpr h
  | .ret value, h => by simpa [plain, formulas, Option.all_eq_true] using h
  | .raise _, _ => nofun

theorem Stmt.plainAll_formulas : ∀ {ss : List Stmt}, plainAll ss = true →
    ∀ f ∈ formulasAll ss, f.plain = true
  | [], _ => nofun
  | s :: ss, h => by
    obtain ⟨hs, hss⟩ := Bool.and_eq_true_iff.mp h
    rw [formulasAll, forall_mem_append]
    exact ⟨plain_formulas hs, plainAll_formulas hss⟩

end

theorem Module.Plain.formulas {m : Module} (h : m.Plain) : ∀ f ∈ m.formulas, f.plain = true := by
  have hside : ∀ {s : Side}, s.Plain → ∀ f ∈ s.formulas, f.plain = true := fun hs =>
    forall_mem_map.mpr hs.defs
  rw [Module.formulas, forall_mem_append, forall_mem_append, forall_mem_map,
    forall_mem_flatMap]
  refine ⟨⟨fun p hp => (h.predicates p hp).body, hside h.side⟩, fun p hp => ?_⟩
  have hp := h.programs p hp
  rw [Program.formulas, forall_mem_cons, forall_mem_cons, forall_mem_append]
  exact ⟨hp.requires, hp.ensures, hside hp.side, Stmt.plainAll_formulas hp.body⟩

/-- **Which plain modules read as themselves**: those without a class called like another type and
without a join on the right of a join. -/
theorem Module.asRead_eq_self_iff {m : Module} (h : m.Plain) : m.asRead = m ↔
    (∀ t ∈ m.types, t ≠ .ref "Int" ∧ t ≠ .ref "Bool") ∧ ∀ f ∈ m.formulas, f.leftNested = true := by
  rw [asRead, map_eq_self_iff]
  refine and_congr (forall₂_congr fun t _ => ValueType.asRead_eq_self_iff) (forall₂_congr fun f hf => ?_)
  exact Formula.asRead_eq_self_iff (h.formulas f hf)

/-! ## The round trip -/

theorem sameIdentifiers_asRead (m : Module) : sameIdentifiers m m.asRead = .ok () := by
  have hpredicates : m.asRead.predicates.map (·.name) = m.predicates.map (·.name) := by
    simp only [Module.asRead, Module.map, map_map, Function.comp_def, Predicate.map]
  have hprograms : m.asRead.programs.map (·.id) = m.programs.map (·.id) := by
    simp only [Module.asRead, Module.map, map_map, Function.comp_def, Program.map]
  have hid : m.asRead.id = m.id := rfl
  simp only [sameIdentifiers, hid, hpredicates, hprograms, bne_self_eq_false, sameMembers_self,
    Bool.not_true]
  rfl

theorem reread_of_plain {m : Module} (h : m.Plain) : reread m = .ok m.asRead := by
  rw [reread, ← m.text_asRead, read_of_legible (Module.legible_asRead h)]
  simp only [sameIdentifiers_asRead]
  rfl

/-- **Plain modules through their texts**, which may be kept or not. -/
theorem roundTrip_of_plain {ms got : List Module} (h : ∀ m ∈ ms, m.Plain) {dir : String} {d d' : Disk}
    (hrun : (roundTrip ms dir).run.run d = (.ok got, d')) : got = ms.map Module.asRead := by
  have hall := forall₂_reread hrun
  clear hrun
  induction hall with
  | nil => rfl
  | cons hone _ ih =>
    obtain ⟨hm, hms⟩ := forall_mem_cons.mp h
    rw [Except.ok.inj (hone.symm.trans (reread_of_plain hm)), ih hms, map_cons]

/-- When the texts are not kept, nothing goes wrong. -/
theorem run_roundTrip_of_plain {ms : List Module} (h : ∀ m ∈ ms, m.Plain) (d : Disk) :
    (roundTrip ms "").run.run d = (.ok (ms.map Module.asRead), d) :=
  run_roundTrip (fun m hm => reread_of_plain (h m hm)) d

end Contract

end Relspec
