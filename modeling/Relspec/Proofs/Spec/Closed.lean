import Relspec.Proofs.Formula.Vocabulary
import Relspec.Proofs.Spec.Exactness
import Relspec.Proofs.Spec.Named

/-!
# Proofs/Spec/Closed — the free names of a specification

A symbolic run puts the current version for every variable that is declared, so it speaks of versions that
it has made, and of what its statements speak of besides.  A contract predicate binds its side variables,
and its other names are those of its part of the contract.

* `closing`, `lawful_closing` — the discipline of formulas over the versions so far;
* `Frame.closed_final` — the state after the program, and `mem_names_of_mem_postArgs` — what it passes on;
* `mem_freeNames_withSide` — a formula with its side variables bound;
* `mem_freeNames_prePred`, `mem_freeNames_postPred`, `mem_freeNames_verificationPred` — predicates.
-/

namespace Relspec.Spec

open List
open Formula (Over Vocabulary)

/-- The vocabulary of some names, and of those that have a property, in every state. -/
def speaking (names : List String) (S : String → Prop) : Vocabulary :=
  ⟨fun _ x => x ∈ names ∨ S x, fun _ => True⟩

/-! ## The state of a symbolic run -/

namespace Verification

/-- The names of the versions so far, and of variables without versions. -/
def names (v : Verification) : List String := v.vars.map (·.name)

/-- **The tables of a state that has the names `first`**: of every declared variable they have the current
version, and `bases` are declared. -/
structure Closed (first bases : List String) (v : Verification) : Prop where
  start : first ⊆ v.names
  declared : ∀ x ∈ bases, v.versions.contains x = true
  shapes : ∀ x, v.shapes.contains x = true → v.versions.contains x = true
  current : ∀ x, v.versions.contains x = true → v.current x ∈ v.names

theorem names_declare (v : Verification) (base : String) (shape : Shape) :
    (v.declare base shape).names = v.names ++ [versioned base 0] := map_append ..

theorem names_next (v : Verification) (base : String) :
    (v.next base).names = v.names ++ [versioned base (v.version base + 1)] := map_append ..

theorem names_subset_next (v : Verification) (base : String) : v.names ⊆ (v.next base).names := by
  rw [names_next]
  exact subset_append_left _ _

namespace Closed

variable {first bases : List String} {S : String → Prop} {v w : Verification} {base : String}
  {shape : Shape} {f : Formula}

/-- A state with one more version, of a variable that it makes the current one. -/
theorem extend (h : v.Closed first bases) {n : Nat} (hnames : w.names = v.names ++ [versioned base n])
    (hversions : w.versions = v.versions.insert base n)
    (hshapes : ∀ x, w.shapes.contains x = true → x = base ∨ v.shapes.contains x = true) :
    w.Closed first bases := by
  have hsub : v.names ⊆ w.names := hnames ▸ subset_append_left _ _
  have hcontains : ∀ x, w.versions.contains x = true ↔ v.versions.contains x = true ∨ x = base :=
    fun x => by rw [hversions, Table.contains_insert]
  refine ⟨List.Subset.trans h.start hsub, fun x hx => (hcontains x).mpr (.inl (h.declared x hx)),
    fun x hx => (hcontains x).mpr ((hshapes x hx).symm.imp_left (h.shapes x)), fun x hx => ?_⟩
  rw [Verification.current, version, hversions]
  by_cases hbase : x = base
  · rw [hbase, Table.find?_insert_self, hnames]
    exact mem_append_right _ mem_cons_self
  · rw [Table.find?_insert_of_ne _ hbase]
    exact hsub (h.current x (((hcontains x).mp hx).resolve_right hbase))

theorem next (h : v.Closed first bases) (base : String) : (v.next base).Closed first bases :=
  h.extend (names_next v base) rfl fun _ hx => .inr hx

theorem declared_base (h : v.Closed first bases) (base : String) : (v.declared base).Closed first bases ∧
    (v.declared base).versions.contains base = true ∧ v.names ⊆ (v.declared base).names := by
  rw [Verification.declared]
  split
  · next hshape => exact ⟨h, h.shapes base hshape, List.Subset.refl _⟩
  · refine ⟨h.extend (names_declare v base _) rfl fun x hx => ?_, (Table.contains_insert ..).mpr (.inr rfl),
      names_declare v base _ ▸ subset_append_left _ _⟩
    rw [Verification.declare, Table.contains_insert] at hx
    exact hx.symm

/-- **Putting the current versions** for what statements speak of. -/
theorem rename (h : v.Closed first bases) (hf : f.Over (speaking bases S) [] false) :
    (v.rename f).Over (speaking v.names S) [] false := by
  have hfind : ∀ x, v.currents.find? x = (v.versions.find? x).map (versioned x) := fun x =>
    Table.lookup_map_entries versioned x v.versions.entries
  refine hf.rename nofun (fun x y hxy _ => .inl ?_) (fun _ x hx hread => .inr ?_) fun _ hv => hv
  · rw [hfind] at hxy
    obtain ⟨n, hn, rfl⟩ := Option.map_eq_some_iff.mp hxy
    have hcurrent := h.current x (Option.isSome_iff_exists.mpr ⟨n, hn⟩)
    rwa [Verification.current, version, hn, Option.getD_some] at hcurrent
  · refine hread.resolve_left fun hmem => ?_
    obtain ⟨n, hn⟩ := Option.isSome_iff_exists.mp (h.declared x hmem)
    rw [hfind, hn] at hx
    cases hx

end Closed

/-- **The discipline of formulas over the versions so far** and over names in `S`. -/
def closing (first bases : List String) (S : String → Prop) : Discipline where
  tables v := v.Closed first bases
  formula v f := f.Over (speaking v.names S) [] false
  source f := f.Over (speaking bases S) [] false
  target _ := True
  thrown := S
  computes _ _ := True

theorem lawful_closing (first bases : List String) (S : String → Prop) :
    (closing first bases S).Lawful where
  bare := ⟨fun h => ⟨h.start, h.declared, h.shapes, h.current⟩,
    fun h => ⟨h.start, h.declared, h.shapes, h.current⟩⟩
  formula_bare := Iff.rfl
  truth := trivial
  falsity := trivial
  zero := trivial
  not h := h
  binary _ _ _ _ hf hg := ⟨hf, hg⟩
  ite hf hg hh := ⟨hf, hg, hh⟩
  call _ hargs hf :=
    Formula.overAll_iff.mpr (forall_mem_append.mpr ⟨hargs, forall_mem_singleton.mpr hf⟩)
  rename hv hf := hv.rename hf
  thrown _ he := .inr (.inr he)
  renewed {v base} hv _ := by
    obtain ⟨hdeclared, hbase, hsub⟩ := hv.declared_base base
    have hnext := names_subset_next (v.declared base) base
    have hbase' : (v.renewed base).versions.contains base = true :=
      (Table.contains_insert ..).mpr (.inr rfl)
    exact ⟨⟨hdeclared.next base, fun hf => hf.mono ⟨fun _ _ => Or.imp_left fun hx => hnext (hsub hx),
      fun _ _ => trivial⟩⟩,
      .inr (.inl (hnext (hdeclared.current base hbase))),
      .inr (.inl ((hdeclared.next base).current base hbase'))⟩

end Verification

open Relational (Stmt)

mutual

theorem mem_formulas_iff {f : Formula} : ∀ {s : Stmt}, f ∈ s.formulas ↔ ∃ t ∈ s.walk, f ∈ ownFormulas t
  | .branch .. => by
    simp [Stmt.formulas, Stmt.walk, ownFormulas, mem_formulasAll_iff, or_and_right, exists_or]
  | .loop .. => by
    simp [Stmt.formulas, Stmt.walk, ownFormulas, mem_formulasAll_iff, or_and_right, exists_or]
    grind
  | .assign .. | .update .. | .compute .. | .assert _ | .assume _ | .ret _ | .raise _ => by
    simp [Stmt.formulas, Stmt.walk, ownFormulas]

/-- The formulas of statements are those of the statements within them. -/
theorem mem_formulasAll_iff {f : Formula} :
    ∀ {ss : List Stmt}, f ∈ Stmt.formulasAll ss ↔ ∃ t ∈ Stmt.walkAll ss, f ∈ ownFormulas t
  | [] => by simp [Stmt.formulasAll, Stmt.walkAll]
  | _ :: _ => by
    simp [Stmt.formulasAll, Stmt.walkAll, mem_formulas_iff, mem_formulasAll_iff, or_and_right, exists_or]

end

/-- **Statements over declared variables**, and over names in `S`, that throw exceptions in `S`. -/
structure ClosedBody (bases : List String) (S : String → Prop) (ss : List Stmt) : Prop where
  formulas : ∀ f ∈ Stmt.formulasAll ss, f.Over (speaking bases S) [] false
  thrown : ∀ t ∈ Stmt.walkAll ss, ∀ e ∈ t.thrown?, S e

/-! ## The state before and after the program -/

namespace Frame

variable {a : Frame} {S : String → Prop}

open Verification

variable {v : Verification} {x : String} {f : Formula} {side : Side}

/-- **The names at the start**: the first version of every declared variable, and the variables that stand
for quantified ones. -/
theorem names_initial (a : Frame) :
    a.initial.names = a.declared.map (versioned · 0) ++ a.program.skolems.map (·.name) := by
  rw [initial_eq, ← map_name_shaped]
  simp [Verification.names, Function.comp_def]

theorem closed_initial (a : Frame) : a.initial.Closed a.initial.names a.declared := by
  have hfresh := a.fresh_initial
  refine ⟨List.Subset.refl _, fun x hx => (hfresh.isOver.versions x).mpr hx,
    fun x hx => (hfresh.isOver.versions x).mpr ((hfresh.isOver.shapes x).mp hx), fun x hx => ?_⟩
  rw [current, hfresh.version, names_initial]
  exact mem_append_left _ (mem_map_of_mem ((hfresh.isOver.versions x).mp hx))

/-- **The state after a program** whose body is over its declared variables. -/
theorem closed_final (s : Settings) (h : ClosedBody a.declared S a.program.body) :
    (closing a.initial.names a.declared S).Keeps (a.final s) :=
  (a.reaches_final s (lawful_closing ..) a.closed_initial fun t ht => ⟨fun _ _ => trivial,
    fun f hf => h.formulas f (mem_formulasAll_iff.mpr ⟨t, ht, hf⟩), h.thrown t ht, fun _ _ _ _ => trivial⟩).keeps

/-- What is passed on to the postcondition are names of the run. -/
theorem mem_names_of_mem_postArgs (h : v.Closed a.initial.names a.declared) (hx : x ∈ a.postArgs v) :
    x ∈ v.names := by
  have hfirst : ∀ y ∈ a.declared, versioned y 0 ∈ v.names := fun y hy => by
    refine h.start ?_
    rw [names_initial]
    exact mem_append_left _ (mem_map_of_mem hy)
  have hlast : ∀ y ∈ a.declared, v.current y ∈ v.names := fun y hy => h.current y (h.declared y hy)
  have hskolem : ∀ y ∈ a.program.skolems, y.name ∈ v.names := fun y hy => by
    refine h.start ?_
    rw [names_initial]
    exact mem_append_right _ (mem_map_of_mem hy)
  simp only [declared, forall_mem_append, forall_mem_cons, forall_mem_map] at hfirst hlast
  revert x
  simp only [postArgs, forall_mem_append, forall_mem_map, forall_mem_singleton]
  exact ⟨⟨⟨⟨⟨⟨hfirst.1.1.1.1.2.1, hfirst.1.1.1.2⟩, hfirst.1.1.2⟩, hlast.1.1.2⟩, hlast.1.2⟩,
    hlast.1.1.1.1.1⟩, hskolem⟩

/-! ## Predicates -/

/-- **A formula with its side variables bound** speaks of no side variable, and of the integers besides. -/
theorem mem_freeNames_withSide {V : Vocabulary} {s : Side} (h : ∀ g ∈ f :: s.formulas, g.Over V [] false)
    (hx : x ∈ (withSide s f).freeNames) : x = "Int" ∨ x ∉ s.names ∧ ∃ old, V.reads old x := by
  obtain ⟨hf, hformulas⟩ := forall_mem_cons.mp h
  rw [withSide] at hx
  split at hx
  · next hvars =>
    refine .inr ⟨?_, hf.of_mem_freeNames hx⟩
    rw [Side.names, isEmpty_iff.mp hvars]
    exact not_mem_nil
  · rw [Formula.mem_freeNames, Formula.occurrences, mem_append] at hx
    rcases hx with hx | hx
    · exact .inl (mem_singleton.mp hx)
    · obtain ⟨hx, hbound⟩ := (Formula.mem_occurrences _ _).mp hx
      obtain ⟨g, hg, hx⟩ := Formula.mem_freeNames_of_all (Formula.mem_freeNames.mpr hx)
      have hover : g.Over V [] false := by
        rcases mem_append.mp hg with hg | hg
        · exact hformulas g hg
        · exact mem_singleton.mp hg ▸ hf
      exact .inr ⟨hbound, hover.of_mem_freeNames hx⟩

theorem mem_freeNames_invariantCall {after : Bool} (hx : x ∈ (a.invariantCall after).freeNames) :
    x = "thiz" ∨ x ∈ (a.fieldParams after).map (·.name) := by
  rw [Formula.mem_freeNames, invariantCall, Formula.occurrences, Formula.mem_occurrencesAll_iff] at hx
  obtain ⟨g, hg, hx⟩ := hx
  rcases mem_cons.mp hg with rfl | hg
  · exact .inl (mem_singleton.mp hx)
  · obtain ⟨p, hp, rfl⟩ := mem_map.mp hg
    exact .inr (mem_map.mpr ⟨p, hp, (mem_singleton.mp hx).symm⟩)

/-- The free names of a contract predicate with the condition `g`. -/
theorem mem_freeNames_contract {thrown : String} {after : Bool} {g : Formula} {ps : List Param}
    (hps : ∀ y, y = thrown ∨ y = "thiz" ∨ y ∈ (a.fieldParams after).map (·.name) → y ∈ ps.map (·.name))
    (hf : f ∈ [.eq (.ident thrown) (.ident "null"), a.invariantCall after, g]) (hx : x ∈ f.freeNames) :
    x ∈ ps.map (·.name) ∨ x = "null" ∨ x ∈ g.freeNames := by
  simp only [mem_cons, not_mem_nil, or_false] at hf
  rcases hf with rfl | rfl | rfl
  · simp only [Formula.eq, Formula.mem_freeNames, Formula.occurrences, mem_append] at hx
    exact hx.imp (fun hx => hps _ (.inl (mem_singleton.mp hx))) fun hx => .inl (mem_singleton.mp hx)
  · exact .inl (hps _ (.inr (mem_freeNames_invariantCall hx)))
  · exact .inr (.inr hx)

/-- The free names of a precondition. -/
theorem mem_freeNames_prePred (hf : f ∈ (a.prePred side).body.formulas) (hx : x ∈ f.freeNames) :
    x ∈ a.preParams.map (·.name) ∨ x = "null" ∨
      x ∈ (withSide (side.ofOrigin .requires) a.program.pre).freeNames := by
  refine mem_freeNames_contract (fun y hy => ?_) hf hx
  simp only [preParams, selfParam, map_append, map_cons, mem_append, mem_cons]
  tauto

/-- The free names of a postcondition. -/
theorem mem_freeNames_postPred (hf : f ∈ (a.postPred side).body.formulas) (hx : x ∈ f.freeNames) :
    x ∈ a.postParams.map (·.name) ∨ x = "null" ∨
      x ∈ (withSide (side.ofOrigin .ensures) a.program.post).freeNames := by
  refine mem_freeNames_contract (fun y hy => ?_) hf hx
  simp only [postParams, selfParam, map_append, map_cons, mem_append, mem_cons]
  tauto

/-- **The free names of a verification condition** are names of the run, or names in `S`. -/
theorem mem_freeNames_verificationPred (h : (closing a.initial.names a.declared S).Keeps v)
    (hf : f ∈ (a.verificationPred v).body.formulas) (hx : x ∈ f.freeNames) : x ∈ v.names ∨ S x := by
  have hcall : (closing a.initial.names a.declared S).formula v
      (.call a.postName ((a.postArgs v).map .ident)) :=
    Formula.overAll_iff.mpr (forall_mem_map.mpr fun y hy =>
      .inr (.inl (mem_names_of_mem_postArgs h.tables hy)))
  have hgoals := forall_mem_append.mpr ⟨h.obligations, forall_mem_singleton.mpr hcall⟩
  have hover : f.Over (speaking v.names S) [] false := by
    rw [verificationPred] at hf
    dsimp only at hf
    split at hf
    · exact hgoals f hf
    · exact forall_mem_append.mpr ⟨forall_mem_map.mpr h.transitions, hgoals⟩ f hf
  obtain ⟨_, hread⟩ := hover.of_mem_freeNames hx
  exact hread

end Frame

end Relspec.Spec
