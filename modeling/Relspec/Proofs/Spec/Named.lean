import Relspec.Proofs.Relational.Named
import Relspec.Proofs.Spec.Initial

/-!
# Proofs/Spec/Named — specifications over identifiers

A symbolic run brings in no names but versions of those of the program, so a specification of modules
over identifiers is over identifiers itself.

* `naming`, `lawful_naming` — the discipline of runs over identifiers;
* `Specification.Named`, `Frame.Named.specify` — the specification of a program.
-/

namespace Relspec

open List

theorem IsIdentifier.versioned {x : String} (h : IsIdentifier x) (n : Nat) :
    IsIdentifier (Spec.versioned x n) :=
  (h.append (by decide)).append (isIdentifier_toString n)

namespace Spec

/-- A type as text that holds no brace. -/
def Unbraced (s : String) : Prop := '\x7b' ∉ s.toList

instance : DecidablePred Unbraced := fun s => inferInstanceAs (Decidable ('\x7b' ∉ s.toList))

theorem Unbraced.append {s t : String} (hs : Unbraced s) (ht : Unbraced t) : Unbraced (s ++ t) := by
  rw [Unbraced, String.toList_append, mem_append, not_or]
  exact ⟨hs, ht⟩

theorem IsIdentifier.unbraced {x : String} (h : IsIdentifier x) : Unbraced x := h.not_mem rfl

/-! ## Symbolic runs -/

/-- The tables of a symbolic run over identifiers. -/
structure Verification.Named (v : Verification) : Prop where
  vars : ∀ x ∈ v.vars, IsIdentifier x.name ∧ Unbraced x.shape.type
  shapes : ∀ base shape, v.shapes.find? base = some shape → Unbraced shape.type
  versions : ∀ base n, v.versions.find? base = some n → IsIdentifier base

namespace Verification.Named

variable {v : Verification} {base : String}

theorem declared (h : v.Named) (hbase : IsIdentifier base) : (v.declared base).Named := by
  rw [Verification.declared]
  split
  · exact h
  · refine ⟨?_, fun b s hs => ?_, fun b n hn => ?_⟩
    · rw [Verification.declare, forall_mem_append, forall_mem_singleton]
      exact ⟨h.vars, hbase.versioned 0, (by decide : Unbraced "Int")⟩
    · by_cases hb : b = base
      · rw [Verification.declare, hb, Table.find?_insert_self] at hs
        exact Option.some.inj hs ▸ (by decide : Unbraced "Int")
      · rw [Verification.declare, Table.find?_insert_of_ne _ hb] at hs
        exact h.shapes b s hs
    · by_cases hb : b = base
      · exact hb ▸ hbase
      · rw [Verification.declare, Table.find?_insert_of_ne _ hb] at hn
        exact h.versions b n hn

theorem next (h : v.Named) (hbase : IsIdentifier base) : (v.next base).Named where
  vars := by
    rw [Verification.next, forall_mem_append, forall_mem_singleton]
    refine ⟨h.vars, hbase.versioned _, ?_⟩
    cases hshape : v.shapes.find? base with
    | none => exact (by decide : Unbraced "Int")
    | some shape => exact h.shapes base shape hshape
  shapes := h.shapes
  versions b n hn := by
    by_cases hb : b = base
    · exact hb ▸ hbase
    · rw [Verification.next, Table.find?_insert_of_ne _ hb] at hn
      exact h.versions b n hn

theorem rename (h : v.Named) {f : Formula} (hf : f.Named) : (v.rename f).Named := by
  refine Formula.passes_naming.mp ((Formula.passes_naming.mpr hf).rename fun x y hxy => ?_)
  have hfind : v.currents.find? x = (v.versions.find? x).map (versioned x) :=
    Table.lookup_map_entries versioned x v.versions.entries
  rw [hfind] at hxy
  obtain ⟨n, hn, rfl⟩ := Option.map_eq_some_iff.mp hxy
  exact (h.versions x n hn).versioned n

end Verification.Named

/-- **The discipline of runs over identifiers.** -/
def naming : Discipline where
  tables := Verification.Named
  formula _ f := f.Named
  source f := f.Named
  target := IsIdentifier
  thrown := IsIdentifier
  computes pred _ := IsIdentifier pred

theorem lawful_naming : naming.Lawful where
  bare := ⟨fun h => ⟨h.vars, h.shapes, h.versions⟩, fun h => ⟨h.vars, h.shapes, h.versions⟩⟩
  formula_bare := Iff.rfl
  truth := Formula.named_truth
  falsity := Formula.named_falsity
  zero := Formula.named_int 0
  not := Formula.named_unary.mpr
  binary _ _ _ _ hf hg := Formula.named_binary.mpr ⟨hf, hg⟩
  ite hf hg hh := Formula.named_ite.mpr ⟨hf, hg, hh⟩
  call hp ha hf :=
    Formula.named_call.mpr ⟨hp, forall_mem_append.mpr ⟨ha, forall_mem_singleton.mpr hf⟩⟩
  rename hv hf := hv.rename hf
  thrown _ := Formula.named_ident.mpr
  renewed hv hb := ⟨⟨(hv.declared hb).next hb, id⟩, Formula.named_ident.mpr (IsIdentifier.versioned hb _),
    Formula.named_ident.mpr (IsIdentifier.versioned hb _)⟩

open Relational (Stmt)

/-- Bodies over identifiers keep to the discipline. -/
theorem naming_allowsAll {ss : List Stmt} (h : Stmt.NamedAll ss) : naming.AllowsAll ss := fun s hs => by
  have hnamed := h.within s hs
  refine ⟨fun x hx => ?_, fun f hf => ?_, hnamed.thrown, ?_⟩
  · cases s with
    | assign | update | compute => exact Option.some.inj hx ▸ hnamed.1
    | ret value =>
      cases value with
      | none => cases hx
      | some => exact Option.some.inj hx ▸ (by decide : IsIdentifier "return")
    | raise => exact Option.some.inj hx ▸ (by decide : IsIdentifier "throw")
    | branch | loop | assert | assume => cases hx
  · change f.Named
    cases s <;> grind [ownFormulas, Stmt.Named]
  · rintro target pred args rfl
    exact hnamed.2.1

/-! ## Specifications -/

/-- The formulas of the body of a predicate. -/
def Body.formulas : Body → List Formula
  | .conjuncts goals => goals
  | .follows hypotheses goals => hypotheses ++ goals

/-- A predicate over identifiers; its types may hold marks, but no brace. -/
structure Pred.Named (p : Pred) : Prop where
  name : IsIdentifier p.name
  params : ∀ x ∈ p.params, Unbraced x.text
  body : ∀ f ∈ p.body.formulas, f.Named

/-- A call over identifiers. -/
structure Call.Named (c : Call) : Prop where
  name : IsIdentifier c.name
  args : ∀ x ∈ c.args, IsIdentifier x

/-- **A specification over identifiers.** -/
structure Specification.Named (s : Specification) : Prop where
  program : IsIdentifier s.program
  sigs : ∀ g ∈ s.sigs, IsIdentifier g.name
  parents : ∀ g ∈ s.sigs, g.parent = some "java_lang_Object" ∨ g.parent = some "java_lang_Throwable"
  preds : ∀ p ∈ s.preds, p.Named
  vars : ∀ x ∈ s.vars, IsIdentifier x.name ∧ Unbraced x.shape.type
  fact : s.fact.Named
  goal : s.goal.Named
  scopes : ∀ c ∈ s.scopes, IsIdentifier c.2

theorem valueType_unbraced {t : ValueType} (h : t.Named) : Unbraced (valueType t) := by
  cases t with
  | int => exact (by decide : Unbraced "Int")
  | bool => exact (by decide : Unbraced "boolean")
  | ref id => exact (IsIdentifier.unbraced h).append (by decide)

theorem paren_unbraced {s : String} (h : Unbraced s) : Unbraced (paren s) := by
  rw [paren]
  split
  · exact ((by decide : Unbraced "(").append h).append (by decide)
  · exact h

namespace Frame

variable {modules : List Relational.Module} {owner program : String} {a : Frame}

/-- **The frame of a program over identifiers.** -/
structure Named (a : Frame) : Prop where
  modules : ∀ m ∈ a.modules, m.Named
  owner : a.owner.Named
  program : a.program.Named

/-- Where the program at hand is found. -/
theorem mem_of_frame? (h : frame? modules owner program = some a) : a.modules = modules ∧ a.owner ∈ modules ∧
      a.owner.id = owner ∧ a.program ∈ a.owner.programs ∧ a.program.id = program := by
  obtain ⟨m, hm, h⟩ := Option.bind_eq_some_iff.mp h
  obtain ⟨p, hp, h⟩ := Option.bind_eq_some_iff.mp h
  obtain rfl := Option.some.inj h
  have howner := List.find?_some hm
  have hprogram := List.find?_some hp
  exact ⟨rfl, mem_reverse.mp (mem_of_find?_eq_some hm), beq_iff_eq.mp howner,
    mem_of_find?_eq_some hp, beq_iff_eq.mp hprogram⟩

theorem named_of_frame? (h : frame? modules owner program = some a) (hnamed : ∀ m ∈ modules, m.Named) :
    a.Named := by
  obtain ⟨rfl, howner, -, hprogram, -⟩ := mem_of_frame? h
  exact ⟨hnamed, hnamed _ howner, (hnamed _ howner).programs _ hprogram⟩

namespace Named

variable {a : Frame} (h : a.Named)
include h

theorem fields : ∀ f ∈ a.fields, IsIdentifier f.owner ∧ f.var.Named := by
  intro f hf
  obtain ⟨m, hm, hf⟩ := mem_flatMap.mp hf
  obtain ⟨v, hv, rfl⟩ := mem_map.mp hf
  exact ⟨(h.modules m hm).id, (h.modules m hm).fields v hv⟩

theorem relationType_unbraced {f : FieldOf} (hf : f ∈ a.fields) :
    Unbraced (relationType f) := by
  obtain ⟨howner, hvar⟩ := h.fields f hf
  exact ((IsIdentifier.unbraced howner).append (by decide)).append
    (paren_unbraced (valueType_unbraced hvar.type))

theorem classes : ∀ c ∈ a.classes, IsIdentifier c := by
  rw [Frame.classes, forall_mem_append, forall_mem_map]
  refine ⟨fun m hm => (h.modules m hm).id, fun c hc => ?_⟩
  rw [otherClasses, mem_mergeSort, mem_eraseDups] at hc
  obtain ⟨t, ht, htc⟩ := mem_filterMap.mp hc
  have hnamed : t.Named := by
    simp only [mentioned, vars, mem_append, mem_map, Option.mem_toList] at ht
    rcases ht with (⟨f, hf, rfl⟩ | ⟨v, (hv | hv) | hv, rfl⟩) | ht
    · exact (h.fields f hf).2.type
    · exact (h.program.params v hv).type
    · exact (h.program.locals v hv).type
    · exact (h.program.skolems v hv).type
    · exact h.program.returns t ht
  cases t with
  | int => cases htc
  | bool => cases htc
  | ref id =>
    dsimp only at htc
    split at htc
    · cases htc
    · exact Option.some.inj htc ▸ hnamed

theorem shaped : ∀ x ∈ a.shaped, IsIdentifier x.name ∧ Unbraced x.shape.type := by
  simp only [Frame.shaped, forall_mem_append, forall_mem_cons, forall_mem_map]
  exact ⟨⟨⟨⟨⟨⟨by decide, by decide⟩, ⟨by decide, IsIdentifier.unbraced h.owner.id⟩, forall_mem_nil _⟩,
    fun x hx => ⟨(h.program.params x hx).name, valueType_unbraced (h.program.params x hx).type⟩⟩,
    fun f hf => ⟨(h.fields f hf).2.name, h.relationType_unbraced hf⟩⟩,
    fun t ht => ⟨by decide, valueType_unbraced (h.program.returns t (Option.mem_toList.mp ht))⟩⟩,
    fun x hx => ⟨(h.program.locals x hx).name, valueType_unbraced (h.program.locals x hx).type⟩⟩

theorem initial : a.initial.Named := by
  rw [initial_eq]
  refine ⟨forall_mem_append.mpr ⟨forall_mem_map.mpr fun x hx => ?_,
    forall_mem_map.mpr fun x hx => ?_⟩, fun base shape hbase => ?_, fun base n hbase => ?_⟩
  · exact ⟨(h.shaped x hx).1.versioned 0, (h.shaped x hx).2⟩
  · exact ⟨(h.program.skolems x hx).name, valueType_unbraced (h.program.skolems x hx).type⟩
  · rcases Table.find?_foldl_insert hbase with hempty | ⟨x, hx, -, rfl⟩
    · cases hempty
    · exact (h.shaped x hx).2
  · rcases Table.find?_foldl_insert hbase with hempty | ⟨x, hx, rfl, -⟩
    · cases hempty
    · exact (h.shaped x hx).1

theorem final (s : Settings) : naming.Keeps (a.final s) :=
  (a.reaches_final s lawful_naming h.initial (naming_allowsAll h.program.body)).keeps

/-! ### Parameters and arguments -/

theorem fieldParams (after : Bool) :
    ∀ p ∈ a.fieldParams after, IsIdentifier p.name ∧ Unbraced p.type := by
  refine forall_mem_map.mpr fun f hf => ⟨?_, h.relationType_unbraced hf⟩
  have hname := (h.fields f hf).2.name
  cases after
  · exact hname
  · exact hname.append (by decide)

omit h in
theorem varParams {vs : List Var} (h : ∀ x ∈ vs, x.Named) :
    ∀ p ∈ Frame.varParams vs, IsIdentifier p.name ∧ Unbraced p.type :=
  forall_mem_map.mpr fun x hx => ⟨(h x hx).name, valueType_unbraced (h x hx).type⟩

theorem selfParam : IsIdentifier a.selfParam.name ∧ Unbraced a.selfParam.type :=
  ⟨(by decide : IsIdentifier "thiz"), IsIdentifier.unbraced h.owner.id⟩

theorem preArgs : ∀ x ∈ a.preArgs, IsIdentifier x := by
  simp only [Frame.preArgs, forall_mem_append, forall_mem_map]
  exact ⟨⟨⟨by decide, fun p hp => (h.program.params p hp).name.versioned 0⟩,
    fun f hf => (h.fields f hf).2.name.versioned 0⟩,
    fun x hx => (h.program.skolems x hx).name⟩

theorem postArgs {v : Verification} : ∀ x ∈ a.postArgs v, IsIdentifier x := by
  simp only [Frame.postArgs, forall_mem_append, forall_mem_map, forall_mem_singleton]
  exact ⟨⟨⟨⟨⟨⟨by decide, fun p hp => (h.program.params p hp).name.versioned 0⟩,
    fun f hf => (h.fields f hf).2.name.versioned 0⟩,
    fun f hf => (h.fields f hf).2.name.versioned _⟩,
    fun _ _ => IsIdentifier.versioned (by decide) _⟩, IsIdentifier.versioned (by decide) _⟩,
    fun x hx => (h.program.skolems x hx).name⟩

theorem contractName : IsIdentifier a.contractName := by
  refine ((h.owner.id.append (by decide)).append h.program.method).append ?_
  split
  · decide
  · exact (by decide : IsIdentifier "_").append (isIdentifier_toString _)

/-! ### Predicates -/

omit h in
theorem withSide {s : Side} (hs : s.Named) {f : Formula} (hf : f.Named) :
    (Frame.withSide s f).Named := by
  rw [Frame.withSide]
  split
  · exact hf
  · refine Formula.named_quant.mpr ⟨forall_mem_map.mpr hs.vars, by decide, .all ?_⟩
    rw [forall_mem_append, forall_mem_singleton]
    exact ⟨forall_mem_map.mpr hs.defs, hf⟩

theorem invariantCall (after : Bool) : (a.invariantCall after).Named := by
  refine Formula.named_call.mpr ⟨h.owner.invariantName, forall_mem_cons.mpr ⟨by decide, ?_⟩⟩
  exact forall_mem_map.mpr fun p hp => Formula.named_ident.mpr (h.fieldParams after p hp).1

omit h in
/-- Parameters by their names and types. -/
theorem texts_unbraced {ps : List Param} (h : ∀ p ∈ ps, IsIdentifier p.name ∧ Unbraced p.type) :
    ∀ p ∈ ps, Unbraced p.text := fun p hp =>
  ((IsIdentifier.unbraced (h p hp).1).append (by decide)).append (h p hp).2

theorem invariantPred {s : Side} (hs : s.Named) : (a.invariantPred s).Named where
  name := h.owner.invariantName
  params := texts_unbraced (forall_mem_cons.mpr ⟨h.selfParam, h.fieldParams false⟩)
  body := forall_mem_singleton.mpr (withSide hs h.owner.invariant)

theorem prePred {s : Side} (hs : s.Named) : (a.prePred s).Named where
  name := (by decide : IsIdentifier "precondition_").append h.contractName
  params := by
    refine texts_unbraced ?_
    simp only [Frame.prePred, preParams, forall_mem_append, forall_mem_cons]
    exact ⟨⟨⟨⟨⟨by decide, by decide⟩, h.selfParam, forall_mem_nil _⟩, varParams h.program.params⟩,
      h.fieldParams false⟩, varParams h.program.skolems⟩
  body := by
    simp only [Frame.prePred, Body.formulas, forall_mem_cons]
    exact ⟨by decide, h.invariantCall false, withSide (hs.ofOrigin _) h.program.pre,
      forall_mem_nil _⟩

theorem postPred {s : Side} (hs : s.Named) : (a.postPred s).Named where
  name := (by decide : IsIdentifier "postcondition_").append h.contractName
  params := by
    refine texts_unbraced ?_
    simp only [Frame.postPred, postParams, forall_mem_append, forall_mem_singleton]
    exact ⟨⟨⟨⟨⟨⟨h.selfParam, varParams h.program.params⟩, h.fieldParams false⟩, h.fieldParams true⟩,
      forall_mem_map.mpr fun t ht => ⟨(by decide : IsIdentifier (Relational.primed "return")),
        valueType_unbraced (h.program.returns t (Option.mem_toList.mp ht))⟩⟩, by decide, by decide⟩,
      varParams h.program.skolems⟩
  body := by
    simp only [Frame.postPred, Body.formulas, forall_mem_cons]
    exact ⟨by decide, h.invariantCall true, withSide (hs.ofOrigin _) h.program.post,
      forall_mem_nil _⟩

theorem verificationPred {v : Verification} (hv : naming.Keeps v) :
    (a.verificationPred v).Named where
  name := h.program.id
  params := texts_unbraced (forall_mem_map.mpr hv.tables.vars)
  body := by
    have hpost : (Formula.call a.postName ((a.postArgs v).map .ident)).Named :=
      Formula.named_call.mpr ⟨(by decide : IsIdentifier "postcondition_").append h.contractName,
        forall_mem_map.mpr fun x hx => Formula.named_ident.mpr (h.postArgs x hx)⟩
    have hgoals := forall_mem_append.mpr ⟨hv.obligations, forall_mem_singleton.mpr hpost⟩
    rw [Frame.verificationPred]
    dsimp only
    split
    · exact hgoals
    · exact forall_mem_append.mpr ⟨forall_mem_map.mpr hv.transitions, hgoals⟩

/-- **The specification of a program over identifiers.** -/
theorem specify (s : Settings) {moduleSide programSide : Side}
    (hmodule : moduleSide.Named) (hprogram : programSide.Named) :
    (a.specify s moduleSide programSide).Named where
  program := h.program.id
  sigs := by
    rw [Frame.specify, sigs, forall_mem_append, forall_mem_map, forall_mem_map]
    exact ⟨h.classes, h.program.exceptions⟩
  parents := by
    rw [Frame.specify, Frame.sigs, forall_mem_append, forall_mem_map, forall_mem_map]
    exact ⟨fun _ _ => .inl rfl, fun _ _ => .inr rfl⟩
  preds := by
    simp only [Frame.specify, forall_mem_cons]
    exact ⟨h.invariantPred hmodule, h.prePred hprogram, h.postPred hprogram,
      h.verificationPred (h.final s), forall_mem_nil _⟩
  vars := (h.final s).tables.vars
  fact := ⟨(by decide : IsIdentifier "precondition_").append h.contractName, h.preArgs⟩
  goal := ⟨h.program.id, forall_mem_map.mpr fun x hx => ((h.final s).tables.vars x hx).1⟩
  scopes := forall_mem_map.mpr h.classes

end Named

end Frame

end Spec

end Relspec
