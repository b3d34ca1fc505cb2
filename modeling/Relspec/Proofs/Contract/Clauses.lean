import Relspec.Proofs.Contract.Likeness
import Relspec.Proofs.Contract.PragmaVocabulary

/-!
# Proofs/Contract/Clauses — preconditions as clauses and as pragmas

A precondition can be written as a clause or as a pragma.  Clauses are understood by types and along the
superclasses, pragmas by the fields of the modules in order.

* `Fielded.field?_eq`, `Fielded.navigated_eq` — what names mean in pragmas;
* `resolve_eq_iff` — a pragma understands a term as a clause does, if and only if it does so for its names;
* `precondition_pragma_exact` — when a pragma says what a clause of the same tree says;
* `pragma_of_inherited_field` — it does not for a field that is inherited.
-/

namespace Relspec

open List
open Source (ClassDecl Expr Method Pragma)
open Arithmetic (extractPart extract ofOrigin_sideOf ofOrigin_sideOf_of_ne nameUnless)

namespace Contract

/-! ## Names in pragmas -/

/-- Whether the class of the module `id` declares a field. -/
def declares (modules : List Module) (id x : String) : Bool :=
  modules.any fun m => m.id == id && (m.fields.map (·.name)).contains (id ++ "_" ++ x)

/-- **The relation that a name on the right of a dot is**: the field of the first class that declares
it, the class `self` before all others. -/
def dottedName (modules : List Module) (self x : String) : String :=
  match (self :: modules.map (·.id)).find? fun id => declares modules id x with
  | some id => id ++ "_" ++ x
  | none => x

/-- **Modules that have the fields of their classes**, each class once. -/
structure Fielded (modules : List Module) : Prop where
  nodup : (modules.map (·.id)).Nodup
  fields : ∀ m ∈ modules, ∀ v ∈ m.fields, ∃ f, v.name = m.id ++ "_" ++ f

/-- The modules of a run are such modules. -/
theorem fielded_ofClasses {s : Settings} {classes : List ClassDecl} {n : Supply} {ms : List Module}
    (h : ((ofClasses s classes).run n).1.result = .ok ms) (hnodup : (ms.map (·.id)).Nodup) : Fielded ms := by
  refine ⟨hnodup, fun m hm v hv => ?_⟩
  obtain ⟨c, -, hspeaks⟩ := (ofClasses_speaks h).1 m hm
  have hname : v.name ∈ m.fields.map (·.name) := mem_map_of_mem hv
  rw [(hspeaks []).fields] at hname
  obtain ⟨f, -, hf⟩ := mem_map.mp hname
  exact ⟨f.name, by rw [(hspeaks []).id, hf]⟩

namespace Fielded

variable {modules : List Module} {classes : List ClassDecl} (h : Fielded modules)
include h

theorem find?_fieldsOf {m : Module} (hm : m ∈ modules) (x : String) :
    (Resolver.fieldsOf m).find? x =
      if (m.fields.map (·.name)).contains (m.id ++ "_" ++ x) then some (m.id ++ "_" ++ x) else none := by
  have hentries : (Resolver.fieldsOf m).Forall fun x rel =>
      rel = m.id ++ "_" ++ x ∧ rel ∈ m.fields.map (·.name) := by
    refine .ofList (forall_mem_map.mpr fun v hv => ?_)
    obtain ⟨f, hf⟩ := h.fields m hm v hv
    exact ⟨by rw [hf, Text.dropStart_append], mem_map_of_mem hv⟩
  cases hfind : (Resolver.fieldsOf m).find? x with
  | some rel =>
    obtain ⟨rfl, hmem⟩ := hentries.find? hfind
    rw [if_pos (contains_iff_mem.mpr hmem)]
  | none =>
    refine (if_neg fun hmem => ?_).symm
    obtain ⟨v, hv, hname⟩ := mem_map.mp (contains_iff_mem.mp hmem)
    refine Table.not_mem_keys hfind (Table.mem_keys_ofList.mpr (mem_map.mpr ⟨_, mem_map_of_mem hv, ?_⟩))
    rw [hname, Text.dropStart_append]

/-- **The fields on record are those that the classes declare.** -/
theorem field?_eq (id x : String) : (Resolver.of modules classes).field? id x =
    if declares modules id x then some (id ++ "_" ++ x) else none := by
  have hentries : (Resolver.of modules classes).fields.Forall fun id t =>
      ∃ m ∈ modules, m.id = id ∧ t = Resolver.fieldsOf m :=
    .ofList (forall_mem_map.mpr fun m hm => ⟨m, hm, rfl, rfl⟩)
  rw [Resolver.field?]
  cases hfind : (Resolver.of modules classes).fields.find? id with
  | some t =>
    obtain ⟨m, hm, rfl, rfl⟩ := hentries.find? hfind
    have hdeclares : declares modules m.id x = (m.fields.map (·.name)).contains (m.id ++ "_" ++ x) := by
      rw [declares, Bool.eq_iff_iff, any_eq_true]
      constructor
      · rintro ⟨m', hm', hx⟩
        obtain ⟨hid, hx⟩ := Bool.and_eq_true_iff.mp hx
        rwa [inj_on_of_nodup_map h.nodup hm' hm (beq_iff_eq.mp hid)] at hx
      · exact fun hx => ⟨m, hm, Bool.and_eq_true_iff.mpr ⟨beq_self_eq_true _, hx⟩⟩
    rw [Option.bind_some, h.find?_fieldsOf hm, hdeclares]
  | none =>
    refine (if_neg fun hdeclares => ?_).symm
    obtain ⟨m, hm, hx⟩ := any_eq_true.mp hdeclares
    have hid : m.id = id := beq_iff_eq.mp (Bool.and_eq_true_iff.mp hx).1
    exact Table.not_mem_keys hfind (Table.mem_keys_ofList.mpr (mem_map.mpr ⟨_, mem_map_of_mem hm, hid⟩))

theorem navigated_eq (self x : String) :
    (Resolver.of modules classes).navigated self x = .ident (dottedName modules self x) := by
  have hfirst : ∀ ids : List String,
      (ids.findSome? fun id => (Resolver.of modules classes).field? id x) =
        (ids.find? fun id => declares modules id x).map (· ++ "_" ++ x) := fun ids => by
    induction ids with
    | nil => rfl
    | cons id ids ih =>
      rw [List.findSome?_cons, List.find?_cons, h.field?_eq]
      cases declares modules id x with
      | true => rfl
      | false => exact ih
  rw [Resolver.navigated, hfirst, dottedName]
  have horder : (Resolver.of modules classes).order = modules.map (·.id) := rfl
  rw [horder]
  cases (self :: modules.map (·.id)).find? fun id => declares modules id x <;> rfl

end Fielded

theorem rename_renamedOnly {names : Source.Scope} (h : names.keys.Nodup) (x : String) :
    ((renamedOnly names).find? x).getD x = names.rename x := by
  have hentries : (renamedOnly names).Forall fun x y => names.find? x = some y :=
    fun e he => Table.find?_of_mem h (mem_filter.mp he).1
  rw [Source.Scope.rename]
  cases hfind : (renamedOnly names).find? x with
  | some y => rw [hentries.find? hfind]
  | none =>
    cases hname : names.find? x with
    | none => rfl
    | some y =>
      -- An entry that is left out keeps the name.
      by_contra hne
      have hmem : (x, y) ∈ names.entries :=
        Table.Forall.find? (P := fun x y => (x, y) ∈ names.entries) (fun _ he => he) hname
      have hkept : (x, y) ∈ (renamedOnly names).entries := mem_filter.mpr ⟨hmem, bne_iff_ne.mpr hne⟩
      exact Table.not_mem_keys hfind (mem_map_of_mem hkept)

theorem rename_ident {names : Source.Scope} (h : names.keys.Nodup) (x : String) :
    (Formula.ident x).rename (renamedOnly names) = .ident (names.rename x) := by
  rw [← rename_renamedOnly h, Formula.rename, Formula.substitute, Formula.rebuild, Formula.substituteNode,
    Table.find?_map]
  cases (renamedOnly names).find? x <;> rfl

end Contract

/-! ## The same tree -/

open Contract

/-- **An expression and a formula that are the same tree** of names, field accesses, numbers, arithmetic
and comparisons. -/
inductive Source.Expr.SameTree : Expr → Formula → Prop
  | ident (pos : Position) (x : String) : SameTree (.ident pos x) (.ident x)
  | int (pos : Position) (v : Int64) : SameTree (.int pos v) (.int v)
  | field {e : Expr} {f : Formula} (pos : Position) (x : String) (h : SameTree e f) :
    SameTree (.field pos e x) (.join f (.ident x))
  | neg {e : Expr} {f : Formula} (pos : Position) (h : SameTree e f) :
    SameTree (.unary pos .neg e) (.unary .neg f)
  | arith {e e' : Expr} {f f' : Formula} (pos : Position) (op : ArithOp) (h : SameTree e f)
    (h' : SameTree e' f') : SameTree (.binary pos (.arith op) e e') (.binary (.arith op) f f')
  | compare {e e' : Expr} {f f' : Formula} (pos : Position) {op : Source.BinaryOp} {c : Formula.BinaryOp}
    (hop : comparisonOf op = some c) (h : SameTree e f) (h' : SameTree e' f') :
    SameTree (.binary pos op e e') (.binary c f f')

namespace Source.Expr

/-- An expression that binds no variables, with the names that its variables go by. -/
def under (names : Scope) : Expr → Expr
  | .ident pos x => .ident pos (names.rename x)
  | .field pos e x => .field pos (e.under names) x
  | .unary pos op e => .unary pos op (e.under names)
  | .binary pos op e e' => .binary pos op (e.under names) (e'.under names)
  | e => e

/-- The names that stand by themselves in an expression that binds no variables. -/
def bareNames : Expr → List String
  | .ident _ x => [x]
  | .field _ e _ | .unary _ _ e => e.bareNames
  | .binary _ _ e e' => e.bareNames ++ e'.bareNames
  | _ => []

/-- No name is issued where no variable is bound. -/
theorem SameTree.run_rename {e : Expr} {f : Formula} (h : e.SameTree f) (names : Scope) (k : Nat) :
    (e.rename names).run k = (e.under names, k) := by
  induction h generalizing k with
  | ident | int => rfl
  | field _ _ _ ih | neg _ _ ih =>
    simp only [rename, StateT.run_bind, ih]
    rfl
  | arith _ _ _ _ ih ih' | compare _ _ _ _ ih ih' =>
    simp only [rename, StateT.run_bind, ih, ih']
    rfl

end Source.Expr

namespace Contract

/-- What an expression means is a field, with the relation `rel`. -/
def MeansField (site : Site) (vars : Table ValueType) (e : Expr) (rel : String) : Prop :=
  ∃ object type, (meaning site vars e).term = .ok (.join object (.ident rel), type)

/-- **A term whose names a pragma understands as a clause does.**  A name by itself is a parameter or a
field that the class declares itself; after a dot stands a field whose class is the first to declare one
of that name. -/
def Understood (modules : List Module) (site : Site) (params : List Var) (vars : Table ValueType)
    (names : Source.Scope) : Expr → Prop
  | .ident pos x => names.rename x ∈ params.map (·.name) ∨ x ≠ "this" ∧
      declares modules site.self.id x ∧
        MeansField site vars (.under names (.ident pos x)) (site.self.id ++ "_" ++ x)
  | .int .. => True
  | .field pos e x => Understood modules site params vars names e ∧
      MeansField site vars (.under names (.field pos e x))
        (dottedName modules site.self.id (names.rename x))
  | .unary _ .neg e => Understood modules site params vars names e
  | .binary _ (.arith _) e e' =>
    Understood modules site params vars names e ∧ Understood modules site params vars names e'
  | _ => False

/-- **A condition that a pragma understands as a clause does**: it compares terms. -/
def UnderstoodCondition (modules : List Module) (site : Site) (params : List Var) (vars : Table ValueType)
    (names : Source.Scope) : Expr → Prop
  | .binary _ op e e' => (comparisonOf op).isSome ∧
      Understood modules site params vars names e ∧ Understood modules site params vars names e'
  | _ => False

section

variable {modules : List Module} {classes : List ClassDecl} {site : Site} {params locals : List Var}
  {names : Source.Scope}
variable {vars : Table ValueType} {e : Expr} {object t g f : Formula} {type : ValueType} {pos : Position}
  {x : String}

theorem meansField_iff {rel : String}
    (h : (meaning site vars e).term = .ok (.join object (.ident rel), type)) (rel' : String) :
    MeansField site vars e rel' ↔ rel' = rel := by
  refine ⟨fun ⟨object', type', h'⟩ => ?_, fun heq => ⟨object, type, heq ▸ h⟩⟩
  cases h.symm.trans h'
  rfl

theorem exists_of_both {x y : Meaning} {op : Formula → Formula → Formula} (h : x.both y op = .ok t) :
    ∃ a α b β, x.term = .ok (a, α) ∧ y.term = .ok (b, β) ∧ t = op a b := by
  obtain ⟨⟨a, α⟩, ha, h⟩ := exists_of_except_ok h
  obtain ⟨⟨b, β⟩, hb, h⟩ := exists_of_except_ok h
  cases h
  exact ⟨a, α, b, β, ha, hb, rfl⟩

theorem meaning_compare {op : Source.BinaryOp} {c : Formula.BinaryOp} (hop : comparisonOf op = some c)
    (e e' : Expr) :
    meaning site vars (.binary pos op e e') =
      .ofCond ((meaning site vars e).both (meaning site vars e') (.binary c)) := by
  cases op <;> cases hop <;> rfl

/-- A term is compared with the atom of truth. -/
theorem exists_of_ofTerm {term : Except Fault (Formula × ValueType)}
    (h : (Meaning.ofTerm site e term).cond = .ok g) : ∃ t, g = .eq t (.ident "true") := by
  obtain ⟨⟨t, type⟩, -, h⟩ := exists_of_except_ok h
  dsimp only at h
  split at h
  · cases h
    exact ⟨t, rfl⟩
  · cases h

/-- **A field access means the field of an object.** -/
theorem exists_of_field {type' : ValueType} (h : site.field object type x pos = .ok (t, type')) :
    ∃ rel, t = .join object (.ident rel) := by
  unfold Site.field at h
  dsimp only at h
  split at h
  · cases h
    exact ⟨_, rfl⟩
  · cases h

theorem ident_cases (r : Resolver) (self : String) (bound : List String) (x : String) :
    (∃ y, r.ident self bound x = .ident y) ∨
      ∃ y, r.ident self bound x = .join (.ident "thiz") (.ident y) := by
  unfold Resolver.ident
  split_ifs
  · exact .inl ⟨_, rfl⟩
  · exact .inl ⟨_, rfl⟩
  · split
    · exact .inr ⟨_, rfl⟩
    · exact .inl ⟨_, rfl⟩

/-- A name by itself. -/
theorem ident_eq_iff (h : Fielded modules) (hnames : names.Forall fun _ y => y ∈ params.map (·.name))
    (hx : names.rename x ∉ locals.map (·.name))
    (ht : site.ident (typing (params ++ locals)) (names.rename x) pos = .ok (t, type)) :
    (Resolver.of modules classes).ident site.self.id (params.map (·.name)) (names.rename x) = t ↔
      Understood modules site params (typing (params ++ locals)) names (.ident pos x) := by
  have hmeans := ht
  rw [Resolver.ident, Understood]
  rw [Site.ident] at ht
  have hvars : (typing (params ++ locals)).contains (names.rename x) = true ↔ _ := contains_typing
  rw [map_append, mem_append, or_iff_left hx, Table.contains] at hvars
  by_cases hparam : names.rename x ∈ params.map (·.name)
  · obtain ⟨found, hfound⟩ := Option.isSome_iff_exists.mp (hvars.mpr hparam)
    rw [hfound] at ht
    cases ht
    rw [if_pos (contains_iff_mem.mpr hparam)]
    exact iff_of_true rfl (.inl hparam)
  · -- A name that goes by another one is a parameter.
    have hsame : names.rename x = x := by
      cases hfind : names.find? x with
      | none => rw [Source.Scope.rename, hfind, Option.getD_none]
      | some y =>
        rw [Source.Scope.rename, hfind, Option.getD_some] at hparam
        exact absurd (hnames.find? hfind) hparam
    rw [Option.not_isSome_iff_eq_none.mp (mt hvars.mp hparam)] at ht
    dsimp only at ht
    split at ht
    · obtain ⟨rel, rfl⟩ := exists_of_field ht
      rw [if_neg (mt contains_iff_mem.mp hparam), hsame, h.field?_eq, or_iff_right (hsame ▸ hparam)]
      by_cases hthis : x = "this"
      · rw [if_pos hthis]
        exact iff_of_false (by simp) fun hall => hall.1 hthis
      · rw [if_neg hthis, and_iff_right hthis]
        cases declares modules site.self.id x with
        | false => exact iff_of_false (by simp) (by simp)
        | true =>
          have hfield := meansField_iff (e := .ident pos (names.rename x)) hmeans (site.self.id ++ "_" ++ x)
          rw [and_iff_right rfl]
          refine Iff.trans ?_ hfield.symm
          exact ⟨fun heq => Formula.ident.inj (Formula.join.inj heq).2, fun heq => heq ▸ rfl⟩
    · cases ht

/-- **A pragma understands a term as a clause does, if and only if it understands its names so.** -/
theorem resolve_eq_iff (classes : List ClassDecl) (h : Fielded modules) (hkeys : names.keys.Nodup)
    (hnames : names.Forall fun _ y => y ∈ params.map (·.name)) (hsame : e.SameTree f)
    (hbare : ∀ x ∈ e.bareNames, names.rename x ∉ locals.map (·.name))
    (ht : (meaning site (typing (params ++ locals)) (e.under names)).term = .ok (t, type)) :
    (Resolver.of modules classes).resolve site.self.id (params.map (·.name)) false
        (f.rename (renamedOnly names)) = t ↔
      Understood modules site params (typing (params ++ locals)) names e := by
  have hident := rename_ident hkeys
  induction hsame generalizing t type with
  | int pos v =>
    cases ht
    exact iff_of_true rfl trivial
  | ident pos x =>
    rw [hident]
    exact ident_eq_iff h hnames (hbare x mem_cons_self) ht
  | @field e f pos x _ ih =>
    have hmeans := ht
    obtain ⟨⟨object, type'⟩, hobject, ht⟩ := exists_of_except_ok ht
    obtain ⟨rel, rfl⟩ := exists_of_field ht
    have hsub : _ ↔ _ := ih hbare hobject
    have hrename : (f.join (.ident x)).rename (renamedOnly names) =
      (f.rename (renamedOnly names)).join ((Formula.ident x).rename (renamedOnly names)) := rfl
    rw [hrename, hident, Resolver.resolve, Resolver.resolve, if_pos rfl, h.navigated_eq, Understood,
      Formula.join.injEq, Formula.ident.injEq, hsub, meansField_iff hmeans]
  | neg pos _ ih =>
    obtain ⟨⟨t, type'⟩, ht', ht⟩ := exists_of_except_map_ok ht
    cases ht
    refine Iff.trans ?_ (ih hbare ht')
    exact ⟨fun heq => (Formula.unary.inj heq).2, fun heq => congrArg _ heq⟩
  | arith pos op _ _ ih ih' =>
    obtain ⟨t, hboth, heq⟩ := exists_of_except_map_ok ht
    cases heq
    obtain ⟨l, _, r, _, hl, hr, rfl⟩ := exists_of_both hboth
    obtain ⟨hbare, hbare'⟩ := forall_mem_append.mp hbare
    refine Iff.trans ?_ (and_congr (ih hbare hl) (ih' hbare' hr))
    exact ⟨fun heq => (Formula.binary.inj heq).2, fun both => congrArg₂ _ both.1 both.2⟩
  | @compare e e' f f' pos op c hop _ _ ih ih' =>
    rw [Source.Expr.under, meaning_compare hop] at ht
    obtain ⟨c, -, ht⟩ := exists_of_except_ok ht
    cases ht
    have hnot : ¬ Understood modules site params (typing (params ++ locals)) names (.binary pos op e e') := by
      cases op <;> cases hop <;> exact id
    exact iff_of_false Formula.noConfusion hnot

/-- **A pragma understands a condition as a clause does, if and only if the condition compares terms whose
names it understands so.** -/
theorem resolve_eq_iff_condition (classes : List ClassDecl) (h : Fielded modules) (hkeys : names.keys.Nodup)
    (hnames : names.Forall fun _ y => y ∈ params.map (·.name)) (hsame : e.SameTree f)
    (hbare : ∀ x ∈ e.bareNames, names.rename x ∉ locals.map (·.name))
    (hg : condOf site (typing (params ++ locals)) (e.under names) = .ok g) :
    (Resolver.of modules classes).resolve site.self.id (params.map (·.name)) false
        (f.rename (renamedOnly names)) = g ↔
      UnderstoodCondition modules site params (typing (params ++ locals)) names e := by
  cases hsame with
  | ident pos x =>
    obtain ⟨t, rfl⟩ := exists_of_ofTerm hg
    refine iff_of_false (fun heq => ?_) id
    have hresolve : (Resolver.of modules classes).ident site.self.id (params.map (·.name)) (names.rename x) =
      .eq t (.ident "true") := by
      rw [← heq, rename_ident hkeys]
      rfl
    rcases ident_cases (Resolver.of modules classes) site.self.id (params.map (·.name)) (names.rename x) with
      ⟨y, hy⟩ | ⟨y, hy⟩ <;> cases hy.symm.trans hresolve
  | int | field | neg =>
    obtain ⟨t, rfl⟩ := exists_of_ofTerm hg
    exact iff_of_false Formula.noConfusion id
  | arith =>
    obtain ⟨t, rfl⟩ := exists_of_ofTerm hg
    refine iff_of_false (fun heq => ?_) fun hu => Bool.false_ne_true hu.1
    exact Formula.BinaryOp.noConfusion (Formula.binary.inj heq).1
  | @compare e e' f f' pos op c hop hl hr =>
    rw [condOf, Source.Expr.under, meaning_compare hop] at hg
    obtain ⟨l, _, r, _, htl, htr, rfl⟩ := exists_of_both hg
    obtain ⟨hbare, hbare'⟩ := forall_mem_append.mp hbare
    rw [UnderstoodCondition, hop, and_iff_right Option.isSome_some]
    refine Iff.trans ?_ (and_congr (resolve_eq_iff classes h hkeys hnames hl hbare htl)
      (resolve_eq_iff classes h hkeys hnames hr hbare' htr))
    exact ⟨fun heq => (Formula.binary.inj heq).2, fun both => congrArg₂ _ both.1 both.2⟩

/-- A condition stays as it is in a conjunction of its own. -/
theorem all_condOf (hsame : e.SameTree f) (hg : condOf site vars (e.under names) = .ok g) :
    Formula.all [g] = g := by
  cases hsame with
  | ident | int | field | neg | arith =>
    obtain ⟨t, rfl⟩ := exists_of_ofTerm hg
    rfl
  | compare pos hop _ _ =>
    rw [condOf, Source.Expr.under, meaning_compare hop] at hg
    obtain ⟨l, _, r, _, -, -, rfl⟩ := exists_of_both hg
    rfl

/-- So does what a pragma says, after the operations are taken out. -/
theorem all_resolve (r : Resolver) (self : String) (bound : List String) (hkeys : names.keys.Nodup)
    (hsame : e.SameTree f) (n : Nat) :
    Formula.all [.truth, ((extract [] false
        (r.resolve self bound false (f.rename (renamedOnly names)))).run n).1.1] =
      ((extract [] false
        (r.resolve self bound false (f.rename (renamedOnly names)))).run n).1.1 := by
  have hname : ∀ node : Formula, Formula.all [.truth, node] = node → ∀ n : Nat,
      Formula.all [.truth, ((nameUnless [] false node).run n).1.1] =
        ((nameUnless [] false node).run n).1.1 := fun node hnode n => by
    unfold nameUnless
    split
    · exact hnode
    · rfl
  cases hsame with
  | ident pos x =>
    rw [rename_ident hkeys, Resolver.resolve, if_neg Bool.false_ne_true]
    rcases ident_cases r self bound (names.rename x) with ⟨y, hy⟩ | ⟨y, hy⟩ <;> rw [hy] <;> rfl
  | int | field => rfl
  | neg | arith => exact hname _ rfl _
  | @compare e e' f f' pos op c hop _ _ => cases op <;> cases hop <;> rfl

end

/-! ## Preconditions -/

/-- The precondition of a program, with the side variables that belong to it. -/
def Program.precondition (p : Program) : Formula × Side := (p.requires, p.side.ofOrigin .requires)

/-- A pragma of another kind leaves a precondition alone. -/
theorem precondition_mergeContract {kind : Source.PragmaKind} (hkind : kind ≠ .requires) (f : Formula)
    (p : Program) (n : Nat) : ((mergeContract kind f p).run n).1.precondition = p.precondition := by
  cases kind with
  | requires => exact absurd rfl hkind
  | invariant => rfl
  | ensures =>
    refine congrArg (p.requires, ·) ((Side.ofOrigin_append ..).trans ?_)
    refine (congrArg _ (ofOrigin_sideOf_of_ne (by decide) _)).trans ?_
    exact congrArg₂ Side.mk (append_nil _) (append_nil _)

/-- **A pragma becomes the precondition of a program that has none.** -/
theorem precondition_requires {f : Formula} {p : Program} (hp : p.precondition = (.truth, {})) (n : Nat)
    (hf : Formula.all [.truth, ((extract [] false f).run n).1.1] =
      ((extract [] false f).run n).1.1) :
    ((mergeContract .requires f p).run n).1.precondition =
      ((extractPart .requires f).run n).1 := by
  obtain ⟨hrequires, hside⟩ := Prod.mk.inj hp
  refine Prod.ext ((congrArg (fun g => Formula.all [g, _]) hrequires).trans hf) ?_
  refine (Side.ofOrigin_append ..).trans ?_
  rw [hside]
  exact (congrArg₂ Side.mk (nil_append _) (nil_append _)).trans (ofOrigin_sideOf ..)

theorem find?_updateFirst {α : Type} {test : α → Bool} {change : α → SideNaming α}
    (htest : ∀ a n, test a = true → test ((change a).run n).1 = true) {q : α} {n : Nat} :
    ∀ {l : List α}, l.find? test = some q →
      ((updateFirst test change l).run n).1.find? test = some ((change q).run n).1
  | a :: l, h => by
    rw [List.find?_cons] at h
    rw [updateFirst]
    split at h
    · next ha =>
      cases h
      rw [if_pos ha]
      exact List.find?_cons_of_pos (htest _ n ha)
    · next ha =>
      rw [if_neg (Bool.eq_false_iff.mp ha)]
      exact (List.find?_cons_of_neg (Bool.eq_false_iff.mp ha)).trans (find?_updateFirst htest h)

/-- **The program of a method as it is on record**, in the module of its class. -/
structure OnRecord (catalog : Catalog) (module : Module) (c : ClassDecl) (m : Method) (p : Program)
    (names : Source.Scope) : Prop where
  id : module.id = c.id
  programs : catalog.programs.find? (c.qualifiedName ++ "." ++ m.signature) = some p.id
  params : catalog.params.find? p.id = some names
  program : module.program? p.id = some p

/-- **The precondition of a program once the pragmas of its method are added** to its module. -/
def mergedPrecondition (r : Resolver) (c : ClassDecl) (module : Module) (catalog : Catalog) (m : Method)
    (id : String) (n : Nat) : Except Fault (Option (Formula × Side)) :=
  (readMethod c module catalog m).map fun as =>
    (((as.foldlM (fun module a => mergeAssertion r a module) module).run n).1.program? id).map
      Program.precondition

section

variable {catalog : Catalog} {module : Module} {c : ClassDecl} {m : Method} {p : Program}
  {names : Source.Scope}

theorem readMethod_onRecord (h : OnRecord catalog module c m p names)
    (hread : ∀ a ∈ m.pragmas, ∃ f, Formula.read a.formula = .ok f) :
    ∃ as, readMethod c module catalog m = .ok as ∧ List.Forall₂ (fun a b =>
      ∃ f, Formula.read a.formula = .ok f ∧ b = ⟨a.kind, some p, names, f⟩) m.pragmas as := by
  have hmapM : ∀ as : List Pragma, (∀ a ∈ as, ∃ f, Formula.read a.formula = .ok f) →
      ∃ bs, (as.mapM fun a => do return ⟨a.kind, some p, names, ← readPragma c.file a⟩) =
        (.ok bs : Except Fault (List Assertion)) ∧ List.Forall₂ (fun a b =>
          ∃ f, Formula.read a.formula = .ok f ∧ b = ⟨a.kind, some p, names, f⟩) as bs := fun as => by
    induction as with
    | nil => exact fun _ => ⟨[], rfl, .nil⟩
    | cons a as ih =>
      intro hread
      obtain ⟨⟨f, hf⟩, hread⟩ := forall_mem_cons.mp hread
      obtain ⟨bs, hbs, hall⟩ := ih hread
      have ha : readPragma c.file a = .ok f := by rw [readPragma, hf]
      refine ⟨_ :: bs, ?_, .cons ⟨f, hf, rfl⟩ hall⟩
      rw [mapM_cons, hbs, ha]
      rfl
  rw [readMethod, h.programs, Option.getD_some, h.program]
  simp only [h.params, Option.getD_some]
  exact hmapM m.pragmas hread

/-- A pragma of a method changes its program. -/
theorem program?_mergeAssertion (r : Resolver) {a : Assertion} (ha : a.program = some p) {q : Program}
    (hq : module.program? p.id = some q) (n : Nat) :
    ((mergeAssertion r a module).run n).1.program? p.id = some ((mergeContract a.kind
      (r.resolve module.id (p.params.map (·.name)) false (a.formula.rename (renamedOnly a.params))) q).run
        n).1 := by
  rw [mergeAssertion, ha]
  exact find?_updateFirst (fun q n hq => (mergeContract_id a.kind _ q n).symm ▸ hq) hq

/-- **Pragmas of other kinds leave a precondition alone.** -/
theorem precondition_mergeAll (r : Resolver) {as : List Assertion}
    (has : ∀ a ∈ as, a.program = some p ∧ a.kind ≠ .requires) {q : Program} (hq : module.program? p.id = some q) (n : Nat) :
    (((as.foldlM (fun module a => mergeAssertion r a module) module).run n).1.program? p.id).map
      Program.precondition = some q.precondition := by
  induction as generalizing module q n with
  | nil => exact congrArg (Option.map Program.precondition) hq
  | cons a as ih =>
    obtain ⟨⟨ha, hkind⟩, has⟩ := forall_mem_cons.mp has
    rw [foldlM_cons, StateT.run_bind]
    refine (ih has (program?_mergeAssertion r ha hq n) _).trans ?_
    rw [precondition_mergeContract hkind]

end

/-! ## A pragma in the place of a clause -/

end Contract

/-- The method with a pragma in the place of its preconditions. -/
def Source.Method.withPragma (m : Method) (a : Pragma) : Method :=
  { m with
    clauses := m.clauses.filter fun clause => clause.kind ≠ .precondition
    pragmas := a :: m.pragmas }

namespace Contract

variable {classes : List ClassDecl} {c : ClassDecl} {m : Method} {pos : Position} {e : Expr} {f : Formula}
  {overload : Nat} {p : Program} {names : Source.Scope}

/-- **A method is also lowered without its precondition**, to a program that differs in its contract. -/
theorem ofMethod_withPragma (hm : m.clausesOf .precondition = [⟨pos, .precondition, e⟩])
    (hsame : e.SameTree f) (a : Pragma) {s s' : Supply}
    (hrun : (ofMethod classes c m overload).run.run s = (.ok (p, names), s')) :
    ∃ q s'', (ofMethod classes c (m.withPragma a) overload).run.run s = (.ok (q, names), s'') ∧
      q.params = p.params ∧ q.precondition = (.truth, {}) := by
  simp only [ofMethod, run_bind_eq_ok] at hrun
  obtain ⟨renamed, s₁, hrenamed, params, s₂, hparams, returns, s₃, hreturns, locals, s₄, hlocals, requires, s₅,
    hrequires, ensures, s₆, hensures, pre, s₇, hpre, post, s₈, hpost, body, s₉, hbody, ⟨pre', side⟩, s₁₀, hpre',
    ⟨post', side'⟩, s₁₁, hpost', ⟨⟩⟩ := hrun
  have hpre₀ : (m.withPragma a).clausesOf .precondition = [] := by
    simp [Source.Method.withPragma, Source.Method.clausesOf, filter_filter]
  have hpost₀ : (m.withPragma a).clausesOf .postcondition = m.clausesOf .postcondition := by
    simp only [Source.Method.withPragma, Source.Method.clausesOf, filter_filter]
    refine filter_congr fun clause _ => ?_
    cases clause.kind <;> decide
  -- No name is issued for the precondition, so the names after it are the same.
  have hrequires₀ : (liftM (withNames (((m.withPragma a).clausesOf .precondition).mapM
      (Source.Clause.rename renamed.params))) : Lowering _).run.run s₄ = (.ok [], s₅) := by
    rw [hm] at hrequires
    have hs₅ : s₅ = { s₄ with names := ((List.mapM (Source.Clause.rename renamed.params)
      [⟨pos, .precondition, e⟩]).run s₄.names).2 } := (Prod.mk.inj hrequires).2.symm
    rw [mapM_cons, StateT.run_bind, Source.Clause.rename, StateT.run_bind, hsame.run_rename] at hs₅
    rw [hpre₀, hs₅]
    rfl
  have hs₇ : s₇ = s₆ := by
    rw [eq_of_except hpre] at hpre
    exact (Prod.mk.inj hpre).2.symm
  rw [hs₇] at hpost
  rw [← hpost₀] at hensures
  have hpre₁ : (liftM (clausesOf ⟨classes, c, m.signature, returns⟩ (typing (params ++ locals)) []) :
    Lowering _).run.run s₆ = (.ok .truth, s₆) := rfl
  refine ⟨⟨programId c.id m.name overload, m.name, overload, params, returns, locals, .truth,
    ((extractPart .ensures post).run s₉.sides).1.1,
    Arithmetic.sideOf .requires [] ++ ((extractPart .ensures post).run s₉.sides).1.2, body⟩,
    { s₉ with sides := ((extractPart .ensures post).run s₉.sides).2 }, ?_, rfl, ?_⟩
  · exact (run_bind_of_ok hrenamed).trans ((run_bind_of_ok hparams).trans
      ((run_bind_of_ok hreturns).trans ((run_bind_of_ok hlocals).trans ((run_bind_of_ok hrequires₀).trans
        ((run_bind_of_ok hensures).trans ((run_bind_of_ok hpre₁).trans
          ((run_bind_of_ok hpost).trans (run_bind_of_ok hbody))))))))
  · refine congrArg (Formula.truth, ·) ((Side.ofOrigin_append ..).trans ?_)
    exact congrArg₂ Append.append (ofOrigin_sideOf ..)
      (ofOrigin_sideOf_of_ne (by decide) _)

/-- **The precondition of a method with one clause.** -/
theorem precondition_of_clause (hm : m.clausesOf .precondition = [⟨pos, .precondition, e⟩])
    (hsame : e.SameTree f) {k n n' : Nat} {pre post : Formula}
    (h : MadeFrom classes c m overload p names k n n' pre post) :
    condOf ⟨classes, c, m.signature, p.returns⟩ (typing (p.params ++ p.locals)) (e.under names) = .ok pre ∧
      p.precondition = ((extractPart .requires pre).run n).1 := by
  obtain ⟨k', hpre⟩ := h.pre_ok
  rw [hm, mapM_cons, StateT.run_bind, Source.Clause.rename, StateT.run_bind, hsame.run_rename] at hpre
  obtain ⟨gs, hgs, hall⟩ := exists_of_except_map_ok hpre
  obtain ⟨g, hg, hgs⟩ := exists_of_except_ok hgs
  cases hgs
  obtain rfl : g = pre := (all_condOf hsame hg).symm.trans hall
  refine ⟨hg, Prod.ext h.requires_eq ?_⟩
  rw [Program.precondition, h.side_eq, Side.ofOrigin_append]
  refine (congrArg₂ Append.append (ofOrigin_sideOf ..)
    (ofOrigin_sideOf_of_ne (by decide) _)).trans ?_
  exact congrArg₂ Side.mk (append_nil _) (append_nil _)

/-! ## Clauses and pragmas -/

/-- **What a pragma says in the place of a clause.**  A method with one precondition is also lowered when a
pragma of the same tree stands for the clause.  The preconditions are what is left of the two formulas when
their operations are taken out; and the formulas are the same if and only if the condition compares terms
in which the pragma understands every name as the clause does. -/
theorem precondition_pragma_exact {classes classes' : List ClassDecl} {c c' : ClassDecl}
    (hclasses : List.Forall₂ ClassDecl.SameFields classes classes') (hc : c.SameFields c') {m : Method}
    {pos : Position} {e : Expr} (hm : m.clausesOf .precondition = [⟨pos, .precondition, e⟩])
    (hpragmas : ∀ b ∈ m.pragmas, b.kind ≠ .requires ∧ ∃ g, Formula.read b.formula = .ok g) {a : Pragma}
    (hkind : a.kind = .requires) {f : Formula} (hread : Formula.read a.formula = .ok f)
    (hsame : e.SameTree f) {overload : Nat} {s s' : Supply} {p : Program} {names : Source.Scope}
    (hrun : (ofMethod classes c m overload).run.run s = (.ok (p, names), s'))
    (hbare : ∀ x ∈ e.bareNames, names.rename x ∉ p.locals.map (·.name)) :
    ∃ q s'', (ofMethod classes' c' (m.withPragma a) overload).run.run s = (.ok (q, names), s'') ∧
      ∀ modules modules' : List Module, Fielded modules' →
        ∀ (module module' : Module) (catalog catalog' : Catalog), OnRecord catalog module c m p names →
          OnRecord catalog' module' c' (m.withPragma a) q names → ∀ n n', ∃ g k k',
            let told := (Resolver.of modules' classes').resolve c.id (p.params.map (·.name)) false
              (f.rename (renamedOnly names))
            condOf ⟨classes, c, m.signature, p.returns⟩ (typing (p.params ++ p.locals)) (e.under names) =
              .ok g ∧
            mergedPrecondition (.of modules classes) c module catalog m p.id n =
              .ok (some ((Arithmetic.extractPart .requires g).run k).1) ∧
            mergedPrecondition (.of modules' classes') c' module' catalog' (m.withPragma a) q.id n' =
              .ok (some ((Arithmetic.extractPart .requires told).run k').1) ∧
            (told = g ↔ UnderstoodCondition modules' ⟨classes, c, m.signature, p.returns⟩ p.params
              (typing (p.params ++ p.locals)) names e) := by
  obtain ⟨q, s'', hrun', hparams, hnone⟩ := ofMethod_withPragma hm hsame a hrun
  rw [← ofMethod_like hclasses hc] at hrun'
  refine ⟨q, s'', hrun', fun modules modules' hfielded module module' catalog catalog' hrecord hrecord'
    n n' => ?_⟩
  obtain ⟨k₀, k, k₁, g, post, hmade, -⟩ := madeFrom_ofMethod hrun
  obtain ⟨hg, hp⟩ := precondition_of_clause hm hsame hmade
  have hkeys : names.keys.Nodup := by
    rw [hmade.scope_eq]
    exact Source.nodup_keys_bindParams m.params k₀ (List.nodup_nil : (Table.empty : Source.Scope).keys.Nodup)
  obtain ⟨as, has, hall⟩ := readMethod_onRecord hrecord fun b hb => (hpragmas b hb).2
  obtain ⟨bs, hbs, hall'⟩ := readMethod_onRecord hrecord' (List.forall_mem_cons.mpr
    ⟨⟨f, hread⟩, fun b hb => (hpragmas b hb).2⟩)
  have hiff := resolve_eq_iff_condition classes' hfielded hkeys hmade.params_forall hsame hbare hg
  refine ⟨g, k, n', hg, ?_, ?_, hiff⟩
  · rw [mergedPrecondition, has, ← hp]
    exact congrArg Except.ok (precondition_mergeAll _ (forall_mem_of_forall₂_mem hall
      fun b _ hb ⟨_, _, hb'⟩ => hb' ▸ ⟨rfl, (hpragmas b hb).1⟩) hrecord.program n)
  · rw [mergedPrecondition, hbs]
    cases hall' with
    | @cons _ b _ bs hb hall' =>
      obtain ⟨f', hf', rfl⟩ := hb
      cases hread.symm.trans hf'
      have hmerged := precondition_mergeAll (.of modules' classes') (forall_mem_of_forall₂_mem hall'
        fun b _ hb ⟨_, _, hb'⟩ => hb' ▸ ⟨rfl, (hpragmas b hb).1⟩) (program?_mergeAssertion
          (.of modules' classes') (a := ⟨a.kind, some q, names, f⟩) rfl hrecord'.program n')
      have hpragma := precondition_requires hnone n'
        (all_resolve (.of modules' classes') c.id (p.params.map (·.name)) hkeys hsame n')
      rw [hparams, hrecord'.id, hc.id_eq, hkind, hpragma] at hmerged
      refine congrArg Except.ok ?_
      dsimp only
      rw [List.foldlM_cons, StateT.run_bind, hkind]
      exact hmerged _

/-- A class with a size, and one that extends it with a method. -/
def sized (m : Method) : List ClassDecl :=
  [{ file := "Node.java", name := "Sized", fields := [⟨.start, "size", some ⟨"int", false⟩⟩] },
   { file := "Node.java", name := "Node", superclass := some "Sized",
     fields := [⟨.start, "next", some ⟨"Node", false⟩⟩, ⟨.start, "limit", some ⟨"int", false⟩⟩],
     methods := [m] }]

/-- The class that has the method. -/
def node (m : Method) : ClassDecl := (sized m).getLast (cons_ne_nil _ _)

/-- A method with a precondition. -/
def growing (e : Expr) : Method where
  name := "grow"
  params := [⟨.start, "t_by", ⟨"int", false⟩⟩]
  clauses := [⟨.start, .precondition, e⟩]

/-- A condition on the next object. -/
def reaching : Expr :=
  .binary .start .lt (.binary .start (.arith .add) (.ident .start "t_by") (.ident .start "limit"))
    (.field .start (.ident .start "next") "limit")

/-- The method with a pragma for it. -/
def reachingMethod : Method :=
  (growing reaching).withPragma ⟨.start, .requires, "t_by + limit < next.limit"⟩

/-- What the condition means. -/
def reachingMeaning : Formula :=
  .binary .lt (.binary (.arith .add) (.ident "var_1_t_by") (.join (.ident "thiz") (.ident "Node_limit")))
    (.join (.join (.ident "thiz") (.ident "Node_next")) (.ident "Node_limit"))

/-- The settings that ask for the method. -/
def growingSettings : Settings := { className := "Node", method := "grow" }

/-- The modules of classes and their catalog. -/
def loweredOf (classes : List ClassDecl) : List Module × Catalog :=
  let lowered := ((ofClasses growingSettings classes).run {}).1
  (lowered.result.toOption.getD [], lowered.catalog)

/-- The module of the class that has the method. -/
def nodeModule (m : Method) : Module := (loweredOf (sized m)).1.getLast?.getD default

/-- The precondition of the method, merged into its module. -/
def mergedOf (m : Method) (n : Nat) : Except Fault (Option (Formula × Side)) :=
  mergedPrecondition (.of (loweredOf (sized m)).1 (sized m)) (node m) (nodeModule m) (loweredOf (sized m)).2 m
    "Node_grow_0" n

/-- A clause and a pragma that reach over a field agree. -/
theorem precondition_pragma_exact_reaching : ∃ k k',
    mergedOf (growing reaching) 1 =
      .ok (some ((Arithmetic.extractPart .requires reachingMeaning).run k).1) ∧
    mergedOf reachingMethod 0 =
      .ok (some ((Arithmetic.extractPart .requires reachingMeaning).run k').1) := by
  have hnode : ClassDecl.SameFields (node (growing reaching)) (node reachingMethod) :=
    ⟨rfl, rfl, rfl, rfl, rfl⟩
  have hsized : List.Forall₂ ClassDecl.SameFields (sized (growing reaching)) (sized reachingMethod) :=
    .cons ⟨rfl, rfl, rfl, rfl, rfl⟩ (.cons hnode .nil)
  have hread : Formula.read "t_by + limit < next.limit" = .ok (.binary .lt
      (.binary (.arith .add) (.ident "t_by") (.ident "limit")) (.join (.ident "next") (.ident "limit"))) := by
    with_unfolding_all rfl
  have hrun : (ofMethod (sized (growing reaching)) (node (growing reaching)) (growing reaching) 0).run.run
    {} = (.ok (_, _), _) := rfl
  obtain ⟨q, s, hq, hmerged⟩ := precondition_pragma_exact hsized hnode (m := growing reaching) rfl nofun
    (a := ⟨.start, .requires, "t_by + limit < next.limit"⟩) rfl hread
    (.compare _ rfl (.arith _ _ (.ident _ _) (.ident _ _)) (.field _ _ (.ident _ _))) hrun (by decide)
  cases hq
  have hlowered : ((ofClasses growingSettings (sized reachingMethod)).run {}).1.result =
    .ok (loweredOf (sized reachingMethod)).1 := rfl
  have hfielded := fielded_ofClasses hlowered (by decide)
  obtain ⟨g, k, k', hg, hclause, hpragma, hiff⟩ := hmerged (loweredOf (sized (growing reaching))).1 _ hfielded
    (nodeModule (growing reaching)) (nodeModule reachingMethod) (loweredOf (sized (growing reaching))).2
    (loweredOf (sized reachingMethod)).2 ⟨rfl, rfl, rfl, rfl⟩ ⟨rfl, rfl, rfl, rfl⟩ 1 0
  cases hg
  have htold := hiff.mpr ⟨rfl, ⟨.inl (by decide), .inr ⟨by decide, rfl, _, _, rfl⟩⟩,
    .inr ⟨by decide, rfl, _, _, rfl⟩, _, _, rfl⟩
  rw [htold] at hpragma
  exact ⟨k, k', hclause, hpragma⟩

/-- The preconditions of the programs of classes, with their pragmas. -/
def preconditionsOf (classes : List ClassDecl) : Except Fault (List (Formula × Side)) :=
  let lowered := loweredOf classes
  ((mergePragmas growingSettings lowered.1 classes lowered.2).run {}).1.result.map fun ms =>
    ms.flatMap fun module => module.programs.map Program.precondition

/-- A condition on an inherited field. -/
def positive : Expr := .binary .start .gt (.ident .start "size") (.int .start 0)

/-- **A pragma does not find inherited fields**, and leaves their names as they are. -/
theorem pragma_of_inherited_field :
    preconditionsOf (sized (growing positive)) =
      .ok [(.binary .gt (.join (.ident "thiz") (.ident "Sized_size")) (.int 0), {})] ∧
    preconditionsOf (sized ((growing positive).withPragma ⟨.start, .requires, "size > 0"⟩)) =
      .ok [(.binary .gt (.ident "size") (.int 0), {})] :=
  ⟨rfl, by with_unfolding_all rfl⟩

end Contract

end Relspec
