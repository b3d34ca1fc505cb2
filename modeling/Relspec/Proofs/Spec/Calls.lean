import Relspec.Proofs.Run.Stages
import Relspec.Proofs.Spec.Closed

/-!
# Proofs/Spec/Calls — calls agree with what a specification declares

A specification calls its own predicates in five places: it assumes the precondition, checks the
verification condition, and there are the object invariant in both contract predicates and the
postcondition in the verification condition.  Arguments and parameters are put together from the same
variables, each in a tense of its own, and a symbolic run keeps the shapes of declared variables, so the
current version of a variable has the type that the variable was declared with.

* `Formula.calls` — what a formula calls, at any depth;
* `Passes` — arguments for parameters, with their tenses and types;
* `calling`, `lawful_calling` — the discipline that keeps the shapes of variables;
* `Frame.passes_pre`, `Frame.passes_post`, `Frame.passes_invariant` — the calls;
* `assemble_calls_agree` — the calls of a specification.
-/

namespace Relspec

open List

namespace Formula

/-! ## What a formula calls -/

mutual

/-- **The calls in a formula**, at any depth, with their arguments. -/
def calls : Formula → List (String × List Formula)
  | .ident _ => []
  | .int _ => []
  | .join l r => l.calls ++ r.calls
  | .call name args => (name, args) :: callsAll args
  | .unary _ x => x.calls
  | .binary _ x y => x.calls ++ y.calls
  | .quant _ _ domain body => domain.calls ++ body.calls
  | .old x => x.calls
  | .ite c t e => c.calls ++ (t.calls ++ e.calls)

/-- The calls in several formulas. -/
def callsAll : List Formula → List (String × List Formula)
  | [] => []
  | x :: xs => x.calls ++ callsAll xs

end

/-- **A formula that calls only what `P` allows.** -/
def Calls (P : String → Prop) (f : Formula) : Prop := ∀ c ∈ f.calls, P c.1

section

variable {P : String → Prop} {f g : Formula}

theorem forall_mem_callsAll {Q : String × List Formula → Prop} {fs : List Formula} :
    (∀ c ∈ callsAll fs, Q c) ↔ ∀ f ∈ fs, ∀ c ∈ f.calls, Q c := by
  induction fs with
  | nil => exact iff_of_true (forall_mem_nil _) (forall_mem_nil _)
  | cons f fs ih => rw [callsAll, forall_mem_append, ih, forall_mem_cons]

theorem calls_ident (name : String) : Calls P (.ident name) := nofun

theorem calls_int (value : Int64) : Calls P (.int value) := nofun

theorem calls_binary {op : BinaryOp} : Calls P (.binary op f g) ↔ f.Calls P ∧ g.Calls P :=
  forall_mem_append

theorem calls_call {name : String} {args : List Formula} :
    Calls P (.call name args) ↔ P name ∧ ∀ a ∈ args, a.Calls P :=
  forall_mem_cons.trans (and_congr_right' forall_mem_callsAll)

theorem calls_ite {c t e : Formula} : Calls P (.ite c t e) ↔ c.Calls P ∧ t.Calls P ∧ e.Calls P :=
  forall_mem_append.trans (and_congr_right' forall_mem_append)

/-- Putting names for names changes nothing that is called. -/
theorem calls_substitute {σ : Table Formula} (hσ : ∀ x g, σ.find? x = some g → g.Calls P) (bound : List String) (h : f.Calls P) : (f.rebuild (substituteNode σ) bound).Calls P := by
  induction f generalizing bound with
  | ident name =>
    rw [rebuild, substituteNode]
    split
    · exact h
    · cases hfind : σ.find? name with
      | none => exact h
      | some g => exact hσ name g hfind
  | call name args ih =>
    obtain ⟨hname, hargs⟩ := calls_call.mp h
    refine calls_call.mpr ⟨hname, ?_⟩
    rw [rebuildAll_eq_map]
    exact forall_mem_map.mpr fun a ha => ih a ha bound (hargs a ha)
  | int => exact h
  | unary _ _ ih | old _ ih => exact ih bound h
  | join _ _ ihl ihr | binary _ _ _ ihl ihr =>
    obtain ⟨hl, hr⟩ := forall_mem_append.mp h
    exact forall_mem_append.mpr ⟨ihl bound hl, ihr bound hr⟩
  | quant _ vars _ _ ihd ihb =>
    obtain ⟨hdomain, hbody⟩ := forall_mem_append.mp h
    exact forall_mem_append.mpr ⟨ihd bound hdomain, ihb (bound ++ vars) hbody⟩
  | ite _ _ _ ihc iht ihe =>
    obtain ⟨hc, ht, he⟩ := calls_ite.mp h
    exact calls_ite.mpr ⟨ihc bound hc, iht bound ht, ihe bound he⟩

theorem Calls.rename (h : f.Calls P) (names : Table String) : (f.rename names).Calls P := by
  refine calls_substitute (fun x g hg => ?_) [] h
  rw [Table.find?_map] at hg
  obtain ⟨y, -, rfl⟩ := Option.map_eq_some_iff.mp hg
  exact calls_ident y

end

/-- The formulas that always and never hold are calls, and connectives may come down to them. -/
def constants : List String := ["TruePred", "FalsePred"]

section

variable {P : String → Prop} (hP : ∀ x ∈ constants, P x) {f g : Formula}

include hP

theorem calls_truth : truth.Calls P := forall_mem_singleton.mpr (hP _ (by decide))

theorem calls_falsity : falsity.Calls P := forall_mem_singleton.mpr (hP _ (by decide))

theorem Calls.all {fs : List Formula} (h : ∀ f ∈ fs, f.Calls P) : (Formula.all fs).Calls P :=
  all_induction (calls_truth hP) (calls_falsity hP) (fun _ _ hx hy => calls_binary.mpr ⟨hx, hy⟩) h

end

end Formula

namespace Spec

open Formula (Calls calls_ident calls_int calls_binary calls_call calls_ite calls_falsity)

/-! ## Arguments for parameters -/

/-- **The tenses of a variable**: as it is, with a prime, at its first version, at its current one. -/
inductive Tense where
  | plain | primed | first | current
deriving DecidableEq, Repr

/-- The name of a variable in a tense. -/
def Tense.name (v : Verification) : Tense → String → String
  | .plain, x => x
  | .primed, x => Relational.primed x
  | .first, x => versioned x 0
  | .current, x => v.current x

/-- **What a call passes at one place**: a variable, and the tenses of parameter and argument. -/
structure Passed where
  base : String
  param : Tense
  arg : Tense
deriving DecidableEq, Repr

/-- A version of a variable as a parameter. -/
def StateVar.param (x : StateVar) : Param := ⟨x.name, x.shape.type⟩

/-- **Arguments agree with parameters**: there are as many, each is the parameter's variable in its
tense, and `scope` has it with the type of the parameter. -/
structure Passes (v : Verification) (scope : List Param) (passed : List Passed) (args : List String)
    (params : List Param) : Prop where
  length : args.length = params.length
  names : params.map (·.name) = passed.map fun p => p.param.name v p.base
  given : args = passed.map fun p => p.arg.name v p.base
  typed : List.Forall₂ (fun x p => (⟨x, p.type⟩ : Param) ∈ scope) args params

namespace Passes

variable {v : Verification} {scope : List Param} {passed passed' : List Passed}
  {args args' : List String} {params params' : List Param}

theorem append (h : Passes v scope passed args params) (h' : Passes v scope passed' args' params') :
    Passes v scope (passed ++ passed') (args ++ args') (params ++ params') where
  length := by rw [length_append, length_append, h.length, h'.length]
  names := by rw [map_append, map_append, h.names, h'.names]
  given := by rw [map_append, ← h.given, ← h'.given]
  typed := rel_append h.typed h'.typed

/-- One place for each of several variables, all in the same tenses. -/
theorem map {α : Type} (base type : α → String) (param arg : Tense) {xs : List α}
    (h : ∀ x ∈ xs, (⟨arg.name v (base x), type x⟩ : Param) ∈ scope) :
    Passes v scope (xs.map fun x => ⟨base x, param, arg⟩) (xs.map fun x => arg.name v (base x))
      (xs.map fun x => ⟨param.name v (base x), type x⟩) where
  length := by rw [length_map, length_map]
  names := by rw [map_map, map_map]; rfl
  given := by rw [map_map]; rfl
  typed := by
    rw [forall₂_map_left_iff, forall₂_map_right_iff, forall₂_same]
    exact h

theorem single (base type : String) (param arg : Tense)
    (h : (⟨arg.name v base, type⟩ : Param) ∈ scope) :
    Passes v scope [⟨base, param, arg⟩] [arg.name v base] [⟨param.name v base, type⟩] :=
  @map v scope Unit (fun _ => base) (fun _ => type) param arg [()] fun _ _ => h

end Passes

/-! ## The shapes of versions -/

namespace Verification

/-- **The tables of a state after others that began with `first`**: they still have the versions and the
shapes that were there, and the current version of a variable has the shape of the variable. -/
structure Shaped (v first : Verification) : Prop where
  vars : first.vars ⊆ v.vars
  shapes : ∀ x shape, first.shapes.find? x = some shape → v.shapes.find? x = some shape
  current : ∀ x shape, v.shapes.find? x = some shape → ⟨v.current x, shape⟩ ∈ v.vars

variable {first v : Verification} {P : String → Prop}

namespace Shaped

theorem declared (h : v.Shaped first) (base : String) : (v.declared base).Shaped first := by
  rw [Verification.declared]
  split
  · exact h
  · next hnew =>
    have hne : ∀ {x shape}, v.shapes.find? x = some shape → x ≠ base := by
      rintro x shape hx rfl
      exact hnew (Option.isSome_iff_exists.mpr ⟨shape, hx⟩)
    refine { h with
      vars := List.Subset.trans h.vars (subset_append_left _ _)
      shapes := fun x shape hx => ?_
      current := fun x shape hx => ?_ }
    · have hx := h.shapes x shape hx
      rw [declare, Table.find?_insert_of_ne _ (hne hx), hx]
    · rw [Verification.current, version, declare]
      dsimp only
      by_cases hbase : x = base
      · rw [declare, hbase, Table.find?_insert_self] at hx
        rw [hbase, Table.find?_insert_self, ← Option.some.inj hx]
        exact mem_append_right _ mem_cons_self
      · rw [declare, Table.find?_insert_of_ne _ hbase] at hx
        rw [Table.find?_insert_of_ne _ hbase]
        exact mem_append_left _ (h.current x shape hx)

theorem next (h : v.Shaped first) (base : String) : (v.next base).Shaped first := by
  refine { h with
    vars := List.Subset.trans h.vars (subset_append_left _ _)
    current := fun x shape hx => ?_ }
  have hshape : v.shapes.find? x = some shape := hx
  by_cases hbase : x = base
  · subst hbase
    rw [Verification.current, version_next_self, Verification.next, hshape]
    exact mem_append_right _ mem_cons_self
  · rw [Verification.current, version_next_of_ne v hbase]
    exact mem_append_left _ (h.current x shape hshape)

end Shaped

/-- **The discipline of calls that `P` allows**, which keeps the shapes of variables. -/
def calling (first : Verification) (P : String → Prop) : Discipline where
  tables v := v.Shaped first
  formula _ f := f.Calls P
  source f := f.Calls P
  target _ := True
  thrown _ := True
  computes pred _ := P pred

theorem lawful_calling (hP : ∀ x ∈ Formula.constants, P x) : (calling first P).Lawful where
  bare := ⟨fun h => ⟨h.vars, h.shapes, h.current⟩, fun h => ⟨h.vars, h.shapes, h.current⟩⟩
  formula_bare := Iff.rfl
  truth := Formula.calls_truth hP
  falsity := calls_falsity hP
  zero := calls_int 0
  not h := h
  binary _ _ _ _ hf hg := calls_binary.mpr ⟨hf, hg⟩
  ite hf hg hh := calls_ite.mpr ⟨hf, hg, hh⟩
  call hp ha hf := calls_call.mpr ⟨hp, forall_mem_append.mpr ⟨ha, forall_mem_singleton.mpr hf⟩⟩
  rename _ hf := hf.rename _
  thrown _ _ := calls_ident _
  renewed {_ base} hv _ := ⟨⟨(hv.declared base).next base, id⟩, calls_ident _, calls_ident _⟩

end Verification

open Relational (Stmt)

/-- The predicate that a statement itself computes with. -/
def computed? : Stmt → Option String
  | .compute _ pred _ => some pred
  | _ => none

/-- **Statements that call only what `P` allows.** -/
structure CallsBody (P : String → Prop) (ss : List Stmt) : Prop where
  formulas : ∀ f ∈ Stmt.formulasAll ss, f.Calls P
  computed : ∀ t ∈ Stmt.walkAll ss, ∀ pred ∈ computed? t, P pred

namespace Frame

open Verification

variable {a : Frame} {P : String → Prop}

/-! ## The state before the program -/

theorem shaped_initial (a : Frame) (hnames : a.declared.Nodup) : a.initial.Shaped a.initial := by
  have hfresh := a.fresh_initial
  refine ⟨List.Subset.refl _, fun _ _ h => h, fun x shape hx => ?_⟩
  have hdeclared := (hfresh.isOver.shapes x).mp (Option.isSome_iff_exists.mpr ⟨shape, hx⟩)
  rw [← map_name_shaped] at hdeclared
  obtain ⟨y, hy, rfl⟩ := mem_map.mp hdeclared
  rw [find?_shapes_initial hnames hy] at hx
  rw [current, hfresh.version, initial_eq, ← Option.some.inj hx]
  exact mem_append_left _ (mem_map_of_mem hy)

/-- **The state after the program**, whatever its body. -/
theorem shaped_final (s : Settings) (hnames : a.declared.Nodup) (hP : ∀ x ∈ Formula.constants, P x)
    (hbody : CallsBody P a.program.body) : (calling a.initial P).Keeps (a.final s) := by
  refine (a.reaches_final s (lawful_calling hP) (a.shaped_initial hnames) fun t ht => ⟨fun _ _ => trivial,
    fun f hf => hbody.formulas f (mem_formulasAll_iff.mpr ⟨t, ht, hf⟩), fun _ _ => trivial, ?_⟩).keeps
  rintro target pred args rfl
  exact hbody.computed _ ht pred rfl

/-! ## Calls of the contract -/

/-- What the precondition is given. -/
def passedPre (a : Frame) : List Passed :=
  [⟨"throw", .plain, .first⟩, ⟨"thiz", .plain, .first⟩] ++
    a.program.params.map (fun p => ⟨p.name, .plain, .first⟩) ++
    a.fields.map (fun f => ⟨f.var.name, .plain, .first⟩) ++
    a.program.skolems.map fun x => ⟨x.name, .plain, .plain⟩

/-- What the postcondition is given. -/
def passedPost (a : Frame) : List Passed :=
  [⟨"thiz", .plain, .first⟩] ++ a.program.params.map (fun p => ⟨p.name, .plain, .first⟩) ++
    a.fields.map (fun f => ⟨f.var.name, .plain, .first⟩) ++
    a.fields.map (fun f => ⟨f.var.name, .primed, .current⟩) ++
    (a.program.returns.toList.map fun _ => ⟨"return", .primed, .current⟩) ++
    [⟨"throw", .primed, .current⟩] ++ a.program.skolems.map fun x => ⟨x.name, .plain, .plain⟩

/-- What the object invariant is given, before or after the program. -/
def passedInvariant (a : Frame) (after : Bool) : List Passed :=
  ⟨"thiz", .plain, .plain⟩ ::
    a.fields.map fun f => ⟨f.var.name, .plain, if after then .primed else .plain⟩

section

variable {first v : Verification}

/-- The first versions of declared variables are there after a run. -/
theorem mem_of_shaped (h : v.Shaped a.initial) {x : StateVar} (hx : x ∈ a.shaped) :
    ⟨versioned x.name 0, x.shape.type⟩ ∈ v.vars.map StateVar.param := by
  refine mem_map_of_mem (h.vars ?_) (f := StateVar.param) (a := ⟨versioned x.name 0, x.shape⟩)
  rw [initial_eq]
  exact mem_append_left _ (mem_map_of_mem hx)

/-- So are the skolem constants. -/
theorem mem_of_skolem (h : v.Shaped a.initial) {x : Var} (hx : x ∈ a.program.skolems) :
    ⟨x.name, valueType x.type⟩ ∈ v.vars.map StateVar.param := by
  refine mem_map_of_mem (h.vars ?_) (f := StateVar.param) (a := ⟨x.name, valueShape x.type⟩)
  rw [initial_eq]
  exact mem_append_right _ (mem_map_of_mem hx)

/-- The current versions have the types that their variables are declared with. -/
theorem current_mem_of_shaped (h : v.Shaped a.initial) (hnames : a.declared.Nodup) {x : StateVar}
    (hx : x ∈ a.shaped) : ⟨v.current x.name, x.shape.type⟩ ∈ v.vars.map StateVar.param :=
  mem_map_of_mem (f := StateVar.param)
    (h.current x.name x.shape (h.shapes x.name x.shape (find?_shapes_initial hnames hx)))

/-- **The call of the precondition** passes fields of the holder. -/
theorem passes_pre (h : v.Shaped a.initial) :
    Passes v (v.vars.map StateVar.param) a.passedPre a.preArgs a.preParams := by
  have hfirst := fun x => mem_of_shaped h (x := x)
  simp only [shaped, forall_mem_append, forall_mem_cons, forall_mem_map] at hfirst
  obtain ⟨⟨⟨⟨⟨hthrow, hself, -⟩, hparams⟩, hfields⟩, -⟩, -⟩ := hfirst
  refine ((Passes.append (.append (.append ?_ ?_) ?_)) ?_)
  · exact (Passes.single "throw" throwType .plain .first hthrow).append
      (.single "thiz" a.owner.id .plain .first hself)
  · exact .map Var.name (fun x => valueType x.type) .plain .first hparams
  · exact .map (fun f : FieldOf => f.var.name) relationType .plain .first hfields
  · exact .map Var.name (fun x => valueType x.type) .plain .plain fun x hx => mem_of_skolem h hx

/-- **The call of the postcondition** passes versions of the run. -/
theorem passes_post (h : v.Shaped a.initial) (hnames : a.declared.Nodup) :
    Passes v (v.vars.map StateVar.param) a.passedPost (a.postArgs v) a.postParams := by
  have hfirst := fun x => mem_of_shaped h (x := x)
  have hlast := fun x => current_mem_of_shaped h hnames (x := x)
  simp only [shaped, forall_mem_append, forall_mem_cons, forall_mem_map] at hfirst hlast
  obtain ⟨⟨⟨⟨⟨-, hself, -⟩, hparams⟩, hfields⟩, -⟩, -⟩ := hfirst
  obtain ⟨⟨⟨⟨⟨hthrow, -⟩, -⟩, hfieldsLast⟩, hreturn⟩, -⟩ := hlast
  refine .append (.append (.append (.append (.append (.append ?_ ?_) ?_) ?_) ?_) ?_) ?_
  · exact .single "thiz" a.owner.id .plain .first hself
  · exact .map Var.name (fun x => valueType x.type) .plain .first hparams
  · exact .map (fun f : FieldOf => f.var.name) relationType .plain .first hfields
  · exact .map (fun f : FieldOf => f.var.name) relationType .primed .current hfieldsLast
  · exact .map (fun _ => "return") valueType .primed .current hreturn
  · exact .single "throw" throwType .primed .current hthrow
  · exact .map Var.name (fun x => valueType x.type) .plain .plain fun x hx => mem_of_skolem h hx

/-- **The calls of the object invariant** pass parameters on. -/
theorem passes_invariant (v : Verification) {after : Bool} {scope : List Param}
    (hself : a.selfParam ∈ scope) (hfields : ∀ p ∈ a.fieldParams after, p ∈ scope) :
    Passes v scope (a.passedInvariant after) ("thiz" :: (a.fieldParams after).map (·.name))
      a.invariantParams := by
  have hthiz := Passes.single (v := v) "thiz" a.owner.id .plain .plain hself
  refine hthiz.append ?_
  rw [fieldParams, forall_mem_map] at hfields
  rw [fieldParams, map_map]
  cases after with
  | false => exact .map (fun f : FieldOf => f.var.name) relationType .plain .plain hfields
  | true => exact .map (fun f : FieldOf => f.var.name) relationType .plain .primed hfields

end

/-! ## Calls of a specification -/

/-- The formulas that a specification takes from the modules and the index. -/
def taken (a : Frame) (moduleSide programSide : Side) : List Formula :=
  a.owner.invariant.body :: a.program.pre :: a.program.post :: moduleSide.formulas ++
    programSide.formulas ++ Stmt.formulasAll a.program.body

/-- What the modules call themselves, and the formulas that always and never hold. -/
def Foreign (a : Frame) (moduleSide programSide : Side) (name : String) : Prop :=
  name ∈ Formula.constants ∨ (∃ f ∈ a.taken moduleSide programSide, name ∈ f.calls.map (·.1)) ∨
    ∃ t ∈ Stmt.walkAll a.program.body, computed? t = some name

variable {moduleSide programSide : Side}
variable {f : Formula} {c : String × List Formula} {origin : Origin}

theorem calls_taken (hf : f ∈ a.taken moduleSide programSide) : f.Calls (a.Foreign moduleSide programSide) :=
  fun _ hc => .inr (.inl ⟨f, hf, mem_map_of_mem hc⟩)

theorem callsBody_foreign (a : Frame) (moduleSide programSide : Side) :
    CallsBody (a.Foreign moduleSide programSide) a.program.body :=
  ⟨fun _ hf => calls_taken (mem_append_right _ hf), fun t ht _ hpred => .inr (.inr ⟨t, ht, hpred⟩)⟩

/-- A formula with its side variables bound calls what it and their definitions call. -/
theorem calls_withSide (hP : ∀ x ∈ Formula.constants, P x) {side : Side}
    (h : ∀ g ∈ f :: side.formulas, g.Calls P) : (withSide side f).Calls P := by
  obtain ⟨hf, hside⟩ := forall_mem_cons.mp h
  rw [withSide]
  split
  · exact hf
  · refine Calls.all hP (forall_mem_append.mpr ⟨hside, forall_mem_singleton.mpr hf⟩)

/-- **A place where a predicate calls another** with names of its own. -/
structure Site where
  caller : Pred
  callee : Pred
  passed : List Passed

/-- The arguments at a place. -/
def Site.args (v : Verification) (site : Site) : List String :=
  site.passed.map fun p => p.arg.name v p.base

/-- The call at a place. -/
def Site.call (v : Verification) (site : Site) : String × List Formula :=
  (site.callee.name, (site.args v).map .ident)

/-- **The calls of a specification agree with what it declares.**  What is assumed and what is checked
pass fields of the holder, the predicates pass parameters of their own, and all else that is called is
foreign. -/
structure CallsAgree (a : Frame) (v : Verification) (foreign : String → Prop) (spec : Specification)
    (inv pre post check : Pred) : Prop where
  preds : spec.preds = [inv, pre, post, check]
  fact : spec.fact.name = pre.name ∧
    Passes v (spec.vars.map StateVar.param) a.passedPre spec.fact.args pre.params
  goal : spec.goal.name = check.name ∧
    Passes v (spec.vars.map StateVar.param) (spec.vars.map fun x => ⟨x.name, .plain, .plain⟩)
      spec.goal.args check.params
  sites : ∀ site ∈ [(⟨pre, inv, a.passedInvariant false⟩ : Site), ⟨post, inv, a.passedInvariant true⟩,
      ⟨check, post, a.passedPost⟩],
    .call (site.call v).1 (site.call v).2 ∈ site.caller.body.formulas ∧
      Passes v site.caller.params site.passed (site.args v) site.callee.params
  others : ∀ p ∈ spec.preds, ∀ f ∈ p.body.formulas, ∀ c ∈ f.calls, foreign c.1 ∨
    ∃ site ∈ [(⟨pre, inv, a.passedInvariant false⟩ : Site), ⟨post, inv, a.passedInvariant true⟩,
      ⟨check, post, a.passedPost⟩], site.caller = p ∧ c = site.call v

/-- A call of names calls nothing else. -/
theorem mem_calls_idents {name : String} {xs : List String} :
    c ∈ (Formula.call name (xs.map .ident)).calls ↔ c = (name, xs.map .ident) := by
  have hxs : ∀ d ∈ Formula.callsAll (xs.map .ident), False := Formula.forall_mem_callsAll.mpr <|
    forall_mem_map.mpr fun _ _ => nofun
  rw [Formula.calls, mem_cons]
  exact or_iff_left fun hc => hxs c hc

theorem invariantCall_eq (v : Verification) (after : Bool) : a.invariantCall after =
    .call a.owner.invariant.name (((a.passedInvariant after).map fun p => p.arg.name v p.base).map .ident) := by
  have hpasses : Passes v (a.selfParam :: a.fieldParams after) (a.passedInvariant after) _ a.invariantParams :=
    passes_invariant v mem_cons_self fun _ hp => mem_cons_of_mem _ hp
  rw [← hpasses.given, invariantCall, map_cons, map_map]
  rfl

/-- The defining formulas of one origin are taken from the index. -/
theorem mem_taken_of_origin {g : Formula} (hg : g ∈ (programSide.ofOrigin origin).formulas) :
    g ∈ a.taken moduleSide programSide := by
  obtain ⟨d, hd, rfl⟩ := mem_map.mp hg
  have hside : d.formula ∈ programSide.formulas := mem_map_of_mem (mem_filter.mp hd).1
  exact mem_append_left _ (mem_append_right _ hside)

/-- What a contract predicate calls: the object invariant, and what its part of the contract calls. -/
theorem calls_contract {x : String} {after : Bool} {part : Formula}
    (hpart : part ∈ a.taken moduleSide programSide)
    (hf : f ∈ [.eq (.ident x) (.ident "null"), a.invariantCall after,
      withSide (programSide.ofOrigin origin) part]) (hc : c ∈ f.calls) :
    a.Foreign moduleSide programSide c.1 ∨ c ∈ (a.invariantCall after).calls := by
  simp only [mem_cons, not_mem_nil, or_false] at hf
  rcases hf with rfl | rfl | rfl
  · cases hc
  · exact .inr hc
  · refine .inl (calls_withSide (fun _ => .inl) (fun g hg => ?_) c hc)
    rcases mem_cons.mp hg with rfl | hg
    · exact calls_taken hpart
    · exact calls_taken (mem_taken_of_origin hg)

/-- What the verification condition calls: the postcondition, and what the body calls. -/
theorem calls_verification {v : Verification} (hv : (calling a.initial (a.Foreign moduleSide programSide)).Keeps v)
    (hf : f ∈ (a.verificationPred v).body.formulas) (hc : c ∈ f.calls) :
    a.Foreign moduleSide programSide c.1 ∨
      c = (a.postName, (a.postArgs v).map .ident) := by
  have hgoals : f ∈ v.obligations ++ [.call a.postName ((a.postArgs v).map .ident)] →
      a.Foreign moduleSide programSide c.1 ∨ c = (a.postName, (a.postArgs v).map .ident) := by
    intro hf
    rcases mem_append.mp hf with hf | hf
    · exact .inl (hv.obligations f hf c hc)
    · obtain rfl := mem_singleton.mp hf
      exact .inr (mem_calls_idents.mp hc)
  rw [verificationPred] at hf
  dsimp only at hf
  split at hf
  · exact hgoals hf
  · rcases mem_append.mp hf with hf | hf
    · obtain ⟨t, ht, rfl⟩ := mem_map.mp hf
      exact .inl (hv.transitions t ht c hc)
    · exact hgoals hf

/-- The postcondition stands in the verification condition. -/
theorem post_mem_verification (a : Frame) (v : Verification) :
    .call a.postName ((a.postArgs v).map .ident) ∈ (a.verificationPred v).body.formulas := by
  have hgoal : Formula.call a.postName ((a.postArgs v).map .ident) ∈
      v.obligations ++ [.call a.postName ((a.postArgs v).map .ident)] :=
    mem_append_right _ mem_cons_self
  rw [verificationPred]
  dsimp only
  split
  · exact hgoal
  · exact mem_append_right _ hgoal

/-- **The calls of the specification of a program** agree with what it declares. -/
theorem callsAgree_specify (a : Frame) (s : Settings) (hnames : a.declared.Nodup)
    (moduleSide programSide : Side) :
    CallsAgree a (a.final s) (a.Foreign moduleSide programSide) (a.specify s moduleSide programSide)
      (a.invariantPred moduleSide) (a.prePred programSide) (a.postPred programSide)
      (a.verificationPred (a.final s)) := by
  have hfinal := a.shaped_final s hnames (fun _ => .inl) (a.callsBody_foreign moduleSide programSide)
  have hpost := passes_post hfinal.tables hnames
  have hbefore : Passes (a.final s) a.preParams (a.passedInvariant false) _ a.invariantParams :=
    passes_invariant (a.final s) (by simp [preParams]) fun p hp => by simp [preParams, hp]
  have hafter : Passes (a.final s) a.postParams (a.passedInvariant true) _ a.invariantParams :=
    passes_invariant (a.final s) (by simp [postParams]) fun p hp => by simp [postParams, hp]
  refine ⟨rfl, ⟨rfl, passes_pre hfinal.tables⟩, ⟨rfl, ?_⟩, ?_, ?_⟩
  · refine .map StateVar.name (fun x => x.shape.type) .plain .plain fun x hx => ?_
    exact mem_map_of_mem (f := StateVar.param) hx
  · simp only [forall_mem_cons, Site.call, Site.args]
    refine ⟨⟨?_, hbefore.given ▸ hbefore⟩, ⟨?_, hafter.given ▸ hafter⟩, ⟨?_, hpost.given ▸ hpost⟩,
      forall_mem_nil _⟩
    · exact mem_cons_of_mem _ (invariantCall_eq (a := a) (a.final s) false ▸ mem_cons_self)
    · exact mem_cons_of_mem _ (invariantCall_eq (a := a) (a.final s) true ▸ mem_cons_self)
    · exact hpost.given ▸ post_mem_verification a (a.final s)
  · simp only [specify, forall_mem_cons]
    refine ⟨fun f hf c hc => .inl ?_, fun f hf c hc => ?_, fun f hf c hc => ?_, fun f hf c hc => ?_,
      forall_mem_nil _⟩
    · obtain rfl := mem_singleton.mp hf
      refine calls_withSide (fun _ => .inl) (fun g hg => calls_taken ?_) c hc
      rcases mem_cons.mp hg with rfl | hg
      · exact mem_cons_self
      · simp [taken, hg]
    · refine (calls_contract (by simp [taken]) hf hc).imp_right fun hc => ?_
      rw [invariantCall_eq (a.final s), mem_calls_idents] at hc
      exact ⟨_, mem_cons_self, rfl, hc⟩
    · refine (calls_contract (by simp [taken]) hf hc).imp_right fun hc => ?_
      rw [invariantCall_eq (a.final s), mem_calls_idents] at hc
      exact ⟨_, mem_cons_of_mem _ mem_cons_self, rfl, hc⟩
    · refine (calls_verification hfinal hf hc).imp_right fun hc => ?_
      rw [hpost.given] at hc
      exact ⟨_, mem_cons_of_mem _ (mem_cons_of_mem _ mem_cons_self), rfl, hc⟩

end Frame

/-- **Calls agree with what a specification declares.**  In the specification of a program whose declared
variables are distinct, whatever its body, each call of its predicates has an argument for each parameter,
in the right tense and of its type: the precondition and the verification condition are given fields of the
holder, and the predicates pass on parameters of their own.  Anything else that is called is called by the
modules themselves, or always or never holds. -/
theorem assemble_calls_agree {s : Settings} {modules : List Relational.Module}
    {index : Relational.SideIndex} {owner program : String} {a : Frame} {spec : Specification}
    (hframe : frame? modules owner program = some a) (hnames : a.declared.Nodup)
    (hspec : assemble s modules index owner program = .ok spec) :
    ∃ moduleSide programSide inv pre post check, index.ofModule owner = .ok moduleSide ∧
      index.ofProgram program = .ok programSide ∧
      a.CallsAgree (a.final s) (a.Foreign moduleSide programSide) spec inv pre post check := by
  obtain ⟨b, moduleSide, programSide, hb, hmodule, hprogram, rfl⟩ := Run.exists_frame_of_assemble hspec
  obtain rfl : a = b := Option.some.inj (hframe.symm.trans hb)
  exact ⟨moduleSide, programSide, _, _, _, _, hmodule, hprogram,
    a.callsAgree_specify s hnames moduleSide programSide⟩

/-- The specification of a program with a loop. -/
theorem assemble_calls_agree_search :
    frame? Frame.search.modules "Store" "Store_find_0" = some Frame.search ∧
    Frame.search.declared.Nodup ∧
    ∃ spec, assemble {} Frame.search.modules (.collect Frame.search.modules) "Store" "Store_find_0" = .ok spec ∧
      ∃ moduleSide programSide inv pre post check,
        (Relational.SideIndex.collect Frame.search.modules).ofModule "Store" = .ok moduleSide ∧
        (Relational.SideIndex.collect Frame.search.modules).ofProgram "Store_find_0" = .ok programSide ∧
        Frame.search.CallsAgree (Frame.search.final {}) (Frame.search.Foreign moduleSide programSide) spec inv
          pre post check := by
  have hframe : frame? Frame.search.modules "Store" "Store_find_0" = some Frame.search := rfl
  have hnames : Frame.search.declared.Nodup := by decide
  have hspec : assemble {} Frame.search.modules (.collect Frame.search.modules) "Store" "Store_find_0" =
    .ok (Frame.search.specify {} {} {}) := rfl
  exact ⟨hframe, hnames, _, hspec, assemble_calls_agree hframe hnames hspec⟩

end Spec

end Relspec
