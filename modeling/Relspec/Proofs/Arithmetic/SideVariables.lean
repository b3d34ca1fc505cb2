import Mathlib.Algebra.BigOperators.Finprod
import Relspec.Proofs.Arithmetic.Extraction
import Relspec.Proofs.Formula.Relations
import Relspec.Spec.Assembly

/-!
# Proofs/Arithmetic/SideVariables — contracts over side variables

The side variables of a contract have one solution in every pair of states, and over it the contract
says what it said before.  Bound around the contract together with their definitions, as a specification
does, they change nothing.

* `Side.Solves` — values of side variables that make their definitions true;
* `Exact` — what side variables are to a formula, `Introduces` — what their definitions look like;
* `extraction_exact` — both, for one formula and for several in a row.
-/

namespace Relspec

open List

/-- **Values of side variables**, the same in both states, that make every definition true. -/
structure Side.Solves {M : Model} (side : Side) (pre cur : M.Valuation) (vals : List M.Value) :
    Prop where
  length_eq : vals.length = side.names.length
  equations : ∀ f ∈ side.formulas,
    M.holds (M.eval (M.bind pre side.names vals) (M.bind cur side.names vals) f)

namespace Arithmetic

open Spec.Frame (withSide)

variable {M : Model} {pre cur : M.Valuation} {ds : List Definition} {vals : List M.Value}

/-! ## Solutions of side variables -/

theorem names_sideOf (origin : Origin) (ds : List Definition) :
    (sideOf origin ds).names = defined ds := by
  rw [Side.names, sideOf, map_map]
  rfl

theorem formulas_sideOf (origin : Origin) (ds : List Definition) :
    (sideOf origin ds).formulas = ds.map Definition.equation := by
  rw [Side.formulas, sideOf, map_map]
  rfl

theorem solves_sideOf (origin : Origin) :
    (sideOf origin ds).Solves pre cur vals ↔ Solves pre cur ds vals := by
  refine ⟨fun h => ⟨?_, fun d hd => ?_⟩, fun h => ⟨?_, fun f hf => ?_⟩⟩
  · simpa [names_sideOf, defined] using h.length_eq
  · have hd := h.equations d.equation (by rw [formulas_sideOf]; exact mem_map_of_mem hd)
    rwa [names_sideOf] at hd
  · simpa [names_sideOf, defined] using h.length_eq
  · rw [formulas_sideOf] at hf
    obtain ⟨d, hd, rfl⟩ := mem_map.mp hf
    rw [names_sideOf]
    exact h.equations d hd

/-- The variables have, in both states, the values of their definitions. -/
theorem Solves.solved (h : Solves pre cur ds vals) :
    Solved (M.bind pre (defined ds) vals) (M.bind cur (defined ds) vals) ds := fun d hd =>
  ⟨Model.bind_of_mem _ _ (by simp [defined, h.length_eq]) (mem_map_of_mem hd),
    (holds_equation d).mp (h.equations d hd)⟩

/-- What several names are bound to. -/
theorem map_bind (ρ : M.Valuation) : ∀ {xs : List String} {vals : List M.Value}, xs.Nodup →
    vals.length = xs.length → xs.map (M.bind ρ xs vals) = vals
  | [], [], _, _ => rfl
  | x :: xs, v :: vals, hnodup, hlen => by
    obtain ⟨hx, hxs⟩ := nodup_cons.mp hnodup
    rw [bind_cons ρ hx, map_cons, Model.bind_of_not_mem hx, Function.update_self,
      map_bind _ hxs (by simpa using hlen)]

/-! ## Integers -/

/-- **Integer operations give integers**: members of `ints`, one at a time. -/
def GivesIntegers (M : Model) (ints : M.Value) : Prop :=
  ∀ (op : ArithOp) (a b : M.Value),
    M.atom (M.call op.function [a, b]) ∧ M.mem (M.call op.function [a, b]) ints

/-- The value of an operation is an integer, under `old` or not. -/
theorem GivesIntegers.eval {ints : M.Value} (h : GivesIntegers M ints) {f : Formula}
    (hf : IsOperation f) (pre cur : M.Valuation) :
    M.atom (M.eval pre cur f) ∧ M.mem (M.eval pre cur f) ints := by
  obtain ⟨node, hnode, hop⟩ := hf
  obtain ⟨⟨op, a, b⟩, hop⟩ := Option.isSome_iff_exists.mp hop
  rcases hnode with rfl | rfl
  · rw [Relational.eval_of_operation? hop]
    exact h op _ _
  · rw [Model.eval, Relational.eval_of_operation? hop]
    exact h op _ _

/-- **The values of side variables are integers.** -/
def Integral (pre cur : M.Valuation) (side : Side) : Prop :=
  ∀ vals, side.Solves pre cur vals → ∀ v ∈ vals, M.atom v ∧ M.mem v (cur "Int")

/-- A solution of operations consists of integers. -/
theorem GivesIntegers.integral (h : GivesIntegers M (cur "Int")) (hnodup : (defined ds).Nodup)
    (hops : ∀ d ∈ ds, IsOperation d.value) (origin : Origin) : Integral pre cur (sideOf origin ds) := by
  intro vals hvals v hv
  have hvals := (solves_sideOf origin).mp hvals
  have hlen : vals.length = (defined ds).length := by simp [defined, hvals.length_eq]
  rw [← map_bind cur hnodup hlen, defined, map_map] at hv
  obtain ⟨d, hd, rfl⟩ := mem_map.mp hv
  rw [Function.comp_apply, ← defined, (hvals.solved d hd).2]
  exact h.eval (hops d hd) _ _

/-! ## What side variables are to a formula -/

/-- **What the formula `out` over the variables of `side` is to the formula `e`.**  The variables have one
solution, and over it `out` has the value of `e`.  Bound around `out` together with their definitions,
they only ask that the solution consists of integers; as long as integer operations give integers, that
says the same as `e`. -/
structure Exact (M : Model) (pre cur : M.Valuation) (e out : Formula) (side : Side) : Prop where
  unique : ∃! vals, side.Solves pre cur vals
  value : ∀ vals, side.Solves pre cur vals →
    M.eval (M.bind pre side.names vals) (M.bind cur side.names vals) out = M.eval pre cur e
  bound : M.holds (M.eval pre cur (withSide side out)) ↔
    Integral pre cur side ∧ M.holds (M.eval pre cur e)
  equivalent : GivesIntegers M (cur "Int") →
    (M.holds (M.eval pre cur (withSide side out)) ↔ M.holds (M.eval pre cur e))

/-- **What the variables of `side` are made of**, when they come from the formula `e`: each is defined by
one equation, over names free in `e` and variables before it. -/
structure Introduces (origin : Origin) (e : Formula) (side : Side) : Prop where
  ordered : ∃ ds, side = sideOf origin ds ∧ Ordered (· ∈ e.freeNames) ds
  once : ∀ x ∈ side.names, ∃! f, f ∈ side.formulas ∧ ∃ value, f = .eq (.ident x) value

/-! ## One formula -/

/-- No side variable from the `n`-th on occurs in a formula, free or bound. -/
def Unused (n : Nat) (e : Formula) : Prop :=
  ∀ k, n ≤ k → sideVar k ∉ e.freeNames ∧ sideVar k ∉ e.binders

namespace Extracts

variable {bound : List String} {inOld : Bool} {es outs : List Formula} {e out : Formula} {n m : Nat}

theorem nodup (h : Extracts bound inOld es outs ds n m) : (defined ds).Nodup := by
  rw [h.names]
  exact List.Nodup.map sideVar_injective nodup_range'

theorem not_mem_defined (h : Extracts bound inOld es outs ds n m) (hunused : Unused n e) :
    ∀ x ∈ e.freeNames, x ∉ defined ds := by
  intro x hx hmem
  rw [h.names] at hmem
  obtain ⟨k, hk, rfl⟩ := mem_map.mp hmem
  exact (hunused k (mem_range'_1.mp hk).1).1 hx

/-- The variables have one solution. -/
theorem existsUnique (h : Extracts [] false [e] [out] ds n m) (hunused : Unused n e)
    (pre cur : M.Valuation) : ∃! vals, Solves pre cur ds vals := by
  refine existsUnique_solves pre cur h.ordered h.nodup fun x hx => h.not_mem_defined hunused x ?_
  rw [Formula.mem_freeNames]
  simpa using hx.1

/-- Over a solution the formula has the value that it had before. -/
theorem eval_eq (h : Extracts [] false [e] [out] ds n m) (hunused : Unused n e)
    (hvals : Solves pre cur ds vals) :
    M.eval (M.bind pre (defined ds) vals) (M.bind cur (defined ds) vals) out = M.eval pre cur e := by
  have hout := h.meaning (M.bind pre (defined ds) vals) (M.bind cur (defined ds) vals)
    (M.bind pre (defined ds) vals) (M.bind cur (defined ds) vals)
    (fun k hk => by simpa using (hunused k hk).2) hvals.solved fun x _ => ⟨rfl, rfl⟩
  rw [singleton_inj.mp hout]
  refine Model.eval_congr fun x hx => ?_
  have hx := h.not_mem_defined hunused x hx
  exact ⟨Model.bind_of_not_mem hx, Model.bind_of_not_mem hx⟩

/-- Bound around the formula together with their definitions, the variables have their solution, as long
as it consists of integers. -/
theorem holds_withSide (h : Extracts [] false [e] [out] ds n m) (hunused : Unused n e)
    (origin : Origin) (pre cur : M.Valuation) :
    M.holds (M.eval pre cur (withSide (sideOf origin ds) out)) ↔
      Integral pre cur (sideOf origin ds) ∧ M.holds (M.eval pre cur e) := by
  obtain ⟨vals, hvals, hunique⟩ := h.existsUnique hunused pre cur
  have hintegral : Integral pre cur (sideOf origin ds) ↔ ∀ v ∈ vals, M.atom v ∧ M.mem v (cur "Int") := by
    refine ⟨fun hi => hi vals ((solves_sideOf origin).mpr hvals), fun hi other hother => ?_⟩
    rw [hunique other ((solves_sideOf origin).mp hother)]
    exact hi
  rw [hintegral, ← h.eval_eq hunused hvals]
  by_cases hds : ds = []
  · subst hds
    obtain rfl : vals = [] := length_eq_zero_iff.mp hvals.length_eq
    exact (and_iff_right fun v hv => absurd hv not_mem_nil).symm
  · have hquant : withSide (sideOf origin ds) out = .quant (.mult .some) (defined ds) (.ident "Int")
        (.all (ds.map Definition.equation ++ [out])) := by
      rw [withSide, names_sideOf, formulas_sideOf, if_neg (by simpa [sideOf] using hds)]
    rw [hquant, Model.eval, M.holds_truth, Model.eval]
    constructor
    · rintro ⟨other, hrange, hall⟩
      rw [Model.holds_all, forall_mem_append] at hall
      obtain rfl := hunique other
        ⟨by simpa [defined] using hrange.1, fun d hd => hall.1 _ (mem_map_of_mem hd)⟩
      exact ⟨hrange.2, hall.2 out (mem_singleton_self out)⟩
    · rintro ⟨hints, he⟩
      refine ⟨vals, ⟨by simp [defined, hvals.length_eq], hints⟩,
        Model.holds_all.mpr (forall_mem_append.mpr ⟨fun f hf => ?_, fun f hf => ?_⟩)⟩
      · obtain ⟨d, hd, rfl⟩ := mem_map.mp hf
        exact hvals.equations d hd
      · rw [mem_singleton.mp hf]
        exact he

theorem exact (h : Extracts [] false [e] [out] ds n m) (hunused : Unused n e) (origin : Origin)
    (pre cur : M.Valuation) : Exact M pre cur e out (sideOf origin ds) where
  unique := by
    simp only [solves_sideOf]
    exact h.existsUnique hunused pre cur
  value vals hvals := by
    rw [names_sideOf]
    exact h.eval_eq hunused ((solves_sideOf origin).mp hvals)
  bound := h.holds_withSide hunused origin pre cur
  equivalent hints := (h.holds_withSide hunused origin pre cur).trans
    (and_iff_right (hints.integral h.nodup h.operations origin))

/-- Each variable is defined once, over what comes before it. -/
theorem introduces (h : Extracts [] false [e] [out] ds n m) (origin : Origin) :
    Introduces origin e (sideOf origin ds) where
  ordered := by
    refine ⟨ds, rfl, h.ordered.mono fun x hx => ?_⟩
    rw [Formula.mem_freeNames]
    simpa using hx.1
  once x hx := by
    rw [names_sideOf] at hx
    rw [formulas_sideOf]
    obtain ⟨d, hd, rfl⟩ := mem_map.mp hx
    refine ⟨d.equation, ⟨mem_map_of_mem hd, d.value, rfl⟩, ?_⟩
    rintro f ⟨hf, value, hvalue⟩
    obtain ⟨d', hd', rfl⟩ := mem_map.mp hf
    have hname : d'.name = d.name := by
      simp only [Definition.equation, Formula.eq, Formula.binary.injEq, Formula.ident.injEq] at hvalue
      exact hvalue.2.1
    rw [inj_on_of_nodup_map h.nodup hd' hd hname]

end Extracts

/-! ## Several formulas in a row -/

/-- The side variables of several parts of contracts are numbered in a row. -/
theorem extractParts_introduce : ∀ (parts : List (Origin × Formula)) (n : Nat),
    let r := (parts.mapM fun p => extractPart p.1 p.2).run n
    (∃ total, r.1.flatMap (·.2.names) = (List.range' n total).map sideVar) ∧
      List.Forall₂ (fun p q => Introduces p.1 p.2 q.2) parts r.1
  | [], n => ⟨⟨0, rfl⟩, .nil⟩
  | p :: parts, n => by
    have h := extract_extracts [] false p.2 n
    obtain ⟨⟨total, hnames⟩, hparts⟩ := extractParts_introduce parts ((extract [] false p.2).run n).2
    rw [mapM_cons]
    refine ⟨⟨((extract [] false p.2).run n).1.2.length + total, ?_⟩, .cons (h.introduces p.1) hparts⟩
    rw [← List.range'_append_1, ← h.next, map_append, ← h.names, ← names_sideOf p.1, ← hnames]
    rfl

/-- **Taking operations out of contracts is exact.**  A formula that mentions no side variable that is
still to come has the same meaning over its side variables, in every pair of states.  Of several formulas
in a row, all side variables are different, and each is defined once. -/
theorem extraction_exact :
    (∀ (n : Nat) (origin : Origin) (e : Formula), Unused n e → ∀ (M : Model) (pre cur : M.Valuation),
      Exact M pre cur e ((extractPart origin e).run n).1.1 ((extractPart origin e).run n).1.2) ∧
    ∀ (n : Nat) (parts : List (Origin × Formula)),
      let results := ((parts.mapM fun p => extractPart p.1 p.2).run n).1
      (results.flatMap (·.2.names)).Nodup ∧
        List.Forall₂ (fun p r => Introduces p.1 p.2 r.2) parts results := by
  refine ⟨fun n origin e hunused M pre cur => ?_, fun n parts => ?_⟩
  · exact (extract_extracts [] false e n).exact hunused origin pre cur
  · obtain ⟨⟨total, hnames⟩, hparts⟩ := extractParts_introduce parts n
    refine ⟨?_, hparts⟩
    rw [hnames]
    exact List.Nodup.map sideVar_injective List.nodup_range'

/-! ## Sums of relations -/

/-- A formula whose names do not start like those of side variables mentions none. -/
theorem unused_of_stem {e : Formula} (n : Nat)
    (h : ∀ x ∈ e.freeNames ++ e.binders, ¬ "arith_".toList <+: x.toList) : Unused n e := by
  have hstem : ∀ k, "arith_".toList <+: (sideVar k).toList := fun k => by
    rw [sideVar, String.toList_append]
    exact prefix_append _ _
  exact fun k _ => ⟨fun hx => h _ (mem_append_left _ hx) (hstem k),
    fun hx => h _ (mem_append_right _ hx) (hstem k)⟩

/-- The number that a relation is to an operation: the sum of the numbers in it. -/
noncomputable def sum (a : Tuples) : Int64 := .ofInt (∑ᶠ i ∈ {i : Int64 | [.int i] ∈ a}, i.toInt)

/-- Calls where every operation has a number as its result. -/
noncomputable def callOnSums (name : String) : List Tuples → Tuples
  | [] => .condition (name = "TruePred")
  | [a, b] => {t | ∃ op : ArithOp, op.function = name ∧ t ∈ Tuples.number (op.compute (sum a) (sum b))}
  | [a, b, r] => .condition
    (∃ op : ArithOp, op.predicate = name ∧ r = .number (op.compute (sum a) (sum b)))
  | _ => ∅

theorem callOnSums_function (op : ArithOp) (a b : Tuples) :
    callOnSums op.function [a, b] = .number (op.compute (sum a) (sum b)) := by
  ext t
  constructor
  · rintro ⟨op', hop, ht⟩
    exact ArithOp.function_inj hop ▸ ht
  · exact fun ht => ⟨op, rfl, ht⟩

theorem callOnSums_predicate (op : ArithOp) (a b r : Tuples) :
    [] ∈ callOnSums op.predicate [a, b, r] ↔ r = callOnSums op.function [a, b] := by
  rw [callOnSums_function, callOnSums, Tuples.mem_condition]
  constructor
  · rintro ⟨op', hop, hr⟩
    exact ArithOp.predicate_inj hop ▸ hr
  · exact fun hr => ⟨op, rfl, hr⟩

theorem callOnSums_truth : [] ∈ callOnSums "TruePred" [] := (Tuples.mem_condition _).mpr rfl

/-- **The model of relations over atoms where operations add up the numbers of a relation.** -/
noncomputable def sums : Model :=
  { Model.relations with
    call := callOnSums
    truePred := callOnSums_truth
    falsePred := fun h => absurd ((Tuples.mem_condition ("FalsePred" = "TruePred")).mp h) (by decide)
    arithPred := callOnSums_predicate }

/-- The relation of all numbers. -/
def numbers : Tuples := {t | ∃ i, t = [.int i]}

theorem givesIntegers_sums : GivesIntegers sums numbers := by
  intro op a b
  have hcall : sums.call op.function [a, b] = Tuples.number (op.compute (sum a) (sum b)) :=
    callOnSums_function op a b
  rw [hcall]
  exact ⟨⟨_, rfl⟩, fun t ht => ⟨_, ht⟩⟩

/-- `all i: Int | old(x * 2) + i = -y - 1`. -/
def doubled : Formula :=
  .quant .all ["i"] (.ident "Int")
    (.eq (.binary (.arith .add) (.old (.binary (.arith .mul) (.ident "x") (.int 2))) (.ident "i"))
      (.binary (.arith .sub) (.unary .neg (.ident "y")) (.int 1)))

/-- What is left of it. -/
def doubledRest : Formula :=
  .quant .all ["i"] (.ident "Int")
    (.eq (.binary (.arith .add) (.old (.ident "arith_4")) (.ident "i")) (.ident "arith_6"))

/-- Its side variables. -/
def doubledSide : Side :=
  sideOf .ensures
    [⟨"arith_4", .old (.binary (.arith .mul) (.ident "x") (.int 2))⟩,
      ⟨"arith_5", .unary .neg (.ident "y")⟩,
      ⟨"arith_6", .binary (.arith .sub) (.ident "arith_5") (.int 1)⟩]

/-- The state where `x` and `y` are numbers. -/
def stateOf (x y : Int64) : sums.Valuation := fun name =>
  if name = "Int" then numbers else Tuples.number (if name = "x" then x else y)

/-- Three operations, one of them under `old`. -/
theorem extraction_exact_doubled :
    ((extractPart .ensures doubled).run 4).1 = (doubledRest, doubledSide) ∧
      Exact sums (stateOf 3 1) (stateOf 2 (-7)) doubled doubledRest doubledSide ∧
      (sums.holds (sums.eval (stateOf 3 1) (stateOf 2 (-7)) (withSide doubledSide doubledRest)) ↔
        sums.holds (sums.eval (stateOf 3 1) (stateOf 2 (-7)) doubled)) := by
  have hrest : ((extractPart .ensures doubled).run 4).1 = (doubledRest, doubledSide) := rfl
  have hexact := extraction_exact.1 4 .ensures doubled (unused_of_stem 4 (by decide)) sums
    (stateOf 3 1) (stateOf 2 (-7))
  rw [hrest] at hexact
  exact ⟨hrest, hexact, hexact.equivalent givesIntegers_sums⟩

end Arithmetic

end Relspec
