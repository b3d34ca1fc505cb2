import Relspec.Proofs.Formula.Relations
import Relspec.Proofs.Relational.Vocabulary

/-!
# Proofs/Relational/TwoStates — contracts over two states mean what they say

Names get their primes from the leaves up and lose them again under `old`.  Where no name has a prime of its
own the two cancel, so below any number of `old`s a formula reads the state before.

* `eval_stripNode` — a formula without `old` reads one state;
* `unprime_prime` — under `old` priming leaves the names as they were;
* `ReadsBoth`, `eval_primeNode` — a valuation of both states, and formulas with primes read in it;
* `holds_applied` — the definitions of side variables in either arithmetic;
* `contracts_exact` — contracts and definitions over two states.
-/

namespace Relspec.Relational

open List
open Formula (Vocabulary Over rebuild rebuildAll_eq_map)
open Model (eval bind_of_not_mem relations)

variable {M : Model} {q pre cur ρ : M.Valuation} {state bound : List String} {o : Bool} {f : Formula}

/-- **A name without a prime at its end.** -/
def Unprimed (x : String) : Prop := Text.endsWith x "'" = false

instance : DecidablePred Unprimed := fun x => inferInstanceAs (Decidable (Text.endsWith x "'" = false))

theorem Unprimed.ne_primed {x : String} (h : Unprimed x) (y : String) : x ≠ primed y := by
  rintro rfl
  exact Bool.false_ne_true (h.symm.trans (Text.endsWith_append y "'"))

theorem Unprimed.dropEnd_eq {x : String} (h : Unprimed x) : Text.dropEnd x "'" = x :=
  (Text.dropEnd_cases x "'").resolve_right (h.ne_primed _)

/-- **A formula over names without primes**, the bound ones among them. -/
def Primeless (f : Formula) : Prop := f.Over (.only Unprimed) [] false

/-! ## One state -/

/-- What `stripOld` makes of a node. -/
def stripNode (_ : List String) (n : Formula) : Formula :=
  match n with
  | .old x => x
  | _ => n

/-- **Without `old` only one state is read.** -/
theorem eval_stripNode : M.eval q ρ (f.rebuild stripNode bound) = M.eval ρ ρ f := by
  induction f generalizing q ρ bound with
  | ident | int => simp only [rebuild, stripNode, eval]
  | old x ih | unary _ x ih => simp only [rebuild, stripNode, eval, ih]
  | call name args ih =>
    simp only [rebuild, stripNode, eval, Model.evalAll_eq_map, rebuildAll_eq_map, map_map]
    exact congrArg _ (map_congr_left fun a ha => ih a ha)
  | join l r ihl ihr | binary _ l r ihl ihr => simp only [rebuild, stripNode, eval, ihl, ihr]
  | quant _ _ _ _ ihd ihb => simp only [rebuild, stripNode, eval, ihd, ihb]
  | ite _ _ _ ihc iht ihe => simp only [rebuild, stripNode, eval, ihc, iht, ihe]

/-- **A formula over the state before a program** has the value that it has there. -/
theorem eval_preState : M.eval q ρ (preState f) = M.eval ρ ρ f :=
  eval_stripNode.trans (eval_inline f)

/-! ## Two states -/

/-- What `unprime` makes of a node. -/
def unprimeNode (_ : List String) (n : Formula) : Formula :=
  match n with
  | .ident name => .ident (Text.dropEnd name "'")
  | _ => n

/-- What `prime` makes of a node. -/
def primeNode (state bound : List String) (n : Formula) : Formula :=
  match n with
  | .ident name => if state.contains name && !bound.contains name then .ident (primed name) else n
  | .old x => unprime x
  | _ => n

/-- **Under `old` the primes that names get are lost again**, and what is left of the formula is as it was. -/
theorem unprime_prime (hbound : ∀ x ∈ bound, Unprimed x) (hf : f.Over (.only Unprimed) bound o)
    (b c d : List String) : (f.rebuild stripNode b).rebuild unprimeNode c = f.rebuild stripNode d ∧
      (f.rebuild (primeNode state) bound).rebuild unprimeNode c = f.rebuild stripNode d := by
  induction f generalizing bound o b c d with
  | ident name =>
    have hname : Text.dropEnd name "'" = name := (hf.elim (hbound name) id : Unprimed name).dropEnd_eq
    refine ⟨by simp only [rebuild, stripNode, unprimeNode, hname], ?_⟩
    simp only [rebuild, primeNode, stripNode]
    split
    · rw [rebuild, unprimeNode, primed, Text.dropEnd_append]
    · rw [rebuild, unprimeNode, hname]
  | int => simp only [rebuild, stripNode, primeNode, unprimeNode, and_self]
  | call name args ih =>
    have hargs := Formula.overAll_iff.mp hf
    simp only [rebuild, stripNode, primeNode, unprimeNode, rebuildAll_eq_map, map_map]
    exact ⟨congrArg _ (map_congr_left fun a ha => (ih a ha hbound (hargs a ha) b c d).1),
      congrArg _ (map_congr_left fun a ha => (ih a ha hbound (hargs a ha) b c d).2)⟩
  | old x ih =>
    have hx : x.Over (.only Unprimed) bound true := hf
    have hprimed : unprime (x.rebuild (primeNode state) bound) = x.rebuild stripNode [] :=
      (ih hbound hx b [] []).2
    simp only [rebuild, stripNode, primeNode, hprimed]
    exact ⟨(ih hbound hx b c d).1, (ih hbound hx [] c d).1⟩
  | join l r ihl ihr | binary _ l r ihl ihr =>
    simp only [rebuild, stripNode, primeNode, unprimeNode, ihl hbound hf.1 b c d, ihr hbound hf.2 b c d,
      and_self]
  | unary _ x ih =>
    have hx : x.Over (.only Unprimed) bound o := hf
    simp only [rebuild, stripNode, primeNode, unprimeNode, ih hbound hx b c d, and_self]
  | quant _ vars _ _ ihd ihb =>
    have hb := ihb (forall_mem_append.mpr ⟨hbound, hf.1⟩) hf.2.2 (b ++ vars) (c ++ vars) (d ++ vars)
    simp only [rebuild, stripNode, primeNode, unprimeNode, ihd hbound hf.2.1 b c d, hb, and_self]
  | ite _ _ _ ihc iht ihe =>
    simp only [rebuild, stripNode, primeNode, unprimeNode, ihc hbound hf.1 b c d,
      iht hbound hf.2.1 b c d, ihe hbound hf.2.2 b c d, and_self]

/-- **How a valuation of both states reads the names of either** under the names `bound`: the values before under
the names themselves, and those at hand under the primed names of the state. -/
structure ReadsBoth (state bound : List String) (pre cur ρ : M.Valuation) : Prop where
  before : ∀ x, Unprimed x → ρ x = pre x
  now : ∀ x, Unprimed x → cur x = if x ∈ state ∧ x ∉ bound then ρ (primed x) else ρ x

theorem ReadsBoth.bind (h : ReadsBoth state bound pre cur ρ) {vars : List String} {vals : List M.Value}
    (hlen : vals.length = vars.length) (hvars : ∀ v ∈ vars, Unprimed v) :
    ReadsBoth state (bound ++ vars) (M.bind pre vars vals) (M.bind cur vars vals) (M.bind ρ vars vals) where
  before x hx := by
    by_cases hv : x ∈ vars
    · exact Model.bind_of_mem _ _ hlen hv
    · rw [bind_of_not_mem hv, bind_of_not_mem hv, h.before x hx]
  now x hx := by
    by_cases hv : x ∈ vars
    · rw [if_neg (by simp [hv])]
      exact Model.bind_of_mem _ _ hlen hv
    · have hprimed : primed x ∉ vars := fun hmem => (hvars _ hmem).ne_primed x rfl
      simp only [bind_of_not_mem hv, bind_of_not_mem hprimed, h.now x hx, mem_append, hv, or_false]

/-- Under `old` a formula reads the names themselves. -/
theorem ReadsBoth.eval_pre (h : ReadsBoth state bound pre cur ρ) (hbound : ∀ x ∈ bound, Unprimed x)
    (hf : f.Over (.only Unprimed) bound o) : M.eval ρ ρ f = M.eval pre pre f := by
  refine Model.eval_congr_under bound f fun x hx => ?_
  have hx : Unprimed x := hx.elim (hbound x) fun hx => (hf.of_mem_occurrences hx).elim fun _ h => h
  exact ⟨h.before x hx, h.before x hx⟩

/-- **A formula with primes has the value over both states** that it has without them. -/
theorem eval_primeNode (h : ReadsBoth state bound pre cur ρ) (hbound : ∀ x ∈ bound, Unprimed x)
    (hf : f.Over (.only Unprimed) bound o) :
    M.eval q ρ (f.rebuild (primeNode state) bound) = M.eval pre cur f := by
  induction f generalizing bound o q pre cur ρ with
  | ident name =>
    have hname := h.now name (hf.elim (hbound name) id)
    simp only [rebuild, primeNode, Bool.and_eq_true, contains_iff_mem, Bool.not_eq_true',
      ← Bool.not_eq_true]
    rw [eval, hname]
    split <;> rw [eval]
  | int => simp only [rebuild, primeNode, eval]
  | call name args ih =>
    have hargs := Formula.overAll_iff.mp hf
    simp only [rebuild, primeNode, eval, Model.evalAll_eq_map, rebuildAll_eq_map, map_map]
    exact congrArg _ (map_congr_left fun a ha => ih a ha h hbound (hargs a ha))
  | old x ih =>
    have hx : x.Over (.only Unprimed) bound true := hf
    have hprimed : unprime (x.rebuild (primeNode state) bound) = x.rebuild stripNode [] :=
      (unprime_prime hbound hx [] [] []).2
    rw [rebuild, primeNode, hprimed, eval_stripNode, eval, h.eval_pre hbound hx]
  | join l r ihl ihr | binary _ l r ihl ihr =>
    simp only [rebuild, primeNode, eval, ihl h hbound hf.1, ihr h hbound hf.2]
  | unary _ x ih =>
    have hx : x.Over (.only Unprimed) bound o := hf
    simp only [rebuild, primeNode, eval, ih h hbound hx]
  | quant kind vars _ _ ihd ihb =>
    simp only [rebuild, primeNode, eval, ihd h hbound hf.2.1]
    refine congrArg M.truth (propext (Model.asks_congr kind fun vals hvals => ?_))
    rw [ihb (h.bind hvals.1 hf.1) (forall_mem_append.mpr ⟨hbound, hf.1⟩) hf.2.2]
  | ite _ _ _ ihc iht ihe =>
    simp only [rebuild, primeNode, eval, ihc h hbound hf.1, iht h hbound hf.2.1, ihe h hbound hf.2.2]

/-- The valuation of two states: names have their values before, primed names of the state those after. -/
def bothStates (state : List String) (before after : M.Valuation) : M.Valuation := fun x =>
  if Text.dropEnd x "'" ∈ state ∧ x = primed (Text.dropEnd x "'") then after (Text.dropEnd x "'") else before x

/-- The state after: names of the state have their values after, the others those that they had. -/
def stateAfter (state : List String) (before after : M.Valuation) : M.Valuation := fun x =>
  if x ∈ state then after x else before x

theorem readsBoth_bothStates (state : List String) (before after : M.Valuation) :
    ReadsBoth state [] before (stateAfter state before after) (bothStates state before after) where
  before x hx := if_neg fun h => hx.ne_primed _ h.2
  now x hx := by
    have hprimed : Text.dropEnd (primed x) "'" = x := Text.dropEnd_append x "'"
    by_cases hstate : x ∈ state <;> simp [stateAfter, bothStates, hprimed, hstate, hx.dropEnd_eq,
      hx.ne_primed]

/-- **A formula over the states before and after a program** has the value that it has over both. -/
theorem eval_postState (before after : M.Valuation) (hf : Primeless f) :
    M.eval q (bothStates state before after) (postState state f) =
      M.eval before (stateAfter state before after) f :=
  (eval_primeNode (readsBoth_bothStates state before after) nofun (inline_over hf)).trans (eval_inline f)

/-! ## Side variables -/

theorem eval_of_definedBy? {op : ArithOp} {a b : Formula} (h : definedBy? f = some (op, a, b)) :
    M.eval pre cur f = M.call op.function [M.eval pre cur a, M.eval pre cur b] := by
  unfold definedBy? at h
  split at h
  · obtain ⟨⟨op', a', b'⟩, hop, heq⟩ := Option.map_eq_some_iff.mp h
    cases heq
    simp only [eval, eval_of_operation? hop]
  · exact eval_of_operation? h

/-- **An equation and a predicate that set a side variable** hold of the same values. -/
theorem holds_applied (native : Bool) :
    M.holds (M.eval pre cur (applied native f)) ↔ M.holds (M.eval pre cur f) := by
  unfold applied
  split
  · split
    · next v rhs _ op a b hop =>
      have hrhs : M.holds (M.eval pre cur (.eq (.ident v) rhs)) ↔
          cur v = M.call op.function [M.eval pre cur a, M.eval pre cur b] := by
        rw [Model.holds_eq, eval_of_definedBy? hop, eval]
      refine Iff.trans ?_ hrhs.symm
      cases native with
      | true =>
        simp only [apply, if_true, eval, Model.evalAll]
        exact M.arithPred op _ _ _
      | false => simp only [apply, Bool.false_eq_true, if_false, Model.holds_eq, eval_functionCall, eval]
    · rfl
  · rfl

/-- **Contracts over two states are exact.**  A postcondition and the definitions of its side variables say of the
states before and after what they said with `old`; an invariant, a precondition and theirs say it of the state before. -/
theorem contracts_exact (M : Model) (state : List String) (before after : M.Valuation) :
    (∀ e, Primeless e → ∀ q : M.Valuation,
      M.eval q (bothStates state before after) (postState state e) =
          M.eval before (stateAfter state before after) e ∧
        M.eval q before (preState e) = M.eval before before e) ∧
    ∀ (native : Bool) (d : SideDef), Primeless d.formula → ∀ q : M.Valuation,
      (d.origin = .ensures →
        (M.holds (M.eval q (bothStates state before after) (define native state d).formula) ↔
          M.holds (M.eval before (stateAfter state before after) d.formula))) ∧
      (d.origin ≠ .ensures →
        (M.holds (M.eval q before (define native state d).formula) ↔
          M.holds (M.eval before before d.formula))) := by
  refine ⟨fun e he q => ⟨eval_postState before after he, eval_preState⟩, fun native d hd q => ?_⟩
  have happlied : Primeless (applied native d.formula) := applied_over native hd
  rw [define]
  cases horigin : d.origin with
  | ensures =>
    refine ⟨fun _ => ?_, fun h => absurd rfl h⟩
    rw [eval_postState before after happlied, holds_applied]
  | requires | invariant =>
    refine ⟨fun h => absurd h (by decide), fun _ => ?_⟩
    rw [eval_preState, holds_applied]

/-- A postcondition with an `old` in an `old`, under a quantifier whose variable is called like the state. -/
def shadowed : Formula :=
  .binary .and (.eq (.ident "C_f") (.old (.binary (.arith .add) (.ident "C_f") (.int 1))))
    (.quant .all ["C_f"] (.ident "C") (.old (.eq (.ident "C_f") (.join (.ident "thiz") (.old (.ident "C_g"))))))

/-- The definition of a side variable that stands for an operation on the state before. -/
def negated : SideDef := ⟨.ensures, .eq (.ident "arith_0") (.old (.unary .neg (.ident "C_f")))⟩

/-- A variable that shadows the state keeps its name, and `old` in `old` reads the state before. -/
theorem contracts_exact_shadowed :
    let state := ["C_f", "C_g"]
    let before : Model.relations.Valuation := fun x => Set.singleton [.object x]
    let after : Model.relations.Valuation := fun _ => Set.singleton [.int 1]
    Primeless shadowed ∧ Primeless negated.formula ∧
      Model.relations.eval before (bothStates state before after) (postState state shadowed) =
        Model.relations.eval before (stateAfter state before after) shadowed ∧
      (Model.relations.holds (Model.relations.eval before (bothStates state before after)
          (define true state negated).formula) ↔
        Model.relations.holds (Model.relations.eval before (stateAfter state before after) negated.formula)) := by
  intro state before after
  have hf : Unprimed "C_f" := by decide
  have hshadowed : Primeless shadowed :=
    ⟨⟨.inr hf, .inr hf, trivial⟩, List.forall_mem_singleton.mpr hf, .inr (by decide : Unprimed "C"), .inr hf,
      .inr (by decide : Unprimed "thiz"), .inr (by decide : Unprimed "C_g")⟩
  have hnegated : Primeless negated.formula := ⟨.inr (by decide : Unprimed "arith_0"), .inr hf⟩
  obtain ⟨hcontracts, hdefinitions⟩ := contracts_exact Model.relations state before after
  exact ⟨hshadowed, hnegated, (hcontracts shadowed hshadowed before).1,
    (hdefinitions true negated hnegated before).1 rfl⟩

end Relspec.Relational
