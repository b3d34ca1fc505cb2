import Mathlib.Data.List.Basic
import Mathlib.Logic.ExistsUnique
import Mathlib.Tactic.SplitIfs
import Relspec.Proofs.Formula.Names
import Relspec.Relational.Operation

/-!
# Proofs/Formula/Meaning — what a formula says of a state

A `Model` fixes what the relational and the integer operators do; connectives, equality, conditional
terms and quantifiers mean the same in every model.  A formula is read over two states, of which `old`
reads the first; where there is one state it stands for both.

* `eval_congr` — the value depends on the free names alone;
* `eval_substitute` — putting formulas for names changes the valuation, as long as nothing is captured;
* `holds_all`, `holds_any`, `holds_implies` — dropping trivial operands changes no meaning.
-/

namespace Relspec

open List

/-! ## Models -/

/-- **A model of the relational language.**  Conditions and relations share one type of values.  The
predicates that every specification starts with mean what their definitions there say. -/
structure Model where
  Value : Type
  truth : Prop → Value
  holds : Value → Prop
  int : Int64 → Value
  join : Value → Value → Value
  override : Value → Value → Value
  product : Value → Value → Value
  card : Value → Value
  star : Value → Value
  closure : Value → Value
  has : Multiplicity → Value → Prop
  mem : Value → Value → Prop
  lt : Value → Value → Prop
  le : Value → Value → Prop
  atom : Value → Prop
  call : String → List Value → Value
  holds_truth : ∀ p, holds (truth p) ↔ p
  truePred : holds (call "TruePred" [])
  falsePred : ¬ holds (call "FalsePred" [])
  arithPred : ∀ (op : ArithOp) a b r,
    holds (call op.predicate [a, b, r]) ↔ r = call op.function [a, b]

/-- What a quantifier asks of the members of `D` that satisfy `P`. -/
def Formula.Quantifier.asks {α : Type} (D P : α → Prop) : Formula.Quantifier → Prop
  | .all => ∀ a, D a → P a
  | .mult .some => ∃ a, D a ∧ P a
  | .mult .no => ¬ ∃ a, D a ∧ P a
  | .mult .one => ∃! a, D a ∧ P a
  | .mult .lone => ∀ a b, D a ∧ P a → D b ∧ P b → a = b

namespace Model

variable (M : Model)

/-- A value for every name. -/
abbrev Valuation := String → M.Value

/-- The valuation that gives `vars` the values `vals`; the first of several values of a name counts. -/
def bind (ρ : M.Valuation) (vars : List String) (vals : List M.Value) : M.Valuation :=
  fun x => ((vars.zip vals).lookup x).getD (ρ x)

/-- What `n` variables of a quantifier range over: `n` atoms of the domain. -/
def ranges (domain : M.Value) (n : Nat) (vals : List M.Value) : Prop :=
  vals.length = n ∧ ∀ a ∈ vals, M.atom a ∧ M.mem a domain

/-- A unary operator.  Minus subtracts from zero. -/
def unary : Formula.UnaryOp → M.Value → M.Value
  | .not, a => M.truth (¬ M.holds a)
  | .neg, a => M.call ArithOp.sub.function [M.int 0, a]
  | .card, a => M.card a
  | .star, a => M.star a
  | .closure, a => M.closure a
  | .mult m, a => M.truth (M.has m a)

/-- A binary operator.  An integer operation is the function of its name. -/
def binary : Formula.BinaryOp → M.Value → M.Value → M.Value
  | .and, a, b => M.truth (M.holds a ∧ M.holds b)
  | .or, a, b => M.truth (M.holds a ∨ M.holds b)
  | .implies, a, b => M.truth (M.holds a → M.holds b)
  | .iff, a, b => M.truth (M.holds a ↔ M.holds b)
  | .eq, a, b => M.truth (a = b)
  | .ne, a, b => M.truth (a ≠ b)
  | .mem, a, b => M.truth (M.mem a b)
  | .lt, a, b => M.truth (M.lt a b)
  | .le, a, b => M.truth (M.le a b)
  | .gt, a, b => M.truth (M.lt b a)
  | .ge, a, b => M.truth (M.le b a)
  | .arith op, a, b => M.call op.function [a, b]
  | .override, a, b => M.override a b
  | .product, a, b => M.product a b

open Classical in
/-- A conditional term. -/
noncomputable def cond (c t e : M.Value) : M.Value := if M.holds c then t else e

mutual

/-- **The value of a formula** over the states `pre` and `cur`. -/
noncomputable def eval (pre cur : M.Valuation) : Formula → M.Value
  | .ident name => cur name
  | .int value => M.int value
  | .join l r => M.join (eval pre cur l) (eval pre cur r)
  | .call name args => M.call name (evalAll pre cur args)
  | .unary op x => M.unary op (eval pre cur x)
  | .binary op x y => M.binary op (eval pre cur x) (eval pre cur y)
  | .quant kind vars domain body =>
    M.truth (kind.asks (M.ranges (eval pre cur domain) vars.length)
      fun vals => M.holds (eval (M.bind pre vars vals) (M.bind cur vars vals) body))
  | .old x => eval pre pre x
  | .ite c t e => M.cond (eval pre cur c) (eval pre cur t) (eval pre cur e)

/-- The values of several formulas. -/
noncomputable def evalAll (pre cur : M.Valuation) : List Formula → List M.Value
  | [] => []
  | x :: xs => eval pre cur x :: evalAll pre cur xs

end

/-- The value of a formula over one state. -/
noncomputable abbrev value (ρ : M.Valuation) (f : Formula) : M.Value := M.eval ρ ρ f

/-- Whether a formula holds in a state. -/
abbrev Holds (ρ : M.Valuation) (f : Formula) : Prop := M.holds (M.value ρ f)

variable {M}

theorem evalAll_eq_map (pre cur : M.Valuation) :
    ∀ fs : List Formula, M.evalAll pre cur fs = fs.map (M.eval pre cur)
  | [] => by rw [evalAll, map_nil]
  | x :: xs => by rw [evalAll, map_cons, evalAll_eq_map pre cur xs]

/-! ## Valuations under quantifiers -/

theorem bind_of_not_mem {ρ : M.Valuation} {vars : List String} {vals : List M.Value} {x : String}
    (h : x ∉ vars) : M.bind ρ vars vals x = ρ x := by
  have hnone : (vars.zip vals).lookup x = none := by
    rw [lookup_eq_none_iff]
    rintro ⟨y, v⟩ hp
    have hy : y ∈ vars := (of_mem_zip hp).1
    simpa using fun hxy : x = y => h (hxy ▸ hy)
  rw [bind, hnone, Option.getD_none]

/-- A bound name has its own value, whatever is around the quantifier. -/
theorem bind_of_mem (ρ ρ' : M.Valuation) {x : String} :
    ∀ {vars : List String} {vals : List M.Value}, vals.length = vars.length → x ∈ vars →
      M.bind ρ vars vals x = M.bind ρ' vars vals x
  | [], _, _, hx => absurd hx not_mem_nil
  | y :: vars, [], hlen, _ => by simp at hlen
  | y :: vars, v :: vals, hlen, hx => by
    by_cases hxy : x = y
    · simp [bind, hxy]
    · have hmem : x ∈ vars := (mem_cons.mp hx).resolve_left hxy
      have ih := bind_of_mem ρ ρ' (by simpa using hlen) hmem
      have hne : (x == y) = false := by simpa using hxy
      simpa [bind, lookup_cons, hne] using ih

/-- Two quantified formulas have one value when their bodies agree on what the variables range over. -/
theorem asks_congr {α : Type} {D P Q : α → Prop} (kind : Formula.Quantifier)
    (h : ∀ a, D a → (P a ↔ Q a)) : kind.asks D P ↔ kind.asks D Q := by
  have hand : ∀ a, D a ∧ P a ↔ D a ∧ Q a := fun a => and_congr_right (h a)
  match kind with
  | .all => exact forall_congr' fun a => forall_congr' fun ha => h a ha
  | .mult .some => exact exists_congr hand
  | .mult .no => exact not_congr (exists_congr hand)
  | .mult .one => exact existsUnique_congr hand
  | .mult .lone =>
    exact forall_congr' fun a => forall_congr' fun b => by rw [hand a, hand b]

/-! ## The value depends on the free names alone -/

/-- The value of a formula, under the binders `bound`, from its names. -/
theorem eval_congr_under (bound : List String) {pre cur pre' cur' : M.Valuation} (e : Formula)
    (h : ∀ x, x ∈ bound ∨ x ∈ e.occurrences bound → pre x = pre' x ∧ cur x = cur' x) :
    M.eval pre cur e = M.eval pre' cur' e := by
  induction e generalizing bound pre cur pre' cur' with
  | ident name =>
    by_cases hb : name ∈ bound
    · simp only [eval, (h name (.inl hb)).2]
    · simp only [eval, (h name (.inr (by simp [Formula.occurrences, hb]))).2]
  | int => simp only [eval]
  | call _ args ih =>
    simp only [Formula.occurrences, Formula.mem_occurrencesAll_iff] at h
    rw [eval, eval, evalAll_eq_map, evalAll_eq_map]
    exact congrArg _ (map_congr_left fun a ha =>
      ih a ha bound fun x hx => h x (hx.imp_right fun hx => ⟨a, ha, hx⟩))
  | unary _ _ ih => rw [eval, eval, ih bound h]
  | join _ _ ihl ihr | binary _ _ _ ihl ihr =>
    simp only [Formula.occurrences, mem_append] at h
    rw [eval, eval, ihl bound fun x hx => h x (hx.imp_right .inl), ihr bound fun x hx => h x (hx.imp_right .inr)]
  | quant kind vars _ _ ihd ihb =>
    simp only [Formula.occurrences, mem_append] at h
    rw [eval, eval, ihd bound fun x hx => h x (hx.imp_right .inl)]
    refine congrArg M.truth (propext (asks_congr kind fun vals hvals => ?_))
    rw [ihb (bound ++ vars) fun x hx => ?_]
    by_cases hv : x ∈ vars
    · exact ⟨bind_of_mem _ _ hvals.1 hv, bind_of_mem _ _ hvals.1 hv⟩
    · rw [bind_of_not_mem hv, bind_of_not_mem hv, bind_of_not_mem hv, bind_of_not_mem hv]
      exact h x (hx.imp (fun hb => (mem_append.mp hb).resolve_right hv) .inr)
  | old _ ih =>
    rw [eval, eval, ih bound fun x hx => ?_]
    exact ⟨(h x hx).1, (h x hx).1⟩
  | ite _ _ _ ihc iht ihe =>
    simp only [Formula.occurrences, mem_append] at h
    rw [eval, eval, ihc bound fun x hx => h x (hx.imp_right fun hx => .inl (.inl hx)),
      iht bound fun x hx => h x (hx.imp_right fun hx => .inl (.inr hx)),
      ihe bound fun x hx => h x (hx.imp_right .inr)]

/-- **The value of a formula depends on its free names alone.** -/
theorem eval_congr {pre cur pre' cur' : M.Valuation} {e : Formula}
    (h : ∀ x ∈ e.freeNames, pre x = pre' x ∧ cur x = cur' x) :
    M.eval pre cur e = M.eval pre' cur' e :=
  eval_congr_under [] e fun x hx =>
    h x (mem_eraseDups.mpr (hx.resolve_left not_mem_nil))

end Model

/-! ## Putting formulas for names -/

namespace Model

variable {M : Model}
variable {σ : Table Formula} {pre₀ cur₀ pre cur pre' cur' : M.Valuation}

/-- The valuation that gives the names of a substitution the values of their formulas. -/
noncomputable def updated (σ : Table Formula) (pre cur : M.Valuation) : M.Valuation :=
  fun x => ((σ.find? x).map (M.eval pre cur)).getD (cur x)

/-- How the two readings of a formula under the names `bound` are related: `pre` and `cur` read the
formula with `σ` put in, `pre'` and `cur'` read the formula itself. -/
structure Reads (σ : Table Formula) (bound : List String)
    (pre₀ cur₀ pre cur pre' cur' : M.Valuation) : Prop where
  outside : ∀ x ∉ bound, pre x = pre₀ x ∧ cur x = cur₀ x
  bound_eq : ∀ x ∈ bound, pre' x = pre x ∧ cur' x = cur x
  free_eq : ∀ x ∉ bound, pre' x = updated σ pre₀ pre₀ x ∧ cur' x = updated σ pre₀ cur₀ x

/-- Under `old` both states are the first. -/
theorem Reads.old {bound : List String} (h : Reads σ bound pre₀ cur₀ pre cur pre' cur') :
    Reads σ bound pre₀ pre₀ pre pre pre' pre' where
  outside x hx := ⟨(h.outside x hx).1, (h.outside x hx).1⟩
  bound_eq x hx := ⟨(h.bound_eq x hx).1, (h.bound_eq x hx).1⟩
  free_eq x hx := ⟨(h.free_eq x hx).1, (h.free_eq x hx).1⟩

/-- Under a quantifier its variables are bound as well. -/
theorem Reads.bind {bound vars : List String} {vals : List M.Value}
    (hlen : vals.length = vars.length)
    (h : Reads σ bound pre₀ cur₀ pre cur pre' cur') :
    Reads σ (bound ++ vars) pre₀ cur₀ (M.bind pre vars vals) (M.bind cur vars vals)
      (M.bind pre' vars vals) (M.bind cur' vars vals) where
  outside x hx := by
    obtain ⟨hb, hv⟩ := not_or.mp (mt mem_append.mpr hx)
    rw [bind_of_not_mem hv, bind_of_not_mem hv]
    exact h.outside x hb
  bound_eq x hx := by
    by_cases hv : x ∈ vars
    · exact ⟨bind_of_mem _ _ hlen hv, bind_of_mem _ _ hlen hv⟩
    · simp only [bind_of_not_mem hv]
      exact h.bound_eq x ((mem_append.mp hx).resolve_right hv)
  free_eq x hx := by
    obtain ⟨hb, hv⟩ := not_or.mp (mt mem_append.mpr hx)
    rw [bind_of_not_mem hv, bind_of_not_mem hv]
    exact h.free_eq x hb

theorem eval_rebuild (bound : List String) (e : Formula) (ha : e.Admits σ bound)
    (h : Reads σ bound pre₀ cur₀ pre cur pre' cur') :
    M.eval pre cur (e.rebuild (Formula.substituteNode σ) bound) = M.eval pre' cur' e := by
  induction e generalizing bound cur₀ pre cur pre' cur' with
  | ident name =>
    rw [Formula.rebuild, Formula.substituteNode, eval]
    by_cases hb : name ∈ bound
    · rw [if_pos (contains_iff_mem.mpr hb), eval, (h.bound_eq name hb).2]
    · rw [if_neg (mt contains_iff_mem.mp hb), (h.free_eq name hb).2, updated]
      cases hf : σ.find? name with
      | none => simp only [Option.getD_none, Option.map_none, eval, (h.outside name hb).2]
      | some f =>
        simp only [Option.getD_some, Option.map_some]
        rw [Formula.Admits] at ha
        exact eval_congr fun x hx => h.outside x (ha hb f hf x hx)
  | int => simp only [Formula.rebuild, Formula.substituteNode, eval]
  | call _ args ih =>
    rw [Formula.Admits, Formula.admitsAll_iff] at ha
    simp only [Formula.rebuild, Formula.substituteNode, eval, evalAll_eq_map, Formula.rebuildAll_eq_map,
      map_map]
    exact congrArg _ (map_congr_left fun a hmem => ih a hmem bound (ha a hmem) h)
  | unary _ _ ih =>
    rw [Formula.Admits] at ha
    simp only [Formula.rebuild, Formula.substituteNode, eval, ih bound ha h]
  | join _ _ ihl ihr | binary _ _ _ ihl ihr =>
    rw [Formula.Admits] at ha
    simp only [Formula.rebuild, Formula.substituteNode, eval, ihl bound ha.1 h, ihr bound ha.2 h]
  | quant kind vars _ _ ihd ihb =>
    rw [Formula.Admits] at ha
    simp only [Formula.rebuild, Formula.substituteNode, eval, ihd bound ha.1 h]
    refine congrArg M.truth (propext (asks_congr kind fun vals hvals => ?_))
    rw [ihb (bound ++ vars) ha.2 (h.bind hvals.1)]
  | old _ ih =>
    rw [Formula.Admits] at ha
    simp only [Formula.rebuild, Formula.substituteNode, eval, ih bound ha h.old]
  | ite _ _ _ ihc iht ihe =>
    rw [Formula.Admits] at ha
    simp only [Formula.rebuild, Formula.substituteNode, eval, ihc bound ha.1 h, iht bound ha.2.1 h,
      ihe bound ha.2.2 h]

/-- **Substitution changes the valuation.** -/
theorem eval_substitute {e : Formula} (pre cur : M.Valuation) (ha : e.Admits σ []) :
    M.eval pre cur (e.substitute σ) = M.eval (updated σ pre pre) (updated σ pre cur) e :=
  eval_rebuild [] e ha
    { outside := fun _ _ => ⟨rfl, rfl⟩
      bound_eq := fun _ hx => absurd hx not_mem_nil
      free_eq := fun _ _ => ⟨rfl, rfl⟩ }

end Model

/-! ## Connectives without trivial operands -/

namespace Model

variable {M : Model} {pre cur : M.Valuation}

theorem holds_of_isTruth {f : Formula} (h : f.isTruth = true) : M.holds (M.eval pre cur f) := by
  rw [Formula.eq_truth_of_isTruth h, Formula.truth, eval, evalAll]
  exact M.truePred

theorem not_holds_of_isFalsity {f : Formula} (h : f.isFalsity = true) :
    ¬ M.holds (M.eval pre cur f) := by
  rw [Formula.eq_falsity_of_isFalsity h, Formula.falsity, eval, evalAll]
  exact M.falsePred

theorem holds_truthFormula : M.holds (M.eval pre cur .truth) := holds_of_isTruth rfl

theorem not_holds_falsity : ¬ M.holds (M.eval pre cur .falsity) := not_holds_of_isFalsity rfl

@[simp] theorem holds_not {f : Formula} :
    M.holds (M.eval pre cur (.not f)) ↔ ¬ M.holds (M.eval pre cur f) := by
  rw [Formula.not, eval, unary, M.holds_truth]

@[simp] theorem holds_eq {x y : Formula} :
    M.holds (M.eval pre cur (.eq x y)) ↔ M.eval pre cur x = M.eval pre cur y := by
  rw [Formula.eq, eval, binary, M.holds_truth]

theorem holds_allFrom : ∀ (fs : List Formula) (acc : Option Formula),
    M.holds (M.eval pre cur (Formula.allFrom acc fs)) ↔
      (∀ g ∈ acc, M.holds (M.eval pre cur g)) ∧ ∀ f ∈ fs, M.holds (M.eval pre cur f)
  | [], none => by simp [Formula.allFrom, holds_truthFormula]
  | [], some g => by simp [Formula.allFrom]
  | f :: fs, acc => by
    rw [forall_mem_cons]
    unfold Formula.allFrom
    split_ifs with ht hf
    · rw [holds_allFrom fs acc]
      exact and_congr_right fun _ => (and_iff_right (holds_of_isTruth ht)).symm
    · refine iff_of_false not_holds_falsity fun h => not_holds_of_isFalsity hf h.2.1
    · cases acc with
      | none => simp [holds_allFrom fs (some f)]
      | some g =>
        rw [holds_allFrom fs]
        simp only [Option.mem_def, Option.some.injEq, forall_eq', eval, binary, M.holds_truth]
        exact and_assoc

/-- **A conjunction holds when each operand does.** -/
@[simp] theorem holds_all {fs : List Formula} :
    M.holds (M.eval pre cur (.all fs)) ↔ ∀ f ∈ fs, M.holds (M.eval pre cur f) := by
  rw [Formula.all, holds_allFrom]
  simp

theorem holds_anyFrom : ∀ (fs : List Formula) (acc : Option Formula),
    M.holds (M.eval pre cur (Formula.anyFrom acc fs)) ↔
      (∃ g ∈ acc, M.holds (M.eval pre cur g)) ∨ ∃ f ∈ fs, M.holds (M.eval pre cur f)
  | [], none => by simp [Formula.anyFrom, not_holds_falsity]
  | [], some g => by simp [Formula.anyFrom]
  | f :: fs, acc => by
    rw [exists_mem_cons_iff]
    unfold Formula.anyFrom
    split_ifs with hf ht
    · rw [holds_anyFrom fs acc]
      exact or_congr_right (or_iff_right (not_holds_of_isFalsity hf)).symm
    · exact iff_of_true holds_truthFormula (.inr (.inl (holds_of_isTruth ht)))
    · cases acc with
      | none => simp [holds_anyFrom fs (some f)]
      | some g =>
        rw [holds_anyFrom fs]
        simp only [Option.mem_def, Option.some.injEq, exists_eq_left', eval, binary, M.holds_truth]
        exact or_assoc

/-- **A disjunction holds when some operand does.** -/
@[simp] theorem holds_any {fs : List Formula} :
    M.holds (M.eval pre cur (.any fs)) ↔ ∃ f ∈ fs, M.holds (M.eval pre cur f) := by
  rw [Formula.any, holds_anyFrom]
  simp

/-- **An implication holds when its guard does not, or its conclusion does.** -/
@[simp] theorem holds_implies {g f : Formula} :
    M.holds (M.eval pre cur (.implies g f)) ↔
      (M.holds (M.eval pre cur g) → M.holds (M.eval pre cur f)) := by
  rw [Formula.implies]
  split_ifs with hg h
  · exact ⟨fun h _ => h, fun h => h (holds_of_isTruth hg)⟩
  · refine iff_of_true holds_truthFormula fun hgh => ?_
    rcases Bool.or_eq_true_iff.mp h with h | h
    · exact absurd hgh (not_holds_of_isFalsity h)
    · exact holds_of_isTruth h
  · rw [eval, binary, M.holds_truth]

end Model

end Relspec
