import Relspec.Arithmetic.Extraction
import Relspec.Proofs.Formula.Names
import Relspec.Relational.Operation

/-!
# Proofs/Arithmetic/Taking — how operations are taken out of formulas

* `Alike` — two formulas that are made alike, of other parts;
* `Takes` — what taking the operations out of several formulas yields, by rules;
* `extract_takes` — taking them out follows the rules.
-/

namespace Relspec.Arithmetic

open Relational (operation?)

/-- **Two formulas that are made alike**, the first of the parts `es` and the second of `outs`. -/
inductive Alike : List Formula → List Formula → Formula → Formula → Prop
  | join (x y x' y' : Formula) : Alike [x, y] [x', y'] (.join x y) (.join x' y')
  | call (name : String) (es outs : List Formula) : Alike es outs (.call name es) (.call name outs)
  | unary (op : Formula.UnaryOp) (x x' : Formula) : Alike [x] [x'] (.unary op x) (.unary op x')
  | binary (op : Formula.BinaryOp) (x y x' y' : Formula) :
    Alike [x, y] [x', y'] (.binary op x y) (.binary op x' y')
  | ite (c x y c' x' y' : Formula) : Alike [c, x, y] [c', x', y'] (.ite c x y) (.ite c' x' y')

/-- **What taking the operations out of the formulas `es` yields**: the formulas `outs` and the
definitions `ds`, whose variables are numbered from `n` on and below `m`.  An operation stays where it
mentions a variable that is bound around it; any other gets a name, and is defined under `old` if it
stood there. -/
inductive Takes : List String → Bool → List Formula → List Formula → List Definition → Nat → Nat → Prop
  | nil : Takes bound inOld [] [] [] n n
  | cons : Takes bound inOld [e] [out] ds n m → Takes bound inOld es outs ds' m k →
    Takes bound inOld (e :: es) (out :: outs) (ds ++ ds') n k
  | ident (name : String) : Takes bound inOld [.ident name] [.ident name] [] n n
  | int (value : Int64) : Takes bound inOld [.int value] [.int value] [] n n
  | kept : Takes bound inOld es outs ds n m → Alike es outs f g →
    ((operation? g).isSome = true → ∃ x ∈ g.freeNames, x ∈ bound) → Takes bound inOld [f] [g] ds n m
  | named : Takes bound inOld es outs ds n m → Alike es outs f g →
    (operation? g).isSome = true → (∀ x ∈ g.freeNames, x ∉ bound) →
    Takes bound inOld [f] [.ident (sideVar m)] (ds ++ [⟨sideVar m, if inOld then .old g else g⟩]) n (m + 1)
  | quant (kind : Formula.Quantifier) :
    Takes bound inOld [x] [x'] ds n m → Takes (bound ++ vars) inOld [y] [y'] ds' m k →
    Takes bound inOld [.quant kind vars x y] [.quant kind vars x' y'] (ds ++ ds') n k
  | old : Takes bound true [x] [x'] ds n m → Takes bound inOld [.old x] [.old x'] ds n m

variable {bound : List String} {inOld : Bool} {n m : Nat} {ds : List Definition}
  {es outs : List Formula} {f g : Formula}

theorem Alike.symm (h : Alike es outs f g) : Alike outs es g f := by
  cases h <;> constructor

theorem Alike.mem_occurrences (h : Alike es outs f g) {z : String} :
    z ∈ f.occurrences [] ↔ z ∈ Formula.occurrencesAll [] es := by
  cases h <;> simp [Formula.occurrences, Formula.occurrencesAll]

namespace Takes

theorem node (h : Takes bound inOld es outs ds n m) (hfg : Alike es outs f g)
    (hop : (operation? g).isSome = false) : Takes bound inOld [f] [g] ds n m :=
  h.kept hfg fun hsome => nomatch hop.symm.trans hsome

theorem nameUnless (h : Takes bound inOld es outs ds n m) (hfg : Alike es outs f g)
    (hop : (operation? g).isSome = true) :
    Takes bound inOld [f] [((nameUnless bound inOld g).run m).1.1]
      (ds ++ ((Arithmetic.nameUnless bound inOld g).run m).1.2) n
      ((Arithmetic.nameUnless bound inOld g).run m).2 := by
  have hmentions : g.mentions bound = true ↔ ∃ x ∈ g.freeNames, x ∈ bound := by
    simp [Formula.mentions]
  rw [Arithmetic.nameUnless]
  split
  · next hbound =>
    rw [← List.append_nil ds] at h
    exact h.kept hfg fun _ => hmentions.mp hbound
  · next hbound => exact h.named hfg hop fun x hx hb => hbound (hmentions.mpr ⟨x, hx, hb⟩)

end Takes

mutual

/-- **Taking the operations out of a formula** follows the rules. -/
theorem extract_takes (bound : List String) (inOld : Bool) : ∀ (e : Formula) (n : Nat),
    Takes bound inOld [e] [((extract bound inOld e).run n).1.1] ((extract bound inOld e).run n).1.2 n
      ((extract bound inOld e).run n).2
  | .ident name, _ => .ident name
  | .int value, _ => .int value
  | .binary op x y, n => by
    have hxy := (extract_takes bound inOld x n).cons (extract_takes bound inOld y _)
    rw [extract]
    cases op with
    | arith o => exact hxy.nameUnless (.binary ..) rfl
    | _ => exact hxy.node (.binary ..) rfl
  | .unary op x, n => by
    have hx := extract_takes bound inOld x n
    rw [extract]
    cases op with
    | neg => exact hx.nameUnless (.unary ..) rfl
    | _ => exact hx.node (.unary ..) rfl
  | .quant kind vars domain body, n =>
    (extract_takes bound inOld domain n).quant kind (extract_takes (bound ++ vars) inOld body _)
  | .old x, n => (extract_takes bound true x n).old
  | .join l r, n =>
    ((extract_takes bound inOld l n).cons (extract_takes bound inOld r _)).node (.join ..) rfl
  | .call name args, n => (extractAll_takes bound inOld args n).node (.call ..) rfl
  | .ite c t e, n => by
    have hparts := (extract_takes bound inOld c n).cons
      ((extract_takes bound inOld t _).cons (extract_takes bound inOld e _))
    rw [← List.append_assoc] at hparts
    exact hparts.node (.ite ..) rfl

theorem extractAll_takes (bound : List String) (inOld : Bool) : ∀ (es : List Formula) (n : Nat),
    Takes bound inOld es ((extractAll bound inOld es).run n).1.1 ((extractAll bound inOld es).run n).1.2 n
      ((extractAll bound inOld es).run n).2
  | [], _ => .nil
  | e :: es, n => (extract_takes bound inOld e n).cons (extractAll_takes bound inOld es _)

end

end Relspec.Arithmetic
