import Mathlib.Data.Set.Card
import Mathlib.Logic.Relation
import Relspec.Proofs.Formula.Meaning

/-!
# Proofs/Formula/Relations — relations over atoms are a model

The values of the model finder are relations: sets of tuples of atoms.  A number is the one tuple of its
atom, and a condition is a relation without columns, empty when it fails.

* `Model.relations` — the model of relations over atoms.
-/

namespace Relspec

/-- An atom: a number or an object. -/
inductive Atom where
  | int (value : Int64)
  | object (name : String)
deriving DecidableEq, Repr

/-- **A relation**: a set of tuples of atoms. -/
abbrev Tuples := Set (List Atom)

namespace ArithOp

/-- What an operation computes. -/
def compute : ArithOp → Int64 → Int64 → Int64
  | .add, i, j => i + j
  | .sub, i, j => i - j
  | .mul, i, j => i * j
  | .div, i, j => i / j
  | .rem, i, j => i % j

theorem function_inj {op op' : ArithOp} (h : op.function = op'.function) : op = op' := by
  cases op <;> cases op' <;> first | rfl | exact absurd h (by decide)

theorem predicate_inj {op op' : ArithOp} (h : op.predicate = op'.predicate) : op = op' := by
  have hlist := congrArg String.toList h
  rw [predicate, predicate, String.toList_append, String.toList_append] at hlist
  exact function_inj (String.toList_inj.mp (List.append_cancel_left hlist))

end ArithOp

namespace Tuples

/-- The relation without columns that a condition is. -/
def condition (p : Prop) : Tuples := {t | t = [] ∧ p}

/-- The relation of one number. -/
def number (i : Int64) : Tuples := {[.int i]}

/-- An operation on all numbers of two relations. -/
def arith (op : ArithOp) (a b : Tuples) : Tuples :=
  {t | ∃ i j, [.int i] ∈ a ∧ [.int j] ∈ b ∧ t = [.int (op.compute i j)]}

/-- The pairs of a relation. -/
def Pair (a : Tuples) (x y : Atom) : Prop := [x, y] ∈ a

/-- What a multiplicity asks of a relation. -/
def Has (a : Tuples) : Multiplicity → Prop
  | .some => a.Nonempty
  | .no => a = ∅
  | .one => ∃! t, t ∈ a
  | .lone => a.Subsingleton

/-- Calls: the two constant conditions, and integer operations as functions and as predicates.  Nothing
else is defined. -/
def call (name : String) : List Tuples → Tuples
  | [] => condition (name = "TruePred")
  | [a, b] => {t | ∃ op : ArithOp, op.function = name ∧ t ∈ arith op a b}
  | [a, b, r] => condition (∃ op : ArithOp, op.predicate = name ∧ r = arith op a b)
  | _ => ∅

theorem mem_condition (p : Prop) : [] ∈ condition p ↔ p := by simp [condition]

theorem call_function (op : ArithOp) (a b : Tuples) : call op.function [a, b] = arith op a b := by
  ext t
  constructor
  · rintro ⟨op', hop, ht⟩
    exact ArithOp.function_inj hop ▸ ht
  · exact fun ht => ⟨op, rfl, ht⟩

theorem call_predicate (op : ArithOp) (a b r : Tuples) :
    [] ∈ call op.predicate [a, b, r] ↔ r = arith op a b := by
  rw [call, mem_condition]
  constructor
  · rintro ⟨op', hop, hr⟩
    exact ArithOp.predicate_inj hop ▸ hr
  · exact fun hr => ⟨op, rfl, hr⟩

end Tuples

open Tuples in
/-- **The model of relations over atoms.** -/
noncomputable def Model.relations : Model where
  Value := Tuples
  truth := condition
  holds a := [] ∈ a
  int := number
  join a b := {t | ∃ s x u, s ++ [x] ∈ a ∧ x :: u ∈ b ∧ t = s ++ u}
  override a b := {t | t ∈ b ∨ t ∈ a ∧ ¬ ∃ u ∈ b, u.head? = t.head?}
  product a b := {t | ∃ s ∈ a, ∃ u ∈ b, t = s ++ u}
  card a := number (Int64.ofNat a.ncard)
  star a := {t | ∃ x y, Relation.ReflTransGen a.Pair x y ∧ t = [x, y]}
  closure a := {t | ∃ x y, Relation.TransGen a.Pair x y ∧ t = [x, y]}
  has m a := a.Has m
  mem a b := a ⊆ b
  lt a b := ∃ i j, a = number i ∧ b = number j ∧ i < j
  le a b := ∃ i j, a = number i ∧ b = number j ∧ i ≤ j
  atom a := ∃ x, a = {[x]}
  call := Tuples.call
  holds_truth := mem_condition
  truePred := (mem_condition _).mpr rfl
  falsePred := fun h => absurd ((mem_condition ("FalsePred" = "TruePred")).mp h) (by decide)
  arithPred op a b r := by rw [call_predicate, call_function]

end Relspec
