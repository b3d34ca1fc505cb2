import Relspec.Formula.Basic

/-!
# Relational/Operation — integer operations as calls

An integer operation is a function of the integers, `add[a,b]`, or, in the arithmetic of the source
language, a predicate that holds of operands and result.

* `operation?` recognises an operation; a minus subtracts from zero;
* `inline` turns every operation of a formula into a function call.
-/

namespace Relspec

/-- How the names of arithmetic predicates start. -/
def ArithOp.predicateStem : String := "pred_java_primitive_integer_value_"

/-- The predicate of an operation in the arithmetic of the source language. -/
def ArithOp.predicate (op : ArithOp) : String := ArithOp.predicateStem ++ op.function

namespace Relational

/-- The operation at the root of a formula, and its operands. -/
def operation? : Formula → Option (ArithOp × Formula × Formula)
  | .binary (.arith op) x y => some (op, x, y)
  | .unary .neg x => some (.sub, .int 0, x)
  | _ => none

/-- An operation as a call. -/
def functionCall (op : ArithOp) (a b : Formula) : Formula := .call op.function [a, b]

/-- Turns the operation at the root into a call. -/
def inlineNode (f : Formula) : Formula :=
  match operation? f with
  | some (op, a, b) => functionCall op a b
  | none => f

/-- **Turns every operation of a formula into a call.** -/
def inline (f : Formula) : Formula := f.rebuild (fun _ n => inlineNode n) []

end Relational

end Relspec
