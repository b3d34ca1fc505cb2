import Mathlib.Logic.Function.Basic
import Relspec.Proofs.Formula.Meaning
import Relspec.Relational.Basic

/-!
# Proofs/Spec/BoundedRun — relational bodies run on states

A body is run in order from a state, every loop at most a given number of times.  A loop that would go
on is cut: that its test has become false is assumed, and the run goes on after it.  So does a run whose
assumption fails; what a run assumes and what it has to meet are only collected.

* `Reached.andThen` — a run goes on unless it has ended;
* `exec`, `execAll` — a statement, a body.
-/

namespace Relspec.Spec

open Relational (Stmt)

/-- **Where a run has got to**: the state, whether a return or a throw has ended the run, what it has
assumed on the way, and what it had to meet. -/
structure Reached (M : Model) where
  state : M.Valuation
  ended : Bool := false
  assumed : List Prop := []
  obliged : List Prop := []

namespace Reached

variable {M : Model}

/-- Goes on with `f` unless the run has ended. -/
def andThen (r : Reached M) (f : M.Valuation → Reached M) : Reached M :=
  if r.ended then r
  else
    { f r.state with
      assumed := r.assumed ++ (f r.state).assumed
      obliged := r.obliged ++ (f r.state).obliged }

@[simp] theorem andThen_pure (σ : M.Valuation) (f : M.Valuation → Reached M) :
    andThen { state := σ } f = f σ := by simp [andThen]

end Reached

/-- The value that a predicate gives to its last argument, from the others. -/
noncomputable def result (M : Model) (pred : String) (args : List M.Value) : M.Value :=
  @Classical.epsilon _ ⟨M.truth True⟩ fun r => M.holds (M.call pred (args ++ [r]))

open Classical in
/-- A run that goes one way where a condition holds and another elsewhere. -/
noncomputable def branchExec {M : Model} (cond : Formula) (thn els : M.Valuation → Reached M)
    (σ : M.Valuation) : Reached M :=
  if M.Holds σ cond then thn σ else els σ

/-- What a loop is made of, with its lead and body as runs. -/
structure LoopExec (M : Model) where
  lead : M.Valuation → Reached M
  body : M.Valuation → Reached M
  cond : Formula
  invariant : Option Formula
  variant : Option Formula

namespace LoopExec

variable {M : Model}

/-- What a run has to meet at a test: the invariant. -/
def atTest (l : LoopExec M) (σ : M.Valuation) : List Prop := l.invariant.toList.map (M.Holds σ)

/-- What a run has to meet before the body: the variant is not negative. -/
def beforeBody (l : LoopExec M) (σ : M.Valuation) : List Prop :=
  l.variant.toList.map fun f => M.le (M.int 0) (M.value σ f)

/-- What a run has to meet after the body: the variant is less than before. -/
def afterBody (l : LoopExec M) (before after : M.Valuation) : List Prop :=
  l.variant.toList.map fun f => M.lt (M.value after f) (M.value before f)

/-- **At most `n` iterations**, the lead before every test; the loop is cut at the test after the
last. -/
noncomputable def exec (l : LoopExec M) : Nat → M.Valuation → Reached M
  | 0, σ => (l.lead σ).andThen fun σ =>
    { state := σ, assumed := [¬ M.Holds σ l.cond], obliged := l.atTest σ }
  | n + 1, σ => (l.lead σ).andThen fun σ =>
    Reached.andThen { state := σ, obliged := l.atTest σ } (branchExec l.cond (fun σ =>
      Reached.andThen { state := σ, obliged := l.beforeBody σ } fun σ =>
        (l.body σ).andThen fun τ =>
          Reached.andThen { state := τ, obliged := l.afterBody σ τ } (exec l n))
      fun σ => { state := σ })

end LoopExec

mutual

/-- **Runs a statement from a state**, its loops at most `n` times. -/
noncomputable def exec (M : Model) (n : Nat) : Stmt → M.Valuation → Reached M
  | .assign target value, σ => { state := Function.update σ target (M.value σ value) }
  | .update field object value, σ =>
    { state := Function.update σ field
        (M.override (σ field) (M.product (M.value σ object) (M.value σ value))) }
  | .compute target pred args, σ =>
    { state := Function.update σ target (result M pred (args.map (M.value σ))) }
  | .branch cond thn els, σ => branchExec cond (execAll M n thn) (execAll M n els) σ
  | .loop lead cond invariant variant body, σ =>
    LoopExec.exec ⟨execAll M n lead, execAll M n body, cond, invariant, variant⟩ n σ
  | .assert cond, σ => { state := σ, obliged := [M.Holds σ cond] }
  | .assume cond, σ => { state := σ, assumed := [M.Holds σ cond] }
  | .ret none, σ => { state := σ, ended := true }
  | .ret (some value), σ =>
    { state := Function.update σ "return" (M.value σ value), ended := true }
  | .raise exception, σ => { state := Function.update σ "throw" (σ exception), ended := true }

/-- Runs statements in order. -/
noncomputable def execAll (M : Model) (n : Nat) : List Stmt → M.Valuation → Reached M
  | [], σ => { state := σ }
  | s :: ss, σ => (exec M n s σ).andThen (execAll M n ss)

end

end Relspec.Spec
