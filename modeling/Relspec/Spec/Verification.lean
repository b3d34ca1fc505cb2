import Relspec.Relational.Basic
import Relspec.Relational.Contract

/-!
# Spec/Verification — programs as conditions on versions of their variables

A body is run symbolically.  Every assignment makes a new version of its variable, equal to the value
where the statement is reached and to the version before elsewhere.  Loops are run a bounded number of
times.  What the statements do is recorded as transitions, what they have to meet as obligations.

* `Verification.guard` — when the statement at hand is reached;
* `Verification.assign`, `Verification.exit` — a new version, and the end of a run;
* `run`, `runAll` — a statement, a body.
-/

namespace Relspec.Spec

/-- The type of a state variable as text; a relation carries its multiplicity already. -/
structure Shape where
  type : String
  relation : Bool := false
deriving DecidableEq, Repr

/-- A version of a variable, or a variable that has no versions. -/
structure StateVar where
  name : String
  shape : Shape
deriving DecidableEq, Repr

/-- The `n`-th version of a variable. -/
def versioned (base : String) (n : Nat) : String := base ++ "_" ++ toString n

/-- **A transition**: what a statement makes of the versions.  A transition that defines a version holds
of the value that the version gets; any other leaves runs out. -/
structure Transition where
  formula : Formula
  defines : Option String := none
deriving Repr

/-- **The state of a symbolic run**: the versions so far, transitions and obligations, the condition of
the branch at hand, and the condition under which the run has ended. -/
structure Verification where
  vars : List StateVar := []
  shapes : Table Shape := .empty
  versions : Table Nat := .empty
  transitions : List Transition := []
  obligations : List Formula := []
  path : Formula := .truth
  done : Formula := .falsity
deriving Repr

namespace Verification

/-- Declares a variable with its first version. -/
def declare (v : Verification) (base : String) (shape : Shape) : Verification :=
  { v with
    vars := v.vars ++ [⟨versioned base 0, shape⟩]
    shapes := v.shapes.insert base shape
    versions := v.versions.insert base 0 }

/-- Declares a name without versions. -/
def constant (v : Verification) (name : String) (shape : Shape) : Verification :=
  { v with vars := v.vars ++ [⟨name, shape⟩] }

/-- The number of the last version. -/
def version (v : Verification) (base : String) : Nat := (v.versions.find? base).getD 0

/-- The last version of a variable. -/
def current (v : Verification) (base : String) : String := versioned base (v.version base)

/-- A variable that is set without being declared is an integer. -/
def declared (v : Verification) (base : String) : Verification :=
  if v.shapes.contains base then v else v.declare base ⟨"Int", false⟩

/-- Makes the next version of a declared variable. -/
def next (v : Verification) (base : String) : Verification :=
  let n := v.version base + 1
  { v with
    vars := v.vars ++ [⟨versioned base n, (v.shapes.find? base).getD ⟨"Int", false⟩⟩]
    versions := v.versions.insert base n }

/-- The current version of every declared variable. -/
def currents (v : Verification) : Table String :=
  ⟨v.versions.entries.map fun e => (e.1, versioned e.1 e.2)⟩

/-- **Puts the current versions for the variables of a formula.** -/
def rename (v : Verification) (f : Formula) : Formula := f.rename v.currents

/-- **When the statement at hand is reached.** -/
def guard (v : Verification) : Formula :=
  if v.done.isFalsity then v.path
  else if v.done.isTruth then .falsity
  else .all [v.path, .not v.done]

/-- A condition where `g` holds, another elsewhere. -/
def choose (g thn els : Formula) : Formula := if g.isTruth then thn else .ite g thn els

/-- Adds the transition that defines a version. -/
def define (v : Verification) (name : String) (f : Formula) : Verification :=
  { v with transitions := v.transitions ++ [⟨f, some name⟩] }

/-- Adds what is assumed. -/
def require (v : Verification) (f : Formula) : Verification :=
  { v with transitions := v.transitions ++ [⟨f, none⟩] }

/-- Adds what is to be shown. -/
def oblige (v : Verification) (f : Formula) : Verification :=
  { v with obligations := v.obligations ++ [f] }

/-- **Makes a new version of a variable**, which `value` sets, given the names of the old and the new
version, where the statement is reached. -/
def set (v : Verification) (base : String) (value : String → String → Formula) : Verification :=
  let g := v.guard
  if g.isFalsity then v
  else
    let v := v.declared base
    let old := v.current base
    let v := v.next base
    let new := v.current base
    v.define new (choose g (value old new) (.eq (.ident new) (.ident old)))

/-- Sets a variable to a value over the current versions. -/
def assign (v : Verification) (base : String) (value : Formula) : Verification :=
  v.set base fun _ new => .eq (.ident new) value

/-- **Ends the run** where the statement is reached. -/
def exit (v : Verification) : Verification := { v with done := .any [v.done, v.guard] }

/-- Runs under a further condition of the branch. -/
def under (v : Verification) (cond : Formula) : Verification := { v with path := .all [v.path, cond] }

/-- What a loop is made of, with its lead and body as runs. -/
structure LoopRun where
  lead : Verification → Verification
  body : Verification → Verification
  cond : Formula
  invariant : Option Formula
  variant : Option Formula

/-- The obligation that the invariant holds at a test. -/
def obligeInvariant (v : Verification) (l : LoopRun) (g : Formula) : Verification :=
  match l.invariant with
  | some i => v.oblige (.implies g (v.rename i))
  | none => v

/-- One iteration whose test is reached under `g`.  The variant is not negative before the body, and
less after it. -/
def iteration (v : Verification) (l : LoopRun) (g : Formula) : Verification :=
  let v := v.obligeInvariant l g
  let cond := v.rename l.cond
  match l.variant with
  | none => l.body (v.under cond)
  | some variant =>
    let before := v.rename variant
    let v := v.oblige (.implies (.all [g, cond]) (.binary .ge before (.int 0)))
    let v := l.body (v.under cond)
    v.oblige (.implies v.guard (.binary .lt (v.rename variant) before))

/-- At most `n` iterations; none once the loop is not reached. -/
def iterate (l : LoopRun) : Nat → Verification → Verification
  | 0, v => v
  | n + 1, v =>
    let v := l.lead v
    let g := v.guard
    if g.isFalsity then v else iterate l n (v.iteration l g)

/-- **Runs a loop at most `n` times.**  Runs that would go on are discarded. -/
def loop (l : LoopRun) (n : Nat) (v : Verification) : Verification :=
  let saved := v.path
  let v := l.lead (iterate l n v)
  let g := v.guard
  let v :=
    if g.isFalsity then v
    else
      let v := v.obligeInvariant l g
      v.require (.implies g (.not (v.rename l.cond)))
  { v with path := saved }

end Verification

mutual

/-- **Runs a statement**, its loops at most `n` times. -/
def run (n : Nat) : Relational.Stmt → Verification → Verification
  | .assign target value, v => v.assign target (v.rename value)
  | .update field object value, v =>
    let object := v.rename object
    let value := v.rename value
    v.set field fun old new =>
      .eq (.ident new) (.binary .override (.ident old) (.binary .product object value))
  | .compute target pred args, v =>
    let args := args.map v.rename
    v.set target fun _ new => .call pred (args ++ [.ident new])
  | .branch cond thn els, v =>
    let cond := v.rename cond
    let saved := v.path
    let v := runAll n thn (v.under cond)
    let v := runAll n els { v with path := .all [saved, .not cond] }
    { v with path := saved }
  | .loop lead cond invariant variant body, v =>
    Verification.loop ⟨runAll n lead, runAll n body, cond, invariant, variant⟩ n v
  | .assert cond, v => v.oblige (.implies v.guard (v.rename cond))
  | .assume cond, v => v.require (.implies v.guard (v.rename cond))
  | .ret none, v => v.exit
  | .ret (some value), v => (v.assign "return" (v.rename value)).exit
  | .raise exception, v => (v.assign "throw" (.ident exception)).exit

/-- Runs statements in order. -/
def runAll (n : Nat) : List Relational.Stmt → Verification → Verification
  | [], v => v
  | s :: ss, v => runAll n ss (run n s v)

end

end Relspec.Spec
