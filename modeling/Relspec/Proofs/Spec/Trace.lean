import Relspec.Spec.Verification

/-!
# Proofs/Spec/Trace — what a symbolic run records, in order

The state of a symbolic run keeps versions, transitions and obligations in lists of their own, which do not
tell what came before what.  The trace of a run tells: it lists what the run records, one entry after the
other.

* `Entry`, `Verification.record` — what is recorded, and a state with one more entry;
* `trace`, `traceAll` — what the run of a statement and of a body records.
-/

namespace Relspec.Spec

/-- **What a symbolic run records**: a new version of a variable, together with the transition that defines
it where `guard` holds, another transition, or an obligation. -/
inductive Entry where
  | version (base : String) (guard : Formula) (value : String → String → Formula)
  | transition (f : Formula)
  | obligation (f : Formula)

namespace Verification

/-- **A state with one more entry.** -/
def record (v : Verification) : Entry → Verification
  | .version base guard value =>
    let old := (v.declared base).current base
    let w := (v.declared base).next base
    w.define (w.current base)
      (choose guard (value old (w.current base)) (.eq (.ident (w.current base)) (.ident old)))
  | .transition f => v.require f
  | .obligation f => v.oblige f

/-- What setting a variable records. -/
def settingTrace (v : Verification) (base : String) (value : String → String → Formula) : List Entry :=
  if v.guard.isFalsity then [] else [.version base v.guard value]

/-- A loop with what its lead and body record. -/
structure LoopTrace extends LoopRun where
  leadTrace : Verification → List Entry
  bodyTrace : Verification → List Entry

def invariantTrace (v : Verification) (l : LoopRun) (g : Formula) : List Entry :=
  match l.invariant with
  | some i => [.obligation (.implies g (v.rename i))]
  | none => []

def iterationTrace (v : Verification) (l : LoopTrace) (g : Formula) : List Entry :=
  let w := v.obligeInvariant l.toLoopRun g
  let cond := w.rename l.cond
  v.invariantTrace l.toLoopRun g ++
    match l.variant with
    | none => l.bodyTrace (w.under cond)
    | some variant =>
      let low := .implies (.all [g, cond]) (.binary .ge (w.rename variant) (.int 0))
      let u := (w.oblige low).under cond
      [.obligation low] ++ l.bodyTrace u ++
        [.obligation (.implies (l.body u).guard
          (.binary .lt ((l.body u).rename variant) (w.rename variant)))]

def iterateTrace (l : LoopTrace) : Nat → Verification → List Entry
  | 0, _ => []
  | n + 1, v =>
    let w := l.lead v
    l.leadTrace v ++
      if w.guard.isFalsity then []
      else w.iterationTrace l w.guard ++ iterateTrace l n (w.iteration l.toLoopRun w.guard)

def loopTrace (l : LoopTrace) (n : Nat) (v : Verification) : List Entry :=
  let w := l.lead (iterate l.toLoopRun n v)
  iterateTrace l n v ++ l.leadTrace (iterate l.toLoopRun n v) ++
    if w.guard.isFalsity then []
    else
      let u := w.obligeInvariant l.toLoopRun w.guard
      w.invariantTrace l.toLoopRun w.guard ++ [.transition (.implies w.guard (.not (u.rename l.cond)))]

end Verification

mutual

/-- **What the run of a statement records.** -/
def trace (n : Nat) : Relational.Stmt → Verification → List Entry
  | .assign target value, v => v.settingTrace target fun _ new => .eq (.ident new) (v.rename value)
  | .update field object value, v =>
    v.settingTrace field fun old new => .eq (.ident new)
      (.binary .override (.ident old) (.binary .product (v.rename object) (v.rename value)))
  | .compute target pred args, v =>
    v.settingTrace target fun _ new => .call pred (args.map v.rename ++ [.ident new])
  | .branch cond thn els, v =>
    let w := runAll n thn (v.under (v.rename cond))
    traceAll n thn (v.under (v.rename cond)) ++
      traceAll n els { w with path := .all [v.path, .not (v.rename cond)] }
  | .loop lead cond invariant variant body, v =>
    Verification.loopTrace
      ⟨⟨runAll n lead, runAll n body, cond, invariant, variant⟩, traceAll n lead, traceAll n body⟩ n v
  | .assert cond, v => [.obligation (.implies v.guard (v.rename cond))]
  | .assume cond, v => [.transition (.implies v.guard (v.rename cond))]
  | .ret none, _ => []
  | .ret (some value), v => v.settingTrace "return" fun _ new => .eq (.ident new) (v.rename value)
  | .raise exception, v => v.settingTrace "throw" fun _ new => .eq (.ident new) (.ident exception)

def traceAll (n : Nat) : List Relational.Stmt → Verification → List Entry
  | [], _ => []
  | s :: ss, v => trace n s v ++ traceAll n ss (run n s v)

end

end Relspec.Spec
