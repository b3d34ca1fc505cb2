import Relspec.Proofs.Spec.Versions
import Relspec.Source.Naming
import Relspec.Spec.Assembly

/-!
# Proofs/Spec/Capture — current versions under quantifiers

A version `x_0` is an ordinary name, and a quantifier may bind it.  Where it does, the current version of
`x` that is put under it is no longer the variable: a formula speaks of the current state only when no
quantifier binds the current version of a variable that is free under it.

* `NothingBound` — no version is captured;
* `freeNames_rename_exact` — the free names of a formula over the current versions;
* `Frame.equating` — a program whose assertion may lose its parameter.
-/

namespace Relspec.Spec

namespace Verification

/-- **The name that stands for a name** in the state at hand: for a variable its current version, for
any other name the name itself. -/
def nameOf (v : Verification) (x : String) : String :=
  if v.versions.contains x then v.current x else x

/-- **No quantifier binds a version that is put under it.** -/
def NothingBound (v : Verification) (e : Formula) : Prop := e.Admits (v.currents.map .ident) []

theorem put_currents (v : Verification) (x : String) :
    Formula.put (v.currents.map .ident) x = [v.nameOf x] := by
  rw [Formula.put, find?_currents, nameOf]
  split_ifs
  · simp [Formula.occurrences]
  · simp [Formula.occurrences]

/-- The free occurrences are the ones expected, in order, exactly when nothing is captured. -/
theorem occurrences_rename_iff (v : Verification) (e : Formula) :
    (v.rename e).occurrences [] = (e.occurrences []).map v.nameOf ↔ v.NothingBound e := by
  have h := Formula.occurrences_substitute_iff (v.currents.map .ident) e
  rwa [funext v.put_currents, ← List.map_eq_flatMap] at h

/-- A name is free in a formula over the current versions when it stands for a free name. -/
theorem mem_freeNames_rename {v : Verification} {e : Formula} (h : v.NothingBound e) (x : String) :
    x ∈ (v.rename e).freeNames ↔ ∃ y ∈ e.freeNames, v.nameOf y = x := by
  rw [Formula.mem_freeNames, (v.occurrences_rename_iff e).mpr h, List.mem_map]
  simp only [Formula.mem_freeNames]

/-- **The free names of a formula over the current versions** are the current versions of the variables
free in the formula and the other names free in it, when nothing is captured.  Nothing is captured
exactly when every free occurrence stays free. -/
theorem freeNames_rename_exact (v : Verification) (e : Formula) :
    ((v.rename e).occurrences [] = (e.occurrences []).map v.nameOf ↔ v.NothingBound e) ∧
    (v.NothingBound e → ∀ x, x ∈ (v.rename e).freeNames ↔
      (∃ y ∈ e.freeNames, v.versions.contains y = true ∧ x = v.current y) ∨
        (x ∈ e.freeNames ∧ v.versions.contains x = false)) := by
  refine ⟨v.occurrences_rename_iff e, fun h x => (mem_freeNames_rename h x).trans ⟨?_, ?_⟩⟩
  · rintro ⟨y, hy, rfl⟩
    rw [nameOf]
    split_ifs with hdeclared
    · exact .inl ⟨y, hy, hdeclared, rfl⟩
    · exact .inr ⟨hy, by simpa using hdeclared⟩
  · rintro (⟨y, hy, hdeclared, rfl⟩ | ⟨hx, hdeclared⟩)
    · exact ⟨y, hy, if_pos hdeclared⟩
    · exact ⟨x, hx, if_neg (by simp [hdeclared])⟩

end Verification

namespace Frame

/-- A program that asserts of every number, called `bound`, that it is the parameter `x`. -/
def equating (bound : String) : Frame :=
  let program : Relational.Program :=
    { id := "C_m_0", owner := "C", method := "m", overload := 0, params := [⟨"x", .int⟩], locals := []
      returns := none, pre := .truth, post := .truth, side := {}, skolems := []
      body := [.assert (.quant .all [bound] (.ident "Int") (.eq (.ident bound) (.ident "x")))] }
  let owner : Relational.Module :=
    { id := "C", className := "C", fields := [], invariant := ⟨"C_object_invariant", [], .truth⟩, side := {}
      programs := [program] }
  ⟨[owner], owner, program⟩

/-- A number called `y` leaves the parameter alone: it is free in the assertion at its first version. -/
theorem freeNames_equating :
    let v := (equating "y").initial
    let e : Formula := .quant .all ["y"] (.ident "Int") (.eq (.ident "y") (.ident "x"))
    .assert e ∈ (equating "y").program.body ∧ v.NothingBound e ∧ "x_0" ∈ (v.rename e).freeNames := by
  intro v e
  have hnothing : v.NothingBound e := (Verification.freeNames_rename_exact v e).1.mp (by decide)
  refine ⟨List.mem_cons_self, hnothing, ?_⟩
  refine ((Verification.freeNames_rename_exact v e).2 hnothing "x_0").mpr (.inl ⟨"x", ?_⟩)
  decide

/-- **A number called `x_0` captures the parameter**, and nothing keeps it from being called so: the
assertion mentions the parameter, and over the first versions it no longer does. -/
theorem equating_loses_parameter :
    Naming.needsFresh "x_0" = false ∧
    let v := (equating "x_0").initial
    let e : Formula := .quant .all ["x_0"] (.ident "Int") (.eq (.ident "x_0") (.ident "x"))
    .assert e ∈ (equating "x_0").program.body ∧ "x" ∈ e.freeNames ∧ v.versions.contains "x" = true ∧
      v.current "x" ∉ (v.rename e).freeNames := by
  refine ⟨by decide, List.mem_cons_self, ?_⟩
  decide

end Frame

end Relspec.Spec
