import Mathlib.Data.List.Count
import Relspec.Proofs.Spec.Exactness

/-!
# Proofs/Spec/SingleAssignment — verification conditions are in single assignment form

A symbolic run makes the versions of a variable one after the other, each together with the one transition
that defines it, and what it records mentions only versions that are there already.  Versions are plain
names, though: a class whose name has the form of a version may be mentioned before a version of that name
is made.

* `Frame.Tracked` — the versions of a state and their definitions, and `Frame.Tracked.step`;
* `Frame.SingleAssignment`, `Frame.final_singleAssignment` — the state after a program;
* `Frame.ranging_not_singleAssignment` — a class that is named like a version.
-/

namespace Relspec.Spec

open List
open Relational (Stmt)

namespace Verification

variable {names : List String} {computes : String → Nat → Prop} {v w : Verification} {es : List Entry}

/-- An entry mentions only versions that a state has. -/
def Admits (names : List String) (computes : String → Nat → Prop) (v : Verification) : Entry → Prop
  | .version base guard value =>
    base ∈ names ∧ v.Settled names guard ∧ (settling names computes).Setting v value
  | .transition f | .obligation f => v.Settled names f

/-- **Entries recorded one after the other**, each of which mentions only versions that are there then. -/
def AdmitsAll (names : List String) (computes : String → Nat → Prop) : Verification → List Entry → Prop
  | _, [] => True
  | v, e :: es => v.Admits names computes e ∧ AdmitsAll names computes (v.record e) es

theorem admitsAll_append {es' : List Entry} : ∀ {es : List Entry} {v : Verification},
    AdmitsAll names computes v (es ++ es') ↔
      AdmitsAll names computes v es ∧ AdmitsAll names computes (es.foldl record v) es'
  | [], v => (and_iff_right trivial).symm
  | e :: es, v => by
    rw [cons_append, AdmitsAll, AdmitsAll, admitsAll_append, foldl_cons, and_assoc]

/-- What a state has recorded, without the conditions of the branch at hand and of the end. -/
def recorded (v : Verification) : Verification := { v with path := .truth, done := .falsity }

/-- **A step records its entries.** -/
theorem step_recorded (h : (settling names computes).Step v es w)
    (hv : (settling names computes).Keeps v) :
    w.recorded = es.foldl record v.recorded ∧ AdmitsAll names computes v.recorded es := by
  cases h with
  | @set base value hb hval hguard =>
    have hsettled := hv.guard (lawful_settling ..)
    refine ⟨?_, ⟨hb, hsettled, ?_⟩, trivial⟩
    · simp only [Verification.set, if_neg hguard, foldl_cons, foldl_nil, record, declared, recorded]
      split_ifs <;> rfl
    · cases hval with
      | assign he => exact .assign he
      | update ho hx => exact .update ho hx
      | compute hp ha => exact .compute hp ha
  | require hf | oblige hf => exact ⟨rfl, hf, trivial⟩
  | exit | path => exact ⟨rfl, trivial⟩

/-- **Steps record their entries one after the other.** -/
theorem steps_recorded (h : (settling names computes).Steps v es w)
    (hv : (settling names computes).Keeps v) :
    (settling names computes).Keeps w ∧ w.recorded = es.foldl record v.recorded ∧
      AdmitsAll names computes v.recorded es := by
  induction h with
  | refl => exact ⟨hv, rfl, trivial⟩
  | tail _ hstep ih =>
    obtain ⟨hkeeps, heq, hadmits⟩ := ih
    obtain ⟨heq', hadmits'⟩ := step_recorded hstep hkeeps
    refine ⟨(hstep.keeps (lawful_settling ..) hkeeps).1, ?_, admitsAll_append.mpr ⟨hadmits, heq ▸ hadmits'⟩⟩
    rw [heq', heq, foldl_append]

end Verification

open Verification

namespace Frame

variable {a : Frame} {v w : Verification} {es : List Entry}

/-- The variables that have no versions. -/
def constants (a : Frame) : List StateVar := a.program.skolems.map fun x => ⟨x.name, valueShape x.type⟩

/-- How many transitions define a version. -/
def definitions (v : Verification) (x : String) : Nat := v.transitions.countP (·.defines = some x)

/-- **The versions of a state**: the state variables are distinct, they are the skolem constants and, with
the shape it is declared with, the versions of every variable from the first to the current one, and each
version after the first has one transition that defines it. -/
structure Tracked (a : Frame) (v : Verification) : Prop where
  shapes : ∀ x ∈ a.shaped, v.shapes.find? x.name = some x.shape
  distinct : (v.vars.map (·.name)).Nodup
  vars : ∀ y, y ∈ v.vars ↔ y ∈ a.constants ∨
    ∃ x ∈ a.shaped, ∃ n ≤ v.version x.name, y = ⟨versioned x.name n, x.shape⟩
  defined : ∀ b ∈ a.declared, ∀ n, definitions v (versioned b n) = if 0 < n ∧ n ≤ v.version b then 1 else 0

/-- A skolem constant is no version of a declared variable. -/
def Apart (a : Frame) : Prop := ∀ x ∈ a.program.skolems, ¬ IsVersion a.declared x.name

theorem tracked_initial (hnames : a.declared.Nodup) (hskolems : (a.program.skolems.map (·.name)).Nodup)
    (hapart : a.Apart) : a.Tracked a.initial where
  shapes _ := find?_shapes_initial hnames
  distinct := by
    have hfirst : (a.declared.map (versioned · 0)).Nodup :=
      (nodup_map_iff fun _ _ h => (versioned_inj h).1).mpr hnames
    rw [← map_name_shaped, map_map] at hfirst
    rw [initial_eq, map_append, map_map, map_map]
    refine List.Nodup.append hfirst hskolems fun x hx hx' => ?_
    obtain ⟨y, hy, rfl⟩ := mem_map.mp hx
    obtain ⟨z, hz, heq⟩ := mem_map.mp hx'
    exact hapart z hz ⟨y.name, map_name_shaped a ▸ mem_map_of_mem hy, 0, heq⟩
  vars y := by
    have hzero : ∀ x, a.initial.version x = 0 := a.fresh_initial.version
    simp only [hzero, Nat.le_zero]
    rw [initial_eq, mem_append, or_comm]
    simp [constants, eq_comm]
  defined b _ n := by
    rw [definitions, a.fresh_initial.transitions, a.fresh_initial.version, countP_nil, if_neg (by omega)]

namespace Tracked

variable {x : StateVar}

/-- A version that a state does not have yet is none of its variables. -/
theorem not_mem_names (h : a.Tracked v) (hapart : a.Apart) (hx : x ∈ a.shaped) {n : Nat}
    (hn : v.version x.name < n) : versioned x.name n ∉ v.vars.map (·.name) := fun hmem => by
  obtain ⟨y, hy, hname⟩ := mem_map.mp hmem
  rcases (h.vars y).mp hy with hy | ⟨z, -, m, hm, rfl⟩
  · obtain ⟨z, hz, rfl⟩ := mem_map.mp hy
    exact hapart z hz ⟨x.name, map_name_shaped a ▸ mem_map_of_mem hx, n, hname⟩
  · obtain ⟨hz, rfl⟩ := versioned_inj hname
    rw [hz] at hm
    omega

/-- The next version of a variable has the shape of the variable. -/
theorem vars_next (h : a.Tracked v) (hx : x ∈ a.shaped) :
    (v.next x.name).vars = v.vars ++ [⟨v.upcoming x.name, x.shape⟩] := by
  rw [Verification.next, h.shapes x hx]
  rfl

theorem mem_vars_next (h : a.Tracked v) (hx : x ∈ a.shaped) (y : StateVar) :
    y ∈ (v.next x.name).vars ↔ y ∈ a.constants ∨
      ∃ z ∈ a.shaped, ∃ n ≤ (v.next x.name).version z.name, y = ⟨versioned z.name n, z.shape⟩ := by
  rw [h.vars_next hx, mem_append, mem_singleton, h.vars, or_assoc]
  refine or_congr_right ⟨?_, ?_⟩
  · rintro (⟨z, hz, n, hn, rfl⟩ | rfl)
    · exact ⟨z, hz, n, Nat.le_trans hn (version_le_next v _ _), rfl⟩
    · exact ⟨x, hx, v.version x.name + 1, Nat.le_of_eq (version_next_self v x.name).symm, rfl⟩
  · rintro ⟨z, hz, n, hn, rfl⟩
    by_cases hold : n ≤ v.version z.name
    · exact .inl ⟨z, hz, n, hold, rfl⟩
    · have hbase : z.name = x.name := by_contra fun hne => hold (version_next_of_ne v hne ▸ hn)
      have hshape := h.shapes z hz
      rw [hbase, h.shapes x hx] at hshape
      rw [hbase, version_next_self] at hn
      rw [hbase] at hold ⊢
      rw [← Option.some.inj hshape, upcoming, Nat.le_antisymm hn (Nat.not_le.mp hold)]
      exact .inr rfl

/-- Only the next version gets a definition. -/
theorem definitions_next (h : a.Tracked v) (base : String) (f : Formula) {b : String}
    (hb : b ∈ a.declared) (n : Nat) :
    definitions ((v.next base).define (v.upcoming base) f) (versioned b n) =
      if 0 < n ∧ n ≤ (v.next base).version b then 1 else 0 := by
  have hnew : v.upcoming base = versioned b n ↔ b = base ∧ n = v.version base + 1 :=
    ⟨fun heq => ⟨(versioned_inj heq).1.symm, (versioned_inj heq).2.symm⟩, fun ⟨hb, hn⟩ => by rw [hb, hn]; rfl⟩
  change (v.transitions ++ [_]).countP _ = _
  rw [countP_append, ← definitions, h.defined b hb n, countP_singleton]
  simp only [Option.some.injEq, decide_eq_true_eq, hnew]
  by_cases hbase : b = base
  · rw [hbase, version_next_self]
    simp only [true_and]
    split_ifs <;> omega
  · simp [version_next_of_ne v hbase, hbase]

/-- **A new version**, together with the transition that defines it, keeps versions tracked. -/
theorem next (h : a.Tracked v) (hapart : a.Apart) {base : String} (hb : base ∈ a.declared) (f : Formula) :
    a.Tracked ((v.next base).define (v.upcoming base) f) := by
  obtain ⟨x, hx, rfl⟩ := mem_map.mp (map_name_shaped a ▸ hb)
  refine ⟨h.shapes, ?_, h.mem_vars_next hx, fun b hb n => h.definitions_next _ f hb n⟩
  change ((v.next x.name).vars.map (·.name)).Nodup
  rw [h.vars_next hx, map_append, map_singleton]
  refine List.Nodup.append h.distinct (nodup_singleton _) (disjoint_singleton.mpr ?_)
  exact h.not_mem_names hapart hx (Nat.lt_succ_self _)

/-- **A step keeps versions tracked.** -/
theorem step {computes : String → Nat → Prop} (h : a.Tracked v) (hapart : a.Apart)
    (hv : v.Over a.declared) (hstep : (settling a.declared computes).Step v es w) : a.Tracked w := by
  cases hstep with
  | set hb _ hguard =>
    rw [set_eq hv hb, if_neg hguard]
    exact h.next hapart hb _
  | require =>
    refine ⟨h.shapes, h.distinct, h.vars, fun b hb n => ?_⟩
    rw [definitions, Verification.require, countP_append]
    exact h.defined b hb n
  | oblige | exit | path => exact ⟨h.shapes, h.distinct, h.vars, h.defined⟩

theorem steps {computes : String → Nat → Prop} (h : a.Tracked v) (hapart : a.Apart)
    (hv : (settling a.declared computes).Keeps v) (hsteps : (settling a.declared computes).Steps v es w) :
    a.Tracked w := by
  induction hsteps with
  | refl => exact h
  | tail hsteps hstep ih => exact ih.step hapart (steps_recorded hsteps hv).1.tables hstep

end Tracked

/-- **Single assignment form**: the versions of the state after the program are tracked, the state is what
the run records, one entry after the other, and each entry mentions only versions that are there when it is
recorded. -/
structure SingleAssignment (a : Frame) (s : Settings) : Prop where
  tracked : a.Tracked (a.final s)
  recorded : (a.final s).recorded = (a.trace s).foldl record a.initial
  before : AdmitsAll a.declared (fun _ _ => True) a.initial (a.trace s)

/-- **Verification conditions are in single assignment form**: for a program whose declared variables and
skolem constants are distinct, that sets declared variables only, and that mentions nothing else of the form
of a version that has to be made. -/
theorem final_singleAssignment (a : Frame) (s : Settings) (hnames : a.declared.Nodup)
    (hassigned : ∀ t ∈ Stmt.walkAll a.program.body, ∀ x ∈ ownTarget t, x ∈ a.declared)
    (hskolems : (a.program.skolems.map (·.name)).Nodup) (hapart : a.Apart)
    (hmentions : ∀ t ∈ Stmt.walkAll a.program.body, ∀ f ∈ ownFormulas t, ∀ x ∈ f.freeNames,
      x ∈ a.declared ∨ ¬ IsLater a.declared x)
    (hthrown : ∀ t ∈ Stmt.walkAll a.program.body, ∀ e ∈ t.thrown?, ¬ IsLater a.declared e) :
    a.SingleAssignment s := by
  have hlaws := lawful_settling a.declared fun _ _ => True
  have hfresh := a.fresh_initial
  have hkeeps := hfresh.keeps hlaws hfresh.isOver
  have hsteps := (a.reaches_final s hlaws hfresh.isOver fun t ht =>
    ⟨hassigned t ht, hmentions t ht, hthrown t ht, fun _ _ _ _ => trivial⟩).steps
  have hinitial : a.initial.recorded = a.initial := by rw [initial_eq]; rfl
  obtain ⟨-, hrecorded, hadmits⟩ := steps_recorded hsteps hkeeps
  rw [hinitial] at hrecorded hadmits
  exact ⟨(tracked_initial hnames hskolems hapart).steps hapart hkeeps hsteps, hrecorded, hadmits⟩

/-- A program with a loop sets each version once. -/
theorem search_singleAssignment : search.declared.Nodup ∧ search.SingleAssignment {} :=
  ⟨by decide, final_singleAssignment search {} (by decide) (fun t ht => (namedAll_search.allowsAll t ht).target)
    (by decide) nofun (fun t ht => (namedAll_search.allowsAll t ht).formulas)
    fun t ht => (namedAll_search.allowsAll t ht).thrown⟩

/-- A class with the name that the first new version of a parameter gets, over which an assertion ranges
before the parameter is set. -/
def ranging : Frame :=
  let program : Relational.Program :=
    { id := "C_m_0", owner := "C", method := "m", overload := 0, params := [⟨"p", .int⟩], locals := []
      returns := none, pre := .truth, post := .truth, side := {}, skolems := []
      body := [.assert (.quant .all ["o"] (.ident "p_1") (.eq (.ident "o") (.ident "o"))),
        .assign "p" (.int 1)] }
  let owner : Relational.Module :=
    { id := "C", className := "C", fields := [], invariant := ⟨"C_object_invariant", [], .truth⟩
      side := {}, programs := [program] }
  ⟨[owner], owner, program⟩

/-- The assertion mentions the version before it is made. -/
theorem ranging_not_singleAssignment : ranging.declared.Nodup ∧
    (∀ t ∈ Stmt.walkAll ranging.program.body, ∀ x ∈ ownTarget t, x ∈ ranging.declared) ∧
    ranging.program.skolems = [] ∧ ¬ ranging.SingleAssignment {} := by
  refine ⟨by decide, by decide, rfl, fun h => ?_⟩
  have hbefore := h.before
  exact hbefore.1 "p_1" (by decide) ⟨"p", by decide, 1, by decide, by decide⟩

end Frame

end Relspec.Spec
