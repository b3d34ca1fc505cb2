import Mathlib.Data.List.Nodup
import Relspec.Proofs.Spec.Steps
import Relspec.Proofs.Table
import Relspec.Spec.Assembly

/-!
# Proofs/Spec/Initial — the state before a program

The state before a program has every declared variable at version zero, and its skolem constants.

* `Frame.declared`, `Frame.shaped` — the declared variables, and their shapes;
* `Frame.initial_eq`, `Frame.fresh_initial` — the state before the program;
* `Frame.reaches_final` — the state after it, for bodies that keep to a discipline.
-/

namespace Relspec.Spec

open Verification

/-- A state with every variable at version zero and nothing recorded yet. -/
structure Verification.Fresh (names : List String) (v : Verification) : Prop where
  isOver : v.Over names
  version : ∀ x, v.version x = 0
  transitions : v.transitions = []
  obligations : v.obligations = []
  path : v.path = .truth
  done : v.done = .falsity

/-- A state with nothing recorded keeps to a discipline. -/
theorem Verification.Fresh.keeps {names : List String} {v : Verification} {D : Discipline}
    (hv : v.Fresh names) (hD : D.Lawful) (h : D.tables v) : D.Keeps v :=
  hD.keeps h hv.transitions hv.obligations hv.path hv.done

namespace Frame

variable {a : Frame}

/-- **The declared variables** of a program: exception, object, parameters, fields, result and
locals. -/
def declared (a : Frame) : List String :=
  ["throw", "thiz"] ++ a.program.params.map (·.name) ++ a.fields.map (·.var.name) ++
    (a.program.returns.toList.map fun _ => "return") ++ a.program.locals.map (·.name)

/-- The shapes of values. -/
def valueShape (t : ValueType) : Shape := ⟨valueType t, false⟩

/-- **The declared variables with their shapes.** -/
def shaped (a : Frame) : List StateVar :=
  [⟨"throw", ⟨throwType, false⟩⟩, ⟨"thiz", ⟨a.owner.id, false⟩⟩] ++
    a.program.params.map (fun x => ⟨x.name, valueShape x.type⟩) ++
    a.fields.map (fun f => ⟨f.var.name, ⟨relationType f, true⟩⟩) ++
    (a.program.returns.toList.map fun t => ⟨"return", valueShape t⟩) ++
    a.program.locals.map fun x => ⟨x.name, valueShape x.type⟩

theorem map_name_shaped (a : Frame) : a.shaped.map (·.name) = a.declared := by
  simp [shaped, declared, Function.comp_def]

theorem foldl_declare : ∀ (xs : List StateVar) (v : Verification),
    xs.foldl (fun v x => v.declare x.name x.shape) v =
      { v with
        vars := v.vars ++ xs.map fun x => ⟨versioned x.name 0, x.shape⟩
        shapes := xs.foldl (fun t x => t.insert x.name x.shape) v.shapes
        versions := xs.foldl (fun t x => t.insert x.name 0) v.versions }
  | [], v => by simp
  | x :: xs, v => by
    rw [List.foldl_cons, foldl_declare xs]
    simp [declare]

theorem foldl_constant : ∀ (xs : List Var) (v : Verification),
    xs.foldl (fun v x => v.constant x.name (valueShape x.type)) v =
      { v with vars := v.vars ++ xs.map fun x => ⟨x.name, valueShape x.type⟩ }
  | [], v => by simp
  | x :: xs, v => by
    rw [List.foldl_cons, foldl_constant xs]
    simp [constant]

/-- **The state before the program** has the first version of every declared variable, and the skolem
constants. -/
theorem initial_eq (a : Frame) : a.initial =
    { vars := a.shaped.map (fun x => ⟨versioned x.name 0, x.shape⟩) ++
        a.program.skolems.map fun x => ⟨x.name, valueShape x.type⟩
      shapes := a.shaped.foldl (fun t x => t.insert x.name x.shape) .empty
      versions := a.shaped.foldl (fun t x => t.insert x.name 0) .empty } := by
  have h : a.initial = a.program.skolems.foldl (fun v x => v.constant x.name (valueShape x.type))
      (a.shaped.foldl (fun v x => v.declare x.name x.shape) {}) := by
    simp only [initial, shaped, declareVars, List.foldl_append, List.foldl_cons, List.foldl_nil,
      List.foldl_map, valueShape]
  rw [h, foldl_constant, foldl_declare]
  rfl

theorem fresh_initial (a : Frame) : a.initial.Fresh a.declared := by
  rw [initial_eq]
  refine ⟨⟨fun x => ?_, fun x => ?_⟩, fun x => ?_, rfl, rfl, rfl, rfl⟩
  · exact Table.contains_foldl_insert.trans (by rw [map_name_shaped]; simp [Table.contains, Table.find?, Table.empty])
  · exact Table.contains_foldl_insert.trans (by rw [map_name_shaped]; simp [Table.contains, Table.find?, Table.empty])
  · rw [Verification.version]
    cases h : (a.shaped.foldl (fun t x => t.insert x.name 0) Table.empty).find? x with
    | none => rfl
    | some n =>
      rcases Table.find?_foldl_insert h with h | ⟨y, -, -, rfl⟩
      · cases h
      · rfl

/-- A variable that is declared once has the shape it is declared with. -/
theorem find?_shapes_initial (hnames : a.declared.Nodup) {x : StateVar} (hx : x ∈ a.shaped) :
    a.initial.shapes.find? x.name = some x.shape := by
  rw [initial_eq]
  have hcontains : (a.shaped.foldl (fun t x => t.insert x.name x.shape) Table.empty).contains x.name :=
    Table.contains_foldl_insert.mpr (.inr (List.mem_map_of_mem hx))
  obtain ⟨shape, hshape⟩ := Option.isSome_iff_exists.mp hcontains
  refine hshape.trans ?_
  rcases Table.find?_foldl_insert hshape with h | ⟨y, hy, hname, rfl⟩
  · cases h
  · rw [← map_name_shaped] at hnames
    rw [List.inj_on_of_nodup_map hnames hy hx hname]

/-- What the run of the program records. -/
def trace (a : Frame) (s : Settings) : List Entry :=
  traceAll s.loopUnroll.toNat a.program.body a.initial

/-- **The state after a program** whose body keeps to a discipline. -/
theorem reaches_final (a : Frame) (s : Settings) {D : Discipline} (hD : D.Lawful)
    (h : D.tables a.initial) (hbody : D.AllowsAll a.program.body) :
    D.Reaches a.initial (a.trace s) (a.final s) :=
  Discipline.reaches_runAll hD s.loopUnroll.toNat a.program.body hbody (a.fresh_initial.keeps hD h)

end Frame

end Relspec.Spec
