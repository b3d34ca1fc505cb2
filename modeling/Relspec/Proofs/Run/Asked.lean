import Relspec.Proofs.Contract.Reading
import Relspec.Proofs.Relational.OfNamed
import Relspec.Proofs.Run.Stages
import Relspec.Proofs.Spec.Query

/-!
# Proofs/Run/Asked — the query of modules that were read

The run command of a query takes the arguments of a precondition and leaves out those that start like the
exception, while the object invariant declares the object and all fields.  The two agree exactly when what
is left out is what a precondition has more.

* `Frame.queryArgs_eq_iff` — when the arguments are those of the parameters;
* `exists_query_of_assemble` — modules that were read have a query, and what it declares and runs.
-/

namespace Relspec

open List
open Relational (IsSkolem skolemName)

namespace Spec

/-! ## Arguments and parameters -/

/-- A list between two others is what a test keeps of all three exactly when it keeps this one alone. -/
theorem filter_eq_middle_iff {α : Type} {keep : α → Bool} {front middle back : List α} :
    (front ++ middle ++ back).filter keep = middle ↔
      (∀ x ∈ middle, keep x = true) ∧ (∀ x ∈ front, keep x = false) ∧ ∀ x ∈ back, keep x = false := by
  have hnone : ∀ l : List α, l.filter keep = [] ↔ ∀ x ∈ l, keep x = false := fun l => by
    simp only [filter_eq_nil_iff, Bool.not_eq_true]
  rw [filter_append, filter_append, ← hnone, ← hnone]
  constructor
  · intro h
    have hmiddle : ∀ x ∈ middle, keep x = true := fun x hx => by
      rw [← h, ← filter_append, ← filter_append] at hx
      exact (mem_filter.mp hx).2
    have hlength := congrArg List.length h
    rw [filter_eq_self.mpr hmiddle, length_append, length_append] at hlength
    exact ⟨hmiddle, eq_nil_of_length_eq_zero (by omega), eq_nil_of_length_eq_zero (by omega)⟩
  · rintro ⟨hmiddle, hfront, hback⟩
    rw [filter_eq_self.mpr hmiddle, hfront, hback, append_nil, nil_append]

theorem held_inj {x y : String} (h : held x = held y) : x = y := by
  have htext := congrArg String.toList h
  simp only [held, String.toList_append, append_cancel_left_eq] at htext
  exact String.toList_inj.mp htext

theorem startsWith_held (x : String) :
    Text.startsWith (held x) "QF.throw_" = Text.startsWith x "throw_" := by
  simp [Text.startsWith, held, holder, Text.after?]

namespace Frame

variable {a : Frame}

/-- **The arguments of the run** in a query. -/
def queryArgs (a : Frame) : List String :=
  (a.preArgs.map held).filter fun x => !Text.startsWith x "QF.throw_"

/-- The arguments that the parameters of the object invariant stand for. -/
def paramArgs (a : Frame) : List String := a.invariantParams.map fun p => "QF." ++ p.name ++ "_0"

theorem queryArgs_eq (a : Frame) : a.queryArgs = held "thiz_0" ::
    ((a.program.params.map (fun p => versioned p.name 0) ++ a.fields.map (fun f => versioned f.var.name 0) ++
      a.program.skolems.map (·.name)).filter fun x => !Text.startsWith x "throw_").map held := by
  have hstart : versioned "throw" 0 = "throw_0" ∧ versioned "thiz" 0 = "thiz_0" := by decide
  have hkeep : ((fun x => !Text.startsWith x "QF.throw_") ∘ held) = fun x => !Text.startsWith x "throw_" :=
    funext fun x => congrArg (!·) (startsWith_held x)
  have hthrow : (!Text.startsWith "throw_0" "throw_") = false := by decide
  have hthiz : (!Text.startsWith "thiz_0" "throw_") = true := by decide
  rw [queryArgs, filter_map, hkeep, preArgs, hstart.1, hstart.2]
  simp only [append_assoc, cons_append, nil_append, filter_cons, hthrow, hthiz,
    Bool.false_eq_true, if_false, if_true, map_cons]

theorem paramArgs_eq (a : Frame) : a.paramArgs = held "thiz_0" ::
    (a.fields.map fun f => versioned f.var.name 0).map held := by
  have hheld : ∀ x : String, "QF." ++ x ++ "_0" = held (versioned x 0) := fun x =>
    String.toList_inj.mp (by simp [held, versioned, holder])
  have hthiz : "QF." ++ "thiz" ++ "_0" = held "thiz_0" := by decide
  simp only [paramArgs, invariantParams, selfParam, fieldParams, map_cons, map_map, hthiz]
  exact congrArg _ (map_congr_left fun f _ => hheld f.var.name)

theorem startsWith_skolem {v : Var} (h : IsSkolem v) : Text.startsWith v.name "throw_" = false := by
  obtain ⟨n, x, hname⟩ := h
  simp [hname, skolemName, Text.startsWith, Text.after?]

/-- **When a query applies the object invariant to its parameters**: no field starts like the exception,
every parameter of the method does, and no variable stands for a quantified one. -/
theorem queryArgs_eq_iff (hskolems : ∀ v ∈ a.program.skolems, IsSkolem v) :
    a.queryArgs = a.paramArgs ↔
      (∀ f ∈ a.fields, Text.startsWith (versioned f.var.name 0) "throw_" = false) ∧
      (∀ v ∈ a.program.params, Text.startsWith (versioned v.name 0) "throw_" = true) ∧
      a.program.skolems = [] := by
  have hheld : ∀ xs ys : List String, xs.map held = ys.map held ↔ xs = ys := fun _ _ =>
    (map_injective_iff.mpr fun _ _ => held_inj).eq_iff
  have hnone : (∀ v ∈ a.program.skolems, Text.startsWith v.name "throw_" = true) ↔
      a.program.skolems = [] := by
    refine ⟨fun h => eq_nil_iff_forall_not_mem.mpr fun v hv => ?_, fun h => by rw [h]; exact nofun⟩
    cases (h v hv).symm.trans (startsWith_skolem (hskolems v hv))
  rw [queryArgs_eq, paramArgs_eq, cons_inj_right, hheld, filter_eq_middle_iff, ← hnone]
  simp only [forall_mem_map, Bool.not_eq_true', Bool.not_eq_false']

end Frame

/-! ## The predicate in the text -/

/-- The first predicate stands in the opening of a specification. -/
theorem Specification.exists_opening {s : Specification} {p : Pred} {ps : List Pred}
    (h : s.preds = p :: ps) : ∃ before between, s.opening = before ++
      ("pred " ++ p.name ++ "[" ++ Text.join ", " (p.params.map Param.text) ++ "] \x7b") ++ between := by
  refine ⟨"module " ++ s.program ++ "\n\n" ++ String.join (Library.all.map Library.text) ++
      String.join (s.sigs.map fun g => g.text ++ "\n") ++ "\n",
    "\n" ++ p.body.text ++ "\x7d\n\n" ++ String.join (ps.map Pred.text) ++
      ("one sig " ++ holder ++ " \x7b\n" ++ indented "  " (fieldLines s.vars) ++ "\x7d\n\n"), ?_⟩
  have hseam : ∀ t : String, "] \x7b\n" ++ t = "] \x7b" ++ ("\n" ++ t) := fun t =>
    String.toList_inj.mp (by simp)
  have hjoin : String.join (s.preds.map Pred.text) = p.text ++ String.join (ps.map Pred.text) := by
    rw [h, map_cons, String.join_cons]
  unfold opening
  rw [hjoin, Pred.text]
  simp only [String.append_assoc, hseam]

end Spec

namespace Run

open Contract (programId)

/-- What a text declares and runs: the object invariant of a frame, and the query for it. -/
def Applies (owner : String) (a : Spec.Frame) (text : String) : Prop :=
  ∃ before between after, text = before ++
    ("pred " ++ a.owner.invariant.name ++ "[" ++ Text.join ", " (a.invariantParams.map Spec.Param.text) ++
      "] \x7b") ++ between ++
    ("run \x7b  " ++ owner ++ "_object_invariant[" ++ Text.join "," a.queryArgs ++ "]") ++ after

section

variable {s : Settings} {ms : List Contract.Module} {rs : List Relational.Module} {owner : String}
  (hms : ∀ m ∈ ms, m.Named) (hrs : Relational.ofModules s ms = .ok rs)
include hms hrs

/-- The program that asks for an object invariant has the method and the overload that its id tells, since
its module was read. -/
theorem asked_of_frame? {a : Spec.Frame}
    (hframe : Spec.frame? rs owner (programId owner MethodName.generateInvariant 0) = some a) :
    a.program.method = MethodName.generateInvariant ∧ a.program.overload = 0 ∧
      (∀ v ∈ a.program.skolems, IsSkolem v) ∧
      ∃ m ∈ ms, m.id = owner ∧ a.owner.invariant.name = m.invariant.getD "" := by
  obtain ⟨-, howner, hid, hprogram, hprogramId⟩ := Spec.Frame.mem_of_frame? hframe
  obtain ⟨m, hm, hmid, hname, hprograms⟩ := Relational.exists_of_mem_ofModules hrs a.owner howner
  obtain ⟨q, hq, hof⟩ := hprograms a.program hprogram
  have hsplit := ((hms m hm).programs q hq).split
  have hskolems := Relational.isSkolem_of_ofProgram hof
  obtain ⟨side, body, temps, -, -, heq⟩ := Relational.exists_of_ofProgram hof
  have hqid : q.id = programId owner MethodName.generateInvariant 0 := by rw [← hprogramId, heq]
  rw [hqid, ← hmid, hid, Contract.splitProgramId_programId owner _ (Nat.two_pow_pos 63)] at hsplit
  obtain ⟨hmethod, hoverload⟩ := Prod.mk.inj hsplit
  exact ⟨by rw [heq, hmethod], by rw [heq, hoverload], hskolems, m, hm, hmid.symm.trans hid, hname⟩

/-- **The query of modules that were read**: there is one, and it declares and runs the object invariant. -/
theorem exists_query_of_assemble {spec : Spec.Specification}
    (hspec : Spec.assemble s rs (.collect rs) owner
      (programId owner MethodName.generateInvariant 0) = .ok spec) :
    ∃ a text, Spec.frame? rs owner (programId owner MethodName.generateInvariant 0) = some a ∧
      Spec.query spec.text = .ok text ∧ Applies owner a text := by
  obtain ⟨a, _, _, hframe, -⟩ := exists_frame_of_assemble hspec
  obtain ⟨hmethod, hoverload, -, -⟩ := asked_of_frame? hms hrs hframe
  have hnamed := Relational.ofModules_named hms hrs
  obtain ⟨moduleSide, programSide, hmodule, hprogram, hassemble⟩ := Spec.exists_assemble hframe hnamed s
  obtain rfl := Except.ok.inj (hspec.symm.trans hassemble)
  obtain ⟨-, -, howner, -, hid⟩ := Spec.Frame.mem_of_frame? hframe
  have hquery := Spec.Frame.query_specify howner hmethod hoverload
    (Spec.Frame.named_of_frame? hframe hnamed) hid s hmodule hprogram
  obtain ⟨before, between, hopening⟩ := Spec.Specification.exists_opening
    (s := a.specify s moduleSide programSide) rfl
  have hclose : ∀ t : String, "]\n\x7d " ++ t = "]" ++ ("\n\x7d " ++ t) := fun t =>
    String.toList_inj.mp (by simp)
  refine ⟨a, _, hframe, hquery, before, between, "\n\x7d " ++ (a.specify s moduleSide programSide).scope ++
    (a.specify s moduleSide programSide).assertion, ?_⟩
  rw [hopening]
  simp only [String.append_assoc, hclose]
  rfl

end

/-- A pass whose stages have results has a query. -/
theorem Stages.exists_query {s : Settings} {classes : List Source.ClassDecl} {n : Nat}
    (g : Stages s classes n) {owner : String}
    (htarget : g.target = (owner, programId owner MethodName.generateInvariant 0)) :
    ∃ text, Spec.query g.spec.text = .ok text := by
  have hms := Contract.named_of_roundTrip (Contract.roundTrip_of_legible g.legible {})
  have hspec := g.spec_eq
  rw [htarget] at hspec
  obtain ⟨_, text, -, hquery, -⟩ := exists_query_of_assemble hms g.relational_eq hspec
  exact ⟨text, hquery⟩

end Run

end Relspec
