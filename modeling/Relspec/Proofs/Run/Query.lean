import Relspec.Proofs.Run.Artifacts

/-!
# Proofs/Run/Query — how the query of a run applies the object invariant

A run without a fault has a query for the object invariant of a class, made of the modules of its second
pass.

* `Queried` — the query of a run, and `exists_queried` — a run without a fault has one;
* `run_query_applied` — when it applies the invariant to its parameters.
-/

namespace Relspec

open Relational (IsSkolem)
open MethodName (generateInvariant)

namespace Run

variable {σ : Type} {w w' : World σ}

/-! ## The query of a run -/

/-- **The query that a run has written** for the object invariant of the class `owner`, out of the modules
of its second pass. -/
structure Queried (classes : List Source.ClassDecl) (r : Record) (d : Disk) (p : Pass) (owner : String)
    (a : Spec.Frame) : Prop where
  pass : r.invariant = some p
  target : p.target = some (owner, Contract.programId owner generateInvariant 0)
  frame : Spec.frame? p.modules owner (Contract.programId owner generateInvariant 0) = some a
  text : ∃ text, d.read r.queryPath = .ok text ∧ Applies owner a text
  name : (∀ c ∈ classes, c.Plain) → a.owner.invariant.name = owner ++ "_object_invariant"
  skolems : ∀ v ∈ a.program.skolems, IsSkolem v

section

variable {engine : Engine σ} {s : Settings} {classes : List Source.ClassDecl} {r : Record}

/-- **A run without a fault has written a query.** -/
theorem exists_queried (h : (run engine s classes).run w = (r, w')) (hfault : r.fault = none) :
    ∃ p owner a, Queried classes r w'.disk p owner a := by
  obtain ⟨_, w₁, -, -, hquery⟩ := run_ok h hfault
  obtain ⟨p, b, w₂, out, hpass, hp, hb, hsynth, rfl⟩ := queryPass_ok hquery hfault
  obtain ⟨b', hwritten, hext, -⟩ := pass_writes hpass hp
  obtain rfl : b' = b := Option.some.inj (hwritten.artifact.symm.trans hb)
  obtain ⟨rfl, ⟨text, htext, hfile⟩, -, -⟩ := synthesize_spec hext hwritten.file hsynth
  obtain ⟨g, htraced⟩ := traced_of_artifact hpass hb
  obtain ⟨spec, hartifact, hassembled⟩ := htraced.artifact _ hb
  obtain ⟨ms, _, _, _, hround, hrs⟩ := htraced.read
  have hms := Contract.named_of_roundTrip hround
  obtain ⟨⟨owner, program⟩, hg⟩ : ∃ t, g.target = t := ⟨_, rfl⟩
  have htarget := htraced.target
  have hasked := g.target_eq
  rw [hg] at hassembled htarget hasked
  obtain rfl := eq_programId_of_asks (asks_of_target hasked)
  obtain ⟨a, text', hframe, hquery, happlies⟩ := exists_query_of_assemble hms hrs hassembled
  obtain ⟨-, -, hskolems, m, hm, hmid, hname⟩ := asked_of_frame? hms hrs hframe
  rw [hartifact] at htext
  obtain rfl := Except.ok.inj (hquery.symm.trans htext)
  refine ⟨_, owner, a, rfl, htarget, hframe, ⟨text', ?_, happlies⟩, fun hclasses => ?_, hskolems⟩
  · exact (Disk.read_eq_ok (ne_empty_of_hasExtension (hasExtension_queryPath _))).mpr hfile
  · rw [Contract.roundTrip_of_plain (g.plain hclasses) hround] at hm
    obtain ⟨m', hmem, rfl⟩ := List.mem_map.mp hm
    obtain rfl : m'.asRead.id = owner := hmid
    rw [hname]
    exact congrArg (·.getD "") (g.plain hclasses m' hmem).invariant

/-- **How the query of a run applies the object invariant.**  It runs the predicate on the state that its
parameters name, one argument for each, exactly when no field starts like the exception, every parameter
of the method that asks for the invariant does, and no variable stands for a quantified one.  The
predicates of plain classes are called as the query calls them. -/
theorem run_query_applied (h : (run engine s classes).run w = (r, w')) (hfault : r.fault = none) :
    ∃ p owner a, Queried classes r w'.disk p owner a ∧
      (a.queryArgs = (a.invariantParams.map fun x => "QF." ++ x.name ++ "_0") ↔
        (∀ f ∈ a.fields, Text.startsWith (Spec.versioned f.var.name 0) "throw_" = false) ∧
        (∀ v ∈ a.program.params, Text.startsWith (Spec.versioned v.name 0) "throw_" = true) ∧
        a.program.skolems = []) := by
  obtain ⟨p, owner, a, hqueried⟩ := exists_queried h hfault
  exact ⟨p, owner, a, hqueried, Spec.Frame.queryArgs_eq_iff hqueried.skolems⟩

end

/-! ## Runs over linked objects -/

open Contract (linked linkedModule linking programId)

/-- The module of linked objects when their invariant is asked for. -/
def askedModule (name : String) : Contract.Module :=
  { linkedModule name with
    programs := (linkedModule name).programs ++
      [{ id := programId name generateInvariant 0, method := generateInvariant,
         overload := 0 }] }

/-- The relational program that links two objects. -/
def linkProgram (name : String) : Relational.Program where
  id := programId name "link" 0
  owner := name
  method := "link"
  overload := 0
  params := [⟨"other", .ref name⟩]
  body := [.update (name ++ "_next") (.ident "thiz") (.ident "other")]

/-- The relational program that asks for the invariant of linked objects. -/
def askProgram (name : String) : Relational.Program where
  id := programId name generateInvariant 0
  owner := name
  method := generateInvariant
  overload := 0

/-- The relational module of linked objects. -/
def linkedRelational (name : String) (programs : List Relational.Program) : Relational.Module where
  id := name
  className := name
  fields := [⟨name ++ "_next", .ref name⟩]
  invariant := ⟨Contract.invariantName name, [Contract.selfParam name], .truth⟩
  programs := programs

/-- The query of a pass with these results. -/
theorem Queried.of_recorded {s : Settings} {classes : List Source.ClassDecl} {n : Nat}
    {g : Stages s classes n} {r : Record} {d : Disk} {p q : Pass} {owner : String} {a : Spec.Frame}
    (h : Queried classes r d q owner a) (hp : r.invariant = some p) (hrecorded : g.Recorded p) :
    owner = g.target.1 ∧ Spec.frame? g.relational g.target.1 g.target.2 = some a := by
  obtain rfl : p = q := Option.some.inj (hp.symm.trans h.pass)
  have htarget := Option.some.inj (hrecorded.target.symm.trans h.target)
  rw [htarget, ← hrecorded.modules]
  exact ⟨rfl, h.frame⟩

/-- The specification of a program of linked objects. -/
def linkedSpec (name : String) (programs : List Relational.Program) (q : Relational.Program)
    (s : Settings) : Spec.Specification :=
  Spec.Frame.specify ⟨[linkedRelational name programs], linkedRelational name programs, q⟩ s {} {}

theorem plain_linkedClasses {name : String} (h : Formula.Lexeme.isWord name = true) :
    ∀ c ∈ [linked name], c.Plain :=
  List.forall_mem_singleton.mpr (Contract.plain_linked h)

/-- The stages when the method of linked nodes is asked for. -/
def nodeStages : Stages (linking "Node") [linked "Node"] 0 :=
  .ofPlain [linkedModule "Node"] _ ⟨0, 0⟩ ("Node", programId "Node" "link" 0)
    [linkedRelational "Node" [linkProgram "Node"]]
    (linkedSpec "Node" [linkProgram "Node"] (linkProgram "Node") _) (plain_linkedClasses (by decide)) rfl
    (by decide +kernel) rfl rfl rfl rfl

/-- The stages when the object invariant of linked nodes is asked for. -/
def nodeQueryStages : Stages ((linking "Node").forMethod generateInvariant) [linked "Node"] 0 :=
  .ofPlain [askedModule "Node"] _ ⟨0, 0⟩
    ("Node", programId "Node" generateInvariant 0)
    [linkedRelational "Node" [linkProgram "Node", askProgram "Node"]]
    (linkedSpec "Node" [linkProgram "Node", askProgram "Node"] (askProgram "Node") _)
    (plain_linkedClasses (by decide)) rfl (by decide +kernel) rfl rfl rfl rfl

/-- The stages when the method of linked objects called like the exception is asked for. -/
def throwStages : Stages (linking "throw_Node") [linked "throw_Node"] 0 :=
  .ofPlain [linkedModule "throw_Node"] _ ⟨0, 0⟩
    ("throw_Node", programId "throw_Node" "link" 0)
    [linkedRelational "throw_Node" [linkProgram "throw_Node"]]
    (linkedSpec "throw_Node" [linkProgram "throw_Node"] (linkProgram "throw_Node") _)
    (plain_linkedClasses (by decide)) rfl (by decide +kernel) rfl rfl rfl rfl

/-- The stages when their object invariant is asked for. -/
def throwQueryStages :
    Stages ((linking "throw_Node").forMethod generateInvariant) [linked "throw_Node"] 0 :=
  .ofPlain [askedModule "throw_Node"] _ ⟨0, 0⟩
    ("throw_Node", programId "throw_Node" generateInvariant 0)
    [linkedRelational "throw_Node" [linkProgram "throw_Node", askProgram "throw_Node"]]
    (linkedSpec "throw_Node" [linkProgram "throw_Node", askProgram "throw_Node"]
      (askProgram "throw_Node") _) (plain_linkedClasses (by decide)) rfl (by decide +kernel) rfl rfl rfl rfl

/-- The object invariant of linked nodes is applied to its parameters. -/
theorem run_query_applied_node : ∃ r w' p a,
    (run (noEngine false) (linking "Node") [linked "Node"]).run idleWorld = (r, w') ∧ r.fault = none ∧
      Queried [linked "Node"] r w'.disk p "Node" a ∧
      a.queryArgs = (a.invariantParams.map fun x => "QF." ++ x.name ++ "_0") := by
  have hcheck : Stands (artifactOf (linking "Node") nodeStages.spec).path ["output"]
      "Node_link_0.als" := ⟨by decide +kernel, by decide +kernel, by decide +kernel⟩
  have hinvariant : Stands (artifactOf (linking "Node") nodeQueryStages.spec).path ["output"]
      "Node_generateInvariant_0.als" := ⟨by decide +kernel, by decide +kernel, by decide +kernel⟩
  have hout : Path.place (queryPath (artifactOf (linking "Node") nodeQueryStages.spec).path) =
      ["output"] ++ ["Node_generateInvariant_0.inv"] := by decide +kernel
  obtain ⟨r, w', hrun, hfault, -, ⟨p, hp, hrecorded⟩, -⟩ :=
    nodeStages.exists_run nodeQueryStages rfl rfl rfl hcheck hinvariant hout
  obtain ⟨q, owner, a, hqueried, happlied⟩ := run_query_applied hrun hfault
  obtain ⟨rfl, hframe⟩ := hqueried.of_recorded hp hrecorded
  obtain rfl := Option.some.inj hframe
  refine ⟨r, w', q, _, hrun, hfault, hqueried, happlied.mpr ⟨?_, nofun, rfl⟩⟩
  exact List.forall_mem_singleton.mpr (by decide)

/-- **The object invariant of a class called like the exception is not applied to its parameters**: its
field is taken for the exception and left out. -/
theorem run_query_lacks_field : ∃ r w' p a,
    (run (noEngine false) (linking "throw_Node") [linked "throw_Node"]).run idleWorld = (r, w') ∧
      r.fault = none ∧ Queried [linked "throw_Node"] r w'.disk p "throw_Node" a ∧
      a.invariantParams.map (·.name) = ["thiz", "throw_Node_next"] ∧ a.queryArgs = ["QF.thiz_0"] := by
  have hcheck : Stands (artifactOf (linking "throw_Node") throwStages.spec).path ["output"]
      "throw_Node_link_0.als" := ⟨by decide +kernel, by decide +kernel, by decide +kernel⟩
  have hinvariant : Stands (artifactOf (linking "throw_Node") throwQueryStages.spec).path ["output"]
      "throw_Node_generateInvariant_0.als" := ⟨by decide +kernel, by decide +kernel, by decide +kernel⟩
  have hout : Path.place (queryPath (artifactOf (linking "throw_Node") throwQueryStages.spec).path) =
      ["output"] ++ ["throw_Node_generateInvariant_0.inv"] := by decide +kernel
  obtain ⟨r, w', hrun, hfault, -, ⟨p, hp, hrecorded⟩, -⟩ :=
    throwStages.exists_run throwQueryStages rfl rfl rfl hcheck hinvariant hout
  obtain ⟨q, owner, a, hqueried⟩ := exists_queried hrun hfault
  obtain ⟨rfl, hframe⟩ := hqueried.of_recorded hp hrecorded
  obtain rfl := Option.some.inj hframe
  exact ⟨r, w', q, _, hrun, hfault, hqueried, by decide, by decide⟩

end Run

end Relspec
