import Relspec.Proofs.Run.Asked
import Relspec.Proofs.Run.Trace

/-!
# Proofs/Run/Artifacts — what a run leaves on the disk

A pass writes the specification of its program, and a run turns the second one into a query.  The
specification that was checked stays, unless both are of one program: then the query takes its place.

* `specification_preserves` — the steps up to the specification leave files alone;
* `pass_writes` — a pass without a fault has written its specification, and leaves other files alone;
* `synthesize_spec` — a query replaces its specification;
* `Stages.exists_pass`, `Stages.exists_run` — passes and runs that have no fault;
* `run_leaves_artifacts` — what a run without a fault leaves.
-/

namespace Relspec.Run

open Relspec.Path (place join)
open MethodName (generateInvariant)

variable {σ α β : Type} {w w' : World σ} {q : List String} {content : String}

/-! ## Steps of a pass -/

/-- A file stands on the disk of a world. -/
def World.HasFile (q : List String) (content : String) (w : World σ) : Prop :=
  w.disk.HasFile q content

theorem orFail_preserves (P : World σ → Prop) (p : Pass) (r : Except Fault α) :
    Preserves P (orFail p r : Passing σ α) := by
  cases r with
  | ok a => exact .pure a
  | error f => exact .throw (p.fail f)

theorem onDisk_preserves {x : OnDisk α} (hx : Preserves (fun d : Disk => d.HasFile q content) x) :
    Preserves (World.HasFile q content)
      (liftM (onDisk x : StateM (World σ) _) : Passing σ (Except Fault α)) :=
  fun w h => hx w.disk h

variable {engine : Engine σ} {a : Artifact} {p : Pass} {d d' : Disk} {s : Settings}
  {classes : List Source.ClassDecl} {analyze : Bool} {path text name : String} {r : Record}

/-! ## The steps up to the specification -/

/-- **A place where no text of a contract module goes.** -/
def Untouched (q : List String) : Prop := ∀ path, Path.HasExtension path ".dj" → place path ≠ q

theorem roundTrip_preserves (hq : Untouched q) (modules : List Contract.Module) (dir : String) :
    Preserves (fun d : Disk => d.HasFile q content) (Contract.roundTrip modules dir) := by
  refine Preserves.mapM (fun m => ?_) modules
  have hdj : Path.HasExtension (join dir (m.id ++ ".dj")) ".dj" :=
    (Path.hasExtension_of_suffix (by simp) (by decide) (by decide)).join dir
  have hreread : Preserves (fun d : Disk => d.HasFile q content)
      (ofExcept (Contract.reread m) : OnDisk _) := by
    cases Contract.reread m with
    | ok got => exact .pure got
    | error f => exact .throw f
  rw [Contract.roundTripOne_eq]
  split
  · exact (OnDisk.createDir_preserves dir).bind fun _ =>
      (OnDisk.writeFile_preserves (hq _ hdj) m.text).bind fun _ => hreread
  · exact hreread

theorem specification_preserves (hq : Untouched q) (s : Settings) (p : Pass)
    (modules : List Contract.Module) :
    Preserves (World.HasFile q content) (specification s p modules : Passing σ _) :=
  (onDisk_preserves (roundTrip_preserves hq modules _)).bind fun _ =>
    (orFail_preserves _ _ _).bind fun _ => (orFail_preserves _ _ _).bind fun _ =>
      (orFail_preserves _ _ _).bind fun _ => .pure _

/-! ## A pass -/

/-- **The specification of a pass is on the disk.** -/
structure Written (s : Settings) (p : Pass) (a : Artifact) (d : Disk) : Prop where
  artifact : p.artifact = some a
  path_eq : a.path = join s.outputDir (a.name ++ ".als")
  asked : ∃ owner, Asks s owner a.name
  file : d.HasFile (place a.path) a.text

theorem hasExtension_artifactOf (s : Settings) (spec : Spec.Specification) :
    Path.HasExtension (artifactOf s spec).path ".als" :=
  (Path.hasExtension_of_suffix (by simp) (by decide) (by decide)).join s.outputDir

/-- What the engine is given stays on the disk. -/
theorem analysis_ok {p' : Pass} (h : (analysis engine a p).run.run w = (.ok p', w')) :
    p'.artifact = p.artifact ∧ w'.disk = w.disk := by
  obtain ⟨answer, w₁, hanswer, h⟩ := exists_of_bind_ok h
  obtain ⟨-, rfl⟩ := Prod.mk.inj hanswer
  split at h
  · cases h
  · obtain ⟨hp, rfl⟩ := Prod.mk.inj h
    exact ⟨Except.ok.inj hp ▸ rfl, rfl⟩

theorem write_ok (h : a.write.run.run d = (.ok (), d')) : d'.HasFile (place a.path) a.text := by
  obtain ⟨_, d₁, -, h⟩ := exists_of_bind_ok h
  exact (Disk.write_spec (OnDisk.run_writeFile_eq_ok.mp h)).1

/-- **Steps that succeed have written a specification**, and leave other files alone. -/
theorem steps_ok (h : (steps engine s classes analyze).run.run w = (.ok p, w')) :
    ∃ spec, p.artifact = some (artifactOf s spec) ∧
      w'.disk.HasFile (place (artifactOf s spec).path) spec.text ∧
      ∀ q content, Untouched q → q ≠ place (artifactOf s spec).path → w.disk.HasFile q content →
        w'.disk.HasFile q content := by
  simp only [steps, laterSteps, run_bind_eq_ok] at h
  obtain ⟨⟨p₁, modules⟩, w₁, hcontracts, ⟨p₂, spec⟩, w₂, hspec, r, w₃, hwrite, _, w₄, hok, h⟩ := h
  obtain ⟨rfl, rfl⟩ := orFail_ok hok
  have hrun := onDisk_ok hwrite
  have hlast : p.artifact = some (artifactOf s spec) ∧ w'.disk = w₄.disk := by
    split at h
    · exact analysis_ok h
    · obtain ⟨hp, rfl⟩ := Prod.mk.inj h
      exact ⟨Except.ok.inj hp ▸ rfl, rfl⟩
  refine ⟨spec, hlast.1, hlast.2 ▸ write_ok hrun, ?_⟩
  intro q content hq hne hfile
  have hfile₁ : w₁.disk.HasFile q content := (onNames_cases hcontracts).2 ▸ hfile
  have hfile₂ := specification_preserves hq s p₁ modules w₁ hfile₁
  rw [hspec] at hfile₂
  have hkeeps : Preserves (fun d : Disk => d.HasFile q content) (artifactOf s spec).write :=
    (OnDisk.createDir_preserves _).bind fun _ => OnDisk.writeFile_preserves hne.symm _
  have hfile₃ := hkeeps w₂.disk hfile₂
  rw [hrun] at hfile₃
  exact hlast.2 ▸ hfile₃

/-- A pass without a fault has taken all its steps. -/
theorem steps_of_pass (h : (pass engine s classes analyze).run w = (p, w')) (hfault : p.fault = none) :
    (steps engine s classes analyze).run.run w = (.ok p, w') := by
  rcases hsteps : (steps engine s classes analyze).run.run w with ⟨r, w₁⟩
  have hpass := run_pass hsteps
  cases r with
  | ok p₁ =>
    obtain ⟨rfl, rfl⟩ := Prod.mk.inj (h.symm.trans hpass)
    rfl
  | error p₁ =>
    obtain ⟨rfl, rfl⟩ := Prod.mk.inj (h.symm.trans hpass)
    obtain _ | ⟨hp, -⟩ := steps_cases hsteps
    exact absurd hfault hp

/-- **A pass without a fault has written its specification**, and leaves other files alone. -/
theorem pass_writes (h : (pass engine s classes analyze).run w = (p, w')) (hfault : p.fault = none) :
    ∃ a, Written s p a w'.disk ∧ Path.HasExtension a.path ".als" ∧
      ∀ q content, Untouched q → q ≠ place a.path → w.disk.HasFile q content →
        w'.disk.HasFile q content := by
  obtain ⟨spec, hartifact, hfile, hothers⟩ := steps_ok (steps_of_pass h hfault)
  obtain ⟨g, htraced⟩ := traced_of_artifact h hartifact
  obtain ⟨spec', heq, hassemble⟩ := htraced.artifact _ hartifact
  have hname : (artifactOf s spec).name = g.target.2 := by
    rw [heq]
    exact program_of_assemble hassemble
  exact ⟨artifactOf s spec, ⟨hartifact, rfl, ⟨g.target.1, hname ▸ asks_of_target g.target_eq⟩, hfile⟩,
    hasExtension_artifactOf s spec, hothers⟩

/-! ## The query -/

/-- Where the query of a specification goes. -/
def queryPath (path : String) : String := Text.dropEnd path ".als" ++ ".inv"

theorem hasExtension_queryPath (path : String) : Path.HasExtension (queryPath path) ".inv" :=
  Path.hasExtension_of_suffix (by simp [queryPath]) (by decide) (by decide)

theorem ne_empty_of_hasExtension {ext : String} (h : Path.HasExtension path ext) : path ≠ "" := by
  obtain ⟨n, hn, hends, -⟩ := h
  rcases hends with rfl | ⟨dir, rfl⟩
  · exact hn.nonempty
  · exact fun heq => absurd (congrArg String.toList heq) (by simp)

theorem place_ne_queryPath (h : Path.HasExtension path ".als") (path' : String) :
    place path ≠ place (queryPath path') :=
  h.place_ne (hasExtension_queryPath path') (by decide) (by decide) (by decide)

/-- **A query takes the place of its specification**, and leaves other files alone. -/
theorem synthesize_spec {out : String} (hpath : Path.HasExtension path ".als")
    (hfile : d.HasFile (place path) text) (h : (Spec.synthesize path).run.run d = (.ok out, d')) :
    out = queryPath path ∧ (∃ edited, Spec.query text = .ok edited ∧
        d'.HasFile (place out) edited) ∧
      d'.entry? (place path) = none ∧
      ∀ q, q ≠ place path → q ≠ place out → d'.entry? q = d.entry? q := by
  have hread := (Disk.read_eq_ok (ne_empty_of_hasExtension hpath)).mpr hfile
  obtain ⟨text', d₁, hreading, h⟩ := exists_of_bind_ok h
  rw [OnDisk.run_readFile_of_read hread] at hreading
  obtain ⟨htext, rfl⟩ := Prod.mk.inj hreading
  obtain rfl : text = text' := Except.ok.inj htext
  cases hquery : Spec.query text with
  | error marker =>
    rw [hquery] at h
    cases h
  | ok edited =>
    rw [hquery] at h
    obtain ⟨_, d₂, hwriting, h⟩ := exists_of_bind_ok h
    obtain ⟨_, d₃, hremoving, h⟩ := exists_of_bind_ok h
    obtain ⟨hout, rfl⟩ := Prod.mk.inj h
    obtain rfl : queryPath path = out := Except.ok.inj hout
    obtain ⟨hwritten, hwrite⟩ := Disk.write_spec (OnDisk.run_writeFile_eq_ok.mp hwriting)
    obtain ⟨hremoved, hremove⟩ := Disk.remove_spec (OnDisk.run_removeFile_eq_ok.mp hremoving)
    refine ⟨rfl, ⟨edited, rfl, ?_⟩, hremoved, fun q hq hout => ?_⟩
    · exact (hremove _ (place_ne_queryPath hpath path).symm).trans hwritten
    · exact (hremove q hq).trans (hwrite q hout)

/-- A query can be made in a directory with no directories in it. -/
theorem exists_synthesize {edited n : String} {dir : List String} (hflat : d.IsFlat dir)
    (hpath : Path.HasExtension path ".als") (hfile : d.HasFile (place path) text)
    (hquery : Spec.query text = .ok edited) (hout : place (queryPath path) = dir ++ [n]) :
    ∃ d', (Spec.synthesize path).run.run d = (.ok (queryPath path), d') := by
  have hne := ne_empty_of_hasExtension (hasExtension_queryPath path)
  obtain ⟨d₁, hwrite, -⟩ := hflat.exists_write hne hout edited
  have hkept : d₁.HasFile (place path) text :=
    ((Disk.write_spec hwrite).2 _ (place_ne_queryPath hpath path)).trans hfile
  obtain ⟨d₂, hremove⟩ := Disk.exists_remove hkept
  have hread := (Disk.read_eq_ok (ne_empty_of_hasExtension hpath)).mpr hfile
  refine ⟨d₂, (run_bind_of_ok (OnDisk.run_readFile_of_read hread)).trans ?_⟩
  simp only [hquery]
  exact (run_bind_of_ok (OnDisk.run_writeFile_eq_ok.mpr hwrite)).trans
    (run_bind_of_ok (OnDisk.run_removeFile_eq_ok.mpr hremove))

/-! ## A run -/

/-- **A query without a fault**: the pass for it has written a specification, which became the query. -/
theorem queryPass_ok {r' : Record} (h : (queryPass engine s classes r).run w = (r', w'))
    (hfault : r'.fault = none) :
    ∃ p a w₁ out, (pass engine (s.forMethod generateInvariant) classes false).run w = (p, w₁) ∧
      p.fault = none ∧ p.artifact = some a ∧
      (Spec.synthesize a.path).run.run w₁.disk = (.ok out, w'.disk) ∧
      r' = { r with invariant := some (p.advance .invariantSynthesized), queryPath := out } := by
  rcases hpass : (pass engine (s.forMethod generateInvariant) classes false).run w with ⟨p, w₁⟩
  rw [queryPass, run_bind_of_run hpass] at h
  cases hp : p.fault with
  | some f =>
    simp only [hp] at h
    obtain ⟨rfl, -⟩ := Prod.mk.inj h
    cases hfault
  | none =>
    obtain ⟨a, hwritten, -⟩ := pass_writes hpass hp
    rcases hsynth : (Spec.synthesize a.path).run.run w₁.disk with ⟨result, d⟩
    simp only [hp, hwritten.artifact] at h
    rw [run_bind_of_run (run_onDisk hsynth)] at h
    cases result with
    | error f =>
      obtain ⟨rfl, -⟩ := Prod.mk.inj h
      cases hfault
    | ok out =>
      obtain ⟨rfl, rfl⟩ := Prod.mk.inj h
      exact ⟨p, a, w₁, out, rfl, hp, hwritten.artifact, hsynth, rfl⟩

/-- **A run without a fault**: a check without a fault, and a query after it. -/
theorem run_ok (h : (run engine s classes).run w = (r, w')) (hfault : r.fault = none) :
    ∃ p w₁, (pass engine s classes true).run w = (p, w₁) ∧ p.fault = none ∧
      (queryPass engine s classes { check := some p }).run w₁ = (r, w') := by
  rw [run] at h
  cases hvalid : s.validate with
  | error f =>
    simp only [hvalid] at h
    obtain ⟨rfl, -⟩ := Prod.mk.inj h
    cases hfault
  | ok _ =>
    simp only [hvalid] at h
    rcases hpass : (pass engine s classes true).run w with ⟨p, w₁⟩
    rw [run_bind_of_run hpass] at h
    cases hp : p.fault with
    | some f =>
      simp only [hp] at h
      obtain ⟨rfl, -⟩ := Prod.mk.inj h
      cases hfault
    | none =>
      simp only [hp] at h
      exact ⟨p, w₁, rfl, hp, h⟩

/-- The program that asks for an object invariant. -/
theorem eq_programId_of_asks {owner : String}
    (h : Asks (s.forMethod generateInvariant) owner name) :
    name = Contract.programId owner generateInvariant 0 := by
  have hsplit : MethodName.split (MethodName.normalize generateInvariant) =
      (generateInvariant, 0) := by decide
  have hname := h (show '(' ∉ generateInvariant.toList by decide)
  rwa [Settings.forMethod, hsplit] at hname

/-- Specifications of one directory are in one place exactly if they are of one program. -/
theorem place_eq_iff {dir : String} {b : Artifact} (ha : a.path = join dir (a.name ++ ".als"))
    (hb : b.path = join dir (b.name ++ ".als")) (hslash : '/' ∉ a.name.toList)
    (hslash' : '/' ∉ b.name.toList) : place a.path = place b.path ↔ a.name = b.name := by
  have hname : ∀ n : String, '/' ∉ n.toList → Path.IsName (n ++ ".als") := fun n hn =>
    @Path.isName_of_suffix (n ++ ".als") ".als" (by simp) (by simpa using hn) (by decide)
  rw [ha, hb, Path.place_join_inj (hname _ hslash) (hname _ hslash')]
  exact ⟨fun h => String.toList_inj.mp (by simpa using congrArg String.toList h), fun h => h ▸ rfl⟩

/-! ## Runs that have no fault -/

/-- The path of a file in a directory of the working directory. -/
structure Stands (path : String) (dir : List String) (n : String) : Prop where
  place_eq : place path = dir ++ [n]
  parent_ne : Path.parent path ≠ ""
  parent_eq : ∀ b ∈ Disk.beginnings (Path.parent path), place b = dir

theorem Stands.exists_write {dir : List String} {n : String} (h : Stands a.path dir n) (hflat : d.IsFlat dir) :
    ∃ d', a.write.run.run d = (.ok (), d') ∧ d'.IsFlat dir := by
  have hne : a.path ≠ "" := fun heq => by
    have hplace := heq ▸ h.place_eq
    simp [show place "" = [] from rfl] at hplace
  have hdirs : d.makeDirs (Path.parent a.path) = .ok d := by
    rw [Disk.makeDirs, if_neg h.parent_ne]
    exact Disk.makeEach_of_isDir (List.forall_mem_map.mpr fun b hb => h.parent_eq b hb ▸ hflat.isDir)
  obtain ⟨d', hwrite, hflat'⟩ := hflat.exists_write hne h.place_eq a.text
  exact ⟨d', (run_bind_of_ok (OnDisk.run_createDir_eq_ok.mpr hdirs)).trans
    (OnDisk.run_writeFile_eq_ok.mpr hwrite), hflat'⟩

/-- A world with a directory for the results. -/
def idleWorld : World Unit := { disk := ⟨[(["output"], .dir)]⟩, engine := () }

theorem isFlat_idleWorld : idleWorld.disk.IsFlat ["output"] :=
  ⟨rfl, fun n => by simp [idleWorld, Disk.entry?, List.lookup_cons]⟩

theorem calm_noEngine : (noEngine false : Engine σ).Calm := fun _ _ => rfl

namespace Stages

variable {s : Settings} {classes : List Source.ClassDecl}

/-- **A pass whose stages have results** puts them on record, with the index of its modules. -/
theorem exists_pass (g : Stages s classes 0) (hkeep : s.keepIntermediate = false) (hfile : Stands (join s.outputDir (g.target.2 ++ ".als")) ["output"] name) :
    ∃ p w', (Run.pass (noEngine false) s classes true).run idleWorld = (p, w') ∧ g.Recorded p ∧
      p.index = some (.collect g.relational) := by
  rw [← program_of_assemble g.spec_eq] at hfile
  obtain ⟨d, hwrite, -⟩ := Stands.exists_write (a := artifactOf s g.spec) hfile isFlat_idleWorld
  obtain ⟨p, w', hpass, hrecorded, -⟩ := g.pass (w := idleWorld) rfl hkeep calm_noEngine hwrite true
  obtain ⟨_, htraced⟩ := traced_of_artifact hpass hrecorded.artifact
  exact ⟨p, w', hpass, hrecorded, hrecorded.modules ▸ htraced.index⟩

/-- **A run whose stages have results** has no fault.  Its second specification is gone in the end. -/
theorem exists_run (check : Stages s classes 0)
    (invariant : Stages (s.forMethod generateInvariant) classes check.issued.names)
    (hvalid : s.validate = .ok ()) (hkeep : s.keepIntermediate = false) {owner n₁ n₂ n₃ : String}
    (htarget : invariant.target = (owner, Contract.programId owner generateInvariant 0))
    (hcheck : Stands (artifactOf s check.spec).path ["output"] n₁)
    (hinvariant : Stands (artifactOf s invariant.spec).path ["output"] n₂)
    (hout : place (queryPath (artifactOf s invariant.spec).path) = ["output"] ++ [n₃]) :
    ∃ r w', (Run.run (noEngine false) s classes).run idleWorld = (r, w') ∧ r.fault = none ∧
      (∃ p, r.check = some p ∧ check.Recorded p) ∧ (∃ p, r.invariant = some p ∧ invariant.Recorded p) ∧
      w'.disk.entry? (place (artifactOf s invariant.spec).path) = none := by
  obtain ⟨edited, hquery⟩ := invariant.exists_query htarget
  -- Each file that is written leaves the directory fit for the next one.
  obtain ⟨d₁, hwrite₁, hflat₁⟩ := hcheck.exists_write isFlat_idleWorld
  obtain ⟨d₂, hwrite₂, hflat₂⟩ := hinvariant.exists_write hflat₁
  have hext := hasExtension_artifactOf s invariant.spec
  have hfile := write_ok hwrite₂
  obtain ⟨d₃, hsynth⟩ := exists_synthesize hflat₂ hext hfile hquery hout
  obtain ⟨-, -, hremoved, -⟩ := synthesize_spec hext hfile hsynth
  obtain ⟨r, w', hrun, hfault, rfl, hr⟩ :=
    Stages.run (w := idleWorld) hvalid hkeep calm_noEngine check invariant hwrite₁ hwrite₂ hsynth
  exact ⟨r, w', hrun, hfault, hr.1, hr.2, hremoved⟩

end Stages

/-! ## What a run leaves -/

/-- **What a run leaves on the disk**: the query of its second specification, and the specification that
was checked, unless both were in one place. -/
structure Leaves (s : Settings) (r : Record) (d : Disk) (check invariant : Artifact) : Prop where
  checked : ∃ p, r.check = some p ∧ p.artifact = some check
  queried : ∃ p, r.invariant = some p ∧ p.artifact = some invariant
  check_path : check.path = join s.outputDir (check.name ++ ".als")
  invariant_path : invariant.path = join s.outputDir (invariant.name ++ ".als")
  check_name : ∃ owner, Asks s owner check.name
  invariant_name : ∃ owner, invariant.name = Contract.programId owner generateInvariant 0
  query_path : r.queryPath = queryPath invariant.path
  query : ∃ text, Spec.query invariant.text = .ok text ∧ d.read r.queryPath = .ok text
  kept : d.read check.path = .ok check.text ↔ place check.path ≠ place invariant.path
  same_place : '/' ∉ check.name.toList → '/' ∉ invariant.name.toList →
    (place check.path = place invariant.path ↔ check.name = invariant.name)

/-- **What a run without a fault leaves on the disk.** -/
theorem run_leaves_artifacts (engine : Engine σ) (s : Settings) (classes : List Source.ClassDecl)
    (w w' : World σ) (r : Record) (h : (run engine s classes).run w = (r, w')) (hfault : r.fault = none) :
    ∃ check invariant, Leaves s r w'.disk check invariant := by
  obtain ⟨p, w₁, hcheck, hp, hquery⟩ := run_ok h hfault
  obtain ⟨a, hwritten, hext, -⟩ := pass_writes hcheck hp
  obtain ⟨p₂, b, w₂, out, hpass, hp₂, hb, hsynth, rfl⟩ := queryPass_ok hquery hfault
  obtain ⟨b', hwritten', hext', hkeeps⟩ := pass_writes hpass hp₂
  obtain rfl : b' = b := Option.some.inj (hwritten'.artifact.symm.trans hb)
  obtain ⟨rfl, ⟨text, htext, hfile⟩, hremoved, hothers⟩ := synthesize_spec hext' hwritten'.file hsynth
  refine ⟨a, b', ⟨p, rfl, hwritten.artifact⟩, ⟨_, rfl, hb⟩, hwritten.path_eq, hwritten'.path_eq,
    hwritten.asked, hwritten'.asked.imp fun _ => eq_programId_of_asks, rfl, ⟨text, htext, ?_⟩, ?_,
    place_eq_iff hwritten.path_eq hwritten'.path_eq⟩
  · exact (Disk.read_eq_ok (ne_empty_of_hasExtension (hasExtension_queryPath _))).mpr hfile
  · rw [Disk.read_eq_ok (ne_empty_of_hasExtension hext)]
    constructor
    · -- In one place, the query has removed the file of both.
      intro hkept hsame
      rw [Disk.HasFile, hsame, hremoved] at hkept
      cases hkept
    · -- The second pass writes no other specification, and contract modules have another extension.
      intro hne
      have huntouched : Untouched _ := fun _ hdj => hdj.place_ne hext (by decide) (by decide) (by decide)
      have hkept := hkeeps _ _ huntouched hne hwritten.file
      exact (hothers _ hne (place_ne_queryPath hext _)).trans hkept

/-- A class with one method that does nothing. -/
def idle : Source.ClassDecl where
  file := "C.java"
  name := "C"
  methods := [{ name := "m" }]

/-- Settings that ask for a method of the class. -/
def asking (method : String) : Settings := { className := "C", method }

/-- The relational program of a method that does nothing. -/
def idleProgram (method : String) : Relational.Program where
  id := Contract.programId "C" method 0
  owner := "C"
  method := method
  overload := 0

/-- The relational module of the class. -/
def idleRelational (methods : List String) : Relational.Module where
  id := "C"
  className := "C"
  invariant := ⟨"C_object_invariant", [⟨"thiz", .ref "C"⟩], .truth⟩
  programs := methods.map idleProgram

/-- The specification of a method of the class. -/
def idleSpec (methods : List String) (method : String) : Spec.Specification :=
  Spec.Frame.specify ⟨[idleRelational methods], idleRelational methods, idleProgram method⟩
    (asking method) {} {}

theorem plain_idle : ∀ c ∈ [idle], c.Plain := by
  refine List.forall_mem_singleton.mpr ⟨nofun, by decide, nofun, rfl, nofun, ?_, fun _ => ?_⟩
  · exact List.forall_mem_singleton.mpr ⟨by decide, nofun, nofun, rfl, nofun, nofun⟩
  · exact Nat.lt_of_le_of_lt List.countP_le_length (Nat.one_lt_two_pow (by decide))

/-- The stages when a method of the class is asked for. -/
def idleStages : Stages (asking "m") [idle] 0 :=
  .ofPlain _ _ ⟨0, 0⟩ ("C", "C_m_0") [idleRelational ["m"]] (idleSpec ["m"] "m") plain_idle rfl
    (by decide +kernel) rfl rfl rfl rfl

/-- The stages when the object invariant of the class is asked for. -/
def idleQueryStages : Stages (asking "generateInvariant") [idle] 0 :=
  .ofPlain _ _ ⟨0, 0⟩ ("C", "C_generateInvariant_0") [idleRelational ["m", "generateInvariant"]]
    (idleSpec ["m", "generateInvariant"] "generateInvariant") plain_idle rfl (by decide +kernel) rfl rfl rfl
    rfl

theorem stands_idle : Stands (artifactOf (asking "m") idleStages.spec).path ["output"] "C_m_0.als" :=
  ⟨by decide +kernel, by decide +kernel, by decide +kernel⟩

theorem stands_idleQuery : Stands (artifactOf (asking "m") idleQueryStages.spec).path ["output"]
    "C_generateInvariant_0.als" :=
  ⟨by decide +kernel, by decide +kernel, by decide +kernel⟩

theorem stands_idleResult : place (queryPath (artifactOf (asking "m") idleQueryStages.spec).path) =
    ["output"] ++ ["C_generateInvariant_0.inv"] := by
  decide +kernel

/-- The specification of a method other than that of the query stays. -/
theorem run_leaves_artifacts_idle : ∃ r w' check invariant,
    (run (noEngine false) (asking "m") [idle]).run idleWorld = (r, w') ∧ r.fault = none ∧
      Leaves (asking "m") r w'.disk check invariant ∧ w'.disk.read check.path = .ok check.text := by
  obtain ⟨r, w', hrun, hfault, ⟨p, hp, hcheck⟩, ⟨p', hp', hinvariant⟩, -⟩ :=
    idleStages.exists_run idleQueryStages rfl rfl rfl stands_idle stands_idleQuery stands_idleResult
  obtain ⟨check, invariant, hleaves⟩ :=
    run_leaves_artifacts (noEngine false) (asking "m") [idle] idleWorld w' r hrun hfault
  obtain ⟨q, hq, hcheck'⟩ := hleaves.checked
  obtain ⟨q', hq', hinvariant'⟩ := hleaves.queried
  obtain rfl : p = q := Option.some.inj (hp.symm.trans hq)
  obtain rfl : p' = q' := Option.some.inj (hp'.symm.trans hq')
  obtain rfl : artifactOf (asking "m") idleStages.spec = check :=
    Option.some.inj (hcheck.artifact.symm.trans hcheck')
  obtain rfl : artifactOf (asking "m") idleQueryStages.spec = invariant :=
    Option.some.inj (hinvariant.artifact.symm.trans hinvariant')
  refine ⟨r, w', _, _, hrun, hfault, hleaves, hleaves.kept.mpr ?_⟩
  rw [stands_idle.place_eq, stands_idleQuery.place_eq]
  decide

/-- **A run that checks the method for the query replaces the specification it has checked**: the query
takes the file of both. -/
theorem run_replaces_checked : ∃ r w' p a,
    (run (noEngine false) (asking "generateInvariant") [idle]).run idleWorld = (r, w') ∧
      r.fault = none ∧ r.check = some p ∧ p.artifact = some a ∧
      ∀ text, w'.disk.read a.path ≠ .ok text := by
  obtain ⟨r, w', hrun, hfault, ⟨p, hp, hcheck⟩, -, hremoved⟩ :=
    idleQueryStages.exists_run idleQueryStages rfl rfl rfl stands_idleQuery stands_idleQuery
      stands_idleResult
  refine ⟨r, w', p, _, hrun, hfault, hp, hcheck.artifact, fun text hread => ?_⟩
  have hext := hasExtension_artifactOf (asking "generateInvariant") idleQueryStages.spec
  have hfile := (Disk.read_eq_ok (ne_empty_of_hasExtension hext)).mp hread
  rw [Disk.HasFile, hremoved] at hfile
  cases hfile

end Relspec.Run
