import Relspec.Proofs.Contract.Identifiers
import Relspec.Proofs.Contract.Merging
import Relspec.Proofs.Contract.Pragmas
import Relspec.Proofs.Run.Stages

/-!
# Proofs/Run/Trace — what the record of a pass tells of its stages

A pass puts its relational modules on record together with their index, and its specification once that
is written.  So a record with an index was made by stages that had results, whether the pass has ended
with a fault or not.

* `contracts_cases` — how the contract modules of a pass end;
* `Traced` — what is on record came from them;
* `traced_of_index`, `traced_of_artifact` — a record with an index, a record with a specification;
* `Traced.map_id`, `Traced.id_sublist` — the modules on record are called after the classes;
* `Stages.ofPlain` — the stages of a pass over plain classes, from their results.
-/

namespace Relspec.Run

open Source (ClassDecl)

variable {σ : Type} {w w' : World σ} {s : Settings} {classes : List ClassDecl} {n : Nat}
variable {α β : Type} {p : Pass} {f : α → Passing σ β} {r : Except Pass β}

/-- **The results behind the record of a pass** that has contract modules: what their texts read as, and
the relational modules and the specification on record. -/
structure Traced (g : Contracted s classes n) (p : Pass) : Prop where
  target : p.target = some g.target
  diagnostics : p.diagnostics = g.merged.catalog.diagnostics
  read : ∃ read dir d d', (Contract.roundTrip g.withPragmas dir).run.run d = (.ok read, d') ∧
    Relational.ofModules s read = .ok p.modules
  index : p.index = some (.collect p.modules)
  artifact : ∀ a, p.artifact = some a → ∃ spec, a = artifactOf s spec ∧
    Spec.assemble s p.modules (.collect p.modules) g.target.1 g.target.2 = .ok spec

/-- A record without relational modules. -/
def Pass.Early (p : Pass) : Prop := p.index = none ∧ p.artifact = none

/-! ## Steps that may fail -/

section

variable {ω : Type} {t t' : ω} {g : α → ExceptT Pass (StateM ω) β}

/-- A step that may end the pass, followed by others. -/
theorem orFail_bind_cases {x : Except Fault α} (h : (orFail p x >>= g).run.run t = (r, t')) :
    (∃ e, r = .error (p.fail e)) ∨ ∃ a, x = .ok a ∧ (g a).run.run t = (r, t') := by
  cases x with
  | ok a => exact .inr ⟨a, rfl, h⟩
  | error e =>
    obtain ⟨rfl, -⟩ := Prod.mk.inj h
    exact .inl ⟨e, rfl⟩

/-- A step that cannot fail, followed by others. -/
theorem lift_bind_cases {x : StateM ω α}
    (h : (liftM x >>= g : ExceptT Pass (StateM ω) β).run.run t = (r, t')) :
    ∃ a t₁, x.run t = (a, t₁) ∧ (g a).run.run t₁ = (r, t') :=
  ⟨(x.run t).1, (x.run t).2, rfl, h⟩

end

theorem supplied_cases {x : Contract.Supplied α} {sides n' : Nat} {y : α × Nat}
    (h : (supplied sides x).run n = (y, n')) :
    ∃ a issued, x.run ⟨n, sides⟩ = (a, issued) ∧ y = (a, issued.sides) ∧ n' = issued.names := by
  obtain ⟨rfl, rfl⟩ := Prod.mk.inj h
  exact ⟨_, _, rfl, rfl, rfl⟩

theorem onNames_cases {x : ExceptT Pass (StateM Nat) β}
    (h : (ExceptT.mk (onNames x.run) : Passing σ β).run.run w = (r, w')) :
    x.run.run w.names = (r, w'.names) ∧ w'.disk = w.disk := by
  obtain ⟨rfl, rfl⟩ := Prod.mk.inj h
  exact ⟨rfl, rfl⟩

/-! ## The stages of a pass -/

/-- **How the contract modules of a pass end**: with the fault of a step, which breaks the pass off only if a
class is stranded, or with results. -/
theorem contracts_cases {r : Except Pass (Pass × List Contract.Module)} {n' : Nat}
    (h : (contracts s classes p).run.run n = (r, n')) :
    (∃ (q : Pass) (f : Fault), r = .error (q.fail f) ∧ q.index = p.index ∧ q.artifact = p.artifact ∧
      (q.brokeOff = true → p.brokeOff = true ∨ Source.Strands s.className classes)) ∨
    ∃ g : Contracted s classes n, r = .ok ({ p with
      state := .assertionsMerged
      target := some g.target
      diagnostics := g.merged.catalog.diagnostics }, g.withPragmas) := by
  obtain ⟨_, n₁, hsupplied, h⟩ := lift_bind_cases h
  obtain ⟨lowered, supply, hlowered, rfl, rfl⟩ := supplied_cases hsupplied
  rcases orFail_bind_cases h with ⟨f, rfl⟩ | ⟨modules, hmodules, h⟩
  · exact .inl ⟨_, f, rfl, rfl, rfl, .inl⟩
  rcases orFail_bind_cases h with ⟨f, rfl⟩ | ⟨target, htarget, h⟩
  · exact .inl ⟨_, f, rfl, rfl, rfl, .inl⟩
  obtain ⟨_, n₂, hsupplied, h⟩ := lift_bind_cases h
  obtain ⟨merged, issued, hmerged, rfl, -⟩ := supplied_cases hsupplied
  rcases orFail_bind_cases h with ⟨f, rfl⟩ | ⟨withPragmas, hwith, h⟩
  · refine .inl ⟨_, f, rfl, rfl, rfl, fun hbroke => .inr ?_⟩
    exact Contract.strands_of_brokeOff ((congrArg (·.1.brokeOff) hmerged).trans hbroke)
  obtain ⟨rfl, -⟩ := Prod.mk.inj h
  exact .inr ⟨⟨lowered, supply, modules, target, merged, issued, withPragmas, hlowered, hmodules, htarget,
    hmerged, hwith⟩, rfl⟩

/-- **How a step ends that may end the pass**: what it passes on, or the record of the pass with a fault. -/
inductive Ended {α : Type} (P : Pass → Prop) (Q : α → Prop) : Except Pass α → Prop
  | goesOn {a : α} (h : Q a) : Ended P Q (.ok a)
  | stops {q : Pass} (hfault : q.fault ≠ none) (h : P q) : Ended P Q (.error q)

theorem specification_cases {g : Contracted s classes n} {r : Except Pass (Pass × Spec.Specification)}
    (htarget : p.target = some g.target) (hdiagnostics : p.diagnostics = g.merged.catalog.diagnostics)
    (h : (specification s p g.withPragmas : Passing σ _).run.run w = (r, w')) (hp : p.Early) :
    Ended (fun q => q.Early ∨ Traced g q) (fun q => Traced g q.1 ∧
      Spec.assemble s q.1.modules (.collect q.1.modules) g.target.1 g.target.2 = .ok q.2) r := by
  obtain ⟨got, w₁, hround, h⟩ := lift_bind_cases h
  rcases orFail_bind_cases h with ⟨f, rfl⟩ | ⟨read, hread, h⟩
  · exact .stops (Option.some_ne_none f) (.inl hp)
  rcases orFail_bind_cases h with ⟨f, rfl⟩ | ⟨relational, hrelational, h⟩
  · exact .stops (Option.some_ne_none f) (.inl hp)
  have hdisk := onDisk_ok (run_lift hround)
  rw [hread] at hdisk
  have hnone : ∀ a, p.artifact ≠ some a := fun a ha => nomatch hp.2.symm.trans ha
  rcases orFail_bind_cases h with ⟨f, rfl⟩ | ⟨spec, hspec, h⟩
  · exact .stops (Option.some_ne_none f) (.inr ⟨htarget, hdiagnostics, ⟨read, _, _, _, hdisk, hrelational⟩, rfl,
      fun a ha => absurd ha (hnone a)⟩)
  obtain ⟨rfl, -⟩ := Prod.mk.inj h
  simp only [Pass.advance, htarget] at hspec
  exact .goesOn ⟨⟨htarget, hdiagnostics, ⟨read, _, _, _, hdisk, hrelational⟩, rfl,
    fun a ha => absurd ha (hnone a)⟩, hspec⟩

/-- The engine only adds its outcome to the record. -/
theorem analysis_cases {engine : Engine σ} {a : Artifact} {r : Except Pass Pass} {g : Contracted s classes n}
    (hp : Traced g p) (h : (analysis engine a p).run.run w = (r, w')) : Ended (Traced g) (Traced g) r := by
  obtain ⟨answer, w₁, -, h⟩ := lift_bind_cases h
  split at h
  · next f _ =>
    obtain ⟨rfl, -⟩ := Prod.mk.inj h
    exact .stops (Option.some_ne_none f) ⟨hp.target, hp.diagnostics, hp.read, hp.index, hp.artifact⟩
  · obtain ⟨rfl, -⟩ := Prod.mk.inj h
    exact .goesOn ⟨hp.target, hp.diagnostics, hp.read, hp.index, hp.artifact⟩

section

variable {engine : Engine σ} {analyze : Bool}

/-- The steps of a pass end with what they have traced, or early. -/
theorem steps_cases {r : Except Pass Pass} (h : (steps engine s classes analyze).run.run w = (r, w')) :
    Ended (fun p => p.Early ∨ ∃ g : Contracted s classes w.names, Traced g p)
      (fun p => ∃ g : Contracted s classes w.names, Traced g p) r := by
  rcases run_bind_cases h with ⟨p, hrun, rfl⟩ | ⟨⟨p₁, modules⟩, w₁, hrun, h⟩
  · rcases contracts_cases (onNames_cases hrun).1 with ⟨q, f, hq, hindex, hartifact, -⟩ | ⟨g, hg⟩
    · cases hq
      exact .stops (Option.some_ne_none f) (.inl ⟨hindex, hartifact⟩)
    · cases hg
  obtain ⟨q, f, hq, -⟩ | ⟨g, hg⟩ := contracts_cases (onNames_cases hrun).1
  · cases hq
  obtain ⟨rfl, rfl⟩ := Prod.mk.inj (Except.ok.inj hg)
  rcases run_bind_cases h with ⟨p, hrun, rfl⟩ | ⟨⟨p₂, spec⟩, w₂, hrun, h⟩
  · cases specification_cases rfl rfl hrun ⟨rfl, rfl⟩ with
    | stops hfault hp => exact .stops hfault (hp.imp_right fun htraced => ⟨g, htraced⟩)
  obtain ⟨htraced, hspec⟩ | _ := specification_cases rfl rfl hrun ⟨rfl, rfl⟩
  obtain ⟨_, w₃, -, h⟩ := lift_bind_cases h
  rcases orFail_bind_cases h with ⟨f, rfl⟩ | ⟨_, -, h⟩
  · exact .stops (Option.some_ne_none f) (.inr ⟨g, htraced.target, htraced.diagnostics, htraced.read, htraced.index,
      htraced.artifact⟩)
  have hwritten : Traced g (({ p₂ with artifact := some (artifactOf s spec) } : Pass).advance .assembled) :=
    ⟨htraced.target, htraced.diagnostics, htraced.read, htraced.index, fun a ha => ⟨spec, (Option.some.inj ha).symm, hspec⟩⟩
  split at h
  · cases analysis_cases hwritten h with
    | goesOn hp => exact .goesOn ⟨g, hp⟩
    | stops hfault hp => exact .stops hfault (.inr ⟨g, hp⟩)
  · obtain ⟨rfl, -⟩ := Prod.mk.inj h
    exact .goesOn ⟨g, hwritten⟩

variable {p : Pass}

/-- **What the record of a pass tells of its stages.** -/
theorem pass_cases (h : (pass engine s classes analyze).run w = (p, w')) :
    p.Early ∨ ∃ g : Contracted s classes w.names, Traced g p := by
  rcases hsteps : (steps engine s classes analyze).run.run w with ⟨r, w₁⟩
  obtain ⟨rfl, -⟩ := Prod.mk.inj ((run_pass hsteps).symm.trans h)
  cases steps_cases hsteps with
  | goesOn hp => exact .inr hp
  | stops _ hp => exact hp

/-- A record with an index. -/
theorem traced_of_index (h : (pass engine s classes analyze).run w = (p, w'))
    {i : Relational.SideIndex} (hi : p.index = some i) : ∃ g : Contracted s classes w.names, Traced g p :=
  (pass_cases h).resolve_left fun hearly => nomatch hearly.1.symm.trans hi

/-- A record with a specification. -/
theorem traced_of_artifact (h : (pass engine s classes analyze).run w = (p, w')) {a : Artifact}
    (ha : p.artifact = some a) : ∃ g : Contracted s classes w.names, Traced g p :=
  (pass_cases h).resolve_left fun hearly => nomatch hearly.2.symm.trans ha

end

/-! ## What the modules on record are called -/

namespace Contracted

variable (g : Contracted s classes n)

theorem lowered_ok : ((Contract.ofClasses s classes).run ⟨n, 0⟩).1.result = .ok g.modules := by
  rw [g.lowered_eq, g.modules_eq]

theorem merged_ok :
    ((Contract.mergePragmas s g.modules classes g.lowered.catalog).run g.supply).1.result =
      .ok g.withPragmas := by
  rw [g.merged_eq, g.withPragmas_eq]

/-- The contract modules of a pass are called after the classes. -/
theorem ids_sublist : (g.withPragmas.map Contract.Module.ids).Sublist
    ((Contract.withQueryMethod s classes).map Contract.idsOf) :=
  (Contract.mergePragmas_ids g.merged_ok).trans (Contract.ofClasses_ids g.lowered_ok)

theorem plain (hclasses : ∀ c ∈ classes, c.Plain) : ∀ m ∈ g.withPragmas, m.Plain := by
  obtain ⟨hplain, hcatalog⟩ := Contract.ofClasses_plain hclasses g.lowered_ok
  rw [g.lowered_eq] at hcatalog
  exact Contract.mergePragmas_plain hclasses hplain hcatalog g.merged_ok

end Contracted

section

variable {g : Contracted s classes n} {p : Pass}

/-- The modules on record are called as the contract modules. -/
theorem Traced.map_id (h : Traced g p) : p.modules.map (·.id) = g.withPragmas.map (·.id) := by
  obtain ⟨read, _, _, _, hread, hrelational⟩ := h.read
  have hmodules : p.modules.map (·.id) = read.map (·.id) := by
    refine map_eq_of_forall₂ (forall₂_of_mapM_ok hrelational) fun m r hr => ?_
    obtain ⟨_, _, -, -, rfl⟩ := Relational.exists_of_ofModule hr
    rfl
  rw [hmodules, Contract.roundTrip_id hread]

/-- **The modules on record are called after the classes**, in their order. -/
theorem Traced.id_sublist (h : Traced g p) : (p.modules.map (·.id)).Sublist (classes.map (·.id)) := by
  have hids := g.ids_sublist.map Prod.fst
  rw [List.map_map, List.map_map] at hids
  rw [h.map_id, ← Contract.id_withQueryMethod s]
  exact hids

/-- The modules on record are those that the texts of the contract modules read as. -/
theorem Traced.relational_of_plain (h : Traced g p) (hclasses : ∀ c ∈ classes, c.Plain) :
    Relational.ofModules s (g.withPragmas.map Contract.Module.asRead) = .ok p.modules := by
  obtain ⟨read, _, _, _, hread, hrelational⟩ := h.read
  rwa [Contract.roundTrip_of_plain (g.plain hclasses) hread] at hrelational

end

/-! ## Passes with given results -/

namespace Stages

/-- The stages of a pass over plain classes whose pragmas change nothing and whose modules read as they
are. -/
def ofPlain (ms : List Contract.Module) (catalog : Contract.Catalog) (supply : Contract.Supply)
    (target : String × String) (rs : List Relational.Module) (spec : Spec.Specification)
    (hclasses : ∀ c ∈ classes, c.Plain)
    (hlowered : (Contract.ofClasses s classes).run ⟨n, 0⟩ = (⟨.ok ms, catalog⟩, supply))
    (htarget : catalog.target s = .ok target)
    (hmerged : (Contract.mergePragmas s ms classes catalog).run supply = (⟨.ok ms, catalog⟩, supply))
    (hread : ms.map Contract.Module.asRead = ms) (hrelational : Relational.ofModules s ms = .ok rs)
    (hspec : Spec.assemble s rs (.collect rs) target.1 target.2 = .ok spec) : Stages s classes n where
  lowered := ⟨.ok ms, catalog⟩
  supply := supply
  modules := ms
  target := target
  merged := ⟨.ok ms, catalog⟩
  issued := supply
  withPragmas := ms
  relational := rs
  spec := spec
  lowered_eq := hlowered
  modules_eq := rfl
  target_eq := htarget
  merged_eq := hmerged
  withPragmas_eq := rfl
  legible := by
    have hplain := (Contract.ofClasses_plain hclasses (by rw [hlowered])).1
    intro m hm
    obtain ⟨m', hm', rfl⟩ := List.mem_map.mp (hread.symm ▸ hm : m ∈ ms.map Contract.Module.asRead)
    exact Contract.Module.legible_asRead (hplain m' hm')
  relational_eq := hrelational
  spec_eq := hspec

end Stages

end Relspec.Run
