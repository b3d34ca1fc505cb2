import Relspec.Proofs.Contract.RoundTrip
import Relspec.Proofs.Spec.Named
import Relspec.Run.Basic

/-!
# Proofs/Run/Stages — a pass, stage by stage

A pass without a fault has gone through all its stages, and a pass whose stages all have a result has no
fault.

* `orFail_ok`, `onDisk_ok` — what a step that succeeds has done;
* `Asks` — the program that settings ask for by name;
* `Stages` — results of all stages, and `Stages.run` — a run that has them.
-/

namespace Relspec.Run

variable {σ α β : Type} {w w' : World σ}
variable {a : α} {x : OnDisk α} {r : Except Fault α}

/-! ## Single steps -/

theorem run_bind_of_run {ω : Type} {x : StateM ω α} {f : α → StateM ω β} {s s₁ : ω} (h : x.run s = (a, s₁)) :
    (x >>= f).run s = (f a).run s₁ := by
  rw [StateT.run_bind, h]
  rfl

theorem run_supplied {x : Contract.Supplied α} {sides n : Nat} {y : α × Contract.Supply}
    (h : x.run ⟨n, sides⟩ = y) : (supplied sides x).run n = ((y.1, y.2.sides), y.2.names) :=
  congrArg (fun y : α × Contract.Supply => ((y.1, y.2.sides), y.2.names)) h

theorem run_onNames {x : ExceptT Pass (StateM Nat) α} {r : Except Pass α} {n : Nat}
    (h : x.run.run w.names = (r, n)) :
    (ExceptT.mk (onNames x.run) : Passing σ α).run.run w = (r, { w with names := n }) :=
  congrArg (fun y : Except Pass α × Nat => (y.1, ({ w with names := y.2 } : World σ))) h

theorem run_onDisk {d : Disk} (h : x.run.run w.disk = (r, d)) :
    (onDisk x : StateM (World σ) _).run w = (r, { w with disk := d }) :=
  congrArg (fun y : Except Fault α × Disk => (y.1, ({ w with disk := y.2 } : World σ))) h

theorem run_onEngine {x : StateM σ α} {y : α × σ} (h : x.run w.engine = y) :
    (onEngine x).run w = (y.1, { w with engine := y.2 }) :=
  congrArg (fun y : α × σ => (y.1, ({ w with engine := y.2 } : World σ))) h

theorem run_lift {ω : Type} {x : StateM ω α} {t t' : ω} (h : x.run t = (a, t')) :
    (liftM x : ExceptT Pass (StateM ω) α).run.run t = (.ok a, t') :=
  congrArg (fun y : α × ω => ((.ok y.1, y.2) : Except Pass α × ω)) h

theorem run_orFail {ω : Type} {t : ω} (p : Pass) (h : r = .ok a) :
    (orFail p r : ExceptT Pass (StateM ω) α).run.run t = (.ok a, t) := by
  rw [h]
  rfl

theorem onDisk_ok
    (h : (liftM (onDisk x : StateM (World σ) _) : Passing σ (Except Fault α)).run.run w = (.ok r, w')) :
    x.run.run w.disk = (r, w'.disk) := by
  obtain ⟨hr, rfl⟩ := Prod.mk.inj h
  exact Prod.ext (Except.ok.inj hr) rfl

theorem orFail_ok {p : Pass} (h : (orFail p r : Passing σ α).run.run w = (.ok a, w')) :
    r = .ok a ∧ w' = w := by
  cases r with
  | ok b =>
    obtain ⟨hb, rfl⟩ := Prod.mk.inj h
    exact ⟨congrArg Except.ok (Except.ok.inj hb), rfl⟩
  | error f => cases h

theorem run_pass {engine : Engine σ} {s : Settings} {classes : List Source.ClassDecl} {analyze : Bool}
    {r : Except Pass Pass} (h : (steps engine s classes analyze).run.run w = (r, w')) :
    (pass engine s classes analyze).run w = (ended r, w') := run_bind_of_run h

/-! ## The program to check -/

/-- **The program that settings ask for**: without a parameter list they give its method and the number
of its overload. -/
def Asks (s : Settings) (owner program : String) : Prop :=
  '(' ∉ s.method.toList →
    program = Contract.programId owner (MethodName.split (MethodName.normalize s.method)).1
      (MethodName.split (MethodName.normalize s.method)).2.toNat

theorem asks_of_target {c : Contract.Catalog} {s : Settings} {owner program : String}
    (h : c.target s = .ok (owner, program)) : Asks s owner program := by
  intro hparen
  rw [Contract.Catalog.target] at h
  split at h
  · cases h
  · next qualified _ =>
    have hfor : ∀ id, c.programFor s qualified id =
        some (Contract.programId id (MethodName.split (MethodName.normalize s.method)).1
          (MethodName.split (MethodName.normalize s.method)).2.toNat) := fun id => by
      rw [Contract.Catalog.programFor, if_neg (by simpa using hparen)]
    simp only [hfor] at h
    split at h
    · obtain ⟨rfl, rfl⟩ := Prod.mk.inj (Except.ok.inj h)
      rfl
    · cases h

section

variable {s : Settings} {modules : List Relational.Module} {index : Relational.SideIndex}
  {owner program : String} {spec : Spec.Specification}

/-- The program of a specification is found in the modules, and its side variables in the index. -/
theorem exists_frame_of_assemble (h : Spec.assemble s modules index owner program = .ok spec) :
    ∃ a moduleSide programSide, Spec.frame? modules owner program = some a ∧
      index.ofModule owner = .ok moduleSide ∧ index.ofProgram program = .ok programSide ∧
      spec = a.specify s moduleSide programSide := by
  obtain ⟨_, -, h⟩ := exists_of_except_ok h
  cases hframe : Spec.frame? modules owner program with
  | none =>
    rw [hframe] at h
    cases h
  | some a =>
    rw [hframe] at h
    obtain ⟨moduleSide, hmodule, h⟩ := exists_of_except_ok h
    obtain ⟨programSide, hprogram, h⟩ := exists_of_except_ok h
    exact ⟨a, moduleSide, programSide, rfl, hmodule, hprogram, (Except.ok.inj h).symm⟩

theorem program_of_assemble (h : Spec.assemble s modules index owner program = .ok spec) :
    spec.program = program := by
  obtain ⟨a, _, _, hframe, -, -, rfl⟩ := exists_frame_of_assemble h
  exact (Spec.Frame.mem_of_frame? hframe).2.2.2.2

end

/-! ## Stages with results -/

/-- An engine that finds no fault with any specification. -/
def Engine.Calm (engine : Engine σ) : Prop := ∀ a e, ((engine.analyze a).run e).1.fault = none

theorem Engine.Calm.analysis {engine : Engine σ} (h : engine.Calm) (a : Artifact) (p : Pass)
    (w : World σ) :
    ∃ p' w', (Run.analysis engine a p).run.run w = (.ok p', w') ∧ p'.fault = p.fault ∧
      p'.target = p.target ∧ p'.modules = p.modules ∧ p'.artifact = p.artifact ∧
      w'.names = w.names ∧ w'.disk = w.disk := by
  rcases hanswer : (engine.analyze a).run w.engine with ⟨answer, e⟩
  have hfault : answer.fault = none := by simpa [hanswer] using h a w.engine
  unfold Run.analysis
  rw [run_bind_of_ok (run_lift (run_onEngine hanswer))]
  simp only [hfault]
  exact ⟨_, _, rfl, rfl, rfl, rfl, rfl, rfl, rfl⟩

section Stages

variable {s : Settings} {classes : List Source.ClassDecl} {n : Nat}

/-- **The results of the stages of a pass up to its contract modules**, after `n` names have been
issued. -/
structure Contracted (s : Settings) (classes : List Source.ClassDecl) (n : Nat) where
  lowered : Contract.Lowered
  supply : Contract.Supply
  modules : List Contract.Module
  target : String × String
  merged : Contract.Lowered
  issued : Contract.Supply
  withPragmas : List Contract.Module
  lowered_eq : (Contract.ofClasses s classes).run ⟨n, 0⟩ = (lowered, supply)
  modules_eq : lowered.result = .ok modules
  target_eq : lowered.catalog.target s = .ok target
  merged_eq : (Contract.mergePragmas s modules classes lowered.catalog).run supply = (merged, issued)
  withPragmas_eq : merged.result = .ok withPragmas

theorem Contracted.contracts (g : Contracted s classes n) (p : Pass) :
    ∃ p', (Run.contracts s classes p).run.run n = (.ok (p', g.withPragmas), g.issued.names) ∧
      p'.fault = p.fault ∧ p'.target = some g.target := by
  unfold Run.contracts
  rw [run_bind_of_ok (run_lift (run_supplied g.lowered_eq)), run_bind_of_ok (run_orFail _ g.modules_eq),
    run_bind_of_ok (run_orFail _ g.target_eq), run_bind_of_ok (run_lift (run_supplied g.merged_eq)),
    run_bind_of_ok (run_orFail _ g.withPragmas_eq)]
  exact ⟨_, rfl, rfl, rfl⟩

/-- **The results of all stages of a pass.** -/
structure Stages (s : Settings) (classes : List Source.ClassDecl) (n : Nat) extends
    Contracted s classes n where
  relational : List Relational.Module
  spec : Spec.Specification
  legible : ∀ m ∈ withPragmas, m.Legible
  relational_eq : Relational.ofModules s withPragmas = .ok relational
  spec_eq : Spec.assemble s relational (.collect relational) target.1 target.2 = .ok spec

namespace Stages

/-- **What a pass with these results records.** -/
structure Recorded (g : Stages s classes n) (p : Pass) : Prop where
  fault : p.fault = none
  target : p.target = some g.target
  modules : p.modules = g.relational
  artifact : p.artifact = some (artifactOf s g.spec)

theorem specification (g : Stages s classes n) (hkeep : s.keepIntermediate = false) {p : Pass}
    (htarget : p.target = some g.target) (w : World σ) :
    ∃ p', (Run.specification s p g.withPragmas).run.run w = (.ok (p', g.spec), w) ∧
      p'.fault = p.fault ∧ p'.target = some g.target ∧ p'.modules = g.relational := by
  have hround : (onDisk (Contract.roundTrip g.withPragmas "") : StateM (World σ) _).run w =
      (.ok g.withPragmas, w) :=
    run_onDisk (Contract.roundTrip_of_legible g.legible w.disk)
  unfold Run.specification
  simp only [hkeep, Bool.false_eq_true, if_false]
  rw [run_bind_of_ok (run_lift hround), run_bind_of_ok (run_orFail _ rfl),
    run_bind_of_ok (run_orFail _ g.relational_eq)]
  simp only [Pass.advance, htarget, Option.getD_some]
  rw [run_bind_of_ok (run_orFail _ g.spec_eq)]
  exact ⟨_, rfl, rfl, rfl, rfl⟩

theorem steps {engine : Engine σ} (g : Stages s classes n) (hn : w.names = n)
    (hkeep : s.keepIntermediate = false) (hcalm : engine.Calm) {d : Disk}
    (hwrite : (artifactOf s g.spec).write.run.run w.disk = (.ok (), d)) (analyze : Bool) :
    ∃ p w', (Run.steps engine s classes analyze).run.run w = (.ok p, w') ∧ g.Recorded p ∧
      w'.names = g.issued.names ∧ w'.disk = d := by
  subst hn
  obtain ⟨p₁, hcontracts, hfault₁, htarget⟩ :=
    g.contracts { method := MethodName.normalize s.method }
  obtain ⟨p₂, hspec, hfault₂, htarget₂, hmodules⟩ :=
    g.specification hkeep htarget { w with names := g.issued.names }
  have hrecorded : g.Recorded
      (({ p₂ with artifact := some (artifactOf s g.spec) } : Pass).advance .assembled) :=
    ⟨hfault₂.trans hfault₁, htarget₂, hmodules, rfl⟩
  have hdisk : (onDisk (artifactOf s g.spec).write : StateM (World σ) _).run
      { w with names := g.issued.names } = (.ok (), { w with names := g.issued.names, disk := d }) :=
    run_onDisk hwrite
  unfold Run.steps
  rw [run_bind_of_ok (run_onNames hcontracts), laterSteps, run_bind_of_ok hspec]
  simp only
  rw [run_bind_of_ok (run_lift hdisk), run_bind_of_ok (run_orFail _ rfl)]
  cases analyze with
  | false => exact ⟨_, _, rfl, hrecorded, rfl, rfl⟩
  | true =>
    obtain ⟨p, w', hanalysis, hfault, htarget', hmodules', hartifact, hnames, hdisk⟩ :=
      hcalm.analysis (artifactOf s g.spec)
        (({ p₂ with artifact := some (artifactOf s g.spec) } : Pass).advance .assembled)
        { w with names := g.issued.names, disk := d }
    exact ⟨p, w', hanalysis, ⟨hfault.trans hrecorded.fault, htarget'.trans hrecorded.target,
      hmodules'.trans hrecorded.modules, hartifact.trans hrecorded.artifact⟩, hnames, hdisk⟩

theorem pass {engine : Engine σ} (g : Stages s classes n) (hn : w.names = n)
    (hkeep : s.keepIntermediate = false) (hcalm : engine.Calm) {d : Disk}
    (hwrite : (artifactOf s g.spec).write.run.run w.disk = (.ok (), d)) (analyze : Bool) :
    ∃ p w', (Run.pass engine s classes analyze).run w = (p, w') ∧ g.Recorded p ∧
      w'.names = g.issued.names ∧ w'.disk = d := by
  obtain ⟨p, w', hsteps, hp⟩ := g.steps hn hkeep hcalm hwrite analyze
  exact ⟨p, w', run_pass hsteps, hp⟩

/-- **A run whose stages all have results has no fault.** -/
theorem run {engine : Engine σ} (hvalid : s.validate = .ok ()) (hkeep : s.keepIntermediate = false)
    (hcalm : engine.Calm) (check : Stages s classes w.names)
    (invariant : Stages (s.forMethod MethodName.generateInvariant) classes check.issued.names)
    {d d₁ d₂ : Disk} {out : String}
    (hcheck : (artifactOf s check.spec).write.run.run w.disk = (.ok (), d))
    (hinvariant : (artifactOf s invariant.spec).write.run.run d = (.ok (), d₁))
    (hquery : (Spec.synthesize (artifactOf s invariant.spec).path).run.run d₁ = (.ok out, d₂)) :
    ∃ r w', (Run.run engine s classes).run w = (r, w') ∧ r.fault = none ∧ w'.disk = d₂ ∧
      (∃ p, r.check = some p ∧ check.Recorded p) ∧ ∃ p, r.invariant = some p ∧ invariant.Recorded p := by
  obtain ⟨p, w₁, hpass, hp, hnames, rfl⟩ := check.pass rfl hkeep hcalm hcheck true
  obtain ⟨p₂, w₂, hpass₂, hp₂, -, rfl⟩ := invariant.pass hnames hkeep hcalm hinvariant false
  have hartifact : p₂.artifact = some (artifactOf s invariant.spec) := hp₂.artifact
  rw [Run.run, hvalid]
  simp only
  rw [run_bind_of_run hpass]
  simp only [hp.fault]
  rw [queryPass, run_bind_of_run hpass₂]
  simp only [hp₂.fault, hartifact]
  rw [run_bind_of_run (run_onDisk hquery)]
  exact ⟨_, _, rfl, rfl, rfl, ⟨p, rfl, hp⟩, _, rfl, hp₂.fault, hp₂.target, hp₂.modules, hp₂.artifact⟩

end Stages

end Stages

end Relspec.Run
