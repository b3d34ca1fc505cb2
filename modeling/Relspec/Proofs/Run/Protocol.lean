import Relspec.Proofs.Contract.Target
import Relspec.Proofs.Run.Script
import Relspec.Proofs.Run.Trace

/-!
# Proofs/Run/Protocol — what a run may do, whatever files and engine answer

A pass keeps the texts of modules, if it is told to, writes its specification, and gives it to the engine.
It ends where one of these fails, and its record says so.  A run is two passes and a query; what it does
to files and what it says in its record follow from what each part does.  Only a class that is stranded breaks
off a pass, before it does anything, and then there is no record.

* `PassTrace` — what a pass may do, and `always_pass` — it does nothing else;
* `QueryKept` — what a query may do, and `always_synthesize`;
* `Protocol` — the states of a record, the calls of the engine, and the files changed;
* `run_keeps_protocol` — every run that returns keeps to it, and `run_breaks_off` — not every run returns.
-/

namespace Relspec.Run

open List

namespace Script

variable {α β ε : Type}
variable {g : α → ExceptT ε Script β} {R : List Event → Except ε β → Prop}

/-! ## Failing scripts, whatever the answers -/

/-- A failing script that goes on with the value of another. -/
theorem Always.bind_run {y : ExceptT ε Script α} {Q : List Event → Except ε α → Prop} (hy : Always Q y.run)
    (hok : ∀ es a, Q es (.ok a) → Always (fun es' b => R (es ++ es') b) (g a).run)
    (herror : ∀ es e, Q es (.error e) → R es (.error e)) : Always R (y >>= g).run := by
  rw [ExceptT.run_bind]
  refine hy.bind fun es r h => ?_
  cases r with
  | ok a => exact hok es a h
  | error e => exact .done ((append_nil es).symm ▸ herror es e h)

/-- A script that cannot fail, in a failing one. -/
theorem Always.lift_bind {x : Script α} {Q : List Event → α → Prop} (hx : Always Q x)
    (hg : ∀ es a, Q es a → Always (fun es' b => R (es ++ es') b) (g a).run) :
    Always R ((liftM x : ExceptT ε Script α) >>= g).run := by
  change Always R (ExceptT.lift x >>= g).run
  rw [ExceptT.run_bind_lift]
  exact hx.bind hg

theorem always_act (a : Act) : Always (fun es answer => es = [⟨a, answer⟩]) (act a) := fun _ _ _ => rfl

/-- A file operation that may fail, and what follows it when it does not. -/
theorem always_attempt_bind {verb path : String} {x : Script (Except String α)} {e : Except String α → Event}
    {g : α → ExceptT Fault Script β} {R : List Event → Except Fault β → Prop}
    (hx : Always (fun es answer => es = [e answer]) x)
    (hok : ∀ a, Always (fun es r => R (e (.ok a) :: es) r) (g a).run)
    (herror : ∀ cause, R [e (.error cause)] (.error (.file verb path cause))) :
    Always R (attempt verb path x >>= g).run := by
  have hrun : (attempt verb path x >>= g).run = x >>= fun
      | .ok a => (g a).run
      | .error cause => .done (.error (.file verb path cause)) := by
    rw [attempt, ExceptT.run_bind, ExceptT.run_mk, bind_assoc]
    refine bind_congr fun answer => ?_
    cases answer <;> rfl
  rw [hrun]
  refine hx.bind fun es answer hes => ?_
  subst hes
  cases answer with
  | ok a => exact hok a
  | error cause => exact .done (herror cause)

end Script

open Script

/-! ## The texts of modules -/

/-- **What may be asked before a specification is written**: no analysis, and nothing at all when no texts
are kept. -/
structure Kept (keep : Bool) (es : List Event) : Prop where
  quiet : keep = false → es = []
  files : ∀ e ∈ es, e.act.analyzes = false

namespace Kept

variable {keep : Bool} {es es' : List Event}

theorem nil : Kept keep [] := ⟨fun _ => rfl, nofun⟩

theorem append (h : Kept keep es) (h' : Kept keep es') : Kept keep (es ++ es') where
  quiet hs := by rw [h.quiet hs, h'.quiet hs, append_nil]
  files := forall_mem_append.mpr ⟨h.files, h'.files⟩

/-- An act for a text that is kept. -/
theorem cons (hkeep : keep = true) {e : Event} (he : e.act.analyzes = false) (h : Kept keep es) :
    Kept keep (e :: es) where
  quiet hoff := absurd (hkeep.symm.trans hoff) (by decide)
  files := forall_mem_cons.mpr ⟨he, h.files⟩

end Kept

/-- The directory for the texts of modules, or nothing. -/
def keptDir (s : Settings) : String := if s.keepIntermediate then s.outputDir else ""

theorem always_roundTripOne (s : Settings) (m : Contract.Module) :
    Always (fun es (_ : Except Fault Contract.Module) => Kept s.keepIntermediate es)
      (roundTripOne (keptDir s) m).run := by
  have hreread : Always (fun es (_ : Except Fault Contract.Module) => Kept s.keepIntermediate es)
      (ExceptT.mk (.done (Contract.reread m)) : ExceptT Fault Script _).run := .done .nil
  rw [roundTripOne]
  split
  · next hdir =>
    have hs : s.keepIntermediate = true := by
      by_contra hoff
      simp [keptDir, hoff] at hdir
    refine always_attempt_bind (always_act _) (fun _ => always_attempt_bind (always_act _) (fun _ => ?_)
      fun cause => ?_) fun cause => ?_
    · exact .done (.cons hs rfl (.cons hs rfl .nil))
    · exact .cons hs rfl (.cons hs rfl .nil)
    · exact .cons hs rfl .nil
  · exact hreread

theorem always_roundTrip (s : Settings) : ∀ modules : List Contract.Module,
    Always (fun es (_ : Except Fault (List Contract.Module)) => Kept s.keepIntermediate es)
      (roundTrip modules (keptDir s)).run
  | [] => .done .nil
  | m :: modules => by
    rw [roundTrip, mapM_cons]
    refine (always_roundTripOne s m).bind_run (fun es _ hes => ?_) fun _ _ h => h
    refine (always_roundTrip s modules).bind_run (fun es' _ hes' => ?_) fun _ _ h => hes.append h
    exact .done (hes.append (hes'.append .nil))

/-! ## A pass -/

namespace Pass

/-- A pass under way that has written nothing. -/
structure Begun (p : Pass) : Prop where
  fault : p.fault = none
  artifact : p.artifact = none
  whole : p.brokeOff = false

/-- A pass that has ended with a fault before its specification was written. -/
structure Stopped (p : Pass) : Prop where
  state : p.state = .failed
  fault : p.fault ≠ none
  artifact : p.artifact = none

end Pass

/-- **How a specification is written**: its directory is made, and then the file. -/
inductive WriteTrace (a : Artifact) : List Event → Except Fault Unit → Prop
  | unmade (cause : String) : WriteTrace a [⟨.makeDirs (Path.parent a.path), .error cause⟩]
    (.error (.file "create" (Path.parent a.path) cause))
  | unwritten (cause : String) : WriteTrace a
    [⟨.makeDirs (Path.parent a.path), .ok ()⟩, ⟨.write a.path a.text, .error cause⟩]
    (.error (.file "write" a.path cause))
  | written : WriteTrace a
    [⟨.makeDirs (Path.parent a.path), .ok ()⟩, ⟨.write a.path a.text, .ok ()⟩] (.ok ())

theorem WriteTrace.files {a : Artifact} {es : List Event} {r : Except Fault Unit} (h : WriteTrace a es r) :
    ∀ e ∈ es, e.act.analyzes = false := by
  cases h <;> simp [Act.analyzes]

theorem always_writeArtifact (a : Artifact) : Always (WriteTrace a) (writeArtifact a).run := by
  refine always_attempt_bind (always_act _) (fun _ => .ask fun answer => ?_) fun cause => .unmade cause
  cases answer with
  | ok _ => exact .done .written
  | error cause => exact .done (.unwritten cause)

/-- **What a pass may do**: stop before it writes its specification, fail to write it, write it, or write it
and give it to the engine.  If `strands` holds it may break off, before it asks for anything. -/
inductive PassTrace (keep : Bool) (strands : Prop) : Bool → List Event → Pass → Prop
  | stopped {analyze : Bool} {es : List Event} {p : Pass} (hes : Kept keep es) (hp : p.Stopped)
      (hbroke : p.brokeOff = true → strands ∧ es = []) : PassTrace keep strands analyze es p
  | unwritten {analyze : Bool} {es es' : List Event} {p : Pass} {a : Artifact} {f : Fault} (hes : Kept keep es)
      (hwrite : WriteTrace a es' (.error f)) (hp : p.Stopped) (hfault : p.fault = some f)
      (hwhole : p.brokeOff = false) : PassTrace keep strands analyze (es ++ es') p
  | written {es es' : List Event} {p : Pass} {a : Artifact} (hes : Kept keep es)
      (hwrite : WriteTrace a es' (.ok ())) (hartifact : p.artifact = some a) (hfault : p.fault = none)
      (hwhole : p.brokeOff = false) : PassTrace keep strands false (es ++ es') p
  | analyzed {es es' : List Event} {p : Pass} {a : Artifact} {answer : Analysis} (hes : Kept keep es)
      (hwrite : WriteTrace a es' (.ok ())) (hartifact : p.artifact = some a)
      (hfault : p.fault = answer.fault)
      (hstate : p.state = if answer.fault.isSome then .failed else .checkComplete)
      (hwhole : p.brokeOff = false) : PassTrace keep strands true (es ++ es' ++ [⟨.analyze a, answer⟩]) p

section

variable {α β : Type} {s : Settings} {p : Pass}

/-- A step that asks for nothing goes on, or stops the pass. -/
theorem always_orFail_bind {r : Except Fault α} {g : α → ExceptT Pass Script β}
    {R : List Event → Except Pass β → Prop} (hp : p.artifact = none) (hwhole : p.brokeOff = false)
    (hok : ∀ a, r = .ok a → Always R (g a).run)
    (hstop : ∀ q : Pass, q.Stopped → q.brokeOff = false → R [] (.error q)) :
    Always R (orFail p r >>= g).run := by
  cases r with
  | ok a => exact hok a rfl
  | error f => exact .done (hstop _ ⟨rfl, Option.some_ne_none f, hp⟩ hwhole)

/-- The steps up to the specification keep texts, and go on or stop. -/
theorem always_specification (hp : p.Begun) (modules : List Contract.Module) :
    Always (fun es r => Kept s.keepIntermediate es ∧
      Ended (fun q => q.Stopped ∧ q.brokeOff = false) (fun q => q.1.Begun) r)
      (Script.specification s p modules).run := by
  refine (always_roundTrip s modules).lift_bind fun es r hes => ?_
  have hstop (q : Pass) (hq : q.Stopped) (hwhole : q.brokeOff = false) : Kept s.keepIntermediate (es ++ []) ∧
      Ended (fun q => q.Stopped ∧ q.brokeOff = false) (fun q : Pass × Spec.Specification => q.1.Begun)
        (.error q) :=
    ⟨(append_nil es).symm ▸ hes, .stops hq.fault ⟨hq, hwhole⟩⟩
  refine always_orFail_bind hp.artifact hp.whole (fun modules _ => ?_) hstop
  refine always_orFail_bind hp.artifact hp.whole (fun modules _ => ?_) hstop
  refine always_orFail_bind hp.artifact hp.whole (fun spec _ => ?_) hstop
  exact .done ⟨(append_nil es).symm ▸ hes, .goesOn ⟨hp.fault, hp.artifact, hp.whole⟩⟩

/-- The engine is asked once, and its fault is the fault of the pass. -/
theorem always_analysis (a : Artifact) (hp : p.fault = none) :
    Always (fun es r => ∃ answer : Analysis, es = [⟨.analyze a, answer⟩] ∧
      (ended r).artifact = p.artifact ∧ (ended r).fault = answer.fault ∧
      ((ended r).state = if answer.fault.isSome then .failed else .checkComplete) ∧
      (ended r).brokeOff = p.brokeOff)
      (Script.analysis a p).run := by
  refine (always_act (.analyze a)).lift_bind fun es answer hes => ?_
  subst hes
  have hfault : answer.fault = none ∨ ∃ f, answer.fault = some f := Option.eq_none_or_eq_some _
  rcases hfault with hfault | ⟨f, hfault⟩
  · simp only [hfault]
    exact .done ⟨answer, rfl, rfl, hp.trans hfault.symm, by rw [hfault]; rfl, rfl⟩
  · simp only [hfault]
    exact .done ⟨answer, rfl, rfl, hfault.symm, by rw [hfault]; rfl, rfl⟩

/-- The steps after contract modules. -/
theorem always_steps (strands : Prop) (hp : p.Begun) (modules : List Contract.Module) (analyze : Bool) :
    Always (fun es r => PassTrace s.keepIntermediate strands analyze es (ended r))
      (Script.steps s p modules analyze).run := by
  refine (always_specification hp modules).bind_run (fun es q h => ?_) fun es q h => ?_
  rotate_left
  · obtain ⟨hes, _ | ⟨-, hq, hwhole⟩⟩ := h
    exact .stopped hes hq fun h => absurd h (Bool.eq_false_iff.mp hwhole)
  obtain ⟨hes, hq | _⟩ := h
  refine (always_writeArtifact (artifactOf s q.2)).lift_bind fun es' r hwrite => ?_
  cases r with
  | error f =>
    refine .done ?_
    rw [append_nil]
    exact .unwritten hes hwrite ⟨rfl, Option.some_ne_none f, hq.artifact⟩ rfl hq.whole
  | ok _ =>
    cases analyze with
    | false =>
      refine .done ?_
      rw [append_nil]
      exact .written hes hwrite rfl hq.fault hq.whole
    | true =>
      have hanalysis := @always_analysis ({ q.1 with artifact := some (artifactOf s q.2) }.advance .assembled)
        (artifactOf s q.2) hq.fault
      refine hanalysis.imp fun es'' r h => ?_
      obtain ⟨answer, rfl, hartifact, hfault, hstate, hwhole⟩ := h
      rw [← append_assoc]
      exact .analyzed hes hwrite hartifact hfault hstate (hwhole.trans hq.whole)

end

/-- **A pass does what it may do**, whatever the answers. -/
theorem always_pass (s : Settings) (classes : List Source.ClassDecl) (analyze : Bool) (names : Nat) :
    Always (fun es r => PassTrace s.keepIntermediate (Source.Strands s.className classes) analyze es r.1)
      (Script.pass s classes analyze names) := by
  rcases hrun : (contracts s classes { method := MethodName.normalize s.method }).run.run names with ⟨r, n⟩
  rw [Script.pass, hrun]
  rcases contracts_cases hrun with ⟨q, f, rfl, -, hartifact, hbroke⟩ | ⟨g, rfl⟩
  · refine .done (.stopped .nil ⟨rfl, Option.some_ne_none f, hartifact⟩ fun h => ?_)
    exact ⟨(hbroke h).resolve_left Bool.false_ne_true, rfl⟩
  · refine (always_steps (Source.Strands s.className classes) ⟨rfl, rfl, rfl⟩ g.withPragmas analyze).bind
      fun es r h => .done ?_
    rw [append_nil]
    exact h

/-! ## A query -/

/-- **What a query may do**: it never calls the engine, changes nothing when the specification lacks a
marker, and has a path when it was written. -/
structure QueryKept (es : List Event) (r : Except Fault String) : Prop where
  files : ∀ e ∈ es, e.act.analyzes = false
  unmarked : ∀ marker path, r = .error (.noMarker marker path) → ∀ e ∈ es, e.act.changes = false
  path : ∀ path, r = .ok path → path ≠ ""

theorem always_synthesize (path : String) : Always QueryKept (Script.synthesize path).run := by
  refine always_attempt_bind (always_act _) (fun text => ?_) fun cause => ⟨by simp [Act.analyzes], nofun, nofun⟩
  cases Spec.query text with
  | error marker =>
    exact .done ⟨by simp [Act.analyzes], fun _ _ _ => by simp [Act.changes], nofun⟩
  | ok edited =>
    refine always_attempt_bind (always_act _) (fun _ => always_attempt_bind (always_act _) (fun _ => .done ?_)
      fun cause => ?_) fun cause => ?_
    · refine ⟨by simp [Act.analyzes], nofun, fun out hout => ?_⟩
      rw [← Except.ok.inj hout]
      exact fun hempty => absurd (congrArg String.toList hempty) (by simp)
    · exact ⟨by simp [Act.analyzes], nofun, nofun⟩
    · exact ⟨by simp [Act.analyzes], nofun, nofun⟩

/-! ## A run -/

/-- **What a run may do**: nothing with settings that are not valid, a check that ends it, and else the pass
for the query and, when that has written a specification, the query. -/
inductive RunTrace (s : Settings) (strands : Prop) : List Event → Record → Prop
  | invalid {f : Fault} (hs : s.validate = .error f) : RunTrace s strands [] { fault := some f }
  | unchecked {e₁ : List Event} {p : Pass} {f : Fault} (hs : s.validate = .ok ())
      (hcheck : PassTrace s.keepIntermediate strands true e₁ p) (hp : p.fault = some f) :
    RunTrace s strands e₁ { check := some p, fault := some f }
  | unqueried {e₁ e₂ : List Event} {p q : Pass} {f : Fault} (hs : s.validate = .ok ())
      (hcheck : PassTrace s.keepIntermediate strands true e₁ p) (hp : p.fault = none)
      (hpass : PassTrace s.keepIntermediate strands false e₂ q) (hq : q.fault = some f) :
    RunTrace s strands (e₁ ++ e₂) { check := some p, invariant := some q, fault := some f }
  | queried {e₁ e₂ e₃ : List Event} {p q : Pass} {path : String} (hs : s.validate = .ok ())
      (hcheck : PassTrace s.keepIntermediate strands true e₁ p) (hp : p.fault = none)
      (hpass : PassTrace s.keepIntermediate strands false e₂ q) (hq : q.fault = none) (hquery : QueryKept e₃ (.ok path)) :
    RunTrace s strands (e₁ ++ (e₂ ++ e₃))
      { check := some p, invariant := some (q.advance .invariantSynthesized), queryPath := path }
  | faulty {e₁ e₂ e₃ : List Event} {p q : Pass} {f : Fault} (hs : s.validate = .ok ())
      (hcheck : PassTrace s.keepIntermediate strands true e₁ p) (hp : p.fault = none)
      (hpass : PassTrace s.keepIntermediate strands false e₂ q) (hq : q.fault = none) (hquery : QueryKept e₃ (.error f)) :
    RunTrace s strands (e₁ ++ (e₂ ++ e₃)) { check := some p, invariant := some (q.fail f), fault := some f }

/-- A pass that is not analysed and has no fault has written its specification. -/
theorem PassTrace.exists_artifact {keep : Bool} {strands : Prop} {es : List Event} {p : Pass}
    (h : PassTrace keep strands false es p)
    (hp : p.fault = none) : ∃ a before, p.artifact = some a ∧
      es = before ++ [⟨.write a.path a.text, .ok ()⟩] := by
  cases h with
  | stopped _ hstop | unwritten _ _ hstop => exact absurd hp hstop.fault
  | @written es es' _ a hes hwrite hartifact _ =>
    cases hwrite
    exact ⟨a, _, hartifact, by rw [append_cons]⟩

/-- **A run does what it may do**, whatever the answers. -/
theorem always_run (s : Settings) (classes : List Source.ClassDecl) (names : Nat) :
    Always (fun es r => RunTrace s (Source.Strands s.className classes) es r.1) (Script.run s classes names) := by
  rw [Script.run]
  cases hs : s.validate with
  | error f => exact .done (.invalid hs)
  | ok _ =>
    refine (always_pass s classes true names).bind fun e₁ r hcheck => ?_
    obtain ⟨p, n⟩ := r
    simp only [Script.laterRun]
    cases hp : p.fault with
    | some f =>
      refine .done ?_
      rw [append_nil]
      exact .unchecked hs hcheck hp
    | none =>
      refine (always_pass (s.forMethod MethodName.generateInvariant) classes false n).bind fun e₂ r hpass => ?_
      obtain ⟨q, n⟩ := r
      have hpass : PassTrace s.keepIntermediate (Source.Strands s.className classes) false e₂ q := hpass
      simp only [Script.laterQuery]
      cases hq : q.fault with
      | some f =>
        refine .done ?_
        rw [append_nil]
        exact .unqueried hs hcheck hp hpass hq
      | none =>
        obtain ⟨a, -, hartifact, -⟩ := hpass.exists_artifact hq
        simp only [hartifact]
        refine (always_synthesize a.path).bind fun e₃ r hquery => ?_
        cases r with
        | ok path =>
          refine .done ?_
          rw [append_nil]
          exact .queried hs hcheck hp hpass hq hquery
        | error f =>
          refine .done ?_
          rw [append_nil]
          exact .faulty hs hcheck hp hpass hq hquery

/-! ## The protocol -/

/-- **The end of a pass**: in the state it was to reach, or failed, which is where it has a fault. -/
structure Pass.Ends (p : Pass) (state : Progress) : Prop where
  state : p.state = state ∨ p.state = .failed
  fault : p.state = .failed ↔ p.fault ≠ none

/-- **The files of a pass that fails without a specification** and keeps no texts: none is changed, unless
it is the specification that could not be written. -/
def PassFiles (s : Settings) (es : List Event) (p : Pass) : Prop :=
  s.keepIntermediate = false → p.fault ≠ none → p.artifact = none →
    (∃ a f, WriteTrace a es (.error f) ∧ p.fault = some f) ∨ ∀ e ∈ es, e.act.changes = false

/-- **What each part of a run asks for**: the check, whose last act is the analysis, the pass for the query,
whose last act is to write the specification, and the query. -/
structure Parts (s : Settings) (r : Record) (e₁ e₂ e₃ : List Event) : Prop where
  check : ∀ p, r.check = some p → PassFiles s e₁ p
  analysis : ∀ p, r.check = some p → p.fault = none →
    ∃ a answer, p.artifact = some a ∧ e₁.getLast? = some ⟨.analyze a, answer⟩
  unqueried : r.invariant = none → e₂ = [] ∧ e₃ = []
  pass : ∀ q, r.invariant = some q → PassFiles s e₂ q
  unwritten : ∀ q, r.invariant = some q → q.artifact = none → e₃ = []
  written : ∀ q a, r.invariant = some q → q.artifact = some a →
    e₂.getLast? = some ⟨.write a.path a.text, .ok ()⟩
  query : ∀ q marker path, r.invariant = some q → q.fault = some (.noMarker marker path) →
    ∀ e ∈ e₃, e.act.changes = false

/-- **The protocol of a run**, of its settings, of what it asks for and of its record. -/
structure Protocol (s : Settings) (es : List Event) (r : Record) : Prop where
  invalid : ∀ f, s.validate = .error f →
    r.check = none ∧ r.invariant = none ∧ r.queryPath = "" ∧ r.fault = some f ∧ es = []
  check : s.validate = .ok () → ∃ p, r.check = some p ∧ p.Ends .checkComplete ∧
    (p.state = .failed → r.invariant = none ∧ r.queryPath = "" ∧ r.fault = p.fault)
  invariant : ∀ p, r.check = some p → p.state = .checkComplete →
    ∃ q, r.invariant = some q ∧ q.Ends .invariantSynthesized ∧ r.fault = q.fault ∧
      (r.queryPath ≠ "" ↔ r.fault = none) ∧ (r.fault = none ↔ q.state = .invariantSynthesized)
  engine : (es.filter (·.act.analyzes)).length ≤ 1
  analyzed : ∀ a answer, ⟨.analyze a, answer⟩ ∈ es → ∃ p before after, r.check = some p ∧
    p.artifact = some a ∧
    es = before ++ ⟨.write a.path a.text, .ok ()⟩ :: ⟨.analyze a, answer⟩ :: after
  files : ∃ e₁ e₂ e₃, es = e₁ ++ (e₂ ++ e₃) ∧ Parts s r e₁ e₂ e₃

namespace PassTrace

variable {keep analyze : Bool} {strands : Prop} {es : List Event} {p : Pass}

/-- The record of a check. -/
theorem ends (h : PassTrace keep strands true es p) : p.Ends .checkComplete := by
  cases h with
  | stopped _ hp | unwritten _ _ hp => exact ⟨.inr hp.state, iff_of_true hp.state hp.fault⟩
  | @analyzed _ _ _ _ answer _ _ _ hfault hstate =>
    rw [← hfault] at hstate
    cases hp : p.fault with
    | none =>
      rw [hp] at hstate
      exact ⟨.inl hstate, by rw [hstate, hp]; decide⟩
    | some f =>
      rw [hp] at hstate
      exact ⟨.inr hstate, by rw [hstate, hp]; simp⟩

/-- A pass that is not analysed does not call the engine. -/
theorem files (h : PassTrace keep strands false es p) : ∀ e ∈ es, e.act.analyzes = false := by
  cases h with
  | stopped hes => exact hes.files
  | unwritten hes hwrite | written hes hwrite => exact forall_mem_append.mpr ⟨hes.files, hwrite.files⟩

/-- The engine is called at the end of a check, right after the specification was written, or not at all. -/
theorem engine (h : PassTrace keep strands true es p) : (∀ e ∈ es, e.act.analyzes = false) ∧ p.fault ≠ none ∨
    ∃ a answer before, p.artifact = some a ∧ (∀ e ∈ before, e.act.analyzes = false) ∧
      es = before ++ [⟨.write a.path a.text, .ok ()⟩, ⟨.analyze a, answer⟩] := by
  cases h with
  | stopped hes hp => exact .inl ⟨hes.files, hp.fault⟩
  | unwritten hes hwrite hp =>
    exact .inl ⟨forall_mem_append.mpr ⟨hes.files, hwrite.files⟩, hp.fault⟩
  | @analyzed es es' _ a answer hes hwrite hartifact =>
    cases hwrite
    refine .inr ⟨a, answer, es ++ [⟨.makeDirs (Path.parent a.path), .ok ()⟩], hartifact, ?_, by simp⟩
    exact forall_mem_append.mpr ⟨hes.files, forall_mem_singleton.mpr rfl⟩

theorem passFiles {s : Settings} (h : PassTrace s.keepIntermediate strands analyze es p) : PassFiles s es p := by
  intro hkeep hfault hartifact
  cases h with
  | stopped hes =>
    rw [hes.quiet hkeep]
    exact .inr nofun
  | @unwritten _ es es' _ a f hes hwrite _ hp =>
    rw [hes.quiet hkeep, nil_append]
    exact .inl ⟨a, f, hwrite, hp⟩
  | written _ _ _ hp => exact absurd hp hfault
  | analyzed _ _ ha => exact absurd (hartifact.symm.trans ha) nofun

end PassTrace

variable {keep : Bool} {strands : Prop} {es e₁ : List Event} {p : Pass} {s : Settings} {r : Record} {f : Fault}

/-- A pass that is not analysed and has a fault has written no specification. -/
theorem PassTrace.stopped_of_fault (h : PassTrace keep strands false es p) (hp : p.fault ≠ none) : p.Stopped := by
  cases h with
  | stopped _ hstop => exact hstop
  | unwritten _ _ hstop => exact hstop
  | written _ _ _ hfault => exact absurd hfault hp

/-- What follows a check does not call the engine, so a run calls it once at most. -/
theorem engine_of_check {rest : List Event} (h : PassTrace keep strands true e₁ p)
    (hrest : ∀ e ∈ rest, e.act.analyzes = false) :
    ((e₁ ++ rest).filter (·.act.analyzes)).length ≤ 1 ∧
      ∀ a answer, ⟨.analyze a, answer⟩ ∈ e₁ ++ rest → ∃ before after, p.artifact = some a ∧
        e₁ ++ rest = before ++ ⟨.write a.path a.text, .ok ()⟩ :: ⟨.analyze a, answer⟩ :: after := by
  have hquiet {es : List Event} (hes : ∀ e ∈ es, e.act.analyzes = false) :
      es.filter (·.act.analyzes) = [] := filter_eq_nil_iff.mpr fun e he => by simp [hes e he]
  rcases h.engine with ⟨hes, -⟩ | ⟨a, answer, before, hartifact, hbefore, rfl⟩
  · have hall := forall_mem_append.mpr ⟨hes, hrest⟩
    refine ⟨by simp [hquiet hall], fun a answer hmem => absurd (hall _ hmem) (by simp [Act.analyzes])⟩
  · refine ⟨?_, fun a' answer' hmem => ⟨before, rest, ?_⟩⟩
    · rw [filter_append, filter_append, hquiet hbefore, hquiet hrest]
      exact Nat.le_refl 1
    · have hsame : (⟨.analyze a', answer'⟩ : Event) = ⟨.analyze a, answer⟩ := by
        simp only [mem_append, mem_cons, not_mem_nil, or_false] at hmem
        rcases hmem with (hmem | hmem | hmem) | hmem
        · exact absurd (hbefore _ hmem) (by simp [Act.analyzes])
        · exact absurd (congrArg Event.act hmem) Act.noConfusion
        · exact hmem
        · exact absurd (hrest _ hmem) (by simp [Act.analyzes])
      cases hsame
      exact ⟨hartifact, by simp⟩

theorem Pass.Ends.fault_eq_none {state : Progress} (h : p.Ends state) (hne : state ≠ .failed) :
    p.fault = none ↔ p.state = state := by
  rw [← not_iff_not, ← ne_eq, ← h.fault]
  exact ⟨fun hfailed hstate => hne (hstate.symm.trans hfailed), fun hstate => h.state.resolve_left hstate⟩

/-- A run that has gone on to the query. -/
theorem protocol_of_query {e₂ e₃ : List Event} {q : Pass} (hs : s.validate = .ok ())
    (hcheck : PassTrace s.keepIntermediate strands true e₁ p) (hp : p.fault = none) (hr : r.check = some p)
    (hq : r.invariant = some q) (hends : q.Ends .invariantSynthesized) (hfault : r.fault = q.fault)
    (hpath : r.queryPath ≠ "" ↔ r.fault = none) (hrest : ∀ e ∈ e₂ ++ e₃, e.act.analyzes = false)
    (hpass : PassFiles s e₂ q) (hunwritten : q.artifact = none → e₃ = [])
    (hwritten : ∀ a, q.artifact = some a → e₂.getLast? = some ⟨.write a.path a.text, .ok ()⟩)
    (hquery : ∀ marker path, q.fault = some (.noMarker marker path) → ∀ e ∈ e₃, e.act.changes = false) :
    Protocol s (e₁ ++ (e₂ ++ e₃)) r := by
  obtain ⟨hengine, hanalyzed⟩ := engine_of_check hcheck hrest
  have hsame {p'} (hp' : r.check = some p') : p = p' := Option.some.inj (hr.symm.trans hp')
  have hsame' {q'} (hq' : r.invariant = some q') : q = q' := Option.some.inj (hq.symm.trans hq')
  refine ⟨fun f hf => ?_, fun _ => ?_, fun p' hp' _ => ?_, hengine, fun a answer hmem => ?_, e₁, e₂, e₃, rfl,
    ?_⟩
  · rw [hs] at hf
    cases hf
  · exact ⟨p, hr, hcheck.ends, fun hfailed => absurd hp (hcheck.ends.fault.mp hfailed)⟩
  · exact ⟨q, hq, hends, hfault, hpath, hfault ▸ hends.fault_eq_none (by decide)⟩
  · obtain ⟨before, after, hartifact, hes⟩ := hanalyzed a answer hmem
    exact ⟨p, before, after, hr, hartifact, hes⟩
  · refine ⟨fun p' hp' => hsame hp' ▸ hcheck.passFiles, fun p' hp' _ => ?_, fun hnone => ?_,
      fun q' hq' => hsame' hq' ▸ hpass, fun q' hq' => hsame' hq' ▸ hunwritten,
      fun q' a hq' => hsame' hq' ▸ hwritten a, fun q' marker path hq' => hsame' hq' ▸ hquery marker path⟩
    · obtain rfl := hsame hp'
      rcases hcheck.engine with ⟨-, hne⟩ | ⟨a, answer, before, hartifact, -, rfl⟩
      · exact absurd hp hne
      · exact ⟨a, answer, hartifact, by simp⟩
    · rw [hq] at hnone
      cases hnone

/-- A run with settings that are not valid. -/
theorem protocol_of_invalid (hs : s.validate = .error f) : Protocol s [] { fault := some f } := by
  refine ⟨fun f' hf => ?_, fun hok => ?_, fun _ hp => (nomatch hp), Nat.zero_le 1,
    fun _ _ hmem => absurd hmem not_mem_nil, [], [], [], rfl, ?_⟩
  · exact ⟨rfl, rfl, rfl, congrArg some (Except.error.inj (hs.symm.trans hf)), rfl⟩
  · rw [hs] at hok
    cases hok
  · exact ⟨fun _ hp => (nomatch hp), fun _ hp => (nomatch hp), fun _ => ⟨rfl, rfl⟩, fun _ hq => (nomatch hq),
      fun _ hq => (nomatch hq), fun _ _ hq => (nomatch hq), fun _ _ _ hq => (nomatch hq)⟩

/-- A run whose check fails. -/
theorem protocol_of_unchecked (hs : s.validate = .ok ()) (hcheck : PassTrace s.keepIntermediate strands true es p)
    (hp : p.fault = some f) : Protocol s es { check := some p, fault := some f } := by
  have hengine := engine_of_check hcheck (forall_mem_nil _)
  rw [append_nil] at hengine
  obtain ⟨hengine, hanalyzed⟩ := hengine
  have hfault : p.fault ≠ none := hp ▸ Option.some_ne_none f
  refine ⟨fun f' hf => ?_, fun _ => ?_, fun p' hp' hstate => ?_, hengine, fun a answer hmem => ?_, es, [], [],
    (append_nil es).symm, ?_⟩
  · rw [hs] at hf
    cases hf
  · exact ⟨p, rfl, hcheck.ends, fun _ => ⟨rfl, rfl, hp.symm⟩⟩
  · obtain rfl := Option.some.inj hp'
    exact absurd ((hcheck.ends.fault_eq_none (by decide)).mpr hstate) hfault
  · obtain ⟨before, after, hartifact, hes⟩ := hanalyzed a answer hmem
    exact ⟨p, before, after, rfl, hartifact, hes⟩
  · refine ⟨fun p' hp' => Option.some.inj hp' ▸ hcheck.passFiles, fun p' hp' hnone => ?_, fun _ => ⟨rfl, rfl⟩,
      fun _ hq => (nomatch hq), fun _ hq => (nomatch hq), fun _ _ hq => (nomatch hq), fun _ _ _ hq => (nomatch hq)⟩
    obtain rfl := Option.some.inj hp'
    exact absurd hnone hfault

/-- **What a run may do keeps to the protocol.** -/
theorem RunTrace.protocol (h : RunTrace s strands es r) : Protocol s es r := by
  cases h with
  | invalid hs => exact protocol_of_invalid hs
  | unchecked hs hcheck hp => exact protocol_of_unchecked hs hcheck hp
  | @unqueried e₁ e₂ p q f hs hcheck hp hpass hq =>
    have hstop := hpass.stopped_of_fault (hq ▸ Option.some_ne_none f)
    have hends : q.Ends .invariantSynthesized := ⟨.inr hstop.state, iff_of_true hstop.state hstop.fault⟩
    have h : Protocol s (e₁ ++ (e₂ ++ [])) { check := some p, invariant := some q, fault := some f } :=
      protocol_of_query hs hcheck hp rfl rfl hends hq.symm
        (iff_of_false (fun h => h rfl) (Option.some_ne_none f))
        (forall_mem_append.mpr ⟨hpass.files, forall_mem_nil _⟩) hpass.passFiles (fun _ => rfl)
        (fun a ha => absurd (hstop.artifact.symm.trans ha) nofun) fun _ _ _ => forall_mem_nil _
    rwa [append_nil] at h
  | @queried e₁ e₂ e₃ p q path hs hcheck hp hpass hq hquery =>
    obtain ⟨a, before, hartifact, rfl⟩ := hpass.exists_artifact hq
    have hends : (q.advance .invariantSynthesized).Ends .invariantSynthesized :=
      ⟨.inl rfl, iff_of_false nofun fun h => h hq⟩
    refine protocol_of_query hs hcheck hp rfl rfl hends hq.symm (iff_of_true (hquery.path path rfl) rfl)
      (forall_mem_append.mpr ⟨hpass.files, hquery.files⟩) (fun _ h => absurd hq h)
      (fun h => absurd (hartifact.symm.trans h) nofun) (fun a' ha' => ?_) fun marker path h => ?_
    · obtain rfl : a = a' := Option.some.inj (hartifact.symm.trans ha')
      exact List.getLast?_concat ..
    · exact absurd (hq.symm.trans h) nofun
  | @faulty e₁ e₂ e₃ p q f hs hcheck hp hpass hq hquery =>
    obtain ⟨a, before, hartifact, rfl⟩ := hpass.exists_artifact hq
    have hends : (q.fail f).Ends .invariantSynthesized :=
      ⟨.inr rfl, iff_of_true rfl (Option.some_ne_none f)⟩
    refine protocol_of_query hs hcheck hp rfl rfl hends rfl
      (iff_of_false (fun h => h rfl) (Option.some_ne_none f))
      (forall_mem_append.mpr ⟨hpass.files, hquery.files⟩) ?_
      (fun h => absurd (hartifact.symm.trans h) nofun) (fun a' ha' => ?_) fun marker path h => ?_
    · exact fun _ _ h => absurd (hartifact.symm.trans h) nofun
    · obtain rfl : a = a' := Option.some.inj (hartifact.symm.trans ha')
      exact List.getLast?_concat ..
    · exact hquery.unmarked marker path (congrArg Except.error (Option.some.inj h))

/-! ## Runs that do not return -/

/-- **A run that breaks off**: a class of the same name as another may be stranded, and the run has asked for
nothing, or only for what a check asks for that is complete. -/
structure BreaksOff (s : Settings) (classes : List Source.ClassDecl) (es : List Event) : Prop where
  strands : Source.Strands s.className classes
  events : es = [] ∨ ∃ before a answer, es = before ++ [⟨.analyze a, answer⟩] ∧ answer.fault = none

/-- A pass without a fault did not break off. -/
theorem PassTrace.whole {analyze : Bool} (h : PassTrace keep strands analyze es p) (hp : p.fault = none) :
    p.brokeOff = false := by
  cases h with
  | stopped _ hstop | unwritten _ _ hstop => exact absurd hp hstop.fault
  | written _ _ _ _ hwhole => exact hwhole
  | analyzed _ _ _ _ _ hwhole => exact hwhole

/-- A pass that breaks off has asked for nothing. -/
theorem PassTrace.of_brokeOff {analyze : Bool} (h : PassTrace keep strands analyze es p)
    (hp : p.brokeOff = true) : strands ∧ es = [] := by
  cases h with
  | stopped _ _ hbroke => exact hbroke hp
  | unwritten _ _ _ _ hwhole => exact absurd hp (Bool.eq_false_iff.mp hwhole)
  | written _ _ _ _ hwhole => exact absurd hp (Bool.eq_false_iff.mp hwhole)
  | analyzed _ _ _ _ _ hwhole => exact absurd hp (Bool.eq_false_iff.mp hwhole)

/-- A complete check ends with the answer of the engine. -/
theorem PassTrace.exists_answer (h : PassTrace keep strands true es p) (hp : p.fault = none) :
    ∃ before a answer, es = before ++ [⟨.analyze a, answer⟩] ∧ answer.fault = none := by
  cases h with
  | stopped _ hstop | unwritten _ _ hstop => exact absurd hp hstop.fault
  | analyzed _ _ _ hfault => exact ⟨_, _, _, rfl, hfault.symm.trans hp⟩

/-- A run does not return when one of its passes broke off. -/
theorem Record.returned?_eq_none : r.returned? = none ↔
    r.check.any (·.brokeOff) = true ∨ r.invariant.any (·.brokeOff) = true := by
  rw [Record.returned?, ← Bool.or_eq_true_iff]
  split
  · next h => exact iff_of_true rfl h
  · next h => exact iff_of_false (Option.some_ne_none r) h

/-- A run that returns, returns its record. -/
theorem Record.eq_of_returned? {r' : Record} (h : r.returned? = some r') : r' = r := by
  rw [Record.returned?] at h
  split at h
  · cases h
  · exact (Option.some.inj h).symm

/-- **A run that does not return was broken off by a class that was stranded.** -/
theorem RunTrace.breaksOff {classes : List Source.ClassDecl}
    (h : RunTrace s (Source.Strands s.className classes) es r) (hr : r.returned? = none) :
    BreaksOff s classes es := by
  have hany := Record.returned?_eq_none.mp hr
  cases h with
  | invalid _ => exact absurd hany (by simp)
  | unchecked _ hcheck hp =>
    obtain ⟨hstrands, rfl⟩ := hcheck.of_brokeOff (by simpa using hany)
    exact ⟨hstrands, .inl rfl⟩
  | unqueried _ hcheck hp hpass hq =>
    obtain ⟨hstrands, rfl⟩ := hpass.of_brokeOff (by simpa [hcheck.whole hp] using hany)
    rw [append_nil]
    exact ⟨hstrands, .inr (hcheck.exists_answer hp)⟩
  | queried _ hcheck hp hpass hq =>
    exact absurd hany (by simp [Pass.advance, hcheck.whole hp, hpass.whole hq])
  | faulty _ hcheck hp hpass hq =>
    exact absurd hany (by simp [Pass.fail, hcheck.whole hp, hpass.whole hq])

/-- Classes of different names strand none of them. -/
theorem not_strands_of_nodup {classes : List Source.ClassDecl} {target : String}
    (h : (classes.map (·.qualifiedName)).Nodup) : ¬ Source.Strands target classes := by
  rintro ⟨c, d, hsublist, hsame, -⟩
  have hpair := (hsublist.map (·.qualifiedName)).nodup h
  simp [hsame] at hpair

/-- **Every run that returns keeps to the protocol**, with files that answer in any way and with any engine: the
script of a run keeps to it whatever it is answered, and a run plays its script with its disk and its engine.
A run always returns if no two classes have one name; else a class may be stranded, and then the run breaks
off. -/
theorem run_keeps_protocol (s : Settings) (classes : List Source.ClassDecl) :
    (∀ (τ : Type) (sys : System τ) (t : τ) (names : Nat),
      let played := (Script.run s classes names).play sys t
      (match played.value.1.returned? with
        | some r => Protocol s played.events r
        | none => BreaksOff s classes played.events) ∧
      ((classes.map (·.qualifiedName)).Nodup → played.value.1.returned? = some played.value.1)) ∧
    ∀ (σ : Type) (engine : Engine σ) (w : World σ),
      let played := (Script.run s classes w.names).play engine.system (w.disk, w.engine)
      (run engine s classes).run w = (played.value.1, .after played.value.2 played.state) := by
  refine ⟨fun τ sys t names => ?_, fun _ _ w => run_eq_play s classes w⟩
  intro played
  have htrace := always_run s classes names τ sys t
  refine ⟨?_, fun hnodup => ?_⟩
  · split
    · next r hr =>
      rw [Record.eq_of_returned? hr]
      exact htrace.protocol
    · next hr => exact htrace.breaksOff hr
  · cases hr : played.value.1.returned? with
    | some r => rw [Record.eq_of_returned? hr]
    | none => exact absurd (htrace.breaksOff hr).strands (not_strands_of_nodup hnodup)

/-- A check that strands a class does not return, whatever the engine. -/
theorem returned?_of_brokeOff {σ : Type} {engine : Engine σ} {classes : List Source.ClassDecl} {w : World σ}
    {lowered : Contract.Lowered} {supply : Contract.Supply} {modules : List Contract.Module}
    {target : String × String} (hs : s.validate = .ok ())
    (hlowered : (Contract.ofClasses s classes).run ⟨w.names, 0⟩ = (lowered, supply))
    (hmodules : lowered.result = .ok modules) (htarget : lowered.catalog.target s = .ok target)
    (hbroke : ((Contract.mergePragmas s modules classes lowered.catalog).run supply).1.brokeOff = true) :
    ((run engine s classes).run w).1.returned? = none := by
  rcases hmerged : (Contract.mergePragmas s modules classes lowered.catalog).run supply with ⟨merged, issued⟩
  rw [hmerged] at hbroke
  have hresult : ∃ f, merged.result = .error f := by
    unfold Contract.Lowered.brokeOff at hbroke
    split at hbroke
    · next q hq => exact ⟨_, hq⟩
    · cases hbroke
  obtain ⟨f, hf⟩ := hresult
  have hcontracts : ∀ p : Pass, ∃ p' n, (contracts s classes p).run.run w.names = (.error p', n) ∧
      p'.fault = some f ∧ p'.brokeOff = true := fun p => by
    unfold contracts
    rw [run_bind_of_ok (run_lift (run_supplied hlowered)), run_bind_of_ok (run_orFail _ hmodules),
      run_bind_of_ok (run_orFail _ htarget), run_bind_of_ok (run_lift (run_supplied hmerged))]
    dsimp only
    rw [hf, hbroke]
    exact ⟨_, _, rfl, rfl, rfl⟩
  obtain ⟨p, n, hcontracts, hp, hbroke⟩ := hcontracts { method := MethodName.normalize s.method }
  have hsteps : (steps engine s classes true).run.run w = (.error p, { w with names := n }) :=
    run_bind_of_error (run_onNames hcontracts)
  have hrun : (run engine s classes).run w = ({ check := some p, fault := some f }, { w with names := n }) := by
    rw [run, hs]
    dsimp only
    rw [run_bind_of_run (run_pass hsteps)]
    simp only [ended, hp]
    rfl
  rw [hrun]
  exact Record.returned?_eq_none.mpr (.inl hbroke)

/-- A class with pragmas and nothing else but methods. -/
def annotated (name : String) (formulas : List String) (methods : List Source.Method) : Source.ClassDecl where
  file := name ++ ".java"
  name := name
  pragmas := formulas.map fun f => ⟨.start, .invariant, f⟩
  methods := methods

/-- A class to check, and two classes of one name, of which the second has a pragma that does not read. -/
def strandedClasses : List Source.ClassDecl :=
  [annotated "C" [] [{ name := "m", body := some ⟨.start, []⟩ }],
    annotated "A" ["x"] [], annotated "A" ["("] []]

/-- Settings that ask for the method. -/
def strandedSettings : Settings := { className := "C", method := "m" }

/-- **Not every run returns**: the pragma of the first class of the name has no module to go to. -/
theorem run_breaks_off : strandedSettings.validate = .ok () ∧
    ((run (noEngine false) strandedSettings strandedClasses).run ({ engine := () } : World Unit)).1.returned? =
      none := by
  have htarget : ((Contract.ofClasses strandedSettings strandedClasses).run ⟨0, 0⟩).1.catalog.target
      strandedSettings = .ok ("C", "C_m_0") := by
    rw [Contract.Catalog.target, Contract.find?_mergeSort_of_only (q := "C") (by decide +kernel) rfl
      (by decide +kernel)]
    decide +kernel
  exact ⟨rfl, returned?_of_brokeOff rfl rfl rfl htarget (by decide +kernel)⟩

end Relspec.Run
