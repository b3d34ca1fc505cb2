import Relspec.Proofs.Run.Stages

/-!
# Proofs/Run/Script — a run without its surroundings

A run asks for files and for an analysis, and goes on with the answers.  A script is what it asks, in which
order, and what it does with each answer; files that fail in any way and engines of any kind are systems
that answer.  The disk and an engine are such a system, and with them a script does what the run does.

* `Script` — acts and what follows each answer; `Script.play` — a script with a system that answers;
* `Script.Always` — what holds of a script whatever the answers, with one lemma for each way to build one;
* `Script.run` — the script of a run, and `run_eq_play` — the run plays it.
-/

namespace Relspec.Run

/-! ## Acts and scripts -/

/-- **What a run asks for**: a file operation, or the analysis of a specification. -/
inductive Act where
  | read (path : String)
  | write (path content : String)
  | makeDirs (path : String)
  | remove (path : String)
  | analyze (a : Artifact)
deriving DecidableEq, Repr

namespace Act

/-- What an act may be answered. -/
abbrev Answer : Act → Type
  | .read _ => Except String String
  | .write _ _ => Except String Unit
  | .makeDirs _ => Except String Unit
  | .remove _ => Except String Unit
  | .analyze _ => Analysis

/-- Whether an act is there to change files or directories. -/
def changes : Act → Bool
  | .write _ _ | .makeDirs _ | .remove _ => true
  | .read _ | .analyze _ => false

/-- Whether an act calls the engine. -/
def analyzes : Act → Bool
  | .analyze _ => true
  | _ => false

end Act

/-- An act with its answer. -/
structure Event where
  act : Act
  answer : act.Answer

/-- **A script**: a value, or an act and what follows each answer. -/
inductive Script (α : Type) where
  | done (a : α)
  | ask (act : Act) (next : act.Answer → Script α)

/-- **A system** that answers acts, and may change with each. -/
structure System (τ : Type) where
  answer (act : Act) : StateM τ act.Answer

/-- What comes of a script: its value, what was asked and answered, and the system after it. -/
structure Played (τ α : Type) where
  value : α
  events : List Event
  state : τ

namespace Script

variable {α β γ τ : Type}

/-- A script that goes on with the value of another. -/
def bind : Script α → (α → Script β) → Script β
  | .done a, f => f a
  | .ask act next, f => .ask act fun answer => (next answer).bind f

instance : Monad Script where
  pure := .done
  bind := bind

@[simp] theorem ask_bind (act : Act) (next : act.Answer → Script α) (f : α → Script β) :
    (Script.ask act next >>= f) = .ask act fun answer => next answer >>= f := rfl

theorem bind_done : ∀ x : Script α, x.bind .done = x
  | .done _ => rfl
  | .ask act next => congrArg (Script.ask act) (funext fun answer => bind_done (next answer))

theorem bind_bind (f : α → Script β) (g : β → Script γ) :
    ∀ x : Script α, (x.bind f).bind g = x.bind fun a => (f a).bind g
  | .done _ => rfl
  | .ask act next => congrArg (Script.ask act) (funext fun answer => bind_bind f g (next answer))

instance : LawfulMonad Script :=
  LawfulMonad.mk' Script bind_done (fun _ _ => rfl) fun x f g => bind_bind f g x

/-- The script of one act. -/
def act (a : Act) : Script a.Answer := .ask a .done

/-- **Plays a script** with a system that answers. -/
def play (sys : System τ) : Script α → τ → Played τ α
  | .done a, t => ⟨a, [], t⟩
  | .ask act next, t =>
    let answered := (sys.answer act).run t
    let rest := (next answered.1).play sys answered.2
    ⟨rest.value, ⟨act, answered.1⟩ :: rest.events, rest.state⟩

/-- A script that goes on with the value of another is played after it. -/
theorem play_bind (sys : System τ) (f : α → Script β) : ∀ (x : Script α) (t : τ),
    (x >>= f).play sys t =
      ⟨((f (x.play sys t).value).play sys (x.play sys t).state).value,
        (x.play sys t).events ++ ((f (x.play sys t).value).play sys (x.play sys t).state).events,
        ((f (x.play sys t).value).play sys (x.play sys t).state).state⟩
  | .done _, _ => rfl
  | .ask act next, t => by rw [ask_bind, play, play_bind sys f]; rfl

/-- What a script comes to, without the events. -/
def result (sys : System τ) (x : Script α) : StateM τ α := fun t =>
  ((x.play sys t).value, (x.play sys t).state)

theorem result_bind (sys : System τ) (x : Script α) (f : α → Script β) :
    (x >>= f).result sys = x.result sys >>= fun a => (f a).result sys := by
  funext t
  rw [result, play_bind]
  rfl

/-! ## Whatever the answers -/

/-- **What holds of a script whatever the answers**, of what was asked and of its value. -/
def Always (Q : List Event → α → Prop) (x : Script α) : Prop :=
  ∀ (τ : Type) (sys : System τ) (t : τ), Q (x.play sys t).events (x.play sys t).value

section

variable {Q : List Event → α → Prop} {R : List Event → β → Prop} {x : Script α} {f : α → Script β}

theorem Always.done {a : α} (h : Q [] a) : Always Q (.done a) := fun _ _ _ => h

theorem Always.ask {act : Act} {next : act.Answer → Script α}
    (h : ∀ answer, Always (fun es a => Q (⟨act, answer⟩ :: es) a) (next answer)) :
    Always Q (.ask act next) := fun τ sys _ => h _ τ sys _

theorem Always.bind (hx : Always Q x)
    (hf : ∀ es a, Q es a → Always (fun es' b => R (es ++ es') b) (f a)) : Always R (x >>= f) := by
  intro τ sys t
  rw [play_bind]
  exact hf _ _ (hx τ sys t) τ sys _

theorem Always.imp {Q' : List Event → α → Prop} (hx : Always Q x) (h : ∀ es a, Q es a → Q' es a) :
    Always Q' x := fun τ sys t => h _ _ (hx τ sys t)

end

/-! ## The script of a run -/

/-- A file operation that may fail, in words for its fault. -/
def attempt (verb path : String) (x : Script (Except String α)) : ExceptT Fault Script α :=
  ExceptT.mk do return (← x).mapError (.file verb path)

/-- The content of a file. -/
def readFile (path : String) : ExceptT Fault Script String := attempt "read" path (act (.read path))

/-- Writes a file. -/
def writeFile (path content : String) : ExceptT Fault Script Unit :=
  attempt "write" path (act (.write path content))

/-- Makes a directory. -/
def createDir (path : String) : ExceptT Fault Script Unit := attempt "create" path (act (.makeDirs path))

/-- Removes a file. -/
def removeFile (path : String) : ExceptT Fault Script Unit := attempt "remove" path (act (.remove path))

/-- Passes a module through its text, which is kept in a directory unless that is empty. -/
def roundTripOne (dir : String) (m : Contract.Module) : ExceptT Fault Script Contract.Module := do
  if dir != "" then
    createDir dir
    writeFile (Path.join dir (m.id ++ ".dj")) m.text
  ExceptT.mk (.done (Contract.reread m))

/-- Passes modules through their texts. -/
def roundTrip (modules : List Contract.Module) (dir : String) :
    ExceptT Fault Script (List Contract.Module) := modules.mapM (roundTripOne dir)

/-- Writes a specification, and makes its directory. -/
def writeArtifact (a : Artifact) : ExceptT Fault Script Unit := do
  createDir (Path.parent a.path)
  writeFile a.path a.text

/-- Turns a specification file into a query file beside it. -/
def synthesize (path : String) : ExceptT Fault Script String := do
  let text ← readFile path
  match Spec.query text with
  | .error marker => throw (.noMarker marker path)
  | .ok edited =>
    let out := Text.dropEnd path ".als" ++ ".inv"
    writeFile out edited
    removeFile path
    return out

/-- The specification of the target, and the pass that has come so far. -/
def specification (s : Settings) (p : Pass) (modules : List Contract.Module) :
    ExceptT Pass Script (Pass × Spec.Specification) := do
  let dir := if s.keepIntermediate then s.outputDir else ""
  let modules ← orFail p (← ((roundTrip modules dir).run : Script _))
  let p := p.advance .roundTripped
  let modules ← orFail p (Relational.ofModules s modules)
  let index := Relational.SideIndex.collect modules
  let p := { p with modules, index := some index }.advance .relationallyLowered
  let (owner, program) := p.target.getD ("", "")
  let spec ← orFail p (Spec.assemble s modules index owner program)
  return (p, spec)

/-- Gives the specification to the engine. -/
def analysis (a : Artifact) (p : Pass) : ExceptT Pass Script Pass := do
  let answer ← (act (.analyze a) : Script _)
  let p := { p with outcome := answer.outcome }
  match answer.fault with
  | some f => throw (p.fail f)
  | none => return p.advance .checkComplete

/-- The steps of a pass with contract modules. -/
def steps (s : Settings) (p : Pass) (modules : List Contract.Module) (analyze : Bool) :
    ExceptT Pass Script Pass := do
  let (p, spec) ← specification s p modules
  let a := artifactOf s spec
  orFail p (← ((writeArtifact a).run : Script _))
  let p := { p with artifact := some a }.advance .assembled
  if analyze then analysis a p else return p

/-- The script of a pass that has contract modules, or has ended. -/
def laterPass (s : Settings) (analyze : Bool) :
    Except Pass (Pass × List Contract.Module) × Nat → Script (Pass × Nat)
  | (.error p, names) => .done (p, names)
  | (.ok (p, modules), names) => do return (ended (← (steps s p modules analyze).run), names)

/-- **The script of a pass**, when some names have been issued; contract modules ask for nothing. -/
def pass (s : Settings) (classes : List Source.ClassDecl) (analyze : Bool) (names : Nat) :
    Script (Pass × Nat) :=
  laterPass s analyze ((contracts s classes { method := MethodName.normalize s.method }).run.run names)

/-- The script of a query, once the pass for it has ended. -/
def laterQuery (r : Record) (p : Pass) (names : Nat) : Script (Record × Nat) :=
  match p.fault, p.artifact with
  | some f, _ => .done ({ r with invariant := some p, fault := some f }, names)
  | none, none => .done ({ r with invariant := some p }, names)
  | none, some a => do
    match ← (synthesize a.path).run with
    | .ok path =>
      return ({ r with invariant := some (p.advance .invariantSynthesized), queryPath := path }, names)
    | .error f => return ({ r with invariant := some (p.fail f), fault := some f }, names)

/-- The script of the pass for the object invariant, and of the query made of its specification. -/
def queryPass (s : Settings) (classes : List Source.ClassDecl) (r : Record) (names : Nat) :
    Script (Record × Nat) := do
  let q ← pass (s.forMethod MethodName.generateInvariant) classes false names
  laterQuery r q.1 q.2

/-- The script of a run, once the check has ended. -/
def laterRun (s : Settings) (classes : List Source.ClassDecl) (p : Pass) (names : Nat) :
    Script (Record × Nat) :=
  match p.fault with
  | some f => .done ({ check := some p, fault := some f }, names)
  | none => queryPass s classes { check := some p } names

/-- **The script of a run**, when some names have been issued. -/
def run (s : Settings) (classes : List Source.ClassDecl) (names : Nat) : Script (Record × Nat) :=
  match s.validate with
  | .error f => .done ({ fault := some f }, names)
  | .ok () => do
    let q ← pass s classes true names
    laterRun s classes q.1 q.2

/-! ## Failing scripts -/

section

variable {ε : Type} {sys : System τ} {t t₁ : τ} {y : ExceptT ε Script α} {g : α → ExceptT ε Script β}

theorem result_bind_of_ok {a : α} (h : (y.run.result sys).run t = (.ok a, t₁)) :
    ((y >>= g).run.result sys).run t = ((g a).run.result sys).run t₁ := by
  rw [ExceptT.run_bind, result_bind, run_bind_of_run h]

theorem result_bind_of_error {e : ε} (h : (y.run.result sys).run t = (.error e, t₁)) :
    ((y >>= g).run.result sys).run t = (.error e, t₁) := by
  rw [ExceptT.run_bind, result_bind, run_bind_of_run h]
  rfl

/-- A script that cannot fail, in a failing one. -/
theorem result_lift {x : Script α} {a : α} (h : (x.result sys).run t = (a, t₁)) :
    ((liftM x : ExceptT ε Script α).run.result sys).run t = (.ok a, t₁) := by
  have hbind : ((x >>= fun a => .done (.ok a) : Script (Except ε α)).result sys).run t = (.ok a, t₁) := by
    rw [result_bind, run_bind_of_run h]
    rfl
  exact hbind

end

end Script

/-! ## The disk and an engine as a system -/

variable {σ α β : Type}

/-- What a change of the disk answers. -/
def answered (r : Except String Disk) (t : Disk × σ) : Except String Unit × (Disk × σ) :=
  match r with
  | .ok d => (.ok (), (d, t.2))
  | .error cause => (.error cause, t)

/-- **The disk and an engine** answer acts. -/
def Engine.system (engine : Engine σ) : System (Disk × σ) where
  answer
    | .read path => fun t => (t.1.read path, t)
    | .write path content => fun t => answered (t.1.write path content) t
    | .makeDirs path => fun t => answered (t.1.makeDirs path) t
    | .remove path => fun t => answered (t.1.remove path) t
    | .analyze a => fun t => (((engine.analyze a).run t.2).1, (t.1, ((engine.analyze a).run t.2).2))

variable {engine : Engine σ}

/-- **A computation on the disk plays a script.** -/
def Mirrors (engine : Engine σ) (x : OnDisk α) (y : ExceptT Fault Script α) : Prop :=
  ∀ d e, (y.run.result engine.system).run (d, e) = ((x.run.run d).1, ((x.run.run d).2, e))

namespace Mirrors

variable {x : OnDisk α} {y : ExceptT Fault Script α} {f : α → OnDisk β} {g : α → ExceptT Fault Script β}

theorem pure (a : α) : Mirrors engine (pure a) (pure a) := fun _ _ => rfl

theorem throw (e : Fault) : Mirrors engine (throw e : OnDisk α) (throw e) := fun _ _ => rfl

theorem bind (hx : Mirrors engine x y) (hf : ∀ a, Mirrors engine (f a) (g a)) :
    Mirrors engine (x >>= f) (y >>= g) := by
  intro d e
  have hy := hx d e
  rcases hrun : x.run.run d with ⟨r, d₁⟩
  rw [hrun] at hy
  cases r with
  | ok a => rw [Script.result_bind_of_ok hy, run_bind_of_ok hrun, hf a d₁ e]
  | error c => rw [Script.result_bind_of_error hy, run_bind_of_error hrun]

theorem mapM (hf : ∀ a, Mirrors engine (f a) (g a)) :
    ∀ l : List α, Mirrors engine (l.mapM f) (l.mapM g)
  | [] => pure []
  | a :: l => by
    rw [List.mapM_cons, List.mapM_cons]
    exact (hf a).bind fun b => (mapM hf l).bind fun bs => pure (b :: bs)

theorem readFile (path : String) : Mirrors engine (OnDisk.readFile path) (Script.readFile path) := by
  intro d e
  have hget : (get : OnDisk Disk).run.run d = (.ok d, d) := rfl
  have hscript : ((Script.readFile path).run.result engine.system).run (d, e) =
    ((d.read path).mapError (Fault.file "read" path), (d, e)) := rfl
  rw [hscript, OnDisk.readFile, run_bind_of_ok hget]
  cases d.read path <;> rfl

/-- A change of the disk is one act. -/
theorem change {op : Disk → Except String Disk} {verb path : String} {x : Script (Except String Unit)}
    (h : ∀ d e, (x.result engine.system).run (d, e) = answered (op d) (d, e)) :
    Mirrors engine (OnDisk.change op (.file verb path)) (Script.attempt verb path x) := by
  intro d e
  have hget : (get : OnDisk Disk).run.run d = (.ok d, d) := rfl
  have hscript : ((Script.attempt verb path x).run.result engine.system).run (d, e) =
      ((answered (op d) (d, e)).1.mapError (Fault.file verb path), (answered (op d) (d, e)).2) := by
    rw [← h d e]
    exact congrArg (·.run (d, e)) (Script.result_bind engine.system x _)
  rw [hscript, OnDisk.change, run_bind_of_ok hget]
  cases op d <;> rfl

theorem writeFile (path content : String) :
    Mirrors engine (OnDisk.writeFile path content) (Script.writeFile path content) := change fun _ _ => rfl

theorem createDir (path : String) : Mirrors engine (OnDisk.createDir path) (Script.createDir path) :=
  change fun _ _ => rfl

theorem removeFile (path : String) : Mirrors engine (OnDisk.removeFile path) (Script.removeFile path) :=
  change fun _ _ => rfl

theorem roundTripOne (dir : String) (m : Contract.Module) :
    Mirrors engine (Contract.roundTripOne dir m) (Script.roundTripOne dir m) := by
  have hreread : Mirrors engine (ofExcept (Contract.reread m) : OnDisk Contract.Module)
      (ExceptT.mk (.done (Contract.reread m))) := by
    cases Contract.reread m with
    | ok got => exact pure got
    | error f => exact throw f
  rw [Contract.roundTripOne_eq, Script.roundTripOne]
  split
  · exact (createDir dir).bind fun _ => (writeFile _ m.text).bind fun _ => hreread
  · exact hreread

theorem roundTrip (modules : List Contract.Module) (dir : String) :
    Mirrors engine (Contract.roundTrip modules dir) (Script.roundTrip modules dir) :=
  mapM (roundTripOne dir) modules

theorem writeArtifact (a : Artifact) : Mirrors engine a.write (Script.writeArtifact a) :=
  (createDir _).bind fun _ => writeFile a.path a.text

theorem synthesize (path : String) : Mirrors engine (Spec.synthesize path) (Script.synthesize path) := by
  refine (readFile path).bind fun text => ?_
  cases Spec.query text with
  | error marker => exact throw _
  | ok edited => exact (writeFile _ edited).bind fun _ => (removeFile path).bind fun _ => pure _

end Mirrors

/-- **A pass under way plays a script**, and issues no names. -/
def Follows (engine : Engine σ) (x : Passing σ α) (y : ExceptT Pass Script α) : Prop :=
  ∀ w : World σ, x.run.run w =
    (((y.run.result engine.system).run (w.disk, w.engine)).1,
      { w with
        disk := ((y.run.result engine.system).run (w.disk, w.engine)).2.1
        engine := ((y.run.result engine.system).run (w.disk, w.engine)).2.2 })

namespace Follows

variable {x : Passing σ α} {y : ExceptT Pass Script α} {f : α → Passing σ β}
  {g : α → ExceptT Pass Script β}

theorem pure (a : α) : Follows engine (pure a) (pure a) := fun _ => rfl

theorem throw (p : Pass) : Follows engine (throw p : Passing σ α) (throw p) := fun _ => rfl

theorem bind (hx : Follows engine x y) (hf : ∀ a, Follows engine (f a) (g a)) :
    Follows engine (x >>= f) (y >>= g) := by
  intro w
  have hrun := hx w
  rcases hy : (y.run.result engine.system).run (w.disk, w.engine) with ⟨r, t⟩
  rw [hy] at hrun
  cases r with
  | ok a => rw [Script.result_bind_of_ok hy, run_bind_of_ok hrun, hf a]
  | error p => rw [Script.result_bind_of_error hy, run_bind_of_error hrun]

theorem orFail (p : Pass) (r : Except Fault α) : Follows engine (Run.orFail p r) (Run.orFail p r) := by
  cases r with
  | ok a => exact pure a
  | error f => exact throw _

/-- A computation on the disk, whose fault is a result. -/
theorem onDisk {x : OnDisk α} {y : ExceptT Fault Script α} (h : Mirrors engine x y) :
    Follows engine (liftM (Run.onDisk x : StateM (World σ) _)) (liftM y.run) := by
  intro w
  rw [Script.result_lift (h w.disk w.engine)]
  rfl

theorem onEngine (a : Artifact) : Follows engine
    (liftM (Run.onEngine (engine.analyze a) : StateM (World σ) _)) (liftM (Script.act (.analyze a))) :=
  fun _ => rfl

theorem specification (s : Settings) (p : Pass) (modules : List Contract.Module) :
    Follows engine (Run.specification s p modules) (Script.specification s p modules) := by
  refine (onDisk (.roundTrip modules _)).bind fun r => (orFail p r).bind fun modules => ?_
  refine (orFail _ _).bind fun modules => (orFail _ _).bind fun spec => pure _

theorem analysis (a : Artifact) (p : Pass) :
    Follows engine (Run.analysis engine a p) (Script.analysis a p) := by
  refine (onEngine a).bind fun answer => ?_
  dsimp only
  cases answer.fault with
  | some f => exact throw _
  | none => exact pure _

end Follows

/-! ## The run plays its script -/

theorem Follows.laterSteps (s : Settings) (analyze : Bool) (p : Pass) (modules : List Contract.Module) :
    Follows engine (Run.laterSteps engine s analyze (p, modules)) (Script.steps s p modules analyze) := by
  refine (specification s p modules).bind fun r => ?_
  refine (onDisk (.writeArtifact _)).bind fun r' => (orFail _ r').bind fun _ => ?_
  cases analyze with
  | true => exact .analysis _ _
  | false => exact .pure _

/-- The world after a script. -/
def World.after (n : Nat) (t : Disk × σ) : World σ := ⟨n, t.1, t.2⟩

/-- **A computation in the world plays a script** that is given the names. -/
def Plays (engine : Engine σ) (x : StateM (World σ) α) (y : Nat → Script (α × Nat)) : Prop :=
  ∀ w : World σ, x.run w =
    let r := ((y w.names).result engine.system).run (w.disk, w.engine)
    (r.1.1, .after r.1.2 r.2)

namespace Plays

theorem pure (a : α) : Plays engine (pure a) fun n => .done (a, n) := fun _ => rfl

theorem bind {x : StateM (World σ) α} {y : Nat → Script (α × Nat)} {f : α → StateM (World σ) β}
    {g : α → Nat → Script (β × Nat)} (hx : Plays engine x y) (hf : ∀ a, Plays engine (f a) (g a)) :
    Plays engine (x >>= f) fun n => y n >>= fun r => g r.1 r.2 := by
  intro w
  have hrun := hx w
  rcases hy : ((y w.names).result engine.system).run (w.disk, w.engine) with ⟨⟨a, n⟩, t⟩
  rw [hy] at hrun
  rw [run_bind_of_run hrun, Script.result_bind, run_bind_of_run hy]
  exact hf a (.after n t)

/-- **A pass plays its script.** -/
theorem pass (s : Settings) (classes : List Source.ClassDecl) (analyze : Bool) :
    Plays engine (Run.pass engine s classes analyze) (Script.pass s classes analyze) := by
  intro w
  rcases hrun : (contracts s classes { method := MethodName.normalize s.method }).run.run w.names with ⟨r, n⟩
  have hpass := congrArg (Script.laterPass s analyze) hrun
  cases r with
  | error p =>
    have hsteps : (steps engine s classes analyze).run.run w = (.error p, { w with names := n }) :=
      run_bind_of_error (run_onNames hrun)
    rw [run_pass hsteps, Script.pass, hpass]
    rfl
  | ok r =>
    obtain ⟨p, modules⟩ := r
    have hlater := @Follows.laterSteps σ engine s analyze p modules { w with names := n }
    have hsteps := (run_bind_of_ok (run_onNames hrun)).trans hlater
    rw [run_pass hsteps, Script.pass, hpass, Script.laterPass, Script.result_bind]
    rfl

theorem queryPass (s : Settings) (classes : List Source.ClassDecl) (r : Record) :
    Plays engine (Run.queryPass engine s classes r) (Script.queryPass s classes r) := by
  refine (pass (s.forMethod MethodName.generateInvariant) classes false).bind (g := Script.laterQuery r) ?_
  intro p
  unfold Script.laterQuery
  cases p.fault with
  | some f => exact pure _
  | none =>
    cases p.artifact with
    | none => exact pure _
    | some a =>
      intro w
      have hscript := @Mirrors.synthesize σ engine a.path w.disk w.engine
      rcases hdisk : (Spec.synthesize a.path).run.run w.disk with ⟨r', d⟩
      rw [hdisk] at hscript
      refine (run_bind_of_run (run_onDisk hdisk)).trans ?_
      rw [Script.result_bind, run_bind_of_run hscript]
      cases r' with
      | ok path => rfl
      | error f => rfl

end Plays

/-- **A run plays its script**: with the disk and an engine that answer, the script comes to the record of
the run, and leaves the names, the disk and the engine that the run leaves. -/
theorem run_eq_play (s : Settings) (classes : List Source.ClassDecl) (w : World σ) :
    (run engine s classes).run w =
      let played := (Script.run s classes w.names).play engine.system (w.disk, w.engine)
      (played.value.1, .after played.value.2 played.state) := by
  have hplays : Plays engine (run engine s classes) (Script.run s classes) := by
    unfold run Script.run
    cases s.validate with
    | error f => exact .pure _
    | ok _ =>
      refine (Plays.pass s classes true).bind (g := Script.laterRun s classes) fun p => ?_
      unfold Script.laterRun
      cases p.fault with
      | some f => exact .pure _
      | none => exact .queryPass s classes _
  exact hplays w

end Relspec.Run
