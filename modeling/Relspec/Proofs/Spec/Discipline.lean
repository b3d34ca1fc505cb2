import Relspec.Proofs.Formula.Names
import Relspec.Proofs.Spec.Trace

/-!
# Proofs/Spec/Discipline — what symbolic runs keep to

A symbolic run makes five kinds of steps: it makes a new version of a variable, adds a transition or an
obligation, ends, or changes the condition of the branch at hand.  Which formulas it may add is said by a
discipline: a property of the tables of a state, and one of formulas over a state that connectives pass on
and that later states keep.  A body that keeps to a discipline gives a run that does.

* `Discipline`, `Discipline.Lawful` — such properties, and what has to be shown of them;
* `Step`, `Steps` — one step, and several;
* `Step.keeps` — a step keeps a state to the discipline;
* `reaches_run`, `reaches_runAll` — so does a symbolic run, which makes such steps only.
-/

namespace Relspec.Spec

open Relational (Stmt)

/-! ## Statements -/

/-- The formulas of a statement itself, without those of the statements within it. -/
def ownFormulas : Stmt → List Formula
  | .assign _ value => [value]
  | .update _ object value => [object, value]
  | .compute _ _ args => args
  | .branch cond _ _ => [cond]
  | .loop _ cond invariant variant _ => cond :: (invariant.toList ++ variant.toList)
  | .assert cond => [cond]
  | .assume cond => [cond]
  | .ret value => value.toList
  | .raise _ => []

/-- The variable that a statement itself sets. -/
def ownTarget : Stmt → Option String
  | .assign target _ => some target
  | .update field _ _ => some field
  | .compute target _ _ => some target
  | .ret (some _) => some "return"
  | .raise _ => some "throw"
  | _ => none

theorem mem_walk_self (s : Stmt) : s ∈ s.walk := by cases s <;> simp [Stmt.walk]

/-- **A discipline of symbolic runs**: what holds of the tables of a state and of formulas over it, what
the formulas of a body have to be, what it may set and throw, and which predicates with how many arguments
it may compute with. -/
structure Discipline where
  tables : Verification → Prop
  formula : Verification → Formula → Prop
  source : Formula → Prop
  target : String → Prop
  thrown : String → Prop
  computes : String → Nat → Prop

namespace Discipline

/-- A statement itself keeps to a discipline. -/
structure Allows (D : Discipline) (s : Stmt) : Prop where
  target : ∀ x, ownTarget s = some x → D.target x
  formulas : ∀ f ∈ ownFormulas s, D.source f
  thrown : ∀ e, s.thrown? = some e → D.thrown e
  computed : ∀ target pred args, s = .compute target pred args → D.computes pred args.length

/-- **A body that keeps to a discipline**, at any depth. -/
def AllowsAll (D : Discipline) (body : List Stmt) : Prop := ∀ s ∈ Stmt.walkAll body, D.Allows s

end Discipline

namespace Verification

/-- A state with its tables alone. -/
def bare (v : Verification) : Verification :=
  { vars := v.vars, shapes := v.shapes, versions := v.versions }

/-- The state that has one more version of a variable. -/
def renewed (v : Verification) (base : String) : Verification := (v.declared base).next base

end Verification

open Verification

namespace Discipline

variable {D : Discipline} {v w u : Verification} {f g : Formula} {value : String → String → Formula}
  {l : LoopTrace}

/-- A state that has the tables of a discipline, and the formulas of an earlier state. -/
structure Extends (D : Discipline) (v w : Verification) : Prop where
  tables : D.tables w
  later : ∀ {f : Formula}, D.formula v f → D.formula w f

/-- **What has to be shown of a discipline.**  Its properties are about tables, connectives pass them on,
and a new version of a variable keeps them. -/
structure Lawful (D : Discipline) : Prop where
  bare : ∀ {v}, D.tables v.bare ↔ D.tables v
  formula_bare : ∀ {v f}, D.formula v.bare f ↔ D.formula v f
  truth : ∀ {v}, D.formula v .truth
  falsity : ∀ {v}, D.formula v .falsity
  zero : ∀ {v}, D.formula v (.int 0)
  not : ∀ {v f}, D.formula v f → D.formula v (.not f)
  binary : ∀ (op) {v f g}, D.formula v f → D.formula v g → D.formula v (.binary op f g)
  ite : ∀ {v f g h}, D.formula v f → D.formula v g → D.formula v h → D.formula v (.ite f g h)
  call : ∀ {v pred} {args : List Formula} {f}, D.computes pred args.length →
    (∀ a ∈ args, D.formula v a) → D.formula v f → D.formula v (.call pred (args ++ [f]))
  rename : ∀ {v f}, D.tables v → D.source f → D.formula v (v.rename f)
  thrown : ∀ {v e}, D.tables v → D.thrown e → D.formula v (.ident e)
  renewed : ∀ {v base}, D.tables v → D.target base → D.Extends v (v.renewed base) ∧
    D.formula (v.renewed base) (.ident ((v.declared base).current base)) ∧
    D.formula (v.renewed base) (.ident ((v.renewed base).current base))

/-! ## Steps -/

/-- What a version is set to: a value, a relation with one entry changed, or what a predicate computes. -/
inductive Setting (D : Discipline) (v : Verification) : (String → String → Formula) → Prop
  | assign {e : Formula} (he : D.formula v e) : Setting D v fun _ new => .eq (.ident new) e
  | update {object value : Formula} (ho : D.formula v object) (hx : D.formula v value) :
    Setting D v fun old new =>
      .eq (.ident new) (.binary .override (.ident old) (.binary .product object value))
  | compute {pred : String} {args : List Formula} (hp : D.computes pred args.length)
      (ha : ∀ a ∈ args, D.formula v a) : Setting D v fun _ new => .call pred (args ++ [.ident new])

/-- **One step of a symbolic run**, and what it records. -/
inductive Step (D : Discipline) : Verification → List Entry → Verification → Prop
  | set {v : Verification} {base : String} {value : String → String → Formula} (hb : D.target base)
      (hval : Setting D v value) (hguard : ¬ v.guard.isFalsity = true) :
    Step D v [.version base v.guard value] (v.set base value)
  | require {v : Verification} {f : Formula} (hf : D.formula v f) : Step D v [.transition f] (v.require f)
  | oblige {v : Verification} {f : Formula} (hf : D.formula v f) : Step D v [.obligation f] (v.oblige f)
  | exit {v : Verification} : Step D v [] v.exit
  | path {v : Verification} {p : Formula} (hp : D.formula v p) : Step D v [] { v with path := p }

/-- Several steps. -/
inductive Steps (D : Discipline) (v : Verification) : List Entry → Verification → Prop
  | refl : Steps D v [] v
  | tail {es e : List Entry} {w u : Verification} (h : Steps D v es w) (hstep : Step D w e u) :
    Steps D v (es ++ e) u

theorem Steps.trans {es es' : List Entry} (h : D.Steps v es w) (h' : D.Steps w es' u) :
    D.Steps v (es ++ es') u := by
  induction h' with
  | refl => exact (List.append_nil es).symm ▸ h
  | tail _ hstep ih =>
    rw [← List.append_assoc]
    exact ih.tail hstep

/-- **A state that keeps to a discipline.** -/
structure Keeps (D : Discipline) (v : Verification) : Prop where
  tables : D.tables v
  transitions : ∀ t ∈ v.transitions, D.formula v t.formula
  obligations : ∀ f ∈ v.obligations, D.formula v f
  path : D.formula v v.path
  done : D.formula v v.done

section

variable (hD : D.Lawful)

include hD

theorem Lawful.all_pair (hf : D.formula v f) (hg : D.formula v g) : D.formula v (.all [f, g]) :=
  Formula.all_induction hD.truth hD.falsity (fun _ _ => hD.binary _) (by simpa using ⟨hf, hg⟩)

theorem Lawful.any_pair (hf : D.formula v f) (hg : D.formula v g) : D.formula v (.any [f, g]) :=
  Formula.any_pair_induction hD.truth hD.falsity (fun _ _ => hD.binary _) hf hg

theorem Lawful.implies (hf : D.formula v f) (hg : D.formula v g) : D.formula v (.implies f g) :=
  Formula.implies_induction hD.truth (fun _ _ => hD.binary _) hf hg

theorem Lawful.choose {h : Formula} (hf : D.formula v f) (hg : D.formula v g) (hh : D.formula v h) :
    D.formula v (choose f g h) := by
  unfold Verification.choose
  split_ifs
  · exact hg
  · exact hD.ite hf hg hh

theorem Keeps.guard (h : D.Keeps v) : D.formula v v.guard := by
  unfold Verification.guard
  split_ifs
  · exact h.path
  · exact hD.falsity
  · exact hD.all_pair h.path (hD.not h.done)

/-- States with the same tables have the same formulas. -/
theorem Lawful.same (h : D.tables v) (hw : w.bare = v.bare) : D.Extends v w where
  tables := hD.bare.mp (hw ▸ hD.bare.mpr h)
  later hf := hD.formula_bare.mp (hw ▸ hD.formula_bare.mpr hf)

/-- What a version is set to keeps to the discipline, given the old and the new version. -/
theorem Setting.formula (h : Setting D v value) (hw : D.Extends v w) {old new : String}
    (hold : D.formula w (.ident old)) (hnew : D.formula w (.ident new)) :
    D.formula w (value old new) := by
  cases h with
  | assign he => exact hD.binary _ hnew (hw.later he)
  | update ho hx => exact hD.binary _ hnew (hD.binary _ hold (hD.binary _ (hw.later ho) (hw.later hx)))
  | compute hp ha => exact hD.call hp (fun a h => hw.later (ha a h)) hnew

/-- A state that has recorded nothing yet. -/
theorem Lawful.keeps (h : D.tables v) (htransitions : v.transitions = [])
    (hobligations : v.obligations = []) (hpath : v.path = .truth) (hdone : v.done = .falsity) :
    D.Keeps v :=
  ⟨h, by simp [htransitions], by simp [hobligations], hpath ▸ hD.truth, hdone ▸ hD.falsity⟩

omit hD in
/-- A state that adds to another. -/
theorem Keeps.extend (hv : D.Keeps v) (hw : D.Extends v w) {ts : List Transition} {os : List Formula}
    (htransitions : w.transitions = v.transitions ++ ts) (hts : ∀ t ∈ ts, D.formula w t.formula)
    (hobligations : w.obligations = v.obligations ++ os) (hos : ∀ f ∈ os, D.formula w f)
    (hpath : D.formula w w.path) (hdone : D.formula w w.done) : D.Keeps w where
  tables := hw.tables
  transitions := htransitions ▸ List.forall_mem_append.mpr ⟨fun t ht => hw.later (hv.transitions t ht), hts⟩
  obligations := hobligations ▸ List.forall_mem_append.mpr ⟨fun f hf => hw.later (hv.obligations f hf), hos⟩
  path := hpath
  done := hdone

/-- **A step keeps a state to the discipline**, and the formulas that there are. -/
theorem Step.keeps {es : List Entry} (h : D.Step v es w) (hv : D.Keeps v) : D.Keeps w ∧ D.Extends v w := by
  cases h with
  | @set base value hb hval hguard =>
    unfold Verification.set
    dsimp only
    rw [if_neg hguard]
    obtain ⟨hnext, hold, hnew⟩ := hD.renewed hv.tables hb
    have hdefined := hD.choose (hnext.later (hv.guard hD)) (hval.formula hD hnext hold hnew)
      (hD.binary .eq hnew hold)
    have hsame : ∀ name f, D.Extends (v.renewed base) ((v.renewed base).define name f) :=
      fun _ _ => hD.same hnext.tables rfl
    have hw : ∀ name f, D.Extends v ((v.renewed base).define name f) := fun name f =>
      ⟨(hsame name f).tables, fun hf => (hsame name f).later (hnext.later hf)⟩
    have hdeclared : (v.declared base).transitions = v.transitions ∧
        (v.declared base).obligations = v.obligations ∧ (v.declared base).path = v.path ∧
        (v.declared base).done = v.done := by
      unfold declared
      split_ifs <;> exact ⟨rfl, rfl, rfl, rfl⟩
    obtain ⟨htransitions, hobligations, hpath, hdone⟩ := hdeclared
    exact ⟨hv.extend (hw _ _) (congrArg (· ++ _) htransitions)
      (List.forall_mem_singleton.mpr ((hsame _ _).later hdefined))
      (hobligations.trans (List.append_nil _).symm) (List.forall_mem_nil _) ((hw _ _).later (hpath ▸ hv.path))
      ((hw _ _).later (hdone ▸ hv.done)), hw _ _⟩
  | @require f hf =>
    have hw := hD.same hv.tables (w := v.require f) rfl
    exact ⟨hv.extend hw rfl (List.forall_mem_singleton.mpr (hw.later hf)) (List.append_nil _).symm (List.forall_mem_nil _)
      (hw.later hv.path) (hw.later hv.done), hw⟩
  | @oblige f hf =>
    have hw := hD.same hv.tables (w := v.oblige f) rfl
    exact ⟨hv.extend hw (List.append_nil _).symm (List.forall_mem_nil _) rfl (List.forall_mem_singleton.mpr (hw.later hf))
      (hw.later hv.path) (hw.later hv.done), hw⟩
  | exit =>
    have hw := hD.same hv.tables (w := v.exit) rfl
    exact ⟨hv.extend hw (List.append_nil _).symm (List.forall_mem_nil _) (List.append_nil _).symm (List.forall_mem_nil _)
      (hw.later hv.path) (hw.later (hD.any_pair hv.done (hv.guard hD))), hw⟩
  | @path p hp =>
    have hw := hD.same hv.tables (w := { v with path := p }) rfl
    exact ⟨hv.extend hw (List.append_nil _).symm (List.forall_mem_nil _) (List.append_nil _).symm (List.forall_mem_nil _) (hw.later hp)
      (hw.later hv.done), hw⟩

end

/-- **A state after several steps** that keeps to the discipline, and what they record. -/
structure Reaches (D : Discipline) (v : Verification) (es : List Entry) (w : Verification) : Prop where
  steps : D.Steps v es w
  keeps : D.Keeps w
  later : ∀ {f : Formula}, D.formula v f → D.formula w f

namespace Reaches

variable {es es' : List Entry}

theorem refl (hv : D.Keeps v) : D.Reaches v [] v := ⟨.refl, hv, id⟩

theorem trans (h : D.Reaches v es w) (h' : D.Reaches w es' u) : D.Reaches v (es ++ es') u :=
  ⟨h.steps.trans h'.steps, h'.keeps, fun hf => h'.later (h.later hf)⟩

theorem step (hD : D.Lawful) (h : D.Reaches v es w) (hstep : D.Step w es' u) : D.Reaches v (es ++ es') u :=
  ⟨h.steps.tail hstep, (hstep.keeps hD h.keeps).1,
    fun hf => (hstep.keeps hD h.keeps).2.later (h.later hf)⟩

/-- A step that records nothing. -/
theorem silent (hD : D.Lawful) (h : D.Reaches v es w) (hstep : D.Step w [] u) : D.Reaches v es u :=
  List.append_nil es ▸ h.step hD hstep

theorem under (hD : D.Lawful) (h : D.Reaches v es w) (hf : D.formula w f) : D.Reaches v es (w.under f) :=
  h.silent hD (.path (hD.all_pair h.keeps.path hf))

theorem set (hD : D.Lawful) (hv : D.Keeps v) {base : String} (hb : D.target base)
    (hval : D.Setting v value) : D.Reaches v (v.settingTrace base value) (v.set base value) := by
  unfold settingTrace
  split_ifs with hguard
  · have hset : v.set base value = v := if_pos hguard
    rw [hset]
    exact refl hv
  · exact (refl hv).step hD (.set hb hval hguard)

end Reaches

/-! ## Symbolic runs -/

/-- A part of a run that makes steps and records what `trace` says. -/
def Stepping (D : Discipline) (run : Verification → Verification) (trace : Verification → List Entry) :
    Prop := ∀ {v : Verification}, D.Keeps v → D.Reaches v (trace v) (run v)

/-- A loop whose lead and body make steps and whose formulas keep to the discipline. -/
structure Fits (D : Discipline) (l : LoopTrace) : Prop where
  lead : D.Stepping l.lead l.leadTrace
  body : D.Stepping l.body l.bodyTrace
  cond : D.source l.cond
  invariant : ∀ f, l.invariant = some f → D.source f
  variant : ∀ f, l.variant = some f → D.source f

section

variable (hD : D.Lawful)

include hD

theorem reaches_obligeInvariant (hl : D.Fits l) (hv : D.Keeps v) (hg : D.formula v g) :
    D.Reaches v (v.invariantTrace l.toLoopRun g) (v.obligeInvariant l.toLoopRun g) := by
  unfold obligeInvariant invariantTrace
  cases hinvariant : l.invariant with
  | some f =>
    exact (Reaches.refl hv).step hD
      (.oblige (hD.implies hg (hD.rename hv.tables (hl.invariant f hinvariant))))
  | none => exact .refl hv

theorem reaches_iteration (hl : D.Fits l) (hv : D.Keeps v) (hg : D.formula v g) :
    D.Reaches v (v.iterationTrace l g) (v.iteration l.toLoopRun g) := by
  have h₁ := reaches_obligeInvariant hD hl hv hg
  have hcond := hD.rename h₁.keeps.tables hl.cond
  refine h₁.trans ?_
  unfold iteration
  cases hvariant : l.variant with
  | none =>
    have h₂ := (Reaches.refl h₁.keeps).under hD hcond
    exact h₂.trans (hl.body h₂.keeps)
  | some f =>
    have hbefore := hD.rename h₁.keeps.tables (hl.variant f hvariant)
    have h₂ := (Reaches.refl h₁.keeps).step hD (.oblige
      (hD.implies (hD.all_pair (h₁.later hg) hcond) (hD.binary .ge hbefore hD.zero)))
    have h₃ := h₂.under hD (h₂.later hcond)
    have h₄ := h₃.trans (hl.body h₃.keeps)
    -- The variant before the body is compared with at the versions it had.
    exact h₄.step hD (.oblige (hD.implies (h₄.keeps.guard hD)
      (hD.binary _ (hD.rename h₄.keeps.tables (hl.variant f hvariant)) (h₄.later hbefore))))

theorem reaches_iterate (hl : D.Fits l) : ∀ n, D.Stepping (iterate l.toLoopRun n) (iterateTrace l n)
  | 0, v, hv => by
    rw [iterate, iterateTrace]
    exact .refl hv
  | n + 1, v, hv => by
    have h₁ := hl.lead hv
    rw [iterate, iterateTrace]
    refine h₁.trans ?_
    split_ifs
    · exact .refl h₁.keeps
    · have h₂ := reaches_iteration hD hl h₁.keeps (h₁.keeps.guard hD)
      exact h₂.trans (reaches_iterate hl n h₂.keeps)

theorem reaches_loop (hl : D.Fits l) (n : Nat) : D.Stepping (loop l.toLoopRun n) (loopTrace l n) := by
  intro v hv
  have h₁ := reaches_iterate hD hl n hv
  have h₂ := h₁.trans (hl.lead h₁.keeps)
  unfold loop loopTrace
  dsimp only
  split_ifs
  · rw [List.append_nil]
    exact h₂.silent hD (.path (h₂.later hv.path))
  · have hguard := h₂.keeps.guard hD
    have h₃ := reaches_obligeInvariant hD hl h₂.keeps hguard
    have h₄ := h₂.trans (h₃.step hD (.require (hD.implies (h₃.later hguard)
      (hD.not (hD.rename h₃.keeps.tables hl.cond)))))
    exact h₄.silent hD (.path (h₄.later hv.path))

end

mutual

/-- **A symbolic run of a statement makes steps.** -/
theorem reaches_run (hD : D.Lawful) (n : Nat) (s : Stmt) (hs : ∀ t ∈ s.walk, D.Allows t) :
    D.Stepping (run n s) (trace n s) := by
  intro v hv
  have h := hs s (mem_walk_self s)
  have hsource : ∀ f ∈ ownFormulas s, D.formula v (v.rename f) := fun f hf =>
    hD.rename hv.tables (h.formulas f hf)
  have hrefl := Reaches.refl hv
  cases s with
  | assign target value =>
    rw [run, assign, trace]
    exact .set hD hv (h.target _ rfl) (.assign (hsource _ (by simp [ownFormulas])))
  | update field object value =>
    rw [run, trace]
    exact .set hD hv (h.target _ rfl)
      (.update (hsource _ (by simp [ownFormulas])) (hsource _ (by simp [ownFormulas])))
  | compute target pred args =>
    rw [run, trace]
    refine .set hD hv (h.target _ rfl) (.compute ?_ (List.forall_mem_map.mpr hsource))
    rw [List.length_map]
    exact h.computed _ _ _ rfl
  | branch cond thn els =>
    rw [Stmt.walk, List.forall_mem_cons, List.forall_mem_append] at hs
    obtain ⟨-, hthn, hels⟩ := hs
    have hcond := hsource cond (by simp [ownFormulas])
    have h₁ := hrefl.under hD hcond
    have h₂ := h₁.trans (reaches_runAll hD n thn hthn h₁.keeps)
    have h₃ := h₂.silent hD (.path (hD.all_pair (h₂.later hv.path) (hD.not (h₂.later hcond))))
    have h₄ := h₃.trans (reaches_runAll hD n els hels h₃.keeps)
    rw [run, trace]
    exact h₄.silent hD (.path (h₄.later hv.path))
  | loop lead cond invariant variant body =>
    rw [Stmt.walk, List.forall_mem_cons, List.forall_mem_append] at hs
    obtain ⟨-, hlead, hbody⟩ := hs
    rw [run, trace]
    refine reaches_loop hD ⟨reaches_runAll hD n lead hlead, reaches_runAll hD n body hbody,
      h.formulas cond (by simp [ownFormulas]), ?_, ?_⟩ n hv
    all_goals
      rintro f rfl
      exact h.formulas f (by simp [ownFormulas])
  | assert cond =>
    rw [run, trace]
    exact hrefl.step hD (.oblige (hD.implies (hv.guard hD) (hsource cond (by simp [ownFormulas]))))
  | assume cond =>
    rw [run, trace]
    exact hrefl.step hD (.require (hD.implies (hv.guard hD) (hsource cond (by simp [ownFormulas]))))
  | ret value =>
    cases value with
    | none =>
      rw [run, trace]
      exact hrefl.silent hD .exit
    | some value =>
      rw [run, assign, trace]
      exact (Reaches.set hD hv (h.target _ rfl)
        (.assign (hsource _ (by simp [ownFormulas])))).silent hD .exit
  | raise exception =>
    rw [run, assign, trace]
    exact (Reaches.set hD hv (h.target _ rfl)
      (.assign (hD.thrown hv.tables (h.thrown _ rfl)))).silent hD .exit

/-- **A symbolic run of a body makes steps.** -/
theorem reaches_runAll (hD : D.Lawful) (n : Nat) : ∀ ss : List Stmt, D.AllowsAll ss →
    D.Stepping (runAll n ss) (traceAll n ss)
  | [], _, v, hv => by
    rw [runAll, traceAll]
    exact .refl hv
  | s :: ss, hs, v, hv => by
    rw [AllowsAll, Stmt.walkAll, List.forall_mem_append] at hs
    have h₁ := reaches_run hD n s hs.1 hv
    rw [runAll, traceAll]
    exact h₁.trans (reaches_runAll hD n ss hs.2 h₁.keeps)

end

end Discipline

end Relspec.Spec
