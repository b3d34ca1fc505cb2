import Relspec.Proofs.Spec.Definitions

/-!
# Proofs/Spec/Simulation — a symbolic run follows the bounded run

A valuation that satisfies the definitions fixes which statements are reached.  Where the statement at
hand is reached, the symbolic run moves from the state that the valuation reads before it to the state
that it reads after it as the bounded run does; elsewhere it leaves everything as it was.

* `Simulates` — one stretch of a symbolic run against one stretch of a bounded run;
* `Simulates.andThen`, `simulates_under` — stretches in a row, and a stretch under a condition;
* `mirrors_run`, `mirrors_runAll` — statements and bodies.
-/

namespace Relspec.Spec

open List
open Relational (Stmt)

namespace Verification

variable {M : Model} {names : List String} {v w u : Verification} {ρ₀ ρ : M.Valuation}

/-- Whether a valuation satisfies the transitions that leave runs out. -/
def Allowed (v : Verification) (M : Model) (ρ : M.Valuation) : Prop :=
  ∀ t ∈ v.transitions, t.defines.isSome = false → M.Holds ρ t.formula

/-- Whether a valuation satisfies the obligations. -/
def Met (v : Verification) (M : Model) (ρ : M.Valuation) : Prop :=
  ∀ f ∈ v.obligations, M.Holds ρ f

/-- A statement is reached where the branch at hand is taken and the run has not ended. -/
theorem holds_guard : M.Holds ρ v.guard ↔ M.Holds ρ v.path ∧ ¬ M.Holds ρ v.done := by
  unfold guard
  split_ifs with hf ht
  · exact (and_iff_left (Model.not_holds_of_isFalsity hf)).symm
  · exact iff_of_false Model.not_holds_falsity fun h => h.2 (Model.holds_of_isTruth ht)
  · simp [Model.Holds]

/-- **A reached stretch** from `v` to `w` ends where the bounded run does. -/
structure Follows (ρ₀ ρ : M.Valuation) (v w : Verification) (r : Reached M) : Prop where
  state : w.read ρ₀ ρ = r.state
  done : M.Holds ρ w.done ↔ r.ended = true
  allowed : w.Allowed M ρ ↔ v.Allowed M ρ ∧ ∀ p ∈ r.assumed, p
  met : w.Met M ρ ↔ v.Met M ρ ∧ ∀ p ∈ r.obliged, p

/-- **A stretch that is not reached** from `v` to `w` leaves everything as it was. -/
structure Idles (ρ₀ ρ : M.Valuation) (v w : Verification) : Prop where
  state : w.read ρ₀ ρ = v.read ρ₀ ρ
  done : M.Holds ρ w.done ↔ M.Holds ρ v.done
  allowed : w.Allowed M ρ ↔ v.Allowed M ρ
  met : w.Met M ρ ↔ v.Met M ρ

/-- **A stretch of a symbolic run does what `step` does** under the valuation `ρ`. -/
structure Simulates (ρ₀ ρ : M.Valuation) (v w : Verification) (step : M.Valuation → Reached M) :
    Prop where
  keeps : w.Defined M ρ → v.Defined M ρ
  reached : w.Defined M ρ → M.Holds ρ v.guard → Follows ρ₀ ρ v w (step (v.read ρ₀ ρ))
  skipped : w.Defined M ρ → ¬ M.Holds ρ v.guard → Idles ρ₀ ρ v w

theorem Idles.refl : Idles ρ₀ ρ v v := ⟨rfl, Iff.rfl, Iff.rfl, Iff.rfl⟩

theorem Idles.trans (h : Idles ρ₀ ρ v w) (h' : Idles ρ₀ ρ w u) : Idles ρ₀ ρ v u :=
  ⟨h'.state.trans h.state, h'.done.trans h.done, h'.allowed.trans h.allowed, h'.met.trans h.met⟩

/-- A reached stretch that goes nowhere. -/
theorem Idles.follows (h : Idles ρ₀ ρ v w) (hguard : M.Holds ρ v.guard) :
    Follows ρ₀ ρ v w { state := v.read ρ₀ ρ } where
  state := h.state
  done := h.done.trans (iff_of_false (holds_guard.mp hguard).2 Bool.false_ne_true)
  allowed := h.allowed.trans (by simp)
  met := h.met.trans (by simp)

namespace Simulates

variable {f g : M.Valuation → Reached M}

/-- Only the step from the state at hand counts. -/
theorem congr (h : Simulates ρ₀ ρ v w f) (hfg : f (v.read ρ₀ ρ) = g (v.read ρ₀ ρ)) :
    Simulates ρ₀ ρ v w g :=
  ⟨h.keeps, fun hd hg => hfg ▸ h.reached hd hg, h.skipped⟩

/-- A stretch that is never reached does what any step does. -/
theorem of_isFalsity (h : Simulates ρ₀ ρ v w f) (hv : v.guard.isFalsity = true) :
    Simulates ρ₀ ρ v w g :=
  ⟨h.keeps, fun _ hg => absurd hg (Model.not_holds_of_isFalsity hv), h.skipped⟩

/-- **Stretches in a row.** -/
theorem andThen (h : Simulates ρ₀ ρ v w f) (hpath : w.path = v.path) (h' : Simulates ρ₀ ρ w u g) :
    Simulates ρ₀ ρ v u fun σ => (f σ).andThen g where
  keeps hd := h.keeps (h'.keeps hd)
  reached hd hguard := by
    have hfirst := h.reached (h'.keeps hd) hguard
    unfold Reached.andThen
    split_ifs with hend
    · have hnot : ¬ M.Holds ρ w.guard := fun hw => (holds_guard.mp hw).2 (hfirst.done.mpr hend)
      have hidle := h'.skipped hd hnot
      exact ⟨hidle.state.trans hfirst.state, hidle.done.trans hfirst.done,
        hidle.allowed.trans hfirst.allowed, hidle.met.trans hfirst.met⟩
    · have hw : M.Holds ρ w.guard := by
        rw [holds_guard, hpath]
        exact ⟨(holds_guard.mp hguard).1, mt hfirst.done.mp hend⟩
      have hsecond := h'.reached hd hw
      rw [hfirst.state] at hsecond
      refine ⟨hsecond.state, hsecond.done, ?_, ?_⟩
      · rw [hsecond.allowed, hfirst.allowed, forall_mem_append, and_assoc]
      · rw [hsecond.met, hfirst.met, forall_mem_append, and_assoc]
  skipped hd hguard := by
    have hfirst := h.skipped (h'.keeps hd) hguard
    have hnot : ¬ M.Holds ρ w.guard := by
      rw [holds_guard, hpath, hfirst.done, ← holds_guard]
      exact hguard
    exact hfirst.trans (h'.skipped hd hnot)

end Simulates

variable {c f : Formula} {base : String}

/-- The condition of the branch plays no part in what was recorded. -/
theorem Simulates.of_path {step : M.Valuation → Reached M} (h : Simulates ρ₀ ρ v w step) (p : Formula) :
    Simulates ρ₀ ρ v { w with path := p } step :=
  ⟨h.keeps, fun hd hg => ⟨(h.reached hd hg).state, (h.reached hd hg).done,
      (h.reached hd hg).allowed, (h.reached hd hg).met⟩,
    fun hd hg => ⟨(h.skipped hd hg).state, (h.skipped hd hg).done, (h.skipped hd hg).allowed,
      (h.skipped hd hg).met⟩⟩

theorem holds_guard_under : M.Holds ρ (v.under c).guard ↔ M.Holds ρ v.guard ∧ M.Holds ρ c := by
  rw [holds_guard, holds_guard]
  simp only [under, Model.Holds, Model.value, Model.holds_all, forall_mem_cons,
    not_mem_nil, IsEmpty.forall_iff, implies_true, and_true]
  tauto

/-- **A stretch under a condition.** -/
theorem simulates_under {cond : Formula} {f : M.Valuation → Reached M}
    (hc : M.Holds ρ c ↔ M.Holds (v.read ρ₀ ρ) cond) (h : Simulates ρ₀ ρ (v.under c) w f) :
    Simulates ρ₀ ρ v w (branchExec cond f fun σ => { state := σ }) where
  keeps := h.keeps
  reached hd hguard := by
    have hstart : Idles ρ₀ ρ v (v.under c) := ⟨rfl, Iff.rfl, Iff.rfl, Iff.rfl⟩
    unfold branchExec
    split_ifs with hcond
    · have hf := h.reached hd (holds_guard_under.mpr ⟨hguard, hc.mpr hcond⟩)
      exact ⟨hf.state, hf.done, hf.allowed, hf.met⟩
    · have hidle := h.skipped hd fun hg => hcond (hc.mp (holds_guard_under.mp hg).2)
      exact (hstart.trans hidle).follows hguard
  skipped hd hguard := by
    have hidle := h.skipped hd fun hg => hguard (holds_guard_under.mp hg).1
    exact ⟨hidle.state, hidle.done, hidle.allowed, hidle.met⟩

/-! ## Single steps -/

theorem allowed_require : (v.require f).Allowed M ρ ↔ v.Allowed M ρ ∧ M.Holds ρ f := by
  simp [Allowed, require, or_imp, forall_and]

theorem met_oblige : (v.oblige f).Met M ρ ↔ v.Met M ρ ∧ M.Holds ρ f := by
  simp [Met, oblige, or_imp, forall_and]

/-- An obligation under the guard is met at the state at hand. -/
theorem simulates_oblige (P : M.Valuation → Prop) (hf : M.Holds ρ f ↔ (M.Holds ρ v.guard → P (v.read ρ₀ ρ))) :
    Simulates ρ₀ ρ v (v.oblige f) fun σ => { state := σ, obliged := [P σ] } where
  keeps := id
  reached _ hguard := by
    refine ⟨rfl, iff_of_false (holds_guard.mp hguard).2 Bool.false_ne_true,
      by simp [oblige, Allowed], ?_⟩
    rw [met_oblige, hf, forall_mem_singleton, forall_prop_of_true hguard]
  skipped _ hguard := by
    refine ⟨rfl, Iff.rfl, Iff.rfl, ?_⟩
    rw [met_oblige, hf]
    exact and_iff_left fun h => absurd h hguard

/-- A transition under the guard restricts the state at hand. -/
theorem simulates_require (P : M.Valuation → Prop)
    (hf : M.Holds ρ f ↔ (M.Holds ρ v.guard → P (v.read ρ₀ ρ))) :
    Simulates ρ₀ ρ v (v.require f) fun σ => { state := σ, assumed := [P σ] } where
  keeps hd t ht := hd t (mem_append_left _ ht)
  reached _ hguard := by
    refine ⟨rfl, iff_of_false (holds_guard.mp hguard).2 Bool.false_ne_true, ?_, by simp [require, Met]⟩
    rw [allowed_require, hf, forall_mem_singleton, forall_prop_of_true hguard]
  skipped _ hguard := by
    refine ⟨rfl, Iff.rfl, ?_, Iff.rfl⟩
    rw [allowed_require, hf]
    exact and_iff_left fun h => absurd h hguard

theorem simulates_exit : Simulates ρ₀ ρ v v.exit fun σ => { state := σ, ended := true } := by
  have hdone : M.Holds ρ v.exit.done ↔ M.Holds ρ v.done ∨ M.Holds ρ v.guard := by
    simp [exit, Model.Holds]
  refine ⟨id, fun _ hguard => ⟨rfl, ?_, by simp [exit, Allowed], by simp [exit, Met]⟩,
    fun _ hguard => ⟨rfl, ?_, Iff.rfl, Iff.rfl⟩⟩
  · exact iff_of_true (hdone.mpr (.inr hguard)) rfl
  · rw [hdone, or_iff_left hguard]

/-- Reading the next version reads the state with one value changed. -/
theorem read_next (hv : v.Over names) (hb : base ∈ names) (ρ₀ ρ : M.Valuation) :
    (v.next base).read ρ₀ ρ = Function.update (v.read ρ₀ ρ) base (ρ (v.upcoming base)) := by
  funext x
  by_cases hx : x = base
  · rw [hx, Function.update_self, (hv.next hb).read_of_mem ρ₀ ρ hb, current, version_next_self,
      upcoming]
  · rw [Function.update_of_ne hx]
    by_cases hmem : x ∈ names
    · rw [(hv.next hb).read_of_mem ρ₀ ρ hmem, hv.read_of_mem ρ₀ ρ hmem, current, current,
        version_next_of_ne v hx]
    · rw [(hv.next hb).read_of_not_mem ρ₀ ρ hmem, hv.read_of_not_mem ρ₀ ρ hmem]

/-- **Setting a variable** changes its value where the statement is reached. -/
theorem simulates_set (hv : v.Over names) (hb : base ∈ names) {value : String → String → Formula}
    (a : M.Valuation → M.Value)
    (hval : M.Holds ρ (value (v.current base) (v.upcoming base)) ↔ ρ (v.upcoming base) = a (v.read ρ₀ ρ)) :
    Simulates ρ₀ ρ v (v.set base value) fun σ => { state := Function.update σ base (a σ) } := by
  rw [set_eq hv hb]
  split_ifs with hfalse
  · exact ⟨id, fun _ hg => absurd hg (Model.not_holds_of_isFalsity hfalse), fun _ _ => .refl⟩
  · have hdefinition : ((v.next base).define (v.upcoming base) (v.definition base value)).Defined M ρ →
        M.Holds ρ (v.definition base value) := fun hd =>
      hd ⟨v.definition base value, some (v.upcoming base)⟩
        (mem_append_right _ (mem_singleton.mpr rfl)) rfl
    have hallowed : ((v.next base).define (v.upcoming base) (v.definition base value)).Allowed M ρ ↔
        v.Allowed M ρ := by simp [Allowed, define, next, or_imp, forall_and]
    refine ⟨fun hd t ht => hd t (mem_append_left _ ht), fun hd hguard => ?_, fun hd hguard => ?_⟩
    · have hnew := hval.mp ((holds_choose.mp (hdefinition hd)).1 hguard)
      refine ⟨(read_next hv hb ρ₀ ρ).trans (by rw [hnew]), ?_, hallowed.trans (by simp), ?_⟩
      · exact iff_of_false (holds_guard.mp hguard).2 Bool.false_ne_true
      · simp [Met, define, next]
    · have hcopy : ρ (v.upcoming base) = ρ (v.current base) := by
        have h := (holds_choose.mp (hdefinition hd)).2 hguard
        rwa [Model.Holds, Model.value, Model.holds_eq, Model.eval, Model.eval] at h
      refine ⟨(read_next hv hb ρ₀ ρ).trans ?_, Iff.rfl, hallowed, Iff.rfl⟩
      rw [hcopy, ← hv.read_of_mem ρ₀ ρ hb, Function.update_eq_self]

theorem path_set (v : Verification) (base : String) (value : String → String → Formula) :
    (v.set base value).path = v.path := by
  have hdeclared : (v.declared base).path = v.path := by
    unfold declared
    split_ifs <;> rfl
  unfold set
  dsimp only
  split_ifs
  · rfl
  · exact hdeclared

theorem Over.set (hv : v.Over names) (hb : base ∈ names)
    (value : String → String → Formula) : (v.set base value).Over names := by
  rw [set_eq hv hb]
  split_ifs
  · exact hv
  · exact (hv.next hb).of_tables rfl rfl

/-! ## Loops -/

/-- **A part of a symbolic run that does what `step` does**, from every state over `names`. -/
structure Mirrors (ρ₀ ρ : M.Valuation) (names : List String) (run : Verification → Verification)
    (step : M.Valuation → Reached M) : Prop where
  path : ∀ v, (run v).path = v.path
  isOver : ∀ {v : Verification}, v.Over names → (run v).Over names
  simulates : ∀ {v : Verification}, v.Over names → Simulates ρ₀ ρ v (run v) step

/-- A symbolic loop and a loop on states with the same formulas and parts that do the same. -/
structure LoopRun.Mirrors (ρ₀ ρ : M.Valuation) (names : List String) (l : LoopRun) (e : LoopExec M) :
    Prop where
  lead : Verification.Mirrors ρ₀ ρ names l.lead e.lead
  body : Verification.Mirrors ρ₀ ρ names l.body e.body
  cond : l.cond = e.cond
  invariant : l.invariant = e.invariant
  variant : l.variant = e.variant
  tame : Tame names e.cond
  tameInvariant : ∀ f, e.invariant = some f → Tame names f
  tameVariant : ∀ f, e.variant = some f → Tame names f

/-- The test at which a loop is cut, after the lead. -/
def settle (l : LoopRun) (v : Verification) : Verification :=
  if (l.lead v).guard.isFalsity then l.lead v
  else
    ((l.lead v).obligeInvariant l (l.lead v).guard).require (.implies (l.lead v).guard
      (.not (((l.lead v).obligeInvariant l (l.lead v).guard).rename l.cond)))

section Loop

variable {l : LoopRun} {e : LoopExec M}

theorem path_obligeInvariant (v : Verification) (l : LoopRun) (g : Formula) :
    (v.obligeInvariant l g).path = v.path := by
  unfold obligeInvariant
  split <;> rfl

theorem guard_obligeInvariant (v : Verification) (l : LoopRun) (g : Formula) :
    (v.obligeInvariant l g).guard = v.guard := by
  unfold obligeInvariant
  split <;> rfl

theorem Over.obligeInvariant (hv : v.Over names) (l : LoopRun) (g : Formula) :
    (v.obligeInvariant l g).Over names := by
  unfold Verification.obligeInvariant
  split
  · exact hv.of_tables rfl rfl
  · exact hv

variable (hρ : Agree names ρ₀ ρ) (hl : l.Mirrors ρ₀ ρ names e)
include hρ hl

theorem simulates_obligeInvariant (hv : v.Over names) :
    Simulates ρ₀ ρ v (v.obligeInvariant l v.guard) fun σ => { state := σ, obliged := e.atTest σ } := by
  unfold obligeInvariant LoopExec.atTest
  rw [hl.invariant]
  cases hinv : e.invariant with
  | none => exact ⟨id, fun _ hg => Idles.refl.follows hg, fun _ _ => .refl⟩
  | some f =>
    refine simulates_oblige (M.Holds · f) (Model.holds_implies.trans (imp_congr_right fun _ => ?_))
    exact holds_rename hv (hl.tameInvariant f hinv) hρ

/-- The last test of a loop. -/
theorem simulates_settle (hv : v.Over names) :
    Simulates ρ₀ ρ v (settle l v) (e.exec 0) := by
  have hlead := hl.lead.simulates hv
  have hw := hl.lead.isOver hv
  unfold settle
  split_ifs with hfalse
  · have hstay : Simulates ρ₀ ρ (l.lead v) (l.lead v) fun σ => { state := σ } :=
      ⟨id, fun _ hg => Idles.refl.follows hg, fun _ _ => .refl⟩
    exact (hlead.andThen (hl.lead.path v) (hstay.of_isFalsity hfalse)).congr rfl
  · have hcut : M.Holds ρ (.implies (l.lead v).guard
          (.not (((l.lead v).obligeInvariant l (l.lead v).guard).rename l.cond))) ↔
        (M.Holds ρ ((l.lead v).obligeInvariant l (l.lead v).guard).guard →
          ¬ M.Holds (((l.lead v).obligeInvariant l (l.lead v).guard).read ρ₀ ρ) e.cond) := by
      rw [guard_obligeInvariant, hl.cond]
      refine Model.holds_implies.trans (imp_congr_right fun _ => Model.holds_not.trans (not_congr ?_))
      exact holds_rename (hw.obligeInvariant l _) hl.tame hρ
    have htest := (simulates_obligeInvariant hρ hl hw).andThen (path_obligeInvariant _ l _)
      (simulates_require (¬ M.Holds · e.cond) hcut)
    exact (hlead.andThen (hl.lead.path v) htest).congr (by simp [LoopExec.exec, Reached.andThen])

/-- One iteration, given what the rest of the loop does after its body. -/
theorem simulates_iteration (hv : v.Over names)
    {rest : Verification → Verification} {next : M.Valuation → Reached M}
    (hrest : ∀ {w : Verification}, w.Over names → Simulates ρ₀ ρ w (rest w) next) :
    Simulates ρ₀ ρ v (rest (v.iteration l v.guard)) fun σ =>
      Reached.andThen { state := σ, obliged := e.atTest σ } (branchExec e.cond (fun σ =>
        Reached.andThen { state := σ, obliged := e.beforeBody σ } fun σ =>
          (e.body σ).andThen fun τ =>
            Reached.andThen { state := τ, obliged := e.afterBody σ τ } next)
        fun σ => { state := σ }) := by
  have htest := simulates_obligeInvariant hρ hl hv
  have hw := hv.obligeInvariant l v.guard
  refine htest.andThen (path_obligeInvariant v l _) ?_
  set w := v.obligeInvariant l v.guard with hwdef
  have hcond : M.Holds ρ (w.rename l.cond) ↔ M.Holds (w.read ρ₀ ρ) e.cond := by
    rw [hl.cond]
    exact holds_rename hw hl.tame hρ
  have hunder : (w.under (w.rename l.cond)).Over names := hw.withPath _
  cases hvar : e.variant with
  | none =>
    have hrun := (hl.body.simulates hunder).andThen (hl.body.path _) (hrest (hl.body.isOver hunder))
    have heq : v.iteration l v.guard = l.body (w.under (w.rename l.cond)) := by
      simp only [iteration, hl.variant, hvar, hwdef]
    rw [heq]
    exact (simulates_under hcond hrun).congr
      (by simp [branchExec, LoopExec.beforeBody, LoopExec.afterBody, hvar])
  | some f =>
    have hf := hl.tameVariant f hvar
    set c := w.rename l.cond with hc
    set k : Formula := .implies (.all [v.guard, c]) (.binary .ge (w.rename f) (.int 0)) with hk
    have hbefore : M.Holds ρ k ↔
        (M.Holds ρ (w.under c).guard → M.le (M.int 0) (M.value ((w.under c).read ρ₀ ρ) f)) := by
      refine Model.holds_implies.trans (imp_congr ?_ ?_)
      · rw [holds_guard_under, hwdef, guard_obligeInvariant]
        simp [Model.Holds]
      · rw [Model.eval, Model.binary, M.holds_truth, Model.eval]
        exact iff_of_eq (congrArg (M.le (M.int 0)) (value_rename hw hf hρ))
    have hoblige := simulates_oblige (fun σ => M.le (M.int 0) (M.value σ f)) hbefore
    have hover : ((w.under c).oblige k).Over names := hunder.oblige k
    have hend := hl.body.isOver hover
    set u := l.body ((w.under c).oblige k) with hu
    have hafter : M.Holds ρ (.implies u.guard (.binary .lt (u.rename f) (w.rename f))) ↔
        (M.Holds ρ u.guard → M.lt (M.value (u.read ρ₀ ρ) f) (M.value (w.read ρ₀ ρ) f)) := by
      refine Model.holds_implies.trans (imp_congr_right fun _ => ?_)
      rw [Model.eval, Model.binary, M.holds_truth]
      exact iff_of_eq (congrArg₂ M.lt (value_rename hend hf hρ) (value_rename hw hf hρ))
    have hless := simulates_oblige (fun τ => M.lt (M.value τ f) (M.value (w.read ρ₀ ρ) f)) hafter
    have hrun := hoblige.andThen rfl ((hl.body.simulates hover).andThen (hl.body.path _)
      (hless.andThen rfl (hrest (hend.oblige _))))
    have heq : v.iteration l v.guard =
        u.oblige (.implies u.guard (.binary .lt (u.rename f) (w.rename f))) := by
      simp only [iteration, hl.variant, hvar, hwdef, hu, hk, hc]
      rfl
    rw [heq]
    exact (simulates_under hcond hrun).congr
      (by simp [branchExec, LoopExec.beforeBody, LoopExec.afterBody, hvar, Reached.andThen])

omit hρ in
theorem Over.iteration (hv : v.Over names) (g : Formula) :
    (v.iteration l g).Over names := by
  have hw := hv.obligeInvariant l g
  unfold Verification.iteration
  split
  · exact hl.body.isOver (hw.withPath _)
  · exact (hl.body.isOver ((hw.oblige _).withPath _)).oblige _

omit hρ in
theorem Over.iterate : ∀ (n : Nat) {v : Verification}, v.Over names →
    (iterate l n v).Over names
  | 0, _, hv => hv
  | n + 1, v, hv => by
    rw [Verification.iterate]
    split_ifs
    · exact hl.lead.isOver hv
    · exact Over.iterate n ((hl.lead.isOver hv).iteration hl _)

/-- **A loop run at most `n` times**, up to the condition of the branch. -/
theorem simulates_iterate : ∀ (n : Nat) {v : Verification}, v.Over names →
    Simulates ρ₀ ρ v (settle l (iterate l n v)) (e.exec n)
  | 0, v, hv => simulates_settle hρ hl hv
  | n + 1, v, hv => by
    have hlead := hl.lead.simulates hv
    have hw := hl.lead.isOver hv
    rw [iterate]
    split_ifs with hfalse
    · -- The loop is never reached: what is left of it does nothing.
      exact hlead.andThen (hl.lead.path v) ((simulates_settle hρ hl hw).of_isFalsity hfalse)
    · exact hlead.andThen (hl.lead.path v)
        (simulates_iteration hρ hl hw fun {w} hw' => simulates_iterate n hw')

omit hρ in
theorem Over.settle (hv : v.Over names) : (settle l v).Over names := by
  have hw := hl.lead.isOver hv
  unfold Verification.settle
  split_ifs
  · exact hw
  · exact (hw.obligeInvariant l _).of_tables rfl rfl

/-- **A symbolic loop does what the loop on states does.** -/
theorem mirrors_loop (n : Nat) :
    Mirrors ρ₀ ρ names (loop l n) (e.exec n) where
  path _ := rfl
  isOver hv := ((Over.iterate hl n hv).settle hl).withPath _
  simulates hv := (simulates_iterate hρ hl n hv).of_path _

end Loop

/-! ## Branches -/

theorem Mirrors.andThen {f g : Verification → Verification} {r s : M.Valuation → Reached M}
    (hf : Mirrors ρ₀ ρ names f r) (hg : Mirrors ρ₀ ρ names g s) :
    Mirrors ρ₀ ρ names (fun v => g (f v)) fun σ => (r σ).andThen s where
  path v := (hg.path _).trans (hf.path v)
  isOver hv := hg.isOver (hf.isOver hv)
  simulates {v} hv := (hf.simulates hv).andThen (hf.path v) (hg.simulates (hf.isOver hv))

/-- A branch: its second half is run under the negated condition, at the versions of the condition. -/
def branch (cond : Formula) (thn els : Verification → Verification) (v : Verification) :
    Verification :=
  { els { thn (v.under (v.rename cond)) with path := .all [v.path, .not (v.rename cond)] } with
    path := v.path }

/-- **A symbolic branch takes the half that the branch on states takes.** -/
theorem mirrors_branch {cond : Formula} {f g : Verification → Verification}
    {r s : M.Valuation → Reached M} (hρ : Agree names ρ₀ ρ) (hcond : Tame names cond)
    (hf : Mirrors ρ₀ ρ names f r) (hg : Mirrors ρ₀ ρ names g s) :
    Mirrors ρ₀ ρ names (branch cond f g) (branchExec cond r s) where
  path _ := rfl
  isOver hv := (hg.isOver ((hf.isOver (hv.withPath _)).withPath _)).withPath _
  simulates {v} hv := by
    have hc := holds_rename hv hcond hρ
    have hunder : (v.under (v.rename cond)).Over names := hv.withPath _
    have h₁ := hf.simulates hunder
    set w : Verification :=
      { f (v.under (v.rename cond)) with path := .all [v.path, .not (v.rename cond)] } with hw
    have h₂ := hg.simulates ((hf.isOver hunder).withPath (.all [v.path, .not (v.rename cond)]))
    have hpath : M.Holds ρ w.path ↔ M.Holds ρ v.path ∧ ¬ M.Holds (v.read ρ₀ ρ) cond := by
      rw [← hc]
      simp [hw, Model.Holds]
    have hthen := simulates_under hc (h₁.of_path (.all [v.path, .not (v.rename cond)]))
    refine Simulates.of_path ⟨fun hd => hthen.keeps (h₂.keeps hd), fun hd hguard => ?_,
      fun hd hguard => ?_⟩ _
    · have hfirst := hthen.reached (h₂.keeps hd) hguard
      unfold branchExec at hfirst ⊢
      split_ifs at hfirst ⊢ with hholds
      · have hidle := h₂.skipped hd fun hg => (hpath.mp (holds_guard.mp hg).1).2 hholds
        exact ⟨hidle.state.trans hfirst.state, hidle.done.trans hfirst.done,
          hidle.allowed.trans hfirst.allowed, hidle.met.trans hfirst.met⟩
      · have hreached : M.Holds ρ w.guard := holds_guard.mpr
          ⟨hpath.mpr ⟨(holds_guard.mp hguard).1, hholds⟩, mt hfirst.done.mp Bool.false_ne_true⟩
        have hsecond := h₂.reached hd hreached
        rw [hfirst.state] at hsecond
        refine ⟨hsecond.state, hsecond.done, ?_, ?_⟩
        · rw [hsecond.allowed, hfirst.allowed]
          simp
        · rw [hsecond.met, hfirst.met]
          simp
    · have hfirst := hthen.skipped (h₂.keeps hd) hguard
      refine hfirst.trans (h₂.skipped hd fun hg => hguard (holds_guard.mpr ?_))
      obtain ⟨hp, hd'⟩ := holds_guard.mp hg
      exact ⟨(hpath.mp hp).1, mt hfirst.done.mpr hd'⟩

/-! ## Statements -/

theorem Mirrors.of_eq {f f' : Verification → Verification} {r r' : M.Valuation → Reached M}
    (h : Mirrors ρ₀ ρ names f r) (hf : ∀ v, f' v = f v) (hr : ∀ σ, r' σ = r σ) :
    Mirrors ρ₀ ρ names f' r' := by
  obtain rfl : f' = f := funext hf
  obtain rfl : r' = r := funext hr
  exact h

/-- Setting a variable to what `a` makes of the state. -/
theorem mirrors_set (hb : base ∈ names)
    (value : Verification → String → String → Formula) (a : M.Valuation → M.Value)
    (hval : ∀ {v : Verification}, v.Over names →
      (M.Holds ρ (value v (v.current base) (v.upcoming base)) ↔
        ρ (v.upcoming base) = a (v.read ρ₀ ρ))) :
    Mirrors ρ₀ ρ names (fun v => v.set base (value v))
      fun σ => { state := Function.update σ base (a σ) } where
  path v := path_set v base (value v)
  isOver {v} hv := hv.set hb (value v)
  simulates hv := simulates_set hv hb a (hval hv)

theorem mirrors_assign (hb : base ∈ names) {e : Formula} (he : Tame names e)
    (hρ : Agree names ρ₀ ρ) :
    Mirrors ρ₀ ρ names (fun v => v.assign base (v.rename e))
      fun σ => { state := Function.update σ base (M.value σ e) } := by
  refine mirrors_set hb (fun v _ new => .eq (.ident new) (v.rename e)) (M.value · e) fun hv => ?_
  refine Model.holds_eq.trans ?_
  rw [Model.eval]
  exact iff_of_eq (congrArg (_ = ·) (value_rename hv he hρ))

theorem mirrors_exit : Mirrors ρ₀ ρ names exit fun σ => { state := σ, ended := true } where
  path _ := rfl
  isOver hv := hv.of_tables rfl rfl
  simulates _ := simulates_exit

end Verification

open Verification

variable {M : Model} {names : List String} {ρ₀ ρ : M.Valuation}

mutual

/-- **A symbolic run of a statement does what the statement does on states.** -/
theorem mirrors_run (n : Nat) (hρ : Agree names ρ₀ ρ) (s : Stmt)
    (hs : ∀ t ∈ s.walk, Named names (Computes M) t) : Mirrors ρ₀ ρ names (run n s) (exec M n s) := by
  have h := hs s (mem_walk_self s)
  cases s with
  | assign target value =>
    exact (mirrors_assign (h.target _ rfl) (h.formulas value (by simp [ownFormulas])) hρ).of_eq
      (fun v => by rw [run]) fun σ => by rw [exec]
  | update field object value =>
    refine (mirrors_set (h.target _ rfl) _ (fun σ => M.override (σ field)
      (M.product (M.value σ object) (M.value σ value))) fun {v} hv => ?_).of_eq
      (fun v => by rw [run]) fun σ => by rw [exec]
    refine Model.holds_eq.trans ?_
    simp only [Model.eval, Model.binary]
    rw [hv.read_of_mem ρ₀ ρ (h.target _ rfl),
      ← value_rename hv (h.formulas object (by simp [ownFormulas])) hρ,
      ← value_rename hv (h.formulas value (by simp [ownFormulas])) hρ]
  | compute target pred args =>
    refine (mirrors_set (h.target _ rfl) _ (fun σ => result M pred (args.map (M.value σ)))
      fun {v} hv => ?_).of_eq (fun v => by rw [run]) fun σ => by rw [exec]
    have hargs : (args.map v.rename).map (M.value ρ) = args.map (M.value (v.read ρ₀ ρ)) := by
      rw [map_map]
      exact map_congr_left fun a ha => value_rename hv (h.formulas a ha) hρ
    rw [Model.Holds, Model.value, Model.eval, Model.evalAll_eq_map, map_append,
      map_singleton, Model.eval, ← hargs]
    exact holds_call_iff (by simpa using h.computed _ _ _ rfl) _
  | branch cond thn els =>
    rw [Stmt.walk, forall_mem_cons, forall_mem_append] at hs
    obtain ⟨-, hthn, hels⟩ := hs
    exact (mirrors_branch hρ (h.formulas cond (by simp [ownFormulas])) (mirrors_runAll n hρ thn hthn)
      (mirrors_runAll n hρ els hels)).of_eq (fun v => by rw [run, branch]) fun σ => by rw [exec]
  | loop lead cond invariant variant body =>
    rw [Stmt.walk, forall_mem_cons, forall_mem_append] at hs
    obtain ⟨-, hlead, hbody⟩ := hs
    have hl : LoopRun.Mirrors ρ₀ ρ names ⟨runAll n lead, runAll n body, cond, invariant, variant⟩
        ⟨execAll M n lead, execAll M n body, cond, invariant, variant⟩ :=
      { lead := mirrors_runAll n hρ lead hlead
        body := mirrors_runAll n hρ body hbody
        cond := rfl
        invariant := rfl
        variant := rfl
        tame := h.formulas cond (by simp [ownFormulas])
        tameInvariant := fun f hf => h.formulas f (by simp_all [ownFormulas])
        tameVariant := fun f hf => h.formulas f (by simp_all [ownFormulas]) }
    exact (mirrors_loop hρ hl n).of_eq (fun v => by rw [run]) fun σ => by rw [exec]
  | assert cond =>
    have hm : Mirrors ρ₀ ρ names (fun v => v.oblige (.implies v.guard (v.rename cond)))
        fun σ => { state := σ, obliged := [M.Holds σ cond] } :=
      ⟨fun _ => rfl, fun hv => hv.oblige _, fun hv => simulates_oblige (M.Holds · cond)
        (Model.holds_implies.trans (imp_congr_right fun _ =>
          holds_rename hv (h.formulas cond (by simp [ownFormulas])) hρ))⟩
    exact hm.of_eq (fun v => by rw [run]) fun σ => by rw [exec]
  | assume cond =>
    have hm : Mirrors ρ₀ ρ names (fun v => v.require (.implies v.guard (v.rename cond)))
        fun σ => { state := σ, assumed := [M.Holds σ cond] } :=
      ⟨fun _ => rfl, fun hv => hv.of_tables rfl rfl, fun hv => simulates_require (M.Holds · cond)
        (Model.holds_implies.trans (imp_congr_right fun _ =>
          holds_rename hv (h.formulas cond (by simp [ownFormulas])) hρ))⟩
    exact hm.of_eq (fun v => by rw [run]) fun σ => by rw [exec]
  | ret value =>
    cases value with
    | none => exact mirrors_exit.of_eq (fun v => by rw [run]) fun σ => by rw [exec]
    | some value =>
      exact ((mirrors_assign (h.target _ rfl) (h.formulas value (by simp [ownFormulas])) hρ).andThen
        mirrors_exit).of_eq (fun v => by rw [run]) fun σ => by rw [exec, Reached.andThen_pure]
  | raise exception =>
    have hset : Mirrors ρ₀ ρ names (fun v => v.assign "throw" (.ident exception))
        fun σ => { state := Function.update σ "throw" (σ exception) } := by
      refine mirrors_set (h.target _ rfl) (fun _ _ new => .eq (.ident new) (.ident exception))
        (· exception) fun hv => Model.holds_eq.trans ?_
      obtain ⟨hundeclared, hversion⟩ := h.thrown exception rfl
      rw [Model.eval, Model.eval, hv.read_of_not_mem ρ₀ ρ hundeclared, hρ exception hversion]
    exact (hset.andThen mirrors_exit).of_eq (fun v => by rw [run])
      fun σ => by rw [exec, Reached.andThen_pure]

/-- **A symbolic run of a body does what the body does on states.** -/
theorem mirrors_runAll (n : Nat) (hρ : Agree names ρ₀ ρ) : ∀ ss : List Stmt,
    NamedAll names (Computes M) ss → Mirrors ρ₀ ρ names (runAll n ss) (execAll M n ss)
  | [], _ => by
    have hm : Mirrors ρ₀ ρ names id fun σ => { state := σ } :=
      ⟨fun _ => rfl, id, fun _ => ⟨id, fun _ hg => Idles.refl.follows hg, fun _ _ => .refl⟩⟩
    exact hm.of_eq (fun v => by rw [runAll, id]) fun σ => by rw [execAll]
  | s :: ss, hs => by
    rw [NamedAll, Stmt.walkAll, forall_mem_append] at hs
    refine ((mirrors_run n hρ s hs.1).andThen (mirrors_runAll n hρ ss hs.2)).of_eq
      (fun v => ?_) fun σ => ?_
    · rw [runAll]
    · rw [execAll]

end

end Relspec.Spec
