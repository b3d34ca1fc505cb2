import Mathlib.Logic.ExistsUnique
import Mathlib.Logic.Function.Basic
import Relspec.Proofs.Spec.BoundedRun
import Relspec.Proofs.Spec.Steps

/-!
# Proofs/Spec/Definitions — the definitions of a symbolic run have one solution

Each version is defined by versions before it.  So values of the versions at the start determine the
values of all others, whatever the run assumes besides.

* `holds_definition` — the definition of a version holds of one value;
* `step_determined` — a step keeps this true of all versions together, and `steps_determined` — so do
  several.
-/

namespace Relspec.Spec

variable {M : Model}

/-- **A predicate computes** when it holds of one last argument, whatever the `n` arguments before it. -/
def Computes (M : Model) (pred : String) (n : Nat) : Prop :=
  ∀ vs : List M.Value, vs.length = n → ∃! r, M.holds (M.call pred (vs ++ [r]))

/-- The predicates of integer operations compute. -/
theorem computes_predicate (M : Model) (op : ArithOp) : Computes M op.predicate 2 := by
  intro vs hlen
  obtain ⟨a, b, rfl⟩ := List.length_eq_two.mp hlen
  refine ⟨M.call op.function [a, b], (M.arithPred op a b _).mpr rfl, fun r hr => ?_⟩
  exact (M.arithPred op a b r).mp hr

/-- A predicate that computes holds of its result alone. -/
theorem holds_call_iff {pred : String} {vs : List M.Value} (h : Computes M pred vs.length)
    (r : M.Value) : M.holds (M.call pred (vs ++ [r])) ↔ r = result M pred vs := by
  obtain ⟨r₀, hr₀, huniq⟩ := h vs rfl
  have hresult : M.holds (M.call pred (vs ++ [result M pred vs])) :=
    Classical.epsilon_spec (p := fun r => M.holds (M.call pred (vs ++ [r]))) ⟨r₀, hr₀⟩
  refine ⟨fun hr => ?_, fun hr => hr ▸ hresult⟩
  rw [huniq r hr, huniq _ hresult]

namespace Verification

variable {names : List String} {v w : Verification}

/-! ## One definition -/

/-- What depends only on names that are no versions to come. -/
def Local (names : List String) (v : Verification) {α : Type} (F : M.Valuation → α) : Prop :=
  ∀ ρ ρ' : M.Valuation, (∀ x, ¬ v.Future names x → ρ x = ρ' x) → F ρ = F ρ'

theorem Settled.local_value {f : Formula} (h : v.Settled names f) :
    v.Local names fun ρ : M.Valuation => M.value ρ f := fun _ _ hρ =>
  Model.eval_congr fun x hx => ⟨hρ x (h x hx), hρ x (h x hx)⟩

theorem local_current (v : Verification) (base : String) :
    v.Local names fun ρ : M.Valuation => ρ (v.current base) := fun _ _ hρ =>
  hρ _ (not_future_versioned (Nat.le_refl _))

/-- What a version is set to depends on the versions before it. -/
theorem exists_value {value : String → String → Formula}
    (h : (settling names (Computes M)).Setting v value) (base : String) :
    ∃ F : M.Valuation → M.Value, v.Local names F ∧ ∀ ρ : M.Valuation,
      M.Holds ρ (value (v.current base) (v.upcoming base)) ↔ ρ (v.upcoming base) = F ρ := by
  cases h with
  | @assign e he =>
    refine ⟨fun ρ => M.value ρ e, he.local_value, fun ρ => ?_⟩
    rw [Model.Holds, Model.value, Model.holds_eq, Model.eval]
  | @update object value ho hx =>
    refine ⟨fun ρ => M.override (ρ (v.current base)) (M.product (M.value ρ object) (M.value ρ value)),
      fun ρ ρ' hρ => ?_, fun ρ => ?_⟩
    · have hold : ρ (v.current base) = ρ' (v.current base) := local_current v base ρ ρ' hρ
      have hobject : M.value ρ object = M.value ρ' object := ho.local_value ρ ρ' hρ
      have hvalue : M.value ρ value = M.value ρ' value := hx.local_value ρ ρ' hρ
      simp only [hold, hobject, hvalue]
    · simp only [Model.Holds, Model.value, Model.holds_eq, Model.eval, Model.binary]
  | @compute pred args hp ha =>
    refine ⟨fun ρ => result M pred (args.map (M.value ρ)), fun ρ ρ' hρ => ?_, fun ρ => ?_⟩
    · refine congrArg (result M pred) (List.map_congr_left fun a h => ?_)
      exact (ha a h).local_value ρ ρ' hρ
    · rw [Model.Holds, Model.value, Model.eval, Model.evalAll_eq_map, List.map_append,
        List.map_singleton, Model.eval]
      exact holds_call_iff (by rwa [List.length_map]) _

theorem holds_choose {g thn els : Formula} {ρ : M.Valuation} :
    M.Holds ρ (choose g thn els) ↔
      (M.Holds ρ g → M.Holds ρ thn) ∧ (¬ M.Holds ρ g → M.Holds ρ els) := by
  unfold choose
  split_ifs with hg
  · have h : M.Holds ρ g := Model.holds_of_isTruth hg
    exact ⟨fun ht => ⟨fun _ => ht, absurd h⟩, fun ht => ht.1 h⟩
  · rw [Model.Holds, Model.value, Model.eval, Model.cond]
    split_ifs with h
    · exact ⟨fun ht => ⟨fun _ => ht, absurd h⟩, fun ht => ht.1 h⟩
    · exact ⟨fun he => ⟨fun h' => absurd h' h, fun _ => he⟩, fun he => he.2 h⟩

open Classical in
/-- **The definition of a version holds of one value**, which the versions before it determine. -/
theorem holds_definition {value : String → String → Formula} (hv : (settling names (Computes M)).Keeps v) (base : String)
    (h : (settling names (Computes M)).Setting v value) :
    ∃ G : M.Valuation → M.Value, v.Local names G ∧ ∀ ρ : M.Valuation,
      M.Holds ρ (v.definition base value) ↔ ρ (v.upcoming base) = G ρ := by
  obtain ⟨F, hF, hval⟩ := exists_value h base
  refine ⟨fun ρ => if M.Holds ρ v.guard then F ρ else ρ (v.current base), fun ρ ρ' hρ => ?_,
    fun ρ => ?_⟩
  · have hguard : M.Holds ρ v.guard = M.Holds ρ' v.guard :=
      congrArg M.holds ((hv.guard (lawful_settling ..)).local_value ρ ρ' hρ)
    have hold : ρ (v.current base) = ρ' (v.current base) := local_current v base ρ ρ' hρ
    simp only [hguard, hF ρ ρ' hρ, hold]
  · rw [definition, holds_choose, hval]
    have helse : M.Holds ρ (.eq (.ident (v.upcoming base)) (.ident (v.current base))) ↔
        ρ (v.upcoming base) = ρ (v.current base) := by
      rw [Model.Holds, Model.value, Model.holds_eq, Model.eval, Model.eval]
    rw [helse]
    dsimp only
    split_ifs with hg
    · exact ⟨fun h => h.1 hg, fun h => ⟨fun _ => h, absurd hg⟩⟩
    · exact ⟨fun h => h.2 hg, fun h => ⟨fun h' => absurd h' hg, fun _ => h⟩⟩

/-! ## All definitions together -/

/-- Whether a valuation satisfies the transitions that define versions. -/
def Defined (v : Verification) (M : Model) (ρ : M.Valuation) : Prop :=
  ∀ t ∈ v.transitions, t.defines.isSome = true → M.Holds ρ t.formula

/-- A version that a run has made; the versions at the start are numbered zero. -/
def Made (names : List String) (v : Verification) (x : String) : Prop :=
  ∃ b ∈ names, ∃ n, 0 < n ∧ n ≤ v.version b ∧ x = versioned b n

/-- **A valuation that satisfies the definitions** and gives every name but the versions made the value
that it has in `ρ₀`. -/
structure Solves (names : List String) (v : Verification) {M : Model} (ρ₀ ρ : M.Valuation) :
    Prop where
  agrees : ∀ x, ¬ v.Made names x → ρ x = ρ₀ x
  defined : v.Defined M ρ

/-- **The definitions determine the versions made.** -/
def Determined (names : List String) (v : Verification) (M : Model) : Prop :=
  ∀ ρ₀ : M.Valuation, ∃! ρ, v.Solves names ρ₀ ρ

/-- A state with the same versions and definitions has the same solutions. -/
theorem Determined.of_same (hd : v.Determined names M) (hver : ∀ b, w.version b = v.version b)
    (hdef : ∀ ρ : M.Valuation, w.Defined M ρ ↔ v.Defined M ρ) : w.Determined names M := by
  have hsolves : ∀ ρ₀ ρ : M.Valuation, w.Solves names ρ₀ ρ ↔ v.Solves names ρ₀ ρ := by
    intro ρ₀ ρ
    have hmade : ∀ x, w.Made names x ↔ v.Made names x := fun x => by simp only [Made, hver]
    exact ⟨fun h => ⟨fun x hx => h.agrees x (mt (hmade x).mp hx), (hdef ρ).mp h.defined⟩,
      fun h => ⟨fun x hx => h.agrees x (mt (hmade x).mpr hx), (hdef ρ).mpr h.defined⟩⟩
  intro ρ₀
  simpa only [hsolves] using hd ρ₀

/-- The versions made, once the next one is. -/
theorem made_next_iff {base x : String} (hb : base ∈ names) :
    (v.next base).Made names x ↔ v.Made names x ∨ x = v.upcoming base := by
  constructor
  · rintro ⟨b, hb', n, hpos, hn, rfl⟩
    by_cases h : b = base
    · subst h
      rw [version_next_self] at hn
      rcases Nat.lt_or_ge (v.version b) n with hlt | hge
      · exact .inr (by rw [upcoming, Nat.le_antisymm hn hlt])
      · exact .inl ⟨b, hb', n, hpos, hge, rfl⟩
    · rw [version_next_of_ne v h] at hn
      exact .inl ⟨b, hb', n, hpos, hn, rfl⟩
  · rintro (⟨b, hb', n, hpos, hn, rfl⟩ | rfl)
    · exact ⟨b, hb', n, hpos, Nat.le_trans hn (version_le_next v base b), rfl⟩
    · exact ⟨base, hb, _, Nat.succ_pos _, Nat.le_of_eq (version_next_self v base).symm, rfl⟩

/-- The definitions so far do not depend on a version to come. -/
theorem defined_congr (hv : (settling names (Computes M)).Keeps v) {ρ ρ' : M.Valuation}
    (h : ∀ x, ¬ v.Future names x → ρ x = ρ' x) : v.Defined M ρ ↔ v.Defined M ρ' := by
  refine forall_congr' fun t => forall_congr' fun ht => forall_congr' fun _ => ?_
  exact iff_of_eq (congrArg M.holds ((hv.transitions t ht).local_value ρ ρ' h))

/-- **Making a version keeps the versions determined.** -/
theorem Determined.next {base : String} {value : String → String → Formula} (hv : (settling names (Computes M)).Keeps v)
    (hb : base ∈ names) (hval : (settling names (Computes M)).Setting v value) (hd : v.Determined names M) :
    ((v.next base).define (v.upcoming base) (v.definition base value)).Determined names M := by
  obtain ⟨G, hG, hholds⟩ := holds_definition hv base hval
  have hdefined : ∀ ρ : M.Valuation,
      ((v.next base).define (v.upcoming base) (v.definition base value)).Defined M ρ ↔
        v.Defined M ρ ∧ ρ (v.upcoming base) = G ρ := by
    intro ρ
    rw [← hholds ρ]
    simp [Defined, define, Verification.next, or_imp, forall_and]
  have hoff : ∀ (ρ : M.Valuation) (a : M.Value) (x : String), ¬ v.Future names x →
      Function.update ρ (v.upcoming base) a x = ρ x := by
    intro ρ a x hx
    have hne : x ≠ v.upcoming base := by
      rintro rfl
      exact hx ⟨base, hb, _, Nat.lt_succ_self _, rfl⟩
    rw [Function.update_of_ne hne]
  intro ρ₀
  obtain ⟨ρ, hρ, huniq⟩ := hd ρ₀
  refine ⟨Function.update ρ (v.upcoming base) (G ρ), ⟨fun x hx => ?_, ?_⟩, fun τ hτ => ?_⟩
  · obtain ⟨hmade, hne⟩ := not_or.mp (mt (made_next_iff hb).mpr hx)
    rw [Function.update_of_ne hne, hρ.agrees x hmade]
  · refine (hdefined _).mpr ⟨(defined_congr hv (hoff ρ (G ρ))).mpr hρ.defined, ?_⟩
    rw [Function.update_self, hG _ _ (hoff ρ (G ρ))]
  · obtain ⟨hdef, hnew⟩ := (hdefined τ).mp hτ.defined
    -- Without the new version `τ` solves the definitions before it, so it is `ρ` there.
    have hsolves : v.Solves names ρ₀
        (Function.update τ (v.upcoming base) (ρ₀ (v.upcoming base))) := by
      refine ⟨fun x hx => ?_, (defined_congr hv (hoff τ _)).mpr hdef⟩
      by_cases hne : x = v.upcoming base
      · rw [hne, Function.update_self]
      · rw [Function.update_of_ne hne]
        exact hτ.agrees x (mt (made_next_iff hb).mp (not_or.mpr ⟨hx, hne⟩))
    have hback := huniq _ hsolves
    funext x
    by_cases hne : x = v.upcoming base
    · rw [hne, Function.update_self, hnew, ← hback, hG _ _ (hoff τ _)]
    · rw [Function.update_of_ne hne, ← hback, Function.update_of_ne hne]

/-- **A step keeps the versions determined.** -/
theorem step_determined {es : List Entry} (h : (settling names (Computes M)).Step v es w)
    (hv : (settling names (Computes M)).Keeps v) (hd : v.Determined names M) : w.Determined names M := by
  cases h with
  | set hb hval hguard =>
    rw [set_eq hv.tables hb, if_neg hguard]
    exact hd.next hv hb hval
  | require =>
    refine hd.of_same (fun _ => rfl) fun ρ => ?_
    simp [Defined, Verification.require, or_imp, forall_and]
  | oblige | exit | path => exact hd.of_same (fun _ => rfl) fun ρ => Iff.rfl

theorem steps_determined {es : List Entry} (h : (settling names (Computes M)).Steps v es w)
    (hv : (settling names (Computes M)).Keeps v) (hd : v.Determined names M) :
    (settling names (Computes M)).Keeps w ∧ w.Determined names M := by
  induction h with
  | refl => exact ⟨hv, hd⟩
  | tail _ hstep ih => exact ⟨(hstep.keeps (lawful_settling ..) ih.1).1, step_determined hstep ih.1 ih.2⟩

end Verification

end Relspec.Spec
