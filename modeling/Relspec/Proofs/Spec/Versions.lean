import Mathlib.Data.List.Basic
import Relspec.Proofs.Formula.Meaning
import Relspec.Proofs.Text.Number
import Relspec.Spec.Verification

/-!
# Proofs/Spec/Versions — the versions of variables

Names keep their versions apart: a version determines its variable and its number.  A formula over the
current versions says of a valuation of all versions what the formula over the variables says of the
state that the valuation reads there, as long as no quantifier binds a version.

* `versioned_inj` — a version is the version of one variable;
* `value_rename` — the value of a formula over current versions;
* `settled_rename` — such a formula mentions no version that is still to come.
-/

namespace Relspec.Spec

/-! ## Names of versions -/

theorem toList_versioned (base : String) (n : Nat) :
    (versioned base n).toList = base.toList ++ '_' :: Nat.toDigits 10 n := by
  simp [versioned, Nat.toString_eq_repr]

/-- Texts that end in a mark and something without the mark are equal only part by part. -/
theorem append_mark_inj {c : Char} {a a' d d' : List Char} (hd : c ∉ d) (hd' : c ∉ d')
    (h : a ++ c :: d = a' ++ c :: d') : a = a' ∧ d = d' := by
  have hrev : d.reverse ++ c :: a.reverse = d'.reverse ++ c :: a'.reverse := by
    simpa using congrArg List.reverse h
  rcases List.append_eq_append_iff.mp hrev with ⟨l, h₁, h₂⟩ | ⟨l, h₁, h₂⟩
  · cases l with
    | nil => simp_all
    | cons b l =>
      obtain ⟨rfl, -⟩ := List.cons.inj h₂
      exact absurd (List.mem_reverse.mp (h₁ ▸ by simp)) hd'
  · cases l with
    | nil => simp_all
    | cons b l =>
      obtain ⟨rfl, -⟩ := List.cons.inj h₂
      exact absurd (List.mem_reverse.mp (h₁ ▸ by simp)) hd

/-- **A version is the version of one variable.** -/
theorem versioned_inj {b b' : String} {n n' : Nat} (h : versioned b n = versioned b' n') :
    b = b' ∧ n = n' := by
  have hl := congrArg String.toList h
  rw [toList_versioned, toList_versioned] at hl
  obtain ⟨hb, hn⟩ :=
    append_mark_inj Nat.underscore_not_in_toDigits Nat.underscore_not_in_toDigits hl
  exact ⟨String.toList_inj.mp hb, Text.toDigits_inj hn⟩

/-- A name of the form of a version of one of `names`. -/
def IsVersion (names : List String) (x : String) : Prop := ∃ b ∈ names, ∃ n, x = versioned b n

/-- A name of the form of a version of one of `names` that a run has to make. -/
def IsLater (names : List String) (x : String) : Prop := ∃ b ∈ names, ∃ n, 0 < n ∧ x = versioned b n

/-- A name without the mark that versions have is no version. -/
theorem not_isVersion {names : List String} {x : String} (h : '_' ∉ x.toList) :
    ¬ IsVersion names x := by
  rintro ⟨b, -, n, rfl⟩
  exact h (by simp [toList_versioned])

/-- **A formula over `names`**: what it quantifies is no version of them, and neither is what else it
mentions. -/
structure Tame (names : List String) (e : Formula) : Prop where
  binders : ∀ x ∈ e.binders, ¬ IsVersion names x
  free : ∀ x ∈ e.freeNames, x ∈ names ∨ ¬ IsVersion names x

namespace Verification

/-! ## The state that a valuation of the versions reads -/

/-- The declared variables are `names`. -/
structure Over (names : List String) (v : Verification) : Prop where
  shapes : ∀ x, v.shapes.contains x = true ↔ x ∈ names
  versions : ∀ x, v.versions.contains x = true ↔ x ∈ names

/-- **The state that a valuation `ρ` of the versions gives**: declared variables have the values of their
current versions, other names those of `ρ₀`. -/
def read {α : Type} (v : Verification) (ρ₀ ρ : String → α) : String → α :=
  fun x => if v.versions.contains x then ρ (v.current x) else ρ₀ x

/-- Two valuations that differ at most on versions of `names`. -/
def Agree (names : List String) {α : Type} (ρ₀ ρ : String → α) : Prop :=
  ∀ x, ¬ IsVersion names x → ρ x = ρ₀ x

variable {names : List String} {v w : Verification}
variable {α : Type} {x : String} {M : Model} {e : Formula} {ρ₀ ρ : M.Valuation}

theorem find?_currents (v : Verification) (x : String) :
    (v.currents.map Formula.ident).find? x =
      if v.versions.contains x then some (.ident (v.current x)) else none := by
  rw [Table.find?_map, currents, Table.find?, Table.lookup_map_entries]
  change ((v.versions.find? x).map _).map _ = _
  rw [Table.contains, current, version]
  cases v.versions.find? x <;> rfl

theorem Over.read_of_mem (hv : v.Over names) (ρ₀ ρ : String → α) (h : x ∈ names) :
    v.read ρ₀ ρ x = ρ (v.current x) := if_pos ((hv.versions x).mpr h)

theorem Over.read_of_not_mem (hv : v.Over names) (ρ₀ ρ : String → α) (h : x ∉ names) :
    v.read ρ₀ ρ x = ρ₀ x := if_neg (mt (hv.versions x).mp h)

/-- **The value of a formula over the current versions** is its value in the state that they give. -/
theorem value_rename (hv : v.Over names) (he : Tame names e) (hρ : Agree names ρ₀ ρ) :
    M.value ρ (v.rename e) = M.value (v.read ρ₀ ρ) e := by
  have hadmits : e.Admits (v.currents.map .ident) [] := by
    refine Formula.admits_of_binders [] e fun x hx y f hf hxf => he.binders x (by simpa using hx) ?_
    rw [find?_currents] at hf
    split_ifs at hf with hy
    obtain rfl := Option.some.inj hf
    have hxy : x = v.current y := by
      simpa [Formula.mem_freeNames, Formula.occurrences] using hxf
    exact ⟨y, (hv.versions y).mp hy, v.version y, hxy⟩
  have hread : ∀ x ∈ e.freeNames,
      Model.updated (v.currents.map .ident) ρ ρ x = v.read ρ₀ ρ x := by
    intro x hx
    rw [Model.updated, find?_currents, read]
    split_ifs with hdeclared
    · simp [Model.eval]
    · have hmem : x ∉ names := mt (hv.versions x).mpr hdeclared
      simpa using hρ x ((he.free x hx).resolve_left hmem)
  rw [rename, Formula.rename, Model.value, Model.eval_substitute ρ ρ hadmits]
  exact Model.eval_congr fun x hx => ⟨hread x hx, hread x hx⟩

theorem holds_rename (hv : v.Over names) (he : Tame names e) (hρ : Agree names ρ₀ ρ) :
    M.Holds ρ (v.rename e) ↔ M.Holds (v.read ρ₀ ρ) e :=
  iff_of_eq (congrArg M.holds (value_rename hv he hρ))

/-! ## Versions still to come -/

/-- A version that has not been made yet. -/
def Future (names : List String) (v : Verification) (x : String) : Prop :=
  ∃ b ∈ names, ∃ n, v.version b < n ∧ x = versioned b n

theorem isLater_of_future : v.Future names x → IsLater names x :=
  fun ⟨b, hb, n, hn, hx⟩ => ⟨b, hb, n, Nat.zero_lt_of_lt hn, hx⟩

/-- **A formula that mentions no version still to come.** -/
def Settled (names : List String) (v : Verification) (f : Formula) : Prop :=
  ∀ x ∈ f.freeNames, ¬ v.Future names x

theorem Settled.mono {f : Formula} (h : v.Settled names f)
    (hle : ∀ b ∈ names, v.version b ≤ w.version b) : w.Settled names f := by
  rintro x hx ⟨b, hb, n, hn, rfl⟩
  exact h _ hx ⟨b, hb, n, Nat.lt_of_le_of_lt (hle b hb) hn, rfl⟩

/-- A version that has been made is not to come. -/
theorem not_future_versioned {b : String} {n : Nat} (h : n ≤ v.version b) :
    ¬ v.Future names (versioned b n) := by
  rintro ⟨b', -, n', hn', heq⟩
  obtain ⟨rfl, rfl⟩ := versioned_inj heq
  omega

/-- A formula over the current versions is settled. -/
theorem settled_rename (hv : v.Over names) (he : ∀ x ∈ e.freeNames, x ∈ names ∨ ¬ IsLater names x) :
    v.Settled names (v.rename e) := by
  intro x hx
  rcases Formula.mem_freeNames_substitute hx with ⟨hfree, hnone⟩ | ⟨y, -, f, hf, hxf⟩
  · rw [find?_currents] at hnone
    have hundeclared : x ∉ names := by
      intro hmem
      rw [if_pos ((hv.versions x).mpr hmem)] at hnone
      cases hnone
    exact mt isLater_of_future ((he x hfree).resolve_left hundeclared)
  · rw [find?_currents] at hf
    split_ifs at hf with hy
    obtain rfl := Option.some.inj hf
    obtain rfl : x = v.current y := by
      simpa [Formula.mem_freeNames, Formula.occurrences] using hxf
    exact not_future_versioned (Nat.le_refl _)

end Verification

end Relspec.Spec
