import Relspec.Proofs.Spec.Discipline
import Relspec.Proofs.Spec.Versions

/-!
# Proofs/Spec/Steps — versions are defined by versions before them

What a step of a symbolic run adds never mentions a version still to come, so that each version is defined
by the versions before it.

* `set_eq` — what setting a declared variable does;
* `settling` — the discipline of formulas that are settled, and `lawful_settling`;
* `NamedAll.allowsAll` — bodies over declared variables keep to it.
-/

namespace Relspec.Spec

open Relational (Stmt)
open Formula (mem_freeNames occurrences)

/-! ## Statements over declared variables -/

/-- **A statement over the variables `names`**: it sets only these, its formulas are over them, and the
exceptions that it throws are neither variables nor versions of variables.  `computes` says which
predicates with how many arguments compute a value. -/
structure Named (names : List String) (computes : String → Nat → Prop) (s : Stmt) : Prop where
  target : ∀ x, ownTarget s = some x → x ∈ names
  formulas : ∀ f ∈ ownFormulas s, Tame names f
  thrown : ∀ e, s.thrown? = some e → e ∉ names ∧ ¬ IsVersion names e
  computed : ∀ target pred args, s = .compute target pred args → computes pred args.length

/-- A body over the variables `names`, at any depth. -/
def NamedAll (names : List String) (computes : String → Nat → Prop) (body : List Stmt) : Prop :=
  ∀ s ∈ Stmt.walkAll body, Named names computes s

namespace Verification

variable {names : List String} {v w : Verification}

/-! ## Making a version -/

@[simp] theorem version_next_self (v : Verification) (base : String) :
    (v.next base).version base = v.version base + 1 := by
  simp [next, version]

theorem version_next_of_ne (v : Verification) {base x : String} (h : x ≠ base) :
    (v.next base).version x = v.version x := by
  simp [next, version, Table.find?_insert_of_ne _ h]

theorem version_le_next (v : Verification) (base x : String) :
    v.version x ≤ (v.next base).version x := by
  by_cases h : x = base
  · rw [h, version_next_self]
    omega
  · exact Nat.le_of_eq (version_next_of_ne v h).symm

/-- The declared variables of a state are those of its tables. -/
theorem Over.of_tables (hv : v.Over names) (hs : w.shapes = v.shapes)
    (hn : w.versions = v.versions) : w.Over names :=
  ⟨fun x => hs ▸ hv.shapes x, fun x => hn ▸ hv.versions x⟩

theorem Over.withPath (hv : v.Over names) (p : Formula) : Over names { v with path := p } :=
  hv.of_tables rfl rfl

theorem Over.oblige (hv : v.Over names) (f : Formula) : (v.oblige f).Over names :=
  hv.of_tables rfl rfl

theorem Over.next (hv : v.Over names) {base : String} (hb : base ∈ names) :
    (v.next base).Over names where
  shapes := hv.shapes
  versions x := by
    by_cases h : x = base
    · simp [Verification.next, Table.contains, h, hb]
    · rw [← hv.versions x, Verification.next, Table.contains, Table.find?_insert_of_ne _ h,
        Table.contains]

/-- The version that comes next. -/
def upcoming (v : Verification) (base : String) : String := versioned base (v.version base + 1)

/-- The transition that defines the next version of a variable. -/
def definition (v : Verification) (base : String) (value : String → String → Formula) : Formula :=
  choose v.guard (value (v.current base) (v.upcoming base))
    (.eq (.ident (v.upcoming base)) (.ident (v.current base)))

/-- **Setting a declared variable** does nothing where the statement is never reached, and makes the
next version elsewhere. -/
theorem set_eq (hv : v.Over names) {base : String} (hb : base ∈ names)
    (value : String → String → Formula) :
    v.set base value =
      if v.guard.isFalsity then v
      else (v.next base).define (v.upcoming base) (v.definition base value) := by
  have hdeclared : v.declared base = v := if_pos ((hv.shapes base).mpr hb)
  have hcurrent : (v.next base).current base = v.upcoming base := by
    rw [current, version_next_self, upcoming]
  simp only [set, hdeclared, hcurrent, definition]

/-! ## Settled formulas -/

/-- **The discipline of settled formulas**: the declared variables are `names`, and formulas mention no
version still to come. -/
def settling (names : List String) (computes : String → Nat → Prop) : Discipline where
  tables v := v.Over names
  formula v f := v.Settled names f
  source f := ∀ x ∈ f.freeNames, x ∈ names ∨ ¬ IsLater names x
  target x := x ∈ names
  thrown e := ¬ IsLater names e
  computes := computes

variable {computes : String → Nat → Prop}

theorem settled_ident {x : String} (h : ¬ v.Future names x) : v.Settled names (.ident x) := by
  intro y hy
  obtain rfl : y = x := by simpa [mem_freeNames, occurrences] using hy
  exact h

/-- A new version leaves what is settled settled. -/
theorem Settled.next {f : Formula} (h : v.Settled names f) (base : String) :
    (v.next base).Settled names f := h.mono fun b _ => version_le_next v base b

theorem lawful_settling (names : List String) (computes : String → Nat → Prop) :
    (settling names computes).Lawful where
  bare := ⟨fun h => ⟨h.shapes, h.versions⟩, fun h => ⟨h.shapes, h.versions⟩⟩
  formula_bare := Iff.rfl
  truth := fun x hx => by cases hx
  falsity := fun x hx => by cases hx
  zero := fun x hx => by cases hx
  not h := fun x hx => h x (by simpa [Formula.not, mem_freeNames, occurrences] using hx)
  binary _ _ _ _ hf hg := fun x hx => by
    simp only [mem_freeNames, occurrences, List.mem_append] at hx
    exact hx.elim (fun h => hf x (mem_freeNames.mpr h))
      fun h => hg x (mem_freeNames.mpr h)
  ite hf hg hh := fun x hx => by
    simp only [mem_freeNames, occurrences, List.mem_append] at hx
    rcases hx with (h | h) | h
    · exact hf x (mem_freeNames.mpr h)
    · exact hg x (mem_freeNames.mpr h)
    · exact hh x (mem_freeNames.mpr h)
  call _ hargs hf := fun x hx => by
    rw [mem_freeNames, occurrences, Formula.mem_occurrencesAll_iff] at hx
    obtain ⟨a, ha, hxa⟩ := hx
    exact List.forall_mem_append.mpr ⟨hargs, List.forall_mem_singleton.mpr hf⟩ a ha x
      (mem_freeNames.mpr hxa)
  rename := settled_rename
  thrown _ he := settled_ident (mt isLater_of_future he)
  renewed {v base} hv hb := by
    have hdeclared : v.declared base = v := if_pos ((hv.shapes base).mpr hb)
    rw [renewed, hdeclared]
    exact ⟨⟨hv.next hb, fun hf => hf.next base⟩,
      settled_ident (not_future_versioned (version_le_next v base base)),
      settled_ident (not_future_versioned (Nat.le_refl _))⟩

end Verification

open Verification

/-- A body over declared variables keeps to the discipline. -/
theorem NamedAll.allowsAll {names : List String} {computes : String → Nat → Prop} {ss : List Stmt}
    (h : NamedAll names computes ss) : (settling names computes).AllowsAll ss := by
  have hlater : ∀ x, ¬ IsVersion names x → ¬ IsLater names x :=
    fun x => mt fun ⟨b, hb, n, _, hx⟩ => ⟨b, hb, n, hx⟩
  exact fun s hs => ⟨(h s hs).target, fun f hf x hx => (((h s hs).formulas f hf).free x hx).imp_right (hlater x),
    fun e he => hlater e ((h s hs).thrown e he).2, (h s hs).computed⟩

end Relspec.Spec
