import Mathlib.Data.List.Pairwise
import Relspec.Proofs.Formula.Relations

/-!
# Proofs/Formula/Substitution — free identifiers, and formulas put for them

Every identifier of a formula stands below some quantifiers.  It is free when none of them binds it, and
what is put for it is captured when one of them binds a name in there; a quantifier has its domain outside
its scope.

* `sites` — the identifiers of a formula, each with the names bound around it;
* `occurrences_eq_sites`, `pairwise_freeNames` — the free names are listed by their first free site;
* `admits_iff` — a substitution captures nothing when it does so at no site;
* `substitute_exact` — the substitution lemma.
-/

namespace Relspec.Formula

open List

mutual

/-- **The identifiers of a formula**, from left to right, each with the names that the quantifiers of the
formula bind around it. -/
def sites : Formula → List (String × List String)
  | .ident name => [(name, [])]
  | .int _ => []
  | .join l r => l.sites ++ r.sites
  | .call _ args => sitesAll args
  | .unary _ x => x.sites
  | .binary _ x y => x.sites ++ y.sites
  | .quant _ vars domain body => domain.sites ++ body.sites.map fun s => (s.1, vars ++ s.2)
  | .old x => x.sites
  | .ite c t e => c.sites ++ t.sites ++ e.sites

/-- The identifiers of several formulas. -/
def sitesAll : List Formula → List (String × List String)
  | [] => []
  | x :: xs => x.sites ++ sitesAll xs

end

/-- The free occurrences of identifiers, from left to right. -/
def freeSites (e : Formula) : List String := (e.sites.filter fun s => !s.2.contains s.1).map (·.1)

theorem sitesAll_eq_flatMap : ∀ es, sitesAll es = es.flatMap sites
  | [] => rfl
  | e :: es => by rw [sitesAll, flatMap_cons, sitesAll_eq_flatMap es]

/-! ## Free names -/

attribute [local simp] occurrences sites

/-- **The free occurrences under the names `bound`** are the sites at which no name is bound. -/
theorem occurrences_eq_sites (bound : List String) (e : Formula) :
    e.occurrences bound = (e.sites.filter fun s => !(bound ++ s.2).contains s.1).map (·.1) := by
  induction e generalizing bound with
  | ident name => by_cases hb : name ∈ bound <;> simp [hb]
  | int => rfl
  | call _ args ih =>
    simp only [occurrences, sites, occurrencesAll_eq_flatMap, sitesAll_eq_flatMap, filter_flatMap, map_flatMap]
    exact flatMap_congr fun a ha => ih a ha bound
  | unary _ _ ih | old _ ih => rw [occurrences, sites, ih]
  | join _ _ ihl ihr | binary _ _ _ ihl ihr =>
    rw [occurrences, sites, filter_append, map_append, ihl, ihr]
  | quant _ vars _ _ ihd ihb =>
    rw [occurrences, sites, filter_append, map_append, ihd, ihb, filter_map, map_map]
    simp [Function.comp_def]
  | ite _ _ _ ihc iht ihe =>
    rw [occurrences, sites, filter_append, filter_append, map_append, map_append, ihc, iht, ihe]

theorem freeNames_eq (e : Formula) : e.freeNames = e.freeSites.eraseDups := by
  rw [freeNames, occurrences_eq_sites, freeSites]
  simp only [nil_append]

/-- Names without repetition are listed by where they come first. -/
theorem pairwise_eraseDups (l : List String) (p : String → Bool) :
    (l.filter p).eraseDups.Pairwise fun x y => l.idxOf x < l.idxOf y := by
  induction l generalizing p with
  | nil => exact Pairwise.nil
  | cons a l ih =>
    -- Names other than `a` come one place further on.
    have hshift : ∀ q : String → Bool, q a = false →
        (l.filter q).eraseDups.Pairwise fun x y => (a :: l).idxOf x < (a :: l).idxOf y := fun q hq =>
      (ih q).imp_of_mem fun {x y} hx hy hlt => by
        have hne : ∀ z ∈ (l.filter q).eraseDups, a ≠ z := by
          rintro z hz rfl
          simp [hq] at hz
        rw [idxOf_cons_ne _ (hne x hx), idxOf_cons_ne _ (hne y hy)]
        exact Nat.succ_lt_succ hlt
    cases hp : p a with
    | false =>
      rw [filter_cons_of_neg (by simp [hp])]
      exact hshift p hp
    | true =>
      rw [filter_cons_of_pos hp, eraseDups_cons, filter_filter, pairwise_cons]
      refine ⟨fun y hy => ?_, hshift _ (by simp)⟩
      have hne : a ≠ y := by
        rintro rfl
        simp at hy
      rw [idxOf_cons_self, idxOf_cons_ne _ hne]
      exact Nat.succ_pos _

/-- **The free names are listed in the order of their first free occurrence**, each once. -/
theorem pairwise_freeNames (e : Formula) :
    e.freeNames.Pairwise fun x y => e.freeSites.idxOf x < e.freeSites.idxOf y := by
  have h := pairwise_eraseDups e.freeSites fun _ => true
  rwa [filter_true, ← freeNames_eq] at h

theorem nodup_freeNames (e : Formula) : e.freeNames.Nodup :=
  (pairwise_freeNames e).imp fun hlt heq => absurd (heq ▸ hlt) (Nat.lt_irrefl _)

/-! ## Capture -/

variable {σ : Table Formula}

/-- **A substitution captures nothing** when it does so at no site. -/
theorem admits_iff (bound : List String) (e : Formula) :
    e.Admits σ bound ↔ ∀ s ∈ e.sites, s.1 ∉ bound ++ s.2 →
      ∀ f, σ.find? s.1 = some f → ∀ x ∈ f.freeNames, x ∉ bound ++ s.2 := by
  induction e generalizing bound with
  | ident name => simp [Admits]
  | int => simp [Admits]
  | call _ args ih =>
    rw [Admits, admitsAll_iff, sites, sitesAll_eq_flatMap, forall_mem_flatMap]
    exact forall₂_congr fun a ha => ih a ha bound
  | unary _ _ ih | old _ ih => rw [Admits, sites, ih]
  | join _ _ ihl ihr | binary _ _ _ ihl ihr => rw [Admits, sites, forall_mem_append, ihl, ihr]
  | quant _ vars _ _ ihd ihb =>
    rw [Admits, sites, forall_mem_append, ihd, ihb, forall_mem_map]
    simp only [append_assoc]
  | ite _ _ _ ihc iht ihe =>
    rw [Admits, sites, forall_mem_append, forall_mem_append, ihc, iht, ihe, and_assoc]

/-- The free names of what a substitution makes that captures nothing. -/
theorem mem_freeNames_substitute_iff {e : Formula} (h : e.Admits σ []) {x : String} :
    x ∈ (e.substitute σ).freeNames ↔ (x ∈ e.freeNames ∧ σ.find? x = none) ∨
      ∃ y ∈ e.freeNames, ∃ f, σ.find? y = some f ∧ x ∈ f.freeNames := by
  refine ⟨mem_freeNames_substitute, fun hx => ?_⟩
  rw [mem_freeNames, (occurrences_substitute_iff σ e).mpr h, mem_flatMap]
  rcases hx with ⟨hx, hnone⟩ | ⟨y, hy, f, hf, hx⟩
  · exact ⟨x, mem_freeNames.mp hx, by simp [put, hnone]⟩
  · exact ⟨y, mem_freeNames.mp hy, by simpa [put, hf] using mem_freeNames.mp hx⟩

/-- **The substitution lemma.**  Where no name that is free in what is put for `x` is bound around a free
occurrence of `x`, putting formulas for names updates the valuation, in both states, and the free names are
those that stay and those of what is put.  The free names of a formula are listed once each, in the order of
their first free occurrence. -/
theorem substitute_exact (M : Model) (e : Formula) (σ : Table Formula) (pre cur : M.Valuation) :
    ((∀ s ∈ e.sites, s.1 ∉ s.2 → ∀ f ∈ σ.find? s.1, ∀ y ∈ f.freeNames, y ∉ s.2) →
      M.eval pre cur (e.substitute σ) = M.eval (Model.updated σ pre pre) (Model.updated σ pre cur) e ∧
      ∀ y, y ∈ (e.substitute σ).freeNames ↔ (y ∈ e.freeNames ∧ σ.find? y = none) ∨
        ∃ x ∈ e.freeNames, ∃ f, σ.find? x = some f ∧ y ∈ f.freeNames) ∧
    (∀ x, x ∈ e.freeNames ↔ ∃ bound, (x, bound) ∈ e.sites ∧ x ∉ bound) ∧ e.freeNames.Nodup ∧
    e.freeNames.Pairwise fun x y => e.freeSites.idxOf x < e.freeSites.idxOf y := by
  refine ⟨fun h => ?_, fun _ => by simp [freeNames_eq, freeSites], nodup_freeNames e, pairwise_freeNames e⟩
  have hadmits : e.Admits σ [] := (admits_iff [] e).mpr h
  exact ⟨Model.eval_substitute pre cur hadmits, fun _ => mem_freeNames_substitute_iff hadmits⟩

/-- `x = 1`, and `x > y` for every `x` in `y`. -/
def shadowing : Formula :=
  .binary .and (.eq (.ident "x") (.int 1))
    (.quant .all ["x"] (.ident "y") (.binary .gt (.ident "x") (.ident "y")))

/-- `y` for `x`, and `z` for `y`. -/
def shift : Table Formula := ⟨[("x", .ident "y"), ("y", .ident "z")]⟩

/-- The number one for a name, and zero for every other. -/
noncomputable def onesIn (name : String) : Model.relations.Valuation :=
  fun x => Tuples.number (if x = name then 1 else 0)

/-- Bound names stay while free ones are replaced. -/
theorem substitute_exact_shadowing :
    (∀ s ∈ shadowing.sites, s.1 ∉ s.2 → ∀ f ∈ shift.find? s.1, ∀ y ∈ f.freeNames, y ∉ s.2) ∧
      Model.relations.eval (onesIn "y") (onesIn "z") (shadowing.substitute shift) =
        Model.relations.eval (Model.updated shift (onesIn "y") (onesIn "y"))
          (Model.updated shift (onesIn "y") (onesIn "z")) shadowing :=
  have hfree : ∀ s ∈ shadowing.sites, s.1 ∉ s.2 → ∀ f ∈ shift.find? s.1, ∀ y ∈ f.freeNames, y ∉ s.2 := by
    decide
  ⟨hfree, ((substitute_exact Model.relations shadowing shift _ _).1 hfree).1⟩

end Relspec.Formula
