import Mathlib.Data.List.Basic
import Mathlib.Tactic.SplitIfs
import Mathlib.Tactic.Tauto
import Relspec.Formula.Names

/-!
# Proofs/Formula/Names — free names, binders and capture

A substitution puts formulas under quantifiers without looking at what these bind, so a free name of
what is put may become bound.  Free occurrences, counted one by one, show it: those of the result are
among those that there ought to be, and they are all there exactly when nothing is captured.

* `induction` — induction on formulas, `all_induction`, `any_pair_induction`, `implies_induction` — what
  operands have and the connective keeps, a connective without trivial operands has; `conjuncts_induction` —
  and back;
* `occurrences_eq_filter`, `mem_occurrences` — binders take occurrences away and nothing else;
* `keeps_rebuild`, `mem_freeNames_substitute` — the free occurrences after a substitution;
* `Admits`, `occurrences_substitute_iff` — all of them are kept exactly when nothing is captured;
* `admits_of_binders` — when the binders do not occur in what is put.
-/

namespace Relspec.Formula

open List

/-! ## Induction -/

/-- **Induction on formulas**, with the arguments of a call all at once. -/
@[induction_eliminator]
theorem induction {P : Formula → Prop} (ident : ∀ name, P (.ident name)) (int : ∀ value, P (.int value))
    (join : ∀ left right, P left → P right → P (.join left right))
    (call : ∀ name args, (∀ a ∈ args, P a) → P (.call name args))
    (unary : ∀ op x, P x → P (.unary op x)) (binary : ∀ op x y, P x → P y → P (.binary op x y))
    (quant : ∀ kind vars domain body, P domain → P body → P (.quant kind vars domain body))
    (old : ∀ x, P x → P (.old x))
    (ite : ∀ cond thn els, P cond → P thn → P els → P (.ite cond thn els)) (f : Formula) : P f := by
  refine Formula.rec (motive_1 := P) (motive_2 := fun args => ∀ a ∈ args, P a) ident int join call unary
    binary quant old ite (forall_mem_nil _) (fun a args ha hargs => ?_) f
  exact forall_mem_cons.mpr ⟨ha, hargs⟩

attribute [local simp] occurrences occurrencesAll rebuild rebuildAll

theorem rebuildAll_eq_map (f : List String → Formula → Formula) (bound : List String) :
    ∀ es, rebuildAll f bound es = es.map (rebuild f bound)
  | [] => rfl
  | e :: es => by rw [rebuildAll, map_cons, rebuildAll_eq_map f bound es]

theorem occurrencesAll_eq_flatMap (bound : List String) :
    ∀ es, occurrencesAll bound es = es.flatMap (occurrences bound)
  | [] => rfl
  | e :: es => by rw [occurrencesAll, flatMap_cons, occurrencesAll_eq_flatMap bound es]

theorem eq_truth_of_isTruth {f : Formula} (h : f.isTruth = true) : f = .truth := by
  unfold isTruth at h
  split at h
  · rw [truth, eq_of_beq h]
  · exact absurd h Bool.false_ne_true

theorem eq_falsity_of_isFalsity {f : Formula} (h : f.isFalsity = true) : f = .falsity := by
  unfold isFalsity at h
  split at h
  · rw [falsity, eq_of_beq h]
  · exact absurd h Bool.false_ne_true

section

variable {P : Formula → Prop}

theorem allFrom_induction (htruth : P truth) (hfalsity : P falsity)
    (hand : ∀ x y, P x → P y → P (.binary .and x y)) : ∀ {fs : List Formula} {acc : Option Formula},
    (∀ f ∈ acc, P f) → (∀ f ∈ fs, P f) → P (allFrom acc fs)
  | [], none, _, _ => htruth
  | [], some f, hacc, _ => hacc f rfl
  | f :: fs, acc, hacc, h => by
    obtain ⟨hf, hfs⟩ := forall_mem_cons.mp h
    unfold allFrom
    split_ifs
    · exact allFrom_induction htruth hfalsity hand hacc hfs
    · exact hfalsity
    · cases acc with
      | none => exact allFrom_induction htruth hfalsity hand (fun g hg => Option.some.inj hg ▸ hf) hfs
      | some g =>
        exact allFrom_induction htruth hfalsity hand
          (fun g' hg' => Option.some.inj hg' ▸ hand g f (hacc g rfl) hf) hfs

/-- **What conjuncts have and `and` keeps, a conjunction has.** -/
theorem all_induction (htruth : P truth) (hfalsity : P falsity)
    (hand : ∀ x y, P x → P y → P (.binary .and x y)) {fs : List Formula} (h : ∀ f ∈ fs, P f) :
    P (all fs) :=
  allFrom_induction htruth hfalsity hand (fun _ hf => nomatch hf) h

/-- **What two disjuncts have and `or` keeps, their disjunction has.** -/
theorem any_pair_induction (htruth : P truth) (hfalsity : P falsity)
    (hor : ∀ x y, P x → P y → P (.binary .or x y)) {f g : Formula} (hf : P f) (hg : P g) :
    P (any [f, g]) := by
  simp only [any, anyFrom]
  split_ifs
  · exact hfalsity
  · exact htruth
  · exact hg
  · exact htruth
  · exact hf
  · exact htruth
  · exact hor f g hf hg

theorem implies_induction (htruth : P truth) (himplies : ∀ x y, P x → P y → P (.binary .implies x y))
    {g f : Formula} (hg : P g) (hf : P f) : P (implies g f) := by
  unfold implies
  split_ifs
  · exact hf
  · exact htruth
  · exact himplies g f hg hf

/-- **What a formula has and `and` passes on, its conjuncts have.** -/
theorem conjuncts_induction (hand : ∀ x y, P (.binary .and x y) → P x ∧ P y) :
    ∀ {f : Formula}, P f → ∀ c ∈ f.conjuncts, P c
  | f, h => by
    unfold conjuncts
    split
    · next x y =>
      obtain ⟨hx, hy⟩ := hand x y h
      exact forall_mem_append.mpr ⟨conjuncts_induction hand hx, conjuncts_induction hand hy⟩
    · split_ifs
      · exact nofun
      · exact forall_mem_singleton.mpr h

end

/-! ## Free names -/

/-- **Binders take their own names away** from the free occurrences. -/
theorem occurrences_eq_filter (bound : List String) (e : Formula) :
    e.occurrences bound = (e.occurrences []).filter fun x => !bound.contains x := by
  induction e generalizing bound with
  | ident name => by_cases hb : name ∈ bound <;> simp [hb]
  | int => simp only [occurrences, filter_nil]
  | call _ args ih =>
    simp only [occurrences, occurrencesAll_eq_flatMap, filter_flatMap]
    exact flatMap_congr fun a ha => ih a ha bound
  | unary _ _ ih | old _ ih => rw [occurrences, occurrences, ← ih]
  | join _ _ ihl ihr | binary _ _ _ ihl ihr =>
    rw [occurrences, occurrences, filter_append, ← ihl, ← ihr]
  | quant _ vars _ _ ihd ihb =>
    rw [occurrences, occurrences, filter_append, ← ihd, ihb (bound ++ vars), ihb ([] ++ vars),
      filter_filter]
    simp
  | ite _ _ _ ihc iht ihe =>
    rw [occurrences, occurrences, filter_append, filter_append, ← ihc, ← iht, ← ihe]

/-- **A name is free under binders** when it is free without them and none of them. -/
theorem mem_occurrences {x : String} (bound : List String) (e : Formula) :
    x ∈ e.occurrences bound ↔ x ∈ e.occurrences [] ∧ x ∉ bound := by
  rw [occurrences_eq_filter bound e, mem_filter]
  simp

theorem mem_freeNames {x : String} {e : Formula} : x ∈ e.freeNames ↔ x ∈ e.occurrences [] :=
  mem_eraseDups

theorem mem_occurrencesAll_iff {x : String} {bound : List String} {es : List Formula} :
    x ∈ occurrencesAll bound es ↔ ∃ e ∈ es, x ∈ e.occurrences bound := by
  rw [occurrencesAll_eq_flatMap, mem_flatMap]

section

variable {x : String}

theorem not_mem_freeNames_truth : x ∉ truth.freeNames := by
  simp [truth, mem_freeNames]

theorem not_mem_freeNames_falsity : x ∉ falsity.freeNames := by
  simp [falsity, mem_freeNames]

theorem mem_freeNames_binary {op : BinaryOp} {f g : Formula} :
    x ∈ (binary op f g).freeNames ↔ x ∈ f.freeNames ∨ x ∈ g.freeNames := by
  simp [mem_freeNames]

theorem mem_freeNames_of_all {fs : List Formula} : x ∈ (all fs).freeNames → ∃ f ∈ fs, x ∈ f.freeNames :=
  all_induction (P := fun g => x ∈ g.freeNames → ∃ f ∈ fs, x ∈ f.freeNames)
    (absurd · not_mem_freeNames_truth) (absurd · not_mem_freeNames_falsity)
    (fun _ _ hf hg h => (mem_freeNames_binary.mp h).elim hf hg) fun f hf hx => ⟨f, hf, hx⟩

end

/-! ## Capture -/

mutual

/-- **Whether a substitution captures nothing** in a formula under the names `bound`: what it puts for a
free name has no free name that is bound there. -/
def Admits (σ : Table Formula) (bound : List String) : Formula → Prop
  | .ident name =>
    name ∉ bound → ∀ f, σ.find? name = some f → ∀ x ∈ f.freeNames, x ∉ bound
  | .int _ => True
  | .join l r => l.Admits σ bound ∧ r.Admits σ bound
  | .call _ args => AdmitsAll σ bound args
  | .unary _ x => x.Admits σ bound
  | .binary _ x y => x.Admits σ bound ∧ y.Admits σ bound
  | .quant _ vars domain body => domain.Admits σ bound ∧ body.Admits σ (bound ++ vars)
  | .old x => x.Admits σ bound
  | .ite c t e => c.Admits σ bound ∧ t.Admits σ bound ∧ e.Admits σ bound

/-- `Admits` for each of several formulas. -/
def AdmitsAll (σ : Table Formula) (bound : List String) : List Formula → Prop
  | [] => True
  | x :: xs => x.Admits σ bound ∧ AdmitsAll σ bound xs

end

theorem admitsAll_iff {σ : Table Formula} {bound : List String} {es : List Formula} :
    AdmitsAll σ bound es ↔ ∀ e ∈ es, e.Admits σ bound := by
  induction es with
  | nil => exact iff_of_true (by rw [AdmitsAll]; trivial) (forall_mem_nil _)
  | cons e es ih => rw [AdmitsAll, ih, forall_mem_cons]

/-- **Of the occurrences `want` those in `got` are left**, and that is all of them exactly when `P`
holds. -/
structure Keeps (got want : List String) (P : Prop) : Prop where
  sublist : got.Sublist want
  eq_iff : got = want ↔ P

namespace Keeps

theorem of_eq {got want : List String} {P : Prop} (h : got = want) (hP : P) :
    Keeps got want P := ⟨h ▸ List.Sublist.refl got, iff_of_true h hP⟩

/-- Nothing is lost of two lists together when nothing is lost of either. -/
theorem append {got got' want want' : List String} {P Q : Prop} (h : Keeps got want P)
    (h' : Keeps got' want' Q) : Keeps (got ++ got') (want ++ want') (P ∧ Q) where
  sublist := h.sublist.append h'.sublist
  eq_iff := by
    rw [← h.eq_iff, ← h'.eq_iff]
    refine ⟨fun heq => append_inj heq ?_, fun ⟨h₁, h₂⟩ => by rw [h₁, h₂]⟩
    have hlen := congrArg List.length heq
    have hle := h.sublist.length_le
    have hle' := h'.sublist.length_le
    simp only [length_append] at hlen
    omega

theorem flatMap {got want : Formula → List String} {P : Formula → Prop} : ∀ {es : List Formula},
    (∀ e ∈ es, Keeps (got e) (want e) (P e)) → Keeps (es.flatMap got) (es.flatMap want) (∀ e ∈ es, P e)
  | [], _ => of_eq rfl nofun
  | e :: es, h => by
    obtain ⟨he, hes⟩ := forall_mem_cons.mp h
    rw [flatMap_cons, flatMap_cons, forall_mem_cons]
    exact he.append (flatMap hes)

end Keeps

/-- The names free in what a substitution puts for a name. -/
def put (σ : Table Formula) (x : String) : List String := ((σ.find? x).getD (.ident x)).occurrences []

/-- A name that is free in `f` and bound around it is lost, and no other. -/
theorem keeps_occurrences (bound : List String) (f : Formula) :
    Keeps (f.occurrences bound) (f.occurrences []) (∀ x ∈ f.freeNames, x ∉ bound) where
  sublist := by
    rw [occurrences_eq_filter bound f]
    exact filter_sublist
  eq_iff := by
    rw [occurrences_eq_filter bound f, filter_eq_self]
    simp only [mem_freeNames, Bool.not_eq_true', contains_eq_mem, decide_eq_false_iff_not]

theorem keeps_ident (σ : Table Formula) (bound : List String) (name : String) :
    Keeps ((rebuild (substituteNode σ) bound (.ident name)).occurrences bound)
      ((occurrences bound (.ident name)).flatMap (put σ)) (Admits σ bound (.ident name)) := by
  rw [rebuild, substituteNode, Admits]
  by_cases hb : name ∈ bound
  · refine .of_eq ?_ fun h => absurd hb h
    simp [hb]
  · rw [if_neg (mt contains_iff_mem.mp hb), occurrences, if_neg (mt contains_iff_mem.mp hb),
      flatMap_singleton, put]
    cases hf : σ.find? name with
    | none =>
      refine .of_eq ?_ fun _ f h => nomatch h
      simp [hb]
    | some f =>
      have h := keeps_occurrences bound f
      refine ⟨h.sublist, h.eq_iff.trans ?_⟩
      simp [hb]

/-- **What a substitution keeps of the free occurrences**, by the shape of the formula: what is put for a
name loses the names that are bound there. -/
theorem keeps_rebuild (σ : Table Formula) (bound : List String) (e : Formula) :
    Keeps ((e.rebuild (substituteNode σ) bound).occurrences bound)
      ((e.occurrences bound).flatMap (put σ)) (e.Admits σ bound) := by
  induction e generalizing bound with
  | ident name => exact keeps_ident σ bound name
  | int =>
    rw [Admits]
    exact .of_eq (by simp only [rebuild, substituteNode, occurrences, flatMap_nil]) trivial
  | call _ args ih =>
    simp only [rebuild, substituteNode, occurrences, Admits, admitsAll_iff, occurrencesAll_eq_flatMap,
      rebuildAll_eq_map, flatMap_map, flatMap_assoc]
    exact .flatMap fun a ha => ih a ha bound
  | unary _ _ ih | old _ ih =>
    simp only [rebuild, substituteNode, occurrences, Admits]
    exact ih bound
  | join _ _ ihl ihr | binary _ _ _ ihl ihr =>
    simp only [rebuild, substituteNode, occurrences, Admits, flatMap_append]
    exact (ihl bound).append (ihr bound)
  | quant _ vars _ _ ihd ihb =>
    simp only [rebuild, substituteNode, occurrences, Admits, flatMap_append]
    exact (ihd bound).append (ihb (bound ++ vars))
  | ite _ _ _ ihc iht ihe =>
    simp only [rebuild, substituteNode, occurrences, Admits, flatMap_append]
    rw [← and_assoc]
    exact ((ihc bound).append (iht bound)).append (ihe bound)

/-- **A substitution keeps every free occurrence exactly when it captures nothing.** -/
theorem occurrences_substitute_iff (σ : Table Formula) (e : Formula) :
    (e.substitute σ).occurrences [] = (e.occurrences []).flatMap (put σ) ↔ e.Admits σ [] :=
  (keeps_rebuild σ [] e).eq_iff

/-- **Where a free name of a substitution comes from**: it stays, or it is free in what is put for one. -/
theorem mem_freeNames_substitute {σ : Table Formula} {e : Formula} {x : String}
    (h : x ∈ (e.substitute σ).freeNames) :
    (x ∈ e.freeNames ∧ σ.find? x = none) ∨ ∃ y ∈ e.freeNames, ∃ f, σ.find? y = some f ∧ x ∈ f.freeNames := by
  obtain ⟨y, hy, hx⟩ := mem_flatMap.mp ((keeps_rebuild σ [] e).sublist.subset (mem_freeNames.mp h))
  rw [put] at hx
  cases hf : σ.find? y with
  | none =>
    obtain rfl : x = y := by simpa [hf] using hx
    exact .inl ⟨mem_freeNames.mpr hy, hf⟩
  | some f => exact .inr ⟨y, mem_freeNames.mpr hy, f, hf, mem_freeNames.mpr (by simpa [hf] using hx)⟩

mutual

/-- The names that the quantifiers of a formula bind. -/
def binders : Formula → List String
  | .ident _ => []
  | .int _ => []
  | .join l r => l.binders ++ r.binders
  | .call _ args => bindersAll args
  | .unary _ x => x.binders
  | .binary _ x y => x.binders ++ y.binders
  | .quant _ vars domain body => vars ++ domain.binders ++ body.binders
  | .old x => x.binders
  | .ite c t e => c.binders ++ t.binders ++ e.binders

/-- The names that the quantifiers of several formulas bind. -/
def bindersAll : List Formula → List String
  | [] => []
  | x :: xs => x.binders ++ bindersAll xs

end

theorem bindersAll_eq_flatMap : ∀ es, bindersAll es = es.flatMap binders
  | [] => rfl
  | e :: es => by rw [bindersAll, flatMap_cons, bindersAll_eq_flatMap es]

/-- A substitution by formulas without the bound names captures nothing. -/
theorem admits_of_binders {σ : Table Formula} (bound : List String) (e : Formula)
    (h : ∀ x ∈ bound ++ e.binders, ∀ y f, σ.find? y = some f → x ∉ f.freeNames) : e.Admits σ bound := by
  induction e generalizing bound with
  | ident name =>
    rw [Admits]
    exact fun _ f hf x hx hb => h x (mem_append_left _ hb) name f hf hx
  | int => rw [Admits]; trivial
  | call _ args ih =>
    simp only [binders, bindersAll_eq_flatMap, mem_append, mem_flatMap] at h
    rw [Admits, admitsAll_iff]
    exact fun a ha => ih a ha bound fun x hx => h x ((mem_append.mp hx).imp_right fun hx => ⟨a, ha, hx⟩)
  | unary _ _ ih | old _ ih =>
    rw [Admits]
    exact ih bound h
  | join _ _ ihl ihr | binary _ _ _ ihl ihr =>
    rw [Admits]
    simp only [binders, mem_append] at h
    exact ⟨ihl bound fun x hx => h x (by simp at hx; tauto), ihr bound fun x hx => h x (by simp at hx; tauto)⟩
  | quant _ vars _ _ ihd ihb =>
    rw [Admits]
    simp only [binders, mem_append] at h
    exact ⟨ihd bound fun x hx => h x (by simp at hx; tauto),
      ihb (bound ++ vars) fun x hx => h x (by simp at hx; tauto)⟩
  | ite _ _ _ ihc iht ihe =>
    rw [Admits]
    simp only [binders, mem_append] at h
    exact ⟨ihc bound fun x hx => h x (by simp at hx; tauto), iht bound fun x hx => h x (by simp at hx; tauto),
      ihe bound fun x hx => h x (by simp at hx; tauto)⟩

end Relspec.Formula
