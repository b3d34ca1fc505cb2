import Relspec.Proofs.Formula.Reassociation

/-!
# Proofs/Formula/Vocabulary — what formulas may speak of

A formula speaks of names under the quantifiers around them, and reads some of them in an earlier state.
A vocabulary says which names may be read where, and which variables quantifiers may have.

* `Over` — a formula over a vocabulary, under bound names;
* `Over.change` — a formula under other bound names and over another vocabulary;
* `Over.early` — what stands under `old`;
* `Over.rebuild` — a formula that was rebuilt from its leaves;
* `Over.of_mem_occurrences` — the free names of a formula are in its vocabulary.
-/

namespace Relspec.Formula

open List

/-- **What formulas may speak of**: the names that they read in the state at hand or, if the flag is set,
under `old`, and the variables of their quantifiers. -/
structure Vocabulary where
  reads : Bool → String → Prop
  binds : String → Prop

namespace Vocabulary

/-- The vocabulary with further names, in every state. -/
def adding (V : Vocabulary) (P : String → Prop) : Vocabulary := ⟨fun old x => P x ∨ V.reads old x, V.binds⟩

/-- The vocabulary of what is read under `old`, in every state. -/
def early (V : Vocabulary) : Vocabulary := ⟨fun _ => V.reads true, V.binds⟩

/-- The vocabulary of what is read in some state, in every state. -/
def ever (V : Vocabulary) : Vocabulary := ⟨fun _ x => ∃ old, V.reads old x, V.binds⟩

/-- The vocabulary of the names that pass a test. -/
def only (P : String → Prop) : Vocabulary := ⟨fun _ => P, P⟩

/-- A vocabulary that allows no more than another. -/
structure Within (V W : Vocabulary) : Prop where
  reads : ∀ old x, V.reads old x → W.reads old x
  binds : ∀ x, V.binds x → W.binds x

theorem Within.refl (V : Vocabulary) : V.Within V := ⟨fun _ _ h => h, fun _ h => h⟩

theorem within_ever {V : Vocabulary} : V.Within V.ever := ⟨fun old _ h => ⟨old, h⟩, fun _ h => h⟩

theorem within_adding {V : Vocabulary} {P : String → Prop} : V.Within (V.adding P) :=
  ⟨fun _ _ => .inr, fun _ h => h⟩

theorem Within.adding {V W : Vocabulary} (h : V.Within W) {P Q : String → Prop} (hPQ : ∀ x, P x → Q x) :
    (V.adding P).Within (W.adding Q) :=
  ⟨fun old x => Or.imp (hPQ x) (h.reads old x), h.binds⟩

end Vocabulary

mutual

/-- **A formula over a vocabulary** under the names `bound`; `old` says whether an earlier state is read. -/
def Over (V : Vocabulary) (bound : List String) (old : Bool) : Formula → Prop
  | .ident name => name ∈ bound ∨ V.reads old name
  | .int _ => True
  | .join l r => l.Over V bound old ∧ r.Over V bound old
  | .call _ args => OverAll V bound old args
  | .unary _ x => x.Over V bound old
  | .binary _ x y => x.Over V bound old ∧ y.Over V bound old
  | .quant _ vars domain body =>
    (∀ v ∈ vars, V.binds v) ∧ domain.Over V bound old ∧ body.Over V (bound ++ vars) old
  | .old x => x.Over V bound true
  | .ite c t e => c.Over V bound old ∧ t.Over V bound old ∧ e.Over V bound old

/-- Several formulas over a vocabulary. -/
def OverAll (V : Vocabulary) (bound : List String) (old : Bool) : List Formula → Prop
  | [] => True
  | x :: xs => x.Over V bound old ∧ OverAll V bound old xs

end

variable {V W : Vocabulary} {bound : List String} {old : Bool} {f g x : Formula}

theorem overAll_iff {fs : List Formula} : OverAll V bound old fs ↔ ∀ e ∈ fs, e.Over V bound old := by
  induction fs with
  | nil => exact iff_of_true trivial (forall_mem_nil _)
  | cons f fs ih => rw [OverAll, ih, forall_mem_cons]

namespace Over

/-! ## Changing the vocabulary -/

/-- **A formula under other bound names and over another vocabulary**: its free names under `inner` have to
be allowed. -/
theorem change {inner : List String} (h : f.Over V bound old)
    (hreads : ∀ old x, x ∈ f.occurrences inner → x ∈ bound ∨ V.reads old x → W.reads old x)
    (hbinds : ∀ v, V.binds v → W.binds v) : f.Over W inner old := by
  induction f generalizing bound inner old with
  | ident name =>
    by_cases hmem : name ∈ inner
    · exact .inl hmem
    · exact .inr (hreads old name (by simp [occurrences, hmem]) h)
  | int => trivial
  | call _ args ih =>
    simp only [occurrences, mem_occurrencesAll_iff] at hreads
    rw [Over, overAll_iff] at h ⊢
    exact fun a ha => ih a ha (h a ha) fun o x hx => hreads o x ⟨a, ha, hx⟩
  | unary _ _ ih | old _ ih =>
    rw [Over] at h ⊢
    exact ih h hreads
  | join _ _ ihl ihr | binary _ _ _ ihl ihr =>
    simp only [occurrences, mem_append] at hreads
    exact ⟨ihl h.1 fun o x hx => hreads o x (.inl hx), ihr h.2 fun o x hx => hreads o x (.inr hx)⟩
  | quant _ _ _ _ ihd ihb =>
    simp only [occurrences, mem_append] at hreads
    refine ⟨fun v hv => hbinds v (h.1 v hv), ihd h.2.1 fun o x hx => hreads o x (.inl hx),
      ihb h.2.2 fun o x hx hx' => ?_⟩
    -- What is free below the quantifier is none of its variables.
    have hfree := ((mem_occurrences _ _).mp hx).2
    simp only [mem_append, not_or] at hfree hx'
    exact hreads o x (.inr hx) (hx'.imp_left fun hmem => hmem.resolve_right hfree.2)
  | ite _ _ _ ihc iht ihe =>
    simp only [occurrences, mem_append] at hreads
    exact ⟨ihc h.1 fun o x hx => hreads o x (.inl (.inl hx)), iht h.2.1 fun o x hx => hreads o x (.inl (.inr hx)),
      ihe h.2.2 fun o x hx => hreads o x (.inr hx)⟩

theorem mono (h : f.Over V bound old) (hVW : V.Within W) : f.Over W bound old :=
  h.change (fun o x hx hx' => hVW.reads o x (hx'.resolve_left ((mem_occurrences _ _).mp hx).2)) hVW.binds

/-- A formula that speaks of no bound name stands under none. -/
theorem outside (h : f.Over V bound old) (hfree : ∀ x ∈ bound, x ∉ f.freeNames) : f.Over V [] old :=
  h.change (fun _ x hx hx' => hx'.resolve_left fun hmem => hfree x hmem (mem_freeNames.mpr hx))
    fun _ hv => hv

/-- A formula that stands under no bound name stands under any. -/
theorem inside (h : f.Over V [] old) : f.Over V bound old :=
  h.change (fun _ _ _ hx => hx.resolve_left not_mem_nil) fun _ hv => hv

/-- **Under `old` nothing is read in the state at hand**, so it does not matter what that is. -/
theorem early (o : Bool) (h : f.Over V bound true) :
    f.Over V.early bound o := by
  induction f generalizing bound o with
  | ident | int => exact h
  | call _ args ih =>
    rw [Over, overAll_iff] at h ⊢
    exact fun a ha => ih a ha o (h a ha)
  | unary _ _ ih =>
    rw [Over] at h ⊢
    exact ih o h
  | old _ ih =>
    rw [Over] at h ⊢
    exact ih true h
  | join _ _ ihl ihr | binary _ _ _ ihl ihr => exact ⟨ihl o h.1, ihr o h.2⟩
  | quant _ _ _ _ ihd ihb => exact ⟨h.1, ihd o h.2.1, ihb o h.2.2⟩
  | ite _ _ _ ihc iht ihe => exact ⟨ihc o h.1, iht o h.2.1, ihe o h.2.2⟩

/-- **The free names of a formula are in its vocabulary.** -/
theorem of_mem_occurrences {z : String} {o : Bool} (h : f.Over V bound o) (hz : z ∈ f.occurrences bound) : ∃ o, V.reads o z := by
  induction f generalizing bound o with
  | ident name =>
    simp only [occurrences] at hz
    split at hz
    · cases hz
    · next hmem =>
      obtain rfl := mem_singleton.mp hz
      exact ⟨o, h.resolve_left (mt contains_iff_mem.mpr hmem)⟩
  | int => nomatch hz
  | call _ args ih =>
    rw [Over, overAll_iff] at h
    obtain ⟨a, ha, hz⟩ := mem_occurrencesAll_iff.mp hz
    exact ih a ha (h a ha) hz
  | unary _ _ ih | old _ ih =>
    rw [Over] at h
    exact ih h hz
  | join _ _ ihl ihr | binary _ _ _ ihl ihr => exact (mem_append.mp hz).elim (ihl h.1) (ihr h.2)
  | quant _ _ _ _ ihd ihb => exact (mem_append.mp hz).elim (ihd h.2.1) (ihb h.2.2)
  | ite _ _ _ ihc iht ihe =>
    exact (mem_append.mp hz).elim (fun hz => (mem_append.mp hz).elim (ihc h.1) (iht h.2.1))
      (ihe h.2.2)

theorem of_mem_freeNames (h : f.Over V [] old) {z : String} (hz : z ∈ f.freeNames) : ∃ o, V.reads o z :=
  h.of_mem_occurrences (mem_freeNames.mp hz)

theorem binders {o : Bool} (h : f.Over V bound o) :
    ∀ x ∈ f.binders, V.binds x := by
  induction f generalizing bound o with
  | ident | int => exact nofun
  | call _ args ih =>
    rw [Formula.binders, bindersAll_eq_flatMap]
    exact forall_mem_flatMap.mpr fun a ha => ih a ha (overAll_iff.mp h a ha)
  | unary _ _ ih | old _ ih => exact ih h
  | join _ _ ihl ihr | binary _ _ _ ihl ihr =>
    exact forall_mem_append.mpr ⟨ihl h.1, ihr h.2⟩
  | quant _ _ _ _ ihd ihb =>
    exact forall_mem_append.mpr ⟨forall_mem_append.mpr ⟨h.1, ihd h.2.1⟩, ihb h.2.2⟩
  | ite _ _ _ ihc iht ihe =>
    exact forall_mem_append.mpr ⟨forall_mem_append.mpr ⟨ihc h.1, iht h.2.1⟩, ihe h.2.2⟩

/-! ## Connectives -/

theorem truth : Formula.truth.Over V bound old := trivial

theorem falsity : Formula.falsity.Over V bound old := trivial

theorem all {fs : List Formula} (h : ∀ f ∈ fs, f.Over V bound old) : (Formula.all fs).Over V bound old :=
  all_induction (P := fun f => f.Over V bound old) truth falsity (fun _ _ hx hy => ⟨hx, hy⟩) h

theorem all_pair (hf : f.Over V bound old) (hg : g.Over V bound old) :
    (Formula.all [f, g]).Over V bound old :=
  .all (forall_mem_cons.mpr ⟨hf, forall_mem_singleton.mpr hg⟩)

theorem implies (hf : f.Over V bound old) (hg : g.Over V bound old) :
    (Formula.implies f g).Over V bound old :=
  implies_induction (P := fun f => f.Over V bound old) truth (fun _ _ hx hy => ⟨hx, hy⟩) hf hg

theorem conjuncts (h : f.Over V bound old) : ∀ c ∈ f.conjuncts, c.Over V bound old :=
  conjuncts_induction (P := fun f => f.Over V bound old) (fun _ _ h => h) h

/-! ## Rebuilding -/

section

variable {node : List String → Formula → Formula} (outer keep : List String)

/-- **A formula that is rebuilt from its leaves.**  The names `outer` are bound around the formula, and of
what it becomes the names `keep` are. -/
theorem rebuild
    (hident : ∀ inner o x, (∀ v ∈ inner, V.binds v) → x ∈ outer ++ inner ∨ V.reads o x →
      (node inner (.ident x)).Over W (keep ++ inner) o)
    (hnode : ∀ inner o f, (∀ x, f ≠ .ident x) → (∀ v ∈ inner, V.binds v) → f.Over W (keep ++ inner) o →
      (node inner f).Over W (keep ++ inner) o)
    (hbinds : ∀ v, V.binds v → W.binds v) {inner : List String} {o : Bool} (hinner : ∀ v ∈ inner, V.binds v) (h : f.Over V (outer ++ inner) o) :
    (f.rebuild node inner).Over W (keep ++ inner) o := by
  induction f generalizing inner o with
  | ident x => exact hident inner o x hinner h
  | int => exact hnode inner o _ nofun hinner trivial
  | call _ args ih =>
    rw [Over, overAll_iff] at h
    refine hnode inner o _ nofun hinner ?_
    rw [Over, overAll_iff, rebuildAll_eq_map]
    exact forall_mem_map.mpr fun a ha => ih a ha hinner (h a ha)
  | unary _ _ ih | old _ ih =>
    rw [Over] at h
    exact hnode inner o _ nofun hinner (ih hinner h)
  | join _ _ ihl ihr | binary _ _ _ ihl ihr =>
    exact hnode inner o _ nofun hinner ⟨ihl hinner h.1, ihr hinner h.2⟩
  | quant _ vars _ _ ihd ihb =>
    obtain ⟨hvars, hdomain, hbody⟩ := h
    rw [append_assoc] at hbody
    have hbody' := ihb (forall_mem_append.mpr ⟨hinner, hvars⟩) hbody
    rw [← append_assoc] at hbody'
    exact hnode inner o _ nofun hinner ⟨fun v hv => hbinds v (hvars v hv), ihd hinner hdomain, hbody'⟩
  | ite _ _ _ ihc iht ihe =>
    exact hnode inner o _ nofun hinner ⟨ihc hinner h.1, iht hinner h.2.1, ihe hinner h.2.2⟩

end

/-- **Putting names for names**: for the names bound around a formula, and for others. -/
theorem rename {outer : List String} {names : Table String} (h : f.Over V outer old)
    (houter : ∀ x ∈ outer, (names.find? x).isSome)
    (hput : ∀ x y, names.find? x = some y → ∀ o, W.reads o y)
    (hkeep : ∀ o x, names.find? x = none → V.reads o x → W.reads o x)
    (hbinds : ∀ v, V.binds v → W.binds v) : (f.rename names).Over W [] old := by
  refine rebuild outer [] (fun inner o x _ hx => ?_) (fun inner o g hne _ hg => ?_) hbinds
    (fun _ hv => nomatch hv) (by rwa [append_nil])
  · rw [substituteNode, Table.find?_map]
    by_cases hmem : x ∈ inner
    · rw [if_pos (contains_iff_mem.mpr hmem)]
      exact .inl hmem
    · rw [if_neg (mt contains_iff_mem.mp hmem)]
      cases hfind : names.find? x with
      | some y => exact .inr (hput x y hfind o)
      | none =>
        refine .inr (hkeep o x hfind (hx.resolve_left fun hmem' => ?_))
        rcases mem_append.mp hmem' with hmem' | hmem'
        · exact absurd (houter x hmem') (by simp [hfind])
        · exact hmem hmem'
  · cases g with
    | ident x => exact absurd rfl (hne x)
    | _ => exact hg

/-! ## Joins nested to the left -/

theorem joinLeft (hx : x.Over V bound old) : ∀ {y : Formula}, y.Over V bound old →
    (x.joinLeft y).Over V bound old
  | .join _ _, h => ⟨joinLeft hx h.1, h.2⟩
  | .ident _, h | .int _, h | .call _ _, h | .unary _ _, h | .binary _ _ _, h | .quant _ _ _ _, h
  | .old _, h | .ite _ _ _, h => ⟨hx, h⟩

theorem asRead {o : Bool} (h : f.Over V bound o) :
    f.asRead.Over V bound o := by
  induction f generalizing bound o with
  | ident | int => rwa [Formula.asRead]
  | call _ args ih =>
    rw [Over, overAll_iff] at h
    rw [Formula.asRead, Over, overAll_iff, asReadAll_eq_map]
    exact forall_mem_map.mpr fun a ha => ih a ha (h a ha)
  | unary _ _ ih | old _ ih =>
    rw [Over] at h
    rw [Formula.asRead, Over]
    exact ih h
  | join _ _ ihl ihr =>
    rw [Formula.asRead]
    exact (ihl h.1).joinLeft (ihr h.2)
  | binary _ _ _ ihl ihr =>
    rw [Formula.asRead]
    exact ⟨ihl h.1, ihr h.2⟩
  | quant _ _ _ _ ihd ihb =>
    rw [Formula.asRead]
    exact ⟨h.1, ihd h.2.1, ihb h.2.2⟩
  | ite _ _ _ ihc iht ihe =>
    rw [Formula.asRead]
    exact ⟨ihc h.1, iht h.2.1, ihe h.2.2⟩

end Over

end Relspec.Formula
