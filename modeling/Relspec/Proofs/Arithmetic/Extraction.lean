import Mathlib.Data.List.Range
import Relspec.Proofs.Arithmetic.Definitions
import Relspec.Proofs.Arithmetic.Taking
import Relspec.Proofs.Relational.Temporaries

/-!
# Proofs/Arithmetic/Extraction — operations taken out of contracts keep their meaning

An operation that is named leaves the place where it stood: it is computed outside every quantifier,
under `old` or not as it was.  Its value is the same there, since it mentions no variable that is bound
around it and each of its operands is either the operand that was there or a variable for it.

* `Extracts` — what taking operations out of several formulas yields;
* `Extracts.named`, `Extracts.quant`, `Extracts.old` — an operation that gets a name, and what is around it;
* `extract_extracts` — taking the operations out of a formula yields that.
-/

namespace Relspec.Arithmetic

open List
open Formula (occurrencesAll)
open Relational (operation?)

variable {bound : List String} {inOld : Bool} {n m k : Nat} {ds ds' : List Definition}
  {es outs es' outs' : List Formula}

/-! ## What is taken out -/

/-- **The values of side variables in two states**: the same in both, and those of their definitions. -/
def Solved {M : Model} (pre cur : M.Valuation) (ds : List Definition) : Prop :=
  ∀ d ∈ ds, pre d.name = cur d.name ∧ cur d.name = M.eval pre cur d.value

/-- No side variable from the `n`-th on is bound around or in several formulas. -/
def Unbound (n : Nat) (bound : List String) (es : List Formula) : Prop :=
  ∀ k, n ≤ k → sideVar k ∉ bound ∧ ∀ e ∈ es, sideVar k ∉ e.binders

/-- **Two states inside binders**: apart from what these bind, the first is `P` and the second is `P`
under `old` and `C` elsewhere. -/
def Inside {M : Model} (bound : List String) (inOld : Bool) (P C pre cur : M.Valuation) : Prop :=
  ∀ x, x ∉ bound → pre x = P x ∧ cur x = if inOld then P x else C x

/-- A single operation, perhaps under `old`. -/
def IsOperation (f : Formula) : Prop :=
  ∃ node, (f = node ∨ f = .old node) ∧ (operation? node).isSome = true

/-- **What taking the operations out of the formulas `es` yields**: the formulas `outs` and the
definitions `ds`, whose variables are numbered from `n` on and below `m`. -/
structure Extracts (bound : List String) (inOld : Bool) (es outs : List Formula)
    (ds : List Definition) (n m : Nat) : Prop where
  next : m = n + ds.length
  names : defined ds = (List.range' n ds.length).map sideVar
  free : ∀ x ∈ occurrencesAll [] outs, x ∈ occurrencesAll [] es ∨ x ∈ defined ds
  ordered : Ordered (fun x => x ∈ occurrencesAll [] es ∧ x ∉ bound) ds
  operations : ∀ d ∈ ds, IsOperation d.value
  meaning : ∀ {M : Model} (P C pre cur : M.Valuation), Unbound n bound es → Solved P C ds →
    Inside bound inOld P C pre cur → outs.map (M.eval pre cur) = es.map (M.eval pre cur)

theorem occurrencesAll_append (es es' : List Formula) :
    occurrencesAll [] (es ++ es') = occurrencesAll [] es ++ occurrencesAll [] es' := by
  induction es with
  | nil => rfl
  | cons e es ih =>
    rw [cons_append, occurrencesAll, occurrencesAll, ih, append_assoc]

@[simp] theorem occurrencesAll_singleton (e : Formula) : occurrencesAll [] [e] = e.occurrences [] := by
  rw [occurrencesAll, occurrencesAll, append_nil]

theorem binders_subset_of_mem {e : Formula} : ∀ {es : List Formula}, e ∈ es →
    e.binders ⊆ Formula.bindersAll es
  | _ :: _, h => by
    rw [Formula.bindersAll]
    rcases mem_cons.mp h with rfl | h
    · exact subset_append_left _ _
    · exact List.Subset.trans (binders_subset_of_mem h) (subset_append_right _ _)

theorem Unbound.mono (h : Unbound n bound es) (hle : n ≤ m) (hsub : es' ⊆ es) :
    Unbound m bound es' := fun k hk =>
  ⟨(h k (hle.trans hk)).1, fun e he => (h k (hle.trans hk)).2 e (hsub he)⟩

theorem Solved.left {M : Model} {pre cur : M.Valuation} (h : Solved pre cur (ds ++ ds')) :
    Solved pre cur ds := fun d hd => h d (mem_append_left _ hd)

theorem Solved.right {M : Model} {pre cur : M.Valuation} (h : Solved pre cur (ds ++ ds')) :
    Solved pre cur ds' := fun d hd => h d (mem_append_right _ hd)

theorem Alike.binders_subset {f g e : Formula} (h : Alike es outs f g) (he : e ∈ es) :
    e.binders ⊆ f.binders := by
  cases h with
  | call name => exact binders_subset_of_mem he
  | _ =>
    simp only [mem_cons, not_mem_nil, or_false] at he
    rcases he with rfl | rfl | rfl <;> simp [Formula.binders]

theorem Alike.eval_eq {f g : Formula} {M : Model} {pre cur : M.Valuation} (h : Alike es outs f g)
    (heval : outs.map (M.eval pre cur) = es.map (M.eval pre cur)) :
    M.eval pre cur g = M.eval pre cur f := by
  cases h with
  | call name => rw [Model.eval, Model.eval, Model.evalAll_eq_map, Model.evalAll_eq_map, heval]
  | _ => simp_all [Model.eval]

namespace Extracts

theorem le (h : Extracts bound inOld es outs ds n m) : n ≤ m := h.next ▸ Nat.le_add_right n _

/-- The variables of definitions that follow each other are numbered without a gap. -/
theorem names_append {bound' : List String} (h : Extracts bound inOld es outs ds n m)
    (h' : Extracts bound' inOld es' outs' ds' m k) :
    defined (ds ++ ds') = (List.range' n (ds ++ ds').length).map sideVar := by
  rw [defined_append, h.names, h'.names, h.next, ← map_append, List.range'_append_1,
    length_append]

theorem next_append {bound' : List String} (h : Extracts bound inOld es outs ds n m)
    (h' : Extracts bound' inOld es' outs' ds' m k) : k = n + (ds ++ ds').length := by
  rw [h'.next, h.next, length_append, Nat.add_assoc]

/-- Formulas that stay as they are. -/
theorem refl (es : List Formula) (n : Nat) : Extracts bound inOld es es [] n n where
  next := rfl
  names := rfl
  free _ hx := .inl hx
  ordered := trivial
  operations _ hd := absurd hd not_mem_nil
  meaning _ _ _ _ _ _ _ := rfl

/-- Formulas one after the other. -/
theorem append (h : Extracts bound inOld es outs ds n m) (h' : Extracts bound inOld es' outs' ds' m k) :
    Extracts bound inOld (es ++ es') (outs ++ outs') (ds ++ ds') n k where
  next := h.next_append h'
  names := h.names_append h'
  free x hx := by
    rw [occurrencesAll_append, mem_append] at hx
    rw [occurrencesAll_append, mem_append, defined_append, mem_append]
    rcases hx with hx | hx
    · exact (h.free x hx).imp .inl .inl
    · exact (h'.free x hx).imp .inr .inr
  ordered := by
    refine (h.ordered.mono fun x hx => ?_).append (h'.ordered.mono fun x hx => .inl ?_)
    · exact ⟨by simp [occurrencesAll_append, hx.1], hx.2⟩
    · exact ⟨by simp [occurrencesAll_append, hx.1], hx.2⟩
  operations d hd := (mem_append.mp hd).elim (h.operations d) (h'.operations d)
  meaning P C pre cur hunbound hsolved hinside := by
    rw [map_append, map_append,
      h.meaning P C pre cur (hunbound.mono le_rfl (by simp)) hsolved.left hinside,
      h'.meaning P C pre cur (hunbound.mono h.le (by simp)) hsolved.right hinside]

/-- A formula that is made alike of what its parts turn into. -/
theorem node {f g : Formula} (h : Extracts bound inOld es outs ds n m) (hfg : Alike es outs f g) :
    Extracts bound inOld [f] [g] ds n m where
  next := h.next
  names := h.names
  free x hx := by
    rw [occurrencesAll_singleton, hfg.symm.mem_occurrences] at hx
    rw [occurrencesAll_singleton, hfg.mem_occurrences]
    exact h.free x hx
  ordered := h.ordered.mono fun x hx => by
    rw [occurrencesAll_singleton, hfg.mem_occurrences]
    exact hx
  operations := h.operations
  meaning P C pre cur hunbound hsolved hinside := by
    have hparts : Unbound n bound es := fun k hk => ⟨(hunbound k hk).1, fun e he hx =>
      (hunbound k hk).2 f (mem_singleton_self f) (hfg.binders_subset he hx)⟩
    rw [map_singleton, map_singleton,
      hfg.eval_eq (h.meaning P C pre cur hparts hsolved hinside)]

/-- A formula under `old`: both states are the first there. -/
theorem old {x x' : Formula} (h : Extracts bound true [x] [x'] ds n m) (inOld : Bool) :
    Extracts bound inOld [.old x] [.old x'] ds n m where
  next := h.next
  names := h.names
  free y hy := by simpa [Formula.occurrences] using h.free y (by simpa [Formula.occurrences] using hy)
  ordered := h.ordered.mono fun y hy => by simpa [Formula.occurrences] using hy
  operations := h.operations
  meaning P C pre cur hunbound hsolved hinside := by
    have hunbound' : Unbound n bound [x] := fun k hk => by
      simpa [Formula.binders] using hunbound k hk
    have hx := h.meaning P C pre pre hunbound' hsolved fun y hy =>
      ⟨(hinside y hy).1, (hinside y hy).1⟩
    rw [map_singleton, map_singleton, Model.eval, Model.eval, singleton_inj.mp hx]

/-- A quantified formula: its variables are bound in the body and not in the domain. -/
theorem quant {vars : List String} {domain domain' body body' : Formula}
    (h : Extracts bound inOld [domain] [domain'] ds n m)
    (h' : Extracts (bound ++ vars) inOld [body] [body'] ds' m k) (kind : Formula.Quantifier) :
    Extracts bound inOld [.quant kind vars domain body] [.quant kind vars domain' body'] (ds ++ ds')
      n k where
  next := h.next_append h'
  names := h.names_append h'
  free x hx := by
    have hdomain := h.free x
    have hbody := h'.free x
    simp only [occurrencesAll_singleton, Formula.occurrences, nil_append, mem_append,
      Formula.mem_occurrences vars, defined_append] at hx hdomain hbody ⊢
    tauto
  ordered := by
    have hdomain := h.ordered.mono fun x hx => (show
        x ∈ occurrencesAll [] [Formula.quant kind vars domain body] ∧ x ∉ bound by
      refine ⟨?_, hx.2⟩
      simp only [occurrencesAll_singleton, Formula.occurrences, mem_append] at hx ⊢
      exact .inl hx.1)
    refine hdomain.append (h'.ordered.mono fun x hx => .inl ?_)
    simp only [occurrencesAll_singleton, Formula.occurrences, nil_append, mem_append,
      Formula.mem_occurrences vars, not_or] at hx ⊢
    exact ⟨.inr ⟨hx.1, hx.2.2⟩, hx.2.1⟩
  operations d hd := (mem_append.mp hd).elim (h.operations d) (h'.operations d)
  meaning P C pre cur hunbound hsolved hinside := by
    have hquant : ∀ k, n ≤ k → sideVar k ∉ bound ∧ sideVar k ∉ vars ∧ sideVar k ∉ domain.binders ∧
        sideVar k ∉ body.binders := fun k hk => by
      simpa [Formula.binders, and_assoc] using hunbound k hk
    have hdomain := h.meaning P C pre cur
      (fun k hk => by simpa using ⟨(hquant k hk).1, (hquant k hk).2.2.1⟩) hsolved.left hinside
    rw [map_singleton, map_singleton, Model.eval, Model.eval, singleton_inj.mp hdomain]
    refine congrArg (fun p => [Model.truth _ p]) (propext (Model.asks_congr kind fun vals _ => ?_))
    -- Inside the quantifier the states differ from those outside at its variables only.
    have hinside' : Inside (bound ++ vars) inOld P C (Model.bind _ pre vars vals)
        (Model.bind _ cur vars vals) := by
      intro x hx
      obtain ⟨hb, hv⟩ := not_or.mp (mt mem_append.mpr hx)
      rw [Model.bind_of_not_mem hv, Model.bind_of_not_mem hv]
      exact hinside x hb
    have hunbound' : Unbound m (bound ++ vars) [body] := fun k hk => by
      obtain ⟨hb, hv, -, hbody⟩ := hquant k (h.le.trans hk)
      simpa using ⟨⟨hb, hv⟩, hbody⟩
    rw [singleton_inj.mp (h'.meaning P C _ _ hunbound' hsolved.right hinside')]

/-- **An operation that gets a name.**  It mentions nothing that is bound around it, so that it has the
same value outside of all binders. -/
theorem named {f g : Formula} (h : Extracts bound inOld [f] [g] ds n m)
    (hop : (operation? g).isSome = true) (hfree : ∀ x ∈ g.freeNames, x ∉ bound) :
    Extracts bound inOld [f] [.ident (sideVar m)]
      (ds ++ [⟨sideVar m, if inOld then .old g else g⟩]) n (m + 1) where
  next := by rw [h.next, length_append, length_singleton, Nat.add_assoc]
  names := by
    rw [defined_append, h.names, length_append, length_singleton, List.range'_concat,
      map_append, h.next]
    simp
  free x hx := by
    obtain rfl : x = sideVar m := by simpa [Formula.occurrences] using hx
    simp
  ordered := by
    refine h.ordered.append ⟨fun x hx => ?_, trivial⟩
    have hxg : x ∈ g.freeNames := by
      cases inOld <;> simpa [Formula.mem_freeNames, Formula.occurrences] using hx
    have hfrom := h.free x (by simpa using Formula.mem_freeNames.mp hxg)
    exact hfrom.imp_left fun hxf => ⟨hxf, hfree x hxg⟩
  operations d hd := by
    rcases mem_append.mp hd with hd | hd
    · exact h.operations d hd
    · obtain rfl := mem_singleton.mp hd
      refine ⟨g, ?_, hop⟩
      cases inOld
      · exact .inl rfl
      · exact .inr rfl
  meaning P C pre cur hunbound hsolved hinside := by
    obtain ⟨hsame, hvalue⟩ := hsolved.right _ (mem_singleton_self _)
    have hcur : cur (sideVar m) = C (sideVar m) := by
      rw [(hinside _ (hunbound m h.le).1).2]
      split
      · exact hsame
      · rfl
    -- Outside of all binders the operation is read in the states that `Inside` compares with.
    have houter : Model.eval _ P C (if inOld then .old g else g) =
        Model.eval _ P (fun x => if inOld then P x else C x) g := by
      cases inOld
      · rfl
      · rw [if_pos rfl, Model.eval]
        rfl
    have hinner : Model.eval _ pre cur g = Model.eval _ P (fun x => if inOld then P x else C x) g :=
      Model.eval_congr fun x hx => hinside x (hfree x hx)
    rw [← h.meaning P C pre cur hunbound hsolved.left hinside, map_singleton, map_singleton,
      Model.eval, hcur, hvalue, houter, hinner]

end Extracts

/-! ## Taking operations out -/

theorem Takes.extracts (h : Takes bound inOld es outs ds n m) : Extracts bound inOld es outs ds n m := by
  induction h with
  | nil => exact .refl [] _
  | cons _ _ he hes => exact he.append hes
  | ident name => exact .refl [.ident name] _
  | int value => exact .refl [.int value] _
  | kept _ hfg _ ih => exact ih.node hfg
  | named _ hfg hop hfree ih => exact (ih.node hfg).named hop hfree
  | quant kind _ _ hx hy => exact hx.quant hy kind
  | old _ ih => exact ih.old _

/-- **Taking the operations out of a formula** keeps its value. -/
theorem extract_extracts (bound : List String) (inOld : Bool) (e : Formula) (n : Nat) :
    Extracts bound inOld [e] [((extract bound inOld e).run n).1.1] ((extract bound inOld e).run n).1.2 n
      ((extract bound inOld e).run n).2 :=
  (extract_takes bound inOld e n).extracts

end Relspec.Arithmetic
