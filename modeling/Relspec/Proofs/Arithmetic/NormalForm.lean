import Relspec.Proofs.Arithmetic.SideVariables

/-!
# Proofs/Arithmetic/NormalForm — what is left once operations are taken out, and back again

An operation is looked at when its operands are done, so that what it mentions then is what it mentions
in the end.  One that stays depends on a variable that is bound around it; inside a definition that
variable is bound in the definition, since the operation as a whole depends on none around it.

* `Formula.nodes` — the parts of a formula, with the names that are bound around them;
* `Inlined` — operations stay only for a variable that is bound around them;
* `restore` — the operations put back for their variables;
* `extractPart_normal` — what is left has the normal form, and is the formula when the operations are back.
-/

namespace Relspec

open List

namespace Formula

mutual

/-- **The parts of a formula**, itself first, each with the names that quantifiers bind around it. -/
def nodes (bound : List String) : Formula → List (List String × Formula)
  | .ident name => [(bound, .ident name)]
  | .int value => [(bound, .int value)]
  | .join l r => (bound, .join l r) :: (l.nodes bound ++ r.nodes bound)
  | .call name args => (bound, .call name args) :: nodesAll bound args
  | .unary op x => (bound, .unary op x) :: x.nodes bound
  | .binary op x y => (bound, .binary op x y) :: (x.nodes bound ++ y.nodes bound)
  | .quant kind vars domain body =>
    (bound, .quant kind vars domain body) :: (domain.nodes bound ++ body.nodes (bound ++ vars))
  | .old x => (bound, .old x) :: x.nodes bound
  | .ite c t e => (bound, .ite c t e) :: (c.nodes bound ++ t.nodes bound ++ e.nodes bound)

/-- The parts of several formulas. -/
def nodesAll (bound : List String) : List Formula → List (List String × Formula)
  | [] => []
  | x :: xs => x.nodes bound ++ nodesAll bound xs

end

theorem nodesAll_eq_flatMap (bound : List String) (es : List Formula) :
    nodesAll bound es = es.flatMap (nodes bound) := by
  induction es with
  | nil => rfl
  | cons e es ih => rw [nodesAll, flatMap_cons, ih]

theorem nodes_append (bound inner : List String) (f : Formula) :
    f.nodes (bound ++ inner) = (f.nodes inner).map fun p => (bound ++ p.1, p.2) := by
  induction f generalizing inner with
  | call name args ih =>
    simp only [nodes, nodesAll_eq_flatMap, map_cons, map_flatMap]
    rw [flatMap_congr fun a ha => ih a ha inner]
  | quant kind vars _ _ ihd ihb => simp [nodes, ihd, ← ihb, append_assoc]
  | _ => simp_all [nodes]

/-- A name that is free in a part, and not bound around it, is free in the formula. -/
theorem mem_occurrences_of_mem_nodes {p : List String × Formula} {x : String} {bound : List String}
    {f : Formula} (hp : p ∈ f.nodes bound) (hx : x ∈ p.2.freeNames) (hb : x ∉ p.1) :
    x ∈ f.occurrences bound := by
  have hself : ∀ {bound f}, p = (bound, f) → x ∈ f.occurrences bound := by
    rintro bound f rfl
    exact (mem_occurrences bound f).mpr ⟨mem_freeNames.mp hx, hb⟩
  induction f generalizing bound with
  | ident | int => exact hself (mem_singleton.mp hp)
  | call name args ih =>
    refine (mem_cons.mp hp).elim hself fun hp => ?_
    rw [nodesAll_eq_flatMap] at hp
    obtain ⟨a, ha, hp⟩ := mem_flatMap.mp hp
    exact mem_occurrencesAll_iff.mpr ⟨a, ha, ih a ha hp⟩
  | _ =>
    refine (mem_cons.mp hp).elim hself fun hp => ?_
    simp only [occurrences, mem_append] at hp ⊢
    tauto

/-- A substitution changes nothing where no name that it replaces is free. -/
theorem rebuild_substituteNode_of_free {σ : Table Formula} {bound : List String} {f : Formula}
    (h : ∀ x ∈ f.occurrences bound, σ.find? x = none) : f.rebuild (substituteNode σ) bound = f := by
  induction f generalizing bound with
  | ident name =>
    rw [rebuild, substituteNode]
    split
    · rfl
    · next hname => rw [h name (by rw [occurrences, if_neg hname]; exact mem_singleton_self name),
        Option.getD_none]
  | call name args ih =>
    rw [rebuild, rebuildAll_eq_map]
    have hargs : ∀ a ∈ args, a.rebuild (substituteNode σ) bound = a := fun a ha =>
      ih a ha fun x hx => h x (mem_occurrencesAll_iff.mpr ⟨a, ha, hx⟩)
    rw [map_congr_left hargs, map_id', substituteNode]
    nofun
  | _ => simp_all [rebuild, occurrences, substituteNode]

/-- Binders of names that a substitution does not replace make no difference to it. -/
theorem rebuild_substituteNode_append {σ : Table Formula} {bound : List String}
    (h : ∀ x ∈ bound, σ.find? x = none) (inner : List String) (f : Formula) :
    f.rebuild (substituteNode σ) (bound ++ inner) = f.rebuild (substituteNode σ) inner := by
  have hnode : ∀ inner f, substituteNode σ (bound ++ inner) f = substituteNode σ inner f := by
    intro inner f
    cases f with
    | ident name =>
      by_cases hname : name ∈ bound
      · simp [substituteNode, hname, h name hname]
      · simp [substituteNode, hname]
    | _ => rfl
  induction f generalizing inner with
  | call name args ih =>
    rw [rebuild, rebuild, rebuildAll_eq_map, rebuildAll_eq_map, hnode,
      map_congr_left fun a ha => ih a ha inner]
  | quant kind vars _ _ ihd ihb => rw [rebuild, rebuild, ihd, append_assoc, ihb, hnode]
  | _ => simp_all [rebuild]

end Formula

namespace Arithmetic

open Formula (nodes nodes_append nodesAll_eq_flatMap mem_freeNames mem_occurrencesAll_iff substitute rebuild
  binders)
open Relational (operation?)

variable {bound vars : List String} {inOld : Bool} {n m k : Nat} {ds ds' : List Definition}
  {es outs es' outs' : List Formula} {e f g : Formula}

/-! ## Operations that stay -/

/-- **Operations stay in a formula only for a variable that is bound around them**, by a quantifier of the
formula or among `bound`. -/
def Inlined (bound : List String) (f : Formula) : Prop :=
  ∀ p ∈ f.nodes bound, (operation? p.2).isSome = true → ∃ x ∈ p.2.freeNames, x ∈ p.1

/-- **The normal form of definitions**: a side variable is one operation, perhaps under `old`, with others
in it only for a variable that is bound around them. -/
def Definition.Normal (d : Definition) : Prop :=
  ∃ k g, d.name = sideVar k ∧ (d.value = g ∨ d.value = .old g) ∧ (operation? g).isSome = true ∧
    ∀ p ∈ d.equation.nodes [], p.2 ≠ g → (operation? p.2).isSome = true → ∃ x ∈ p.2.freeNames, x ∈ p.1

theorem Alike.nodes_eq (h : Alike es outs f g) (bound : List String) :
    f.nodes bound = (bound, f) :: es.flatMap (nodes bound) := by
  cases h <;> simp [nodes, nodesAll_eq_flatMap]

/-- Without the names around it, a formula that mentions none of them keeps its operations for others. -/
theorem Inlined.outside (h : Inlined bound f) (hfree : ∀ x ∈ f.freeNames, x ∉ bound) : Inlined [] f := by
  intro p hp hop
  have hmem : (bound ++ p.1, p.2) ∈ f.nodes bound := by
    have hnodes := nodes_append bound [] f
    rw [append_nil] at hnodes
    rw [hnodes]
    exact mem_map_of_mem hp
  obtain ⟨x, hx, hbound⟩ := h _ hmem hop
  rcases mem_append.mp hbound with hbound | hinner
  · by_contra hno
    refine hfree x (mem_freeNames.mpr ?_) hbound
    exact Formula.mem_occurrences_of_mem_nodes hp hx fun hp => hno ⟨x, hx, hp⟩
  · exact ⟨x, hx, hinner⟩

theorem Takes.normal (h : Takes bound inOld es outs ds n m) :
    (∀ f ∈ outs, Inlined bound f) ∧ ∀ d ∈ ds, d.Normal := by
  induction h with
  | nil => exact ⟨forall_mem_nil _, forall_mem_nil _⟩
  | cons _ _ ihe ihes =>
    exact ⟨forall_mem_cons.mpr ⟨forall_mem_singleton.mp ihe.1, ihes.1⟩,
      forall_mem_append.mpr ⟨ihe.2, ihes.2⟩⟩
  | ident name | int value => exact ⟨by simp [Inlined, nodes, operation?], forall_mem_nil _⟩
  | kept _ hfg hkept ih =>
    refine ⟨forall_mem_singleton.mpr fun p hp => ?_, ih.2⟩
    rw [hfg.symm.nodes_eq] at hp
    rcases mem_cons.mp hp with rfl | hp
    · exact hkept
    · obtain ⟨a, ha, hp⟩ := mem_flatMap.mp hp
      exact ih.1 a ha p hp
  | @named bound inOld es outs ds n m f g _ hfg hop hfree ih =>
    refine ⟨by simp [Inlined, nodes, operation?], forall_mem_append.mpr
      ⟨ih.2, forall_mem_singleton.mpr ⟨m, g, rfl, ?_, hop, fun p hp hne => ?_⟩⟩⟩
    · cases inOld
      · exact .inl rfl
      · exact .inr rfl
    -- Around the operation stand the equation, the variable and perhaps `old`, and none of them is one.
    have hp : (operation? p.2).isSome = true → p ∈ g.nodes [] := by
      cases inOld <;> simp only [Definition.equation, Formula.eq, nodes, Bool.false_eq_true, if_false, if_true,
        mem_cons, mem_append, not_mem_nil, or_false] at hp <;> grind [operation?]
    intro hsome
    have hp := hp hsome
    rw [hfg.symm.nodes_eq] at hp
    rcases mem_cons.mp hp with rfl | hp
    · exact absurd rfl hne
    · obtain ⟨a, ha, hp⟩ := mem_flatMap.mp hp
      refine (ih.1 a ha).outside (fun x hx => hfree x ?_) p hp hsome
      rw [mem_freeNames, hfg.symm.mem_occurrences, mem_occurrencesAll_iff]
      exact ⟨a, ha, mem_freeNames.mp hx⟩
  | quant kind _ _ ihx ihy =>
    refine ⟨forall_mem_singleton.mpr fun p hp => ?_, forall_mem_append.mpr ⟨ihx.2, ihy.2⟩⟩
    rcases mem_cons.mp hp with rfl | hp
    · exact fun hsome => absurd hsome Bool.false_ne_true
    · exact (mem_append.mp hp).elim (forall_mem_singleton.mp ihx.1 p)
        (forall_mem_singleton.mp ihy.1 p)
  | old _ ih =>
    refine ⟨forall_mem_singleton.mpr fun p hp => ?_, ih.2⟩
    rcases mem_cons.mp hp with rfl | hp
    · exact fun hsome => absurd hsome Bool.false_ne_true
    · exact forall_mem_singleton.mp ih.1 p hp

/-! ## Operations put back -/

/-- The operation that a definition is about. -/
def Definition.operation (d : Definition) : Formula :=
  match d.value with
  | .old g => g
  | g => g

/-- **Puts the operations back** for their variables, the last one first. -/
def restore : List Definition → Formula → Formula
  | [], f => f
  | d :: ds, f => (restore ds f).substitute ⟨[(d.name, d.operation)]⟩

theorem restore_append (ds ds' : List Definition) (f : Formula) :
    restore (ds ++ ds') f = restore ds (restore ds' f) := by
  induction ds with
  | nil => rfl
  | cons d ds ih => rw [cons_append, restore, restore, ih]

theorem find?_operation_of_ne {d : Definition} {x : String} (h : x ≠ d.name) :
    (Table.mk [(d.name, d.operation)]).find? x = none := by
  rw [Table.find?, lookup_cons, beq_false_of_ne h]
  rfl

theorem restore_of_free (h : ∀ x ∈ f.freeNames, x ∉ defined ds) : restore ds f = f := by
  induction ds with
  | nil => rfl
  | cons d ds ih =>
    rw [restore, ih fun x hx => mt (mem_cons_of_mem _) (h x hx)]
    refine Formula.rebuild_substituteNode_of_free fun x hx => find?_operation_of_ne ?_
    rintro rfl
    exact h _ (mem_freeNames.mpr hx) mem_cons_self

theorem Alike.restore (h : Alike es outs f g) (ds : List Definition) :
    Alike es (outs.map (restore ds)) f (restore ds g) := by
  have hstep : ∀ {outs g}, Alike es outs f g → ∀ σ,
      Alike es (outs.map (·.substitute σ)) f (g.substitute σ) := by
    intro outs g h σ
    cases h with
    | call name =>
      rw [substitute, rebuild, Formula.rebuildAll_eq_map]
      exact .call ..
    | _ => constructor
  induction ds with
  | nil => exact (map_id' outs).symm ▸ h
  | cons d ds ih =>
    have hnext := hstep ih ⟨[(d.name, d.operation)]⟩
    rw [map_map] at hnext
    exact hnext

theorem restore_old (ds : List Definition) (f : Formula) : restore ds (.old f) = .old (restore ds f) := by
  induction ds with
  | nil => rfl
  | cons d ds ih =>
    rw [restore, ih]
    rfl

theorem restore_quant (h : ∀ x ∈ vars, x ∉ defined ds) (kind : Formula.Quantifier) (f g : Formula) :
    restore ds (.quant kind vars f g) = .quant kind vars (restore ds f) (restore ds g) := by
  induction ds with
  | nil => rfl
  | cons d ds ih =>
    have hvars : ∀ x ∈ vars, (Table.mk [(d.name, d.operation)]).find? x = none := fun x hx =>
      find?_operation_of_ne fun hxd => h x hx (hxd ▸ mem_cons_self)
    rw [restore, ih fun x hx => mt (mem_cons_of_mem _) (h x hx),
      substitute, rebuild, nil_append, ← append_nil vars,
      Formula.rebuild_substituteNode_append hvars]
    rfl

/-- The variables of definitions are numbered from `n` on and below `m`. -/
theorem Extracts.mem_defined (h : Extracts bound inOld es outs ds n m) {x : String} (hx : x ∈ defined ds) :
    ∃ j, n ≤ j ∧ j < m ∧ x = sideVar j := by
  rw [h.names] at hx
  obtain ⟨j, hj, rfl⟩ := mem_map.mp hx
  rw [mem_range'_1, ← h.next] at hj
  exact ⟨j, hj.1, hj.2, rfl⟩

/-- **Operations of formulas one after the other**: the variables of each occur in what is left of it
only. -/
theorem Extracts.restore_append {bound' : List String} (h : Extracts bound inOld es outs ds n m)
    (h' : Extracts bound' inOld es' outs' ds' m k) (hes : outs.map (restore ds) = es)
    (hes' : outs'.map (restore ds') = es') (hunused : ∀ e ∈ es ++ es', Unused n e) :
    outs.map (restore (ds ++ ds')) = es ∧ outs'.map (restore (ds ++ ds')) = es' := by
  obtain ⟨hunused, hunused'⟩ := forall_mem_append.mp hunused
  constructor
  · conv_rhs => rw [← hes]
    refine map_congr_left fun o ho => ?_
    have hkept : Arithmetic.restore ds' o = o := restore_of_free fun x hx hx' => ?_
    · rw [Arithmetic.restore_append, hkept]
    obtain ⟨j, hle, -, rfl⟩ := h'.mem_defined hx'
    have hfrom := h.free (sideVar j) (mem_occurrencesAll_iff.mpr ⟨o, ho, mem_freeNames.mp hx⟩)
    rcases hfrom with hfrom | hfrom
    · obtain ⟨e, he, hx⟩ := mem_occurrencesAll_iff.mp hfrom
      exact (hunused e he j (h.le.trans hle)).1 (mem_freeNames.mpr hx)
    · obtain ⟨i, -, hlt, hij⟩ := h.mem_defined hfrom
      have := sideVar_injective hij
      omega
  · have hmap : outs'.map (restore (ds ++ ds')) = es'.map (restore ds) := by
      rw [← hes', map_map]
      exact map_congr_left fun o _ => Arithmetic.restore_append ds ds' o
    rw [hmap]
    refine (map_congr_left fun e he => restore_of_free fun x hx hx' => ?_).trans (map_id' es')
    obtain ⟨j, hle, -, rfl⟩ := h.mem_defined hx'
    exact (hunused' e he j hle).1 hx

theorem Alike.unused (h : Alike es outs f g) (hf : Unused n f) : ∀ e ∈ es, Unused n e := fun e he k hk =>
  ⟨fun hx => (hf k hk).1 (mem_freeNames.mpr (h.mem_occurrences.mpr
    (mem_occurrencesAll_iff.mpr ⟨e, he, mem_freeNames.mp hx⟩))),
    fun hx => (hf k hk).2 (h.binders_subset he hx)⟩

theorem Alike.restore_eq (h : Alike es outs f g) (hes : outs.map (Arithmetic.restore ds) = es) :
    Arithmetic.restore ds g = f := by
  have heq : ∀ {g}, Alike es es f g → g = f := by
    intro g h
    cases h <;> rfl
  exact heq (hes ▸ h.restore ds)

theorem Unused.mono (h : Unused n e) (hle : n ≤ m) : Unused m e := fun k hk => h k (hle.trans hk)

theorem Unused.quant {kind : Formula.Quantifier} (h : Unused n (.quant kind vars f g)) :
    (∀ k, n ≤ k → sideVar k ∉ vars) ∧ Unused n f ∧ Unused n g := by
  have hvars : ∀ k, n ≤ k → sideVar k ∉ vars := fun k hk hx => (h k hk).2 (by simp [binders, hx])
  refine ⟨hvars, fun k hk => ⟨fun hx => (h k hk).1 ?_, fun hx => (h k hk).2 ?_⟩,
    fun k hk => ⟨fun hx => (h k hk).1 ?_, fun hx => (h k hk).2 ?_⟩⟩ <;>
    simp_all [mem_freeNames, Formula.occurrences, Formula.mem_occurrences vars, binders]

/-- **The operations put back** for their variables give the formulas that they were taken out of. -/
theorem Takes.restore (h : Takes bound inOld es outs ds n m) (hunused : ∀ e ∈ es, Unused n e) :
    outs.map (restore ds) = es := by
  induction h with
  | nil => rfl
  | ident name => rfl
  | int value => rfl
  | cons he hes ihe ihes =>
    obtain ⟨hfirst, hrest⟩ := forall_mem_cons.mp hunused
    obtain ⟨hout, houts⟩ := he.extracts.restore_append hes.extracts
      (ihe (forall_mem_singleton.mpr hfirst))
      (ihes fun e he' => (hrest e he').mono he.extracts.le) hunused
    exact cons_eq_cons.mpr ⟨singleton_inj.mp hout, houts⟩
  | kept _ hfg _ ih =>
    have hparts := ih (hfg.unused (forall_mem_singleton.mp hunused))
    exact congrArg ([·]) (hfg.restore_eq hparts)
  | @named _ inOld _ _ ds _ m _ g _ hfg hop _ ih =>
    have hparts := ih (hfg.unused (forall_mem_singleton.mp hunused))
    have hoperation : (Definition.mk (sideVar m) (if inOld then .old g else g)).operation = g := by
      cases inOld
      · cases g <;> first | rfl | cases hop
      · rfl
    have hvar : Arithmetic.restore [⟨sideVar m, if inOld then .old g else g⟩] (.ident (sideVar m)) = g := by
      simp [Arithmetic.restore, substitute, rebuild, Formula.substituteNode, Table.find?,
        hoperation]
    rw [map_singleton, Arithmetic.restore_append, hvar, hfg.restore_eq hparts]
  | @quant _ _ x _ ds n _ vars y _ ds' _ kind hx hy ihx ihy =>
    obtain ⟨hbound, hx', hy'⟩ := (forall_mem_singleton.mp hunused).quant
    have hvars : ∀ z ∈ vars, z ∉ defined (ds ++ ds') := by
      intro z hz hmem
      obtain ⟨j, hle, -, rfl⟩ := (hx.extracts.quant hy.extracts kind).mem_defined hmem
      exact hbound j hle hz
    obtain ⟨hout, hout'⟩ := hx.extracts.restore_append hy.extracts (ihx (forall_mem_singleton.mpr hx'))
      (ihy (forall_mem_singleton.mpr (hy'.mono hx.extracts.le))) (by simpa using ⟨hx', hy'⟩)
    rw [map_singleton, restore_quant hvars, singleton_inj.mp hout, singleton_inj.mp hout']
  | old _ ih =>
    have hx := ih (by simpa [Unused, mem_freeNames, Formula.occurrences, binders] using hunused)
    rw [map_singleton, restore_old, singleton_inj.mp hx]

/-- **Taking the operations out of a formula brings it into normal form**, and loses nothing.  What is
left, and each definition, keeps operations only for variables that are bound around them there; a
definition is one operation, under `old` exactly where that stood.  If no new side variable occurred in the
formula, putting the operations back gives it. -/
theorem extractPart_normal (n : Nat) (origin : Origin) (e : Formula) :
    let ((out, ds), m) := (extract [] false e).run n
    (extractPart origin e).run n = ((out, sideOf origin ds), m) ∧ Takes [] false [e] [out] ds n m ∧
      Inlined [] out ∧ (∀ d ∈ ds, d.Normal) ∧ (Unused n e → restore ds out = e) := by
  have h := extract_takes [] false e n
  refine ⟨rfl, h, forall_mem_singleton.mp h.normal.1, h.normal.2, fun hunused => ?_⟩
  exact singleton_inj.mp (h.restore (forall_mem_singleton.mpr hunused))

/-- Three operations are taken out, and put back. -/
theorem extractPart_normal_doubled :
    Unused 4 doubled ∧ Inlined [] doubledRest ∧ restore
      [⟨"arith_4", .old (.binary (.arith .mul) (.ident "x") (.int 2))⟩, ⟨"arith_5", .unary .neg (.ident "y")⟩,
        ⟨"arith_6", .binary (.arith .sub) (.ident "arith_5") (.int 1)⟩] doubledRest = doubled := by
  have hunused : Unused 4 doubled := unused_of_stem 4 (by decide)
  obtain ⟨-, -, hinlined, -, hrestore⟩ := extractPart_normal 4 .ensures doubled
  exact ⟨hunused, hinlined, hrestore hunused⟩

end Arithmetic

end Relspec
