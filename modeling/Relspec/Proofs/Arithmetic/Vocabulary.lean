import Relspec.Proofs.Arithmetic.Taking
import Relspec.Proofs.Formula.Vocabulary

/-!
# Proofs/Arithmetic/Vocabulary — what contracts speak of once their operations are taken out

Taking the operations out of a formula adds its side variables to what it speaks of.  A definition stands
outside every quantifier, and speaks of no variable of one.

* `Takes.over` — taking the operations out of formulas;
* `Side.Speaks` — a part of a contract over a vocabulary and its own side variables.
-/

namespace Relspec

open List
open Formula (Over OverAll Vocabulary)

namespace Arithmetic

variable {V : Vocabulary} {bound : List String} {o : Bool} {f : Formula} {ds : List Definition}

theorem sideVar_ne_return (n : Nat) : sideVar n ≠ "return" := fun h => by
  have hhead : (sideVar n).toList.head? = some 'a' := by simp [sideVar]
  rw [h] at hhead
  exact absurd hhead (by decide)

theorem prime_not_mem_sideVar (n : Nat) : '\'' ∉ (sideVar n).toList := by
  have hdigits : '\'' ∉ Nat.toDigits 10 n := fun h => absurd (Text.isDigit_of_mem_toDigits h) (by decide)
  have htext : (sideVar n).toList = "arith_".toList ++ Nat.toDigits 10 n := by simp [sideVar]
  rw [htext, mem_append]
  exact not_or.mpr ⟨by decide, hdigits⟩

/-- A definition of a side variable over a vocabulary. -/
def Definition.Over (V : Vocabulary) (d : Definition) : Prop :=
  (∃ n, d.name = sideVar n) ∧ d.equation.Over V [] false

theorem Alike.over {es outs : List Formula} {g : Formula} (h : Alike es outs f g) :
    f.Over V bound o ↔ OverAll V bound o es := by
  cases h <;> simp [Over, OverAll]

/-- **What is left of formulas** over a vocabulary that has the new side variables, and the definitions
taken out of them. -/
theorem Takes.over {es outs : List Formula} {n m : Nat} (h : Takes bound o es outs ds n m)
    (hes : OverAll V bound o es) (hnames : ∀ d ∈ ds, ∀ o, V.reads o d.name) :
    OverAll V bound o outs ∧ ∀ d ∈ ds, d.Over V := by
  induction h with
  | nil => exact ⟨trivial, nofun⟩
  | cons _ _ ihe ihes =>
    obtain ⟨hleft, hright⟩ := forall_mem_append.mp hnames
    obtain ⟨he, hds⟩ := ihe ⟨hes.1, trivial⟩ hleft
    obtain ⟨hes, hds'⟩ := ihes hes.2 hright
    exact ⟨⟨he.1, hes⟩, forall_mem_append.mpr ⟨hds, hds'⟩⟩
  | ident name => exact ⟨hes, nofun⟩
  | int value => exact ⟨hes, nofun⟩
  | kept _ hfg _ ih =>
    obtain ⟨houts, hds⟩ := ih (hfg.over.mp hes.1) hnames
    exact ⟨⟨hfg.symm.over.mpr houts, trivial⟩, hds⟩
  | @named bound o _ _ _ _ m _ g _ hfg _ hfree ih =>
    obtain ⟨hleft, hright⟩ := forall_mem_append.mp hnames
    obtain ⟨houts, hds⟩ := ih (hfg.over.mp hes.1) hleft
    have hname : ∀ o, V.reads o (sideVar m) := forall_mem_singleton.mp hright
    have hvalue := (hfg.symm.over.mpr houts).outside fun x hx hmem => hfree x hmem hx
    refine ⟨⟨.inr (hname o), trivial⟩, forall_mem_append.mpr ⟨hds, forall_mem_singleton.mpr ?_⟩⟩
    refine ⟨⟨m, rfl⟩, .inr (hname false), ?_⟩
    cases o <;> exact hvalue
  | quant kind _ _ ihx ihy =>
    obtain ⟨⟨hvars, hx, hy⟩, -⟩ := hes
    obtain ⟨hleft, hright⟩ := forall_mem_append.mp hnames
    obtain ⟨hx, hds⟩ := ihx ⟨hx, trivial⟩ hleft
    obtain ⟨hy, hds'⟩ := ihy ⟨hy, trivial⟩ hright
    exact ⟨⟨⟨hvars, hx.1, hy.1⟩, trivial⟩, forall_mem_append.mpr ⟨hds, hds'⟩⟩
  | old _ ih => exact ih hes hnames

end Arithmetic

/-! ## Parts of contracts -/

namespace Side

variable {V : Vocabulary} {s t : Side} {o : Origin} {f g : Formula}

theorem ofOrigin_append (s t : Side) (o : Origin) :
    (s ++ t).ofOrigin o = s.ofOrigin o ++ t.ofOrigin o :=
  congrArg₂ Side.mk (filter_append ..) (filter_append ..)

theorem names_append (s t : Side) (o : Origin) :
    ((s ++ t).ofOrigin o).names = (s.ofOrigin o).names ++ (t.ofOrigin o).names := by
  rw [ofOrigin_append]
  exact map_append ..

theorem formulas_append (s t : Side) (o : Origin) :
    ((s ++ t).ofOrigin o).formulas = (s.ofOrigin o).formulas ++ (t.ofOrigin o).formulas := by
  rw [ofOrigin_append]
  exact map_append ..

/-- The vocabulary of a part of a contract: with its own side variables. -/
def vocabulary (s : Side) (o : Origin) (V : Vocabulary) : Vocabulary :=
  V.adding (· ∈ (s.ofOrigin o).names)

/-- **The side variables of one origin and their definitions** over a vocabulary. -/
structure Defines (V : Vocabulary) (s : Side) (o : Origin) : Prop where
  names : ∀ x ∈ (s.ofOrigin o).names, ∃ n, x = Arithmetic.sideVar n
  formulas : ∀ d ∈ (s.ofOrigin o).formulas, d.Over (s.vocabulary o V) [] false

/-- **A part of a contract over a vocabulary** and its own side variables. -/
structure Speaks (V : Vocabulary) (s : Side) (o : Origin) (f : Formula) : Prop where
  formula : f.Over (s.vocabulary o V) [] false
  defines : s.Defines V o

theorem within_append_left : (s.vocabulary o V).Within ((s ++ t).vocabulary o V) :=
  Vocabulary.Within.adding (.refl V) fun _ hx => names_append s t o ▸ mem_append_left _ hx

theorem within_append_right : (t.vocabulary o V).Within ((s ++ t).vocabulary o V) :=
  Vocabulary.Within.adding (.refl V) fun _ hx => names_append s t o ▸ mem_append_right _ hx

theorem Defines.append (hs : s.Defines V o) (ht : t.Defines V o) : (s ++ t).Defines V o where
  names := by
    rw [names_append]
    exact forall_mem_append.mpr ⟨hs.names, ht.names⟩
  formulas := by
    rw [formulas_append]
    exact forall_mem_append.mpr ⟨fun d hd => (hs.formulas d hd).mono within_append_left,
      fun d hd => (ht.formulas d hd).mono within_append_right⟩

/-- Side variables of other origins. -/
theorem defines_of_ofOrigin_eq (h : s.ofOrigin o = {}) : s.Defines V o :=
  ⟨by rw [h]; exact nofun, by rw [h]; exact nofun⟩

namespace Speaks

/-- Two formulas of a part of a contract together. -/
theorem append (hf : Speaks V s o f) (hg : Speaks V t o g) : Speaks V (s ++ t) o (.all [f, g]) :=
  ⟨.all_pair (hf.formula.mono within_append_left) (hg.formula.mono within_append_right),
    hf.defines.append hg.defines⟩

theorem before (hf : Speaks V s o f) (ht : t.Defines V o) : Speaks V (s ++ t) o f :=
  ⟨hf.formula.mono within_append_left, hf.defines.append ht⟩

theorem after (hf : Speaks V t o f) (hs : s.Defines V o) : Speaks V (s ++ t) o f :=
  ⟨hf.formula.mono within_append_right, hs.append hf.defines⟩

end Speaks

end Side

namespace Arithmetic

theorem ofOrigin_sideOf (o : Origin) (ds : List Definition) : (sideOf o ds).ofOrigin o = sideOf o ds := by
  simp [sideOf, Side.ofOrigin]

theorem ofOrigin_sideOf_of_ne {o p : Origin} (h : p ≠ o) (ds : List Definition) :
    (sideOf p ds).ofOrigin o = {} := by
  simp [sideOf, Side.ofOrigin, h]

/-- **Taking the operations out of a part of a contract** over a vocabulary. -/
theorem extractPart_speaks {V : Vocabulary} {f : Formula} (h : f.Over V [] false) (o : Origin) (n : Nat) :
    Side.Speaks V ((extractPart o f).run n).1.2 o ((extractPart o f).run n).1.1 := by
  have hside : ((extractPart o f).run n).1.2 = sideOf o ((extract [] false f).run n).1.2 := rfl
  have hnames : ∀ d ∈ ((extract [] false f).run n).1.2, ∀ old,
      (((extractPart o f).run n).1.2.vocabulary o V).reads old d.name := fun d hd old => by
    refine .inl ?_
    rw [hside, ofOrigin_sideOf, Side.names, sideOf, map_map]
    exact mem_map_of_mem hd
  obtain ⟨hout, hds⟩ := (extract_takes [] false f n).over
    ⟨h.mono Formula.Vocabulary.within_adding, trivial⟩ hnames
  refine ⟨hout.1, ?_, ?_⟩
  · rw [hside, ofOrigin_sideOf, Side.names, sideOf, map_map]
    exact forall_mem_map.mpr fun d hd => (hds d hd).1
  · rw [hside, ofOrigin_sideOf, Side.formulas, sideOf, map_map]
    exact forall_mem_map.mpr fun d hd => (hds d hd).2

theorem extractPart_defines_of_ne {V : Vocabulary} {o p : Origin} (h : p ≠ o) (f : Formula) (n : Nat) :
    ((extractPart p f).run n).1.2.Defines V o := Side.defines_of_ofOrigin_eq (ofOrigin_sideOf_of_ne h _)

end Arithmetic

end Relspec
