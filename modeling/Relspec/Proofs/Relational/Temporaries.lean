import Mathlib.Data.Set.Function
import Mathlib.Order.Interval.Set.Basic
import Relspec.Proofs.Relational.Flattening
import Relspec.Proofs.Relational.Modes
import Relspec.Proofs.Relational.Runs
import Relspec.Proofs.Text.Number

/-!
# Proofs/Relational/Temporaries — operations taken out of expressions

Temporaries are numbered in the order in which they are set, so an expression that is taken apart
between the numbers `n` and `m` sets those from `n` on and below `m`.  Whatever is set later has a number
from `m` on and leaves its value alone.

* `AgreeOff` — states that agree but for some temporaries;
* `Computes` — statements that work out the values of formulas;
* `Flattens.computes` — taking the operations out of an expression keeps its value.
-/

namespace Relspec.Relational

open List
open Model (eval evalAll evalAll_eq_map)
open Formula (rebuild mem_freeNames occurrences)

variable {M : Model} {pre σ τ ρ : M.Valuation}

/-! ## States that agree but for temporaries -/

theorem tempName_injective : Function.Injective tempName := fun _ _ => Text.append_toString_inj "t_"

/-- A temporary is none of those that come later. -/
theorem tempName_not_mem (m : ℕ) : tempName m ∈ (Set.image tempName (Set.Ici (m + 1)))ᶜ := by
  rintro ⟨k, hk, hkm⟩
  rw [tempName_injective hkm] at hk
  exact Nat.not_succ_le_self m hk

/-- **Two states agree but for the temporaries** with numbers in `s`. -/
def AgreeOff (s : Set ℕ) (σ τ : M.Valuation) : Prop := Set.EqOn σ τ (Set.image tempName s)ᶜ

namespace AgreeOff

variable {s t : Set ℕ}

theorem refl (s : Set ℕ) (σ : M.Valuation) : AgreeOff s σ σ := Set.eqOn_refl σ _

theorem symm (h : AgreeOff s σ τ) : AgreeOff s τ σ := Set.EqOn.symm h

theorem trans (h : AgreeOff s σ τ) (h' : AgreeOff s τ ρ) : AgreeOff s σ ρ := Set.EqOn.trans h h'

theorem mono (h : AgreeOff s σ τ) (hst : s ⊆ t) : AgreeOff t σ τ :=
  Set.EqOn.mono (Set.compl_subset_compl.mpr (Set.image_mono hst)) h

/-- A name that is none of temporaries. -/
theorem eq_of_not_isTemp (h : AgreeOff s σ τ) {x : String} (hx : isTemp x = false) : σ x = τ x := by
  refine h ?_
  rintro ⟨k, -, rfl⟩
  rw [isTemp_tempName] at hx
  cases hx

theorem eval_eq (h : AgreeOff s σ τ) {f : Formula} (hf : TempFree f) :
    M.eval pre σ f = M.eval pre τ f :=
  Model.eval_congr fun x hx => ⟨rfl, h.eq_of_not_isTemp (hf x hx)⟩

theorem update (h : AgreeOff s σ τ) (x : String) (v : M.Value) :
    AgreeOff s (Function.update σ x v) (Function.update τ x v) := by
  intro y hy
  by_cases hyx : y = x
  · rw [hyx, Function.update_self, Function.update_self]
  · rw [Function.update_of_ne hyx, Function.update_of_ne hyx, h hy]

theorem setTemp (σ : M.Valuation) {n : ℕ} (hn : n ∈ s) (v : M.Value) :
    AgreeOff s σ (Function.update σ (tempName n) v) := by
  intro x hx
  rw [Function.update_of_ne]
  rintro rfl
  exact hx ⟨n, hn, rfl⟩

end AgreeOff

/-! ## Operations as calls -/

theorem eval_functionCall (op : ArithOp) (a b : Formula) :
    M.eval pre σ (functionCall op a b) = M.call op.function [M.eval pre σ a, M.eval pre σ b] := by
  rw [functionCall, eval, evalAll, evalAll, evalAll]

theorem eval_of_operation? {f a b : Formula} {op : ArithOp} (h : operation? f = some (op, a, b)) :
    M.eval pre σ f = M.call op.function [M.eval pre σ a, M.eval pre σ b] := by
  unfold operation? at h
  split at h
  · cases h
    rw [eval, Model.binary]
  · cases h
    simp only [eval, Model.unary]
  · cases h

theorem eval_inlineNode (f : Formula) : M.eval pre σ (inlineNode f) = M.eval pre σ f := by
  unfold inlineNode
  split
  · next op a b h => rw [eval_functionCall, eval_of_operation? h]
  · rfl

/-- **Calls for operations have the same value.** -/
theorem eval_inline (f : Formula) : M.eval pre σ (inline f) = M.eval pre σ f := by
  suffices h : ∀ (bound : List String) (pre σ : M.Valuation),
      M.eval pre σ (f.rebuild (fun _ n => inlineNode n) bound) = M.eval pre σ f from h [] pre σ
  induction f with
  | ident | int => simp only [rebuild, eval_inlineNode, implies_true]
  | call _ args ih =>
    intro bound pre σ
    simp only [rebuild, eval_inlineNode, eval, evalAll_eq_map, Formula.rebuildAll_eq_map,
      map_map]
    exact congrArg _ (map_congr_left fun a ha => ih a ha bound pre σ)
  | unary _ _ ih | old _ ih => simp only [rebuild, eval_inlineNode, eval, ih, implies_true]
  | join _ _ ihl ihr | binary _ _ _ ihl ihr =>
    simp only [rebuild, eval_inlineNode, eval, ihl, ihr, implies_true]
  | quant _ _ _ _ ihd ihb => simp only [rebuild, eval_inlineNode, eval, ihd, ihb, implies_true]
  | ite _ _ _ ihc iht ihe =>
    simp only [rebuild, eval_inlineNode, eval, ihc, iht, ihe, implies_true]

/-! ## Statements that work out values -/

/-- The predicate of an operation gives the value of its function. -/
theorem result_predicate (op : ArithOp) (a b : M.Value) :
    Spec.result M op.predicate [a, b] = M.call op.function [a, b] := by
  have hcall : M.holds (M.call op.predicate [a, b, M.call op.function [a, b]]) :=
    (M.arithPred op a b _).mpr rfl
  have hresult := @Classical.epsilon_spec _ (fun r => M.holds (M.call op.predicate ([a, b] ++ [r])))
    ⟨_, hcall⟩
  exact (M.arithPred op a b _).mp hresult

/-- A temporary is set to the value of an operation in either arithmetic. -/
theorem reaches_setTemp (pre : M.Valuation) (native : Bool) (op : ArithOp) (a b : Formula) (n : ℕ)
    (σ : M.Valuation) :
    (Stmt.runsAll M pre [setTemp native op a b (tempName n)]).Reaches σ
      (Function.update σ (tempName n) (M.call op.function [M.eval pre σ a, M.eval pre σ b])) := by
  rw [Stmt.runsAll_singleton, setTemp]
  split
  · rw [Stmt.runs, ← result_predicate]
    exact Runs.reaches_set _ _ σ
  · rw [Stmt.runs, ← eval_functionCall]
    exact Runs.reaches_set _ _ σ

/-- **The statements `ss` work out the values of the formulas `fs`**, which the formulas `gs` then have.
The temporaries that they set have numbers from `n` on and below `m`. -/
structure Computes (pre : M.Valuation) (fs gs : List Formula) (ss : List Stmt) (n m : ℕ) : Prop where
  le : n ≤ m
  reaches : ∀ σ, ∃ τ, (Stmt.runsAll M pre ss).Reaches σ τ ∧ AgreeOff (Set.Ico n m) σ τ ∧
    ∀ ρ, AgreeOff (Set.Ici m) τ ρ → gs.map (M.eval pre ρ) = fs.map (M.eval pre σ)

namespace Computes

variable {fs gs fs' gs' : List Formula} {ss ts : List Stmt} {n m k : ℕ}

/-- A formula that keeps its value needs no statement. -/
theorem of_eval_eq {f g : Formula} (hf : TempFree f) (h : ∀ ρ, M.eval pre ρ g = M.eval pre ρ f)
    (n : ℕ) : Computes pre [f] [g] [] n n where
  le := le_rfl
  reaches σ := by
    refine ⟨σ, Runs.reaches_skip σ, .refl _ σ, fun ρ hρ => ?_⟩
    rw [map_singleton, map_singleton, h, hρ.eval_eq hf]

theorem nil (n : ℕ) : Computes pre [] [] [] n n where
  le := le_rfl
  reaches σ := ⟨σ, Runs.reaches_skip σ, .refl _ σ, fun _ _ => rfl⟩

/-- Values that are worked out first are still there after others. -/
theorem append (h : Computes pre fs gs ss n m) (h' : Computes pre fs' gs' ts m k)
    (hfree : ∀ f ∈ fs', TempFree f) : Computes pre (fs ++ fs') (gs ++ gs') (ss ++ ts) n k where
  le := h.le.trans h'.le
  reaches σ := by
    obtain ⟨τ, hτ, hagree, hvalues⟩ := h.reaches σ
    obtain ⟨τ', hτ', hagree', hvalues'⟩ := h'.reaches τ
    refine ⟨τ', ?_, ?_, fun ρ hρ => ?_⟩
    · rw [Stmt.runsAll_append]
      exact hτ.andThen hτ'
    · exact (hagree.mono (Set.Ico_subset_Ico_right h'.le)).trans
        (hagree'.mono (Set.Ico_subset_Ico_left h.le))
    · -- What comes after `ss` sets temporaries from `m` on, and the formulas `fs'` hold none.
      have hlate : AgreeOff (Set.Ici m) τ ρ :=
        (hagree'.mono Set.Ico_subset_Ici_self).trans (hρ.mono (Set.Ici_subset_Ici.mpr h'.le))
      have hsame : fs'.map (M.eval pre τ) = fs'.map (M.eval pre σ) :=
        map_congr_left fun f hf => hagree.symm.eval_eq (hfree f hf)
      rw [map_append, map_append, hvalues ρ hlate, hvalues' ρ hρ, hsame]

/-- A formula whose value comes from those of its parts. -/
theorem node {f g : Formula} (h : Computes pre fs gs ss n m)
    (hnode : ∀ ρ σ, gs.map (M.eval pre ρ) = fs.map (M.eval pre σ) →
      M.eval pre ρ g = M.eval pre σ f) : Computes pre [f] [g] ss n m where
  le := h.le
  reaches σ := by
    obtain ⟨τ, hτ, hagree, hvalues⟩ := h.reaches σ
    refine ⟨τ, hτ, hagree, fun ρ hρ => ?_⟩
    rw [map_singleton, map_singleton, hnode ρ σ (hvalues ρ hρ)]

theorem unary {x x' : Formula} (h : Computes pre [x] [x'] ss n m) (op : Formula.UnaryOp) :
    Computes pre [.unary op x] [.unary op x'] ss n m :=
  h.node fun ρ σ hvalues => by rw [eval, eval, singleton_inj.mp hvalues]

theorem binary {x y x' y' : Formula} (h : Computes pre [x, y] [x', y'] ss n m)
    (op : Formula.BinaryOp) : Computes pre [.binary op x y] [.binary op x' y'] ss n m :=
  h.node fun ρ σ hvalues => by
    obtain ⟨hx, hy⟩ : _ ∧ _ := by simpa using hvalues
    rw [eval, eval, hx, hy]

theorem join {x y x' y' : Formula} (h : Computes pre [x, y] [x', y'] ss n m) :
    Computes pre [.join x y] [.join x' y'] ss n m :=
  h.node fun ρ σ hvalues => by
    obtain ⟨hx, hy⟩ : _ ∧ _ := by simpa using hvalues
    rw [eval, eval, hx, hy]

theorem ite {c t e c' t' e' : Formula} (h : Computes pre [c, t, e] [c', t', e'] ss n m) :
    Computes pre [.ite c t e] [.ite c' t' e'] ss n m :=
  h.node fun ρ σ hvalues => by
    obtain ⟨hc, ht, he⟩ : _ ∧ _ ∧ _ := by simpa using hvalues
    rw [eval, eval, hc, ht, he]

theorem call (h : Computes pre fs gs ss n m) (name : String) :
    Computes pre [.call name fs] [.call name gs] ss n m :=
  h.node fun ρ σ hvalues => by
    rw [eval, eval, evalAll_eq_map, evalAll_eq_map, hvalues]

/-- An operation that goes into the next temporary. -/
theorem temp {f x y x' y' : Formula} {op : ArithOp} (h : Computes pre [x, y] [x', y'] ss n m)
    (hf : operation? f = some (op, x, y)) (native : Bool) :
    Computes pre [f] [.ident (tempName m)] (ss ++ [setTemp native op x' y' (tempName m)]) n
      (m + 1) where
  le := h.le.trans (Nat.le_succ m)
  reaches σ := by
    obtain ⟨τ, hτ, hagree, hvalues⟩ := h.reaches σ
    have hxy := hvalues τ (.refl _ τ)
    simp only [map_cons, map_nil, List.cons.injEq, and_true] at hxy
    have hset := reaches_setTemp pre native op x' y' m τ
    rw [hxy.1, hxy.2, ← eval_of_operation? hf] at hset
    refine ⟨Function.update τ (tempName m) (M.eval pre σ f), ?_, ?_, fun ρ hρ => ?_⟩
    · rw [Stmt.runsAll_append]
      exact hτ.andThen hset
    · exact (hagree.mono (Set.Ico_subset_Ico_right (Nat.le_succ m))).trans
        (.setTemp τ (Set.mem_Ico.mpr ⟨h.le, Nat.lt_succ_self m⟩) _)
    · have hm : ρ (tempName m) = M.eval pre σ f := by
        rw [← hρ (tempName_not_mem m), Function.update_self]
      rw [map_singleton, map_singleton, eval, hm]

end Computes

/-! ## Expressions -/

section

variable {native : Bool}

theorem tempFree_binary {op : Formula.BinaryOp} {x y : Formula} :
    TempFree (.binary op x y) ↔ TempFree x ∧ TempFree y := by
  simp [TempFree, mem_freeNames, occurrences, or_imp, forall_and]

theorem tempFree_unary {op : Formula.UnaryOp} {x : Formula} :
    TempFree (.unary op x) ↔ TempFree x := by
  simp [TempFree, mem_freeNames, occurrences]

theorem tempFree_join {x y : Formula} : TempFree (.join x y) ↔ TempFree x ∧ TempFree y := by
  simp [TempFree, mem_freeNames, occurrences, or_imp, forall_and]

theorem tempFree_ite {c t e : Formula} :
    TempFree (.ite c t e) ↔ TempFree c ∧ TempFree t ∧ TempFree e := by
  simp [TempFree, mem_freeNames, occurrences, or_imp, forall_and]

theorem tempFree_call {name : String} {args : List Formula} :
    TempFree (.call name args) ↔ ∀ f ∈ args, TempFree f := by
  induction args with
  | nil => simp [TempFree, mem_freeNames, occurrences, Formula.occurrencesAll]
  | cons f fs ih =>
    rw [forall_mem_cons, ← ih]
    simp [TempFree, mem_freeNames, occurrences, Formula.occurrencesAll, or_imp,
      forall_and]

theorem tempFree_of_operation? {f x y : Formula} {op : ArithOp} (h : operation? f = some (op, x, y)) :
    TempFree f ↔ TempFree x ∧ TempFree y := by
  unfold operation? at h
  split at h
  · cases h
    exact tempFree_binary
  · cases h
    refine tempFree_unary.trans (and_iff_right ?_).symm
    simp [TempFree, mem_freeNames, occurrences]
  · cases h

/-- **Taking the operations out of expressions** works out their values. -/
theorem Flattens.computes {fs gs : List Formula} {ss : List Stmt} {n m : ℕ}
    (h : Flattens native fs gs ss n m) (hfree : ∀ f ∈ fs, TempFree f) : Computes pre fs gs ss n m := by
  induction h with
  | nil => exact .nil _
  | append _ _ ih ih' =>
    obtain ⟨hfs, hfs'⟩ := forall_mem_append.mp hfree
    exact (ih hfs).append (ih' hfs') hfs'
  | temp hf _ ih => exact (ih (by simpa [tempFree_of_operation? hf] using hfree)).temp hf native
  | binary _ _ ih => exact (ih (by simpa [tempFree_binary] using hfree)).binary _
  | unary _ _ ih => exact (ih (by simpa [tempFree_unary] using hfree)).unary _
  | join _ ih => exact (ih (by simpa [tempFree_join] using hfree)).join
  | call _ ih => exact (ih (by simpa [tempFree_call] using hfree)).call _
  | ite _ ih => exact (ih (by simpa [tempFree_ite] using hfree)).ite
  | quant => exact .of_eval_eq (by simpa using hfree) (fun _ => eval_inline _) _
  | old | ident | int => exact .of_eval_eq (by simpa using hfree) (fun _ => rfl) _

end

end Relspec.Relational
