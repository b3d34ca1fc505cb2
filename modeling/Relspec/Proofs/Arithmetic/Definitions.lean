import Mathlib.Logic.Function.Basic
import Relspec.Arithmetic.Extraction
import Relspec.Proofs.Formula.Meaning
import Relspec.Proofs.Text.Number

/-!
# Proofs/Arithmetic/Definitions — side variables are determined by their definitions

Definitions come in an order: each is over names that are known and the variables defined before it.
Such definitions have one solution, found from the front to the back.

* `Ordered` — definitions in order;
* `Solves` — values of the variables that make the equations true in both states;
* `existsUnique_solves` — there is exactly one solution.
-/

namespace Relspec.Arithmetic

open List

/-! ## Names of side variables -/

theorem sideVar_injective : Function.Injective sideVar := fun _ _ => Text.append_toString_inj "arith_"

/-- The variables that definitions define. -/
def defined (ds : List Definition) : List String := ds.map (·.name)

@[simp] theorem defined_nil : defined [] = [] := rfl

@[simp] theorem defined_cons (d : Definition) (ds : List Definition) :
    defined (d :: ds) = d.name :: defined ds := rfl

@[simp] theorem defined_append (ds es : List Definition) :
    defined (ds ++ es) = defined ds ++ defined es := map_append

/-! ## Definitions in order -/

/-- **Definitions in order**: each is over known names and the variables defined before it. -/
def Ordered (known : String → Prop) : List Definition → Prop
  | [] => True
  | d :: ds => (∀ x ∈ d.value.freeNames, known x) ∧ Ordered (fun x => known x ∨ x = d.name) ds

theorem Ordered.mono : ∀ {ds : List Definition} {known more : String → Prop}, Ordered known ds →
    (∀ x, known x → more x) → Ordered more ds
  | [], _, _, _, _ => trivial
  | _ :: _, _, _, h, hsub =>
    ⟨fun x hx => hsub x (h.1 x hx), h.2.mono fun x => Or.imp_left (hsub x)⟩

/-- Definitions after others may use what these define. -/
theorem Ordered.append : ∀ {ds es : List Definition} {known : String → Prop}, Ordered known ds →
    Ordered (fun x => known x ∨ x ∈ defined ds) es → Ordered known (ds ++ es)
  | [], _, _, _, h => h.mono fun x => by simp
  | d :: ds, es, known, h, h' => by
    refine ⟨h.1, h.2.append (h'.mono fun x => ?_)⟩
    rw [defined_cons, mem_cons, or_assoc]
    exact id

/-! ## Solutions -/

variable {M : Model} {pre cur : M.Valuation}

/-- **Values of the variables that solve their definitions**, the same in both states. -/
structure Solves (pre cur : M.Valuation) (ds : List Definition) (vals : List M.Value) : Prop where
  length_eq : vals.length = ds.length
  equations : ∀ d ∈ ds, M.holds (M.eval (M.bind pre (defined ds) vals) (M.bind cur (defined ds) vals)
    d.equation)

/-- Values can be given to variables one after the other. -/
theorem bind_cons (ρ : M.Valuation) {x : String} {xs : List String} (h : x ∉ xs) (v : M.Value)
    (vs : List M.Value) : M.bind ρ (x :: xs) (v :: vs) = M.bind (Function.update ρ x v) xs vs := by
  funext y
  by_cases hy : y = x
  · subst hy
    rw [Model.bind_of_not_mem h, Function.update_self]
    simp [Model.bind]
  · have hyx : (y == x) = false := by simpa using hy
    simp [Model.bind, lookup_cons, hyx, Function.update_of_ne hy]

theorem holds_equation (d : Definition) :
    M.holds (M.eval pre cur d.equation) ↔ cur d.name = M.eval pre cur d.value := by
  rw [Definition.equation, Model.holds_eq, Model.eval]

/-- The first of several definitions gives its variable a value, and the others go on from there. -/
theorem solves_cons {d : Definition} {ds : List Definition} {v : M.Value} {vals : List M.Value}
    (hname : d.name ∉ defined ds) (hvalue : ∀ x ∈ d.value.freeNames, x ∉ defined (d :: ds)) :
    Solves pre cur (d :: ds) (v :: vals) ↔
      v = M.eval pre cur d.value ∧
        Solves (Function.update pre d.name v) (Function.update cur d.name v) ds vals := by
  have hpre := bind_cons pre hname v vals
  have hcur := bind_cons cur hname v vals
  have hself : M.bind cur (defined (d :: ds)) (v :: vals) d.name = v := by
    rw [defined_cons, hcur, Model.bind_of_not_mem hname, Function.update_self]
  have hkept : M.eval (M.bind pre (defined (d :: ds)) (v :: vals))
      (M.bind cur (defined (d :: ds)) (v :: vals)) d.value = M.eval pre cur d.value :=
    Model.eval_congr fun x hx =>
      ⟨Model.bind_of_not_mem (hvalue x hx), Model.bind_of_not_mem (hvalue x hx)⟩
  constructor
  · rintro ⟨hlen, heqs⟩
    obtain ⟨hd, hds⟩ := forall_mem_cons.mp heqs
    rw [holds_equation, hself, hkept] at hd
    rw [defined_cons, hpre, hcur] at hds
    exact ⟨hd, by simpa using hlen, hds⟩
  · rintro ⟨hd, hlen, hds⟩
    refine ⟨by simp [hlen], forall_mem_cons.mpr ⟨?_, ?_⟩⟩
    · rw [holds_equation, hself, hkept]
      exact hd
    · rw [defined_cons, hpre, hcur]
      exact hds

/-- **Definitions in order have exactly one solution.**  The first variable has the value of its
definition, which mentions no variable that is still to be defined. -/
theorem existsUnique_solves : ∀ {ds : List Definition} {known : String → Prop} (pre cur : M.Valuation),
    Ordered known ds → (defined ds).Nodup → (∀ x, known x → x ∉ defined ds) →
      ∃! vals, Solves pre cur ds vals
  | [], _, _, _, _, _, _ =>
    ⟨[], ⟨rfl, fun _ h => absurd h not_mem_nil⟩, fun _ h => length_eq_zero_iff.mp h.length_eq⟩
  | d :: ds, known, pre, cur, hordered, hnodup, hknown => by
    obtain ⟨hname, hnodup'⟩ := nodup_cons.mp hnodup
    have hvalue : ∀ x ∈ d.value.freeNames, x ∉ defined (d :: ds) :=
      fun x hx => hknown x (hordered.1 x hx)
    have hknown' : ∀ x, known x ∨ x = d.name → x ∉ defined ds := by
      rintro x (hx | rfl)
      · exact fun hmem => hknown x hx (mem_cons_of_mem _ hmem)
      · exact hname
    obtain ⟨vals, hvals, hunique⟩ := existsUnique_solves
      (Function.update pre d.name (M.eval pre cur d.value))
      (Function.update cur d.name (M.eval pre cur d.value)) hordered.2 hnodup' hknown'
    refine ⟨M.eval pre cur d.value :: vals, (solves_cons hname hvalue).mpr ⟨rfl, hvals⟩, ?_⟩
    intro other hother
    match other, hother with
    | [], h => exact absurd h.length_eq (by simp)
    | v :: rest, h =>
      obtain ⟨rfl, hrest⟩ := (solves_cons hname hvalue).mp h
      rw [hunique rest hrest]

end Relspec.Arithmetic
