import Mathlib.Data.List.Forall2
import Relspec.Proofs.Source.Naming
import Relspec.Source.Renaming

/-!
# Proofs/Source/Scoping — what identifiers stand for

An identifier stands for the variable of the innermost quantifier of its name around it, or else for the
local variable or parameter in force, or else for something outside of the method.

* `binder` — what an occurrence of an identifier stands for;
* `Carries` — an occurrence in a renamed method goes by the name of what it stood for;
* `Expr.shape` — an expression up to the names of its variables;
* `rename_carries` — renaming an expression keeps both.
-/

namespace Relspec.Source

open Naming (Called)

/-! ## Binders -/

/-- A variable of a method: a parameter, or the local variable with the `number`-th declaration. -/
inductive Variable where
  | param (name : String)
  | declaration (number : Nat)
deriving DecidableEq, Repr

/-- What binds an identifier: a variable of the method, or the quantifier with so many quantifiers
inside it around the identifier. -/
inductive Binder where
  | var (v : Variable)
  | quantifier (depth : Nat)
deriving DecidableEq, Repr

/-- The variables of a method in force, the latest first. -/
abbrev Visible := List (String × Variable)

/-- An occurrence of an identifier, with the variables of the quantifiers around it, from inside. -/
structure Occurrence where
  name : String
  under : List String
deriving DecidableEq, Repr

/-- **What an occurrence of an identifier stands for.** -/
def Occurrence.binder (vis : Visible) (o : Occurrence) : Option Binder :=
  match o.under.idxOf? o.name with
  | some depth => some (.quantifier depth)
  | none => (vis.lookup o.name).map .var

/-- A use of a name, and what it stands for. -/
structure Use where
  name : String
  binder : Option Binder
deriving DecidableEq, Repr

/-- An occurrence as a use. -/
def Occurrence.use (vis : Visible) (o : Occurrence) : Use := ⟨o.name, o.binder vis⟩

open Occurrence (binder use)

/-- **How an occurrence goes by the name of what it stood for**, when `names` are those of variables.  No
quantifier around the occurrence, up to what it stood for, has that name; what stood for nothing in the
method keeps its name. -/
def Carries (names : Variable → Option String) (u : Use) (o : Occurrence) : Prop :=
  match u.binder with
  | some (.var v) => names v = some o.name ∧ o.name ∉ o.under
  | some (.quantifier depth) => o.under.idxOf? o.name = some depth
  | none => o.name = u.name

mutual

/-- The identifiers of an expression, from left to right. -/
def Expr.occurrences (under : List String) : Expr → List Occurrence
  | .ident _ name => [⟨name, under⟩]
  | .int .. => []
  | .bool .. => []
  | .string .. => []
  | .null _ => []
  | .self _ => []
  | .result _ => []
  | .old _ x => x.occurrences under
  | .field _ x _ => x.occurrences under
  | .call _ _ args => Expr.occurrencesAll under args
  | .invoke _ receiver _ args => receiver.occurrences under ++ Expr.occurrencesAll under args
  | .index _ x i => x.occurrences under ++ i.occurrences under
  | .new _ _ args => Expr.occurrencesAll under args
  | .unary _ _ x => x.occurrences under
  | .binary _ _ x y => x.occurrences under ++ y.occurrences under
  | .quant _ _ var _ body => body.occurrences (var :: under)
  | .quantOver _ _ var _ range body =>
    range.occurrences (var :: under) ++ body.occurrences (var :: under)

/-- The identifiers of several expressions. -/
def Expr.occurrencesAll (under : List String) : List Expr → List Occurrence
  | [] => []
  | e :: es => e.occurrences under ++ Expr.occurrencesAll under es

end

/-- The uses of names in an expression. -/
def Expr.uses (vis : Visible) (e : Expr) : List Use := (e.occurrences []).map (·.use vis)

mutual

/-- **An expression up to the names of its variables**: identifiers and quantified variables are blank. -/
def Expr.shape : Expr → Expr
  | .ident p _ => .ident p ""
  | .int p v => .int p v
  | .bool p v => .bool p v
  | .string p v => .string p v
  | .null p => .null p
  | .self p => .self p
  | .result p => .result p
  | .old p x => .old p x.shape
  | .field p x f => .field p x.shape f
  | .call p name args => .call p name (Expr.shapeAll args)
  | .invoke p receiver name args => .invoke p receiver.shape name (Expr.shapeAll args)
  | .index p x i => .index p x.shape i.shape
  | .new p type args => .new p type (Expr.shapeAll args)
  | .unary p op x => .unary p op x.shape
  | .binary p op x y => .binary p op x.shape y.shape
  | .quant p q _ type body => .quant p q "" type body.shape
  | .quantOver p q _ type range body => .quantOver p q "" type range.shape body.shape

/-- Several expressions up to the names of their variables. -/
def Expr.shapeAll : List Expr → List Expr
  | [] => []
  | e :: es => e.shape :: Expr.shapeAll es

end

/-! ## Scopes -/

/-- What an identifier is renamed to. -/
def Scope.rename (scope : Scope) (x : String) : String := (scope.find? x).getD x

/-- **A scope renames identifiers to what they stand for**, under the quantified variables `under` that
have become `under'`, once `k` names have been issued. -/
structure Scope.Fits (scope : Scope) (names : Variable → Option String) (vis : Visible)
    (under under' : List String) (k : Nat) : Prop where
  carries : ∀ x, Carries names (use vis ⟨x, under⟩) ⟨scope.rename x, under'⟩
  called : ∀ x, binder vis ⟨x, under⟩ ≠ none → Called k x (scope.rename x)

variable {scope : Scope} {names : Variable → Option String} {vis : Visible}
  {under under' : List String} {k m : Nat}

namespace Scope

@[simp] theorem rename_insert_self (scope : Scope) (x y : String) :
    Scope.rename (scope.insert x y) x = y := by
  rw [Scope.rename, Table.find?_insert_self, Option.getD_some]

theorem rename_insert_of_ne (scope : Scope) {x z : String} (h : z ≠ x) (y : String) :
    Scope.rename (scope.insert x y) z = scope.rename z := by
  rw [Scope.rename, Table.find?_insert_of_ne _ h, Scope.rename]

theorem Fits.mono (h : Fits scope names vis under under' k) (hle : k ≤ m) :
    Fits scope names vis under under' m :=
  ⟨h.carries, fun x hx => (h.called x hx).mono hle⟩

end Scope

/-! ## Under a quantifier -/

/-- One more quantifier around an identifier of another name counts, and binds nothing. -/
theorem binder_under_of_ne (vis : Visible) {x var : String} (h : x ≠ var) (under : List String) :
    binder vis ⟨x, var :: under⟩ =
      match binder vis ⟨x, under⟩ with
      | some (.quantifier depth) => some (.quantifier (depth + 1))
      | b => b := by
  have hne : (var == x) = false := by simpa using h.symm
  cases hidx : under.idxOf? x with
  | some depth => simp [binder, List.idxOf?_cons, hne, hidx]
  | none => cases hvis : vis.lookup x <;> simp [binder, List.idxOf?_cons, hne, hidx, hvis]

/-- A quantifier of another name around what an identifier has become changes nothing. -/
theorem Carries.quantified {x var y v : String}
    (h : Carries names (use vis ⟨x, under⟩) ⟨y, under'⟩) (hne : x ≠ var)
    (hbound : binder vis ⟨x, under⟩ ≠ none → y ≠ v) :
    Carries names (use vis ⟨x, var :: under⟩) ⟨y, v :: under'⟩ := by
  unfold Carries use at h ⊢
  simp only [binder_under_of_ne vis hne]
  cases hb : binder vis ⟨x, under⟩ with
  | none => simpa [hb] using h
  | some b =>
    have hyv : y ≠ v := hbound (by simp [hb])
    cases b with
    | var w =>
      simp only [hb] at h ⊢
      exact ⟨h.1, fun hmem => (List.mem_cons.mp hmem).elim hyv h.2⟩
    | quantifier depth =>
      have hne' : (v == y) = false := by simpa using hyv.symm
      simp only [hb] at h ⊢
      simp [List.idxOf?_cons, hne', h]

/-- **A quantified variable comes into scope.**  It is called differently than everything that was in
scope, so it captures nothing. -/
theorem Scope.Fits.bind (h : Scope.Fits scope names vis under under' k) (var : String) :
    Scope.Fits (scope.insert var ((Naming.binding var).run k).1) names vis (var :: under)
      (((Naming.binding var).run k).1 :: under') ((Naming.binding var).run k).2 where
  carries x := by
    by_cases hx : x = var
    · subst hx
      simp [Scope.rename_insert_self, Carries, use, binder, List.idxOf?_cons]
    · rw [Scope.rename_insert_of_ne _ hx]
      exact (h.carries x).quantified hx fun hbound => (h.called x hbound).ne_binding hx
  called x hbound := by
    by_cases hx : x = var
    · subst hx
      rw [Scope.rename_insert_self]
      exact Naming.called_binding x k
    · rw [Scope.rename_insert_of_ne _ hx]
      refine (h.called x fun hnone => hbound ?_).mono (Naming.le_binding var k)
      rw [binder_under_of_ne vis hx, hnone]

/-! ## Expressions -/

section Hereditary

variable {C : (α : Type) → Naming α → Prop} (hC : Naming.Hereditary C)
include hC

mutual

/-- **Renaming is put together from computations that issue a name.** -/
theorem hereditary_rename : ∀ (e : Expr) (scope : Scope), C Expr (e.rename scope)
  | .ident .. | .int .. | .bool .. | .string .. | .null _ | .self _ | .result _ => fun _ => hC.pure _
  | .old _ x | .field _ x _ | .unary _ _ x => fun _ => hC.last (hereditary_rename x _)
  | .call _ _ args | .new _ _ args => fun _ => hC.last (hereditary_renameAll args _)
  | .invoke _ receiver _ args => fun _ =>
    hC.bind (hereditary_renameAll args _) fun _ => hC.last (hereditary_rename receiver _)
  | .index _ x y | .binary _ _ x y => fun _ =>
    hC.bind (hereditary_rename x _) fun _ => hC.last (hereditary_rename y _)
  | .quant _ _ var _ body => fun _ => hC.bind (hC.binding var) fun _ => hC.last (hereditary_rename body _)
  | .quantOver _ _ var _ range body => fun _ =>
    hC.bind (hC.binding var) fun _ =>
      hC.bind (hereditary_rename body _) fun _ => hC.last (hereditary_rename range _)

theorem hereditary_renameAll : ∀ (es : List Expr) (scope : Scope), C (List Expr) (Expr.renameAll scope es)
  | [], _ => hC.pure _
  | e :: es, scope => hC.bind (hereditary_rename e scope) fun _ => hC.last (hereditary_renameAll es scope)

end

end Hereditary

/-- Renaming issues names and takes none back. -/
theorem le_rename (e : Expr) (scope : Scope) (k : Nat) : k ≤ ((e.rename scope).run k).2 :=
  hereditary_rename Naming.hereditary_le e scope k

theorem le_renameAll (es : List Expr) (scope : Scope) (k : Nat) : k ≤ ((Expr.renameAll scope es).run k).2 :=
  hereditary_renameAll Naming.hereditary_le es scope k

mutual

/-- **Renaming changes names only.** -/
theorem shape_rename : ∀ (e : Expr) (scope : Scope) (k : Nat),
    ((e.rename scope).run k).1.shape = e.shape
  | .ident .. | .int .. | .bool .. | .string .. | .null _ | .self _ | .result _ => fun _ _ => rfl
  | .old p x => fun _ _ => congrArg (Expr.old p) (shape_rename x _ _)
  | .field p x f => fun _ _ => congrArg (Expr.field p · f) (shape_rename x _ _)
  | .call p name args => fun _ _ => congrArg (Expr.call p name) (shape_renameAll args _ _)
  | .invoke p receiver name args => fun _ _ =>
    congrArg₂ (Expr.invoke p · name ·) (shape_rename receiver _ _) (shape_renameAll args _ _)
  | .index p x i => fun _ _ => congrArg₂ (Expr.index p) (shape_rename x _ _) (shape_rename i _ _)
  | .new p type args => fun _ _ => congrArg (Expr.new p type) (shape_renameAll args _ _)
  | .unary p op x => fun _ _ => congrArg (Expr.unary p op) (shape_rename x _ _)
  | .binary p op x y => fun _ _ => congrArg₂ (Expr.binary p op) (shape_rename x _ _) (shape_rename y _ _)
  | .quant p q _ type body => fun _ _ => congrArg (Expr.quant p q "" type) (shape_rename body _ _)
  | .quantOver p q _ type range body => fun _ _ =>
    congrArg₂ (Expr.quantOver p q "" type) (shape_rename range _ _) (shape_rename body _ _)

theorem shape_renameAll : ∀ (es : List Expr) (scope : Scope) (k : Nat),
    Expr.shapeAll ((Expr.renameAll scope es).run k).1 = Expr.shapeAll es
  | [] => fun _ _ => rfl
  | e :: es => fun _ _ => congrArg₂ List.cons (shape_rename e _ _) (shape_renameAll es _ _)

end

mutual

/-- **Renaming an expression keeps what its identifiers stand for.** -/
theorem rename_carries : ∀ (e : Expr) {scope : Scope} {under under' : List String} {k : Nat},
    Scope.Fits scope names vis under under' k →
      List.Forall₂ (fun o o' => Carries names (use vis o) o') (e.occurrences under)
        (((e.rename scope).run k).1.occurrences under')
  | .ident _ name => fun h => .cons (h.carries name) .nil
  | .int .. | .bool .. | .string .. | .null _ | .self _ | .result _ => fun _ => .nil
  | .old _ x | .field _ x _ | .unary _ _ x => fun h => rename_carries x h
  | .call _ _ args | .new _ _ args => fun h => renameAll_carries args h
  | .invoke _ receiver _ args => fun h =>
    List.rel_append (rename_carries receiver (h.mono (le_renameAll args _ _))) (renameAll_carries args h)
  | .index _ x y | .binary _ _ x y => fun h =>
    List.rel_append (rename_carries x h) (rename_carries y (h.mono (le_rename x _ _)))
  | .quant _ _ var _ body => fun h => rename_carries body (h.bind var)
  | .quantOver _ _ var _ range body => fun h =>
    List.rel_append (rename_carries range ((h.bind var).mono (le_rename body _ _)))
      (rename_carries body (h.bind var))

theorem renameAll_carries : ∀ (es : List Expr) {scope : Scope} {under under' : List String} {k : Nat},
    Scope.Fits scope names vis under under' k →
      List.Forall₂ (fun o o' => Carries names (use vis o) o') (Expr.occurrencesAll under es)
        (Expr.occurrencesAll under' ((Expr.renameAll scope es).run k).1)
  | [] => fun _ => .nil
  | e :: es => fun h =>
    List.rel_append (rename_carries e h) (renameAll_carries es (h.mono (le_rename e _ _)))

end

end Relspec.Source
