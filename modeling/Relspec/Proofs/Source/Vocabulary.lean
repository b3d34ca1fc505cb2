import Relspec.Proofs.Formula.Vocabulary
import Relspec.Proofs.Source.Renaming
import Relspec.Source.ClassTable

/-!
# Proofs/Source/Vocabulary — what parts of a contract mention

A part of a contract mentions names that no quantifier binds, the types that quantifiers range over, and
results of methods, in the state at hand or under `\old`.

* `Part`, `Expr.part`, `Stmt.ranges` — what expressions and statements mention;
* `Expr.Over` — an expression over a vocabulary of formulas;
* `rename_over` — a renamed expression, from what the expression mentions;
* `rangesAll_rename` — renaming keeps what quantifiers range over.
-/

namespace Relspec

open List

/-- The names that a variable goes by. -/
def Naming.GoesBy (x y : String) : Prop := ∃ k, ((Naming.binding x).run k).1 = y

namespace Source

open Formula (Vocabulary)
open ClassTable (idOf)

/-- **What a part of a contract mentions**: names that no quantifier binds, types that quantifiers range
over, results, each with whether it is read in an earlier state, variables of quantifiers, and pragmas.
`before` says whether all of it is about the state before. -/
structure Part where
  before : Bool := false
  names : List String := []
  ranges : List TypeRef := []
  results : List Bool := []
  quantified : List String := []
  pragmas : List Pragma := []

namespace Part

/-- Two parts of a contract together. -/
def append (p q : Part) : Part :=
  ⟨p.before || q.before, p.names ++ q.names, p.ranges ++ q.ranges, p.results ++ q.results,
    p.quantified ++ q.quantified, p.pragmas ++ q.pragmas⟩

instance : Append Part := ⟨append⟩

/-- A quantifier: its variable and the type that this ranges over. -/
def quantifier (var : String) (type : TypeRef) : Part := { ranges := [type], quantified := [var] }

@[simp] theorem ranges_append (p q : Part) : (p ++ q).ranges = p.ranges ++ q.ranges := rfl

end Part

/-- **What an expression mentions** under quantified variables.  Calls, array accesses and object creations
mean nothing in a contract. -/
def Expr.part (under : List String) (early : Bool) : Expr → Part
  | .ident _ name => if under.contains name then {} else { names := [name] }
  | .result _ => { results := [early] }
  | .old _ x => x.part under true
  | .field _ x _ => x.part under early
  | .unary _ _ x => x.part under early
  | .binary _ _ x y => x.part under early ++ y.part under early
  | .quant _ _ var type body => .quantifier var type ++ body.part (var :: under) early
  | .quantOver _ _ var type range body =>
    .quantifier var type ++ (range.part (var :: under) early ++ body.part (var :: under) early)
  | .int .. | .bool .. | .string .. | .null _ | .self _ | .call .. | .invoke .. | .index .. | .new .. => {}

/-- The types that the quantifiers of an expression range over. -/
def Expr.ranges (e : Expr) : List TypeRef := (e.part [] false).ranges

mutual

/-- The types that the quantifiers of a statement range over. -/
def Stmt.ranges : Stmt → List TypeRef
  | .declare _ _ _ init => init.toList.flatMap (·.ranges)
  | .assign _ target value => target.ranges ++ value.ranges
  | .block _ body => Stmt.rangesAll body
  | .ifThen _ cond _ thn => cond.ranges ++ Stmt.rangesAll thn
  | .ifElse _ cond _ thn _ els => cond.ranges ++ (Stmt.rangesAll thn ++ Stmt.rangesAll els)
  | .loop _ cond invariants variant _ body =>
    cond.ranges ++ (invariants.flatMap (·.expr.ranges) ++
      (variant.toList.flatMap (·.expr.ranges) ++ Stmt.rangesAll body))
  | .ret _ value => value.toList.flatMap (·.ranges)
  | .raise _ e | .assert _ e | .assume _ e | .eval _ e => e.ranges

/-- The types that the quantifiers of several statements range over. -/
def Stmt.rangesAll : List Stmt → List TypeRef
  | [] => []
  | s :: ss => s.ranges ++ Stmt.rangesAll ss

end

/-! ## Expressions over a vocabulary -/

/-- Where expressions stand: the classes of the run, the variables of the method, and whether it has a
result. -/
structure Surroundings where
  classes : List ClassDecl
  isVar : String → Prop := fun _ => False
  hasResult : Prop := False

/-- **An expression over a vocabulary** under quantified variables.  A name that is none of these and no
variable of the method is a field. -/
def Expr.Over (V : Vocabulary) (S : Surroundings) (under : List String) (early : Bool) : Expr → Prop
  | .ident _ name => name ∈ under ∨ (S.isVar name → V.reads early name)
  | .result _ => S.hasResult → V.reads early "return"
  | .old _ x => x.Over V S under true
  | .field _ x _ => x.Over V S under early
  | .unary _ _ x => x.Over V S under early
  | .binary _ _ x y => x.Over V S under early ∧ y.Over V S under early
  | .quant _ _ var type body =>
    (V.binds var ∧ V.reads early (idOf S.classes type.name)) ∧ body.Over V S (var :: under) early
  | .quantOver _ _ var type range body =>
    (V.binds var ∧ V.reads early (idOf S.classes type.name)) ∧
      range.Over V S (var :: under) early ∧ body.Over V S (var :: under) early
  | .int .. | .bool .. | .string .. | .null _ | .self _ | .call .. | .invoke .. | .index .. | .new .. => True

/-- What a part of a contract mentions is allowed, when its names are those of a scope. -/
structure Part.Allowed (V : Vocabulary) (S : Surroundings) (scope : Scope) (p : Part) : Prop where
  names : ∀ x ∈ p.names, S.isVar (scope.rename x) → ∀ early, V.reads early (scope.rename x)
  ranges : ∀ t ∈ p.ranges, ∀ early, V.reads early (idOf S.classes t.name)
  results : ∀ early ∈ p.results, S.hasResult → V.reads early "return"
  quantified : ∀ x ∈ p.quantified, ∀ y, Naming.GoesBy x y → V.binds y

section

variable {V : Vocabulary} {S : Surroundings} {scope : Scope} {p q : Part}

theorem Part.Allowed.left (h : (p ++ q).Allowed V S scope) : p.Allowed V S scope where
  names x hx := h.names x (mem_append_left _ hx)
  ranges t ht := h.ranges t (mem_append_left _ ht)
  results r hr := h.results r (mem_append_left _ hr)
  quantified x hx := h.quantified x (mem_append_left _ hx)

theorem Part.Allowed.right (h : (p ++ q).Allowed V S scope) : q.Allowed V S scope where
  names x hx := h.names x (mem_append_right _ hx)
  ranges t ht := h.ranges t (mem_append_right _ ht)
  results r hr := h.results r (mem_append_right _ hr)
  quantified x hx := h.quantified x (mem_append_right _ hx)

/-- **A scope under quantified variables** `under` that have become `under'`: other names go by what they
go by in the scope outside. -/
structure Scope.Below (outer : Scope) (under under' : List String) (scope : Scope) : Prop where
  bound : ∀ x ∈ under, scope.rename x ∈ under'
  free : ∀ x, x ∉ under → scope.rename x = outer.rename x

theorem Scope.Below.bind {outer : Scope} {under under' : List String}
    (h : Scope.Below outer under under' scope) (var v : String) :
    Scope.Below outer (var :: under) (v :: under') (scope.insert var v) where
  bound x hx := by
    by_cases heq : x = var
    · rw [heq, Scope.rename_insert_self]
      exact mem_cons_self
    · rw [Scope.rename_insert_of_ne _ heq]
      exact mem_cons_of_mem _ (h.bound x ((mem_cons.mp hx).resolve_left heq))
  free x hx := by
    obtain ⟨hne, hx⟩ := not_or.mp (mt mem_cons.mpr hx)
    rw [Scope.rename_insert_of_ne _ hne, h.free x hx]

theorem Part.Allowed.quantifier {var : String} {type : TypeRef}
    (h : (Part.quantifier var type ++ q).Allowed V S scope) (early : Bool) (k : Nat) :
    V.binds ((Naming.binding var).run k).1 ∧ V.reads early (idOf S.classes type.name) :=
  ⟨h.quantified var (mem_append_left _ (mem_singleton_self var)) _ ⟨k, rfl⟩,
    h.ranges type (mem_append_left _ (mem_singleton_self type)) early⟩

/-- **A renamed expression is over a vocabulary** that allows what the expression mentions. -/
theorem rename_over {outer : Scope} : ∀ (e : Expr) {scope : Scope} {under under' : List String}
    {early : Bool} {k : Nat}, Scope.Below outer under under' scope →
      (e.part under early).Allowed V S outer →
        ((e.rename scope).run k).1.Over V S under' early
  | .ident _ name => fun hscope h => by
    rw [Expr.part] at h
    split at h
    next hmem => exact .inl (hscope.bound name (contains_iff_mem.mp hmem))
    next hmem =>
      have hname := h.names name (mem_singleton_self name)
      rw [← hscope.free name (mt contains_iff_mem.mpr hmem)] at hname
      exact .inr fun hvar => hname hvar _
  | .result _ => fun _ h => h.results _ (mem_singleton_self _)
  | .old _ x | .field _ x _ | .unary _ _ x => fun hscope h => rename_over x hscope h
  | .binary _ _ x y => fun hscope h => ⟨rename_over x hscope h.left, rename_over y hscope h.right⟩
  | .quant _ _ var _ body => fun hscope h =>
    ⟨h.quantifier _ _, rename_over body (hscope.bind var _) h.right⟩
  | .quantOver _ _ var _ range body => fun hscope h =>
    ⟨h.quantifier _ _, rename_over range (hscope.bind var _) h.right.left,
      rename_over body (hscope.bind var _) h.right.right⟩
  | .int .. | .bool .. | .string .. | .null _ | .self _ | .call .. | .invoke .. | .index .. | .new .. =>
    fun _ _ => trivial

/-- An expression over a vocabulary that has all variables and the result. -/
theorem Expr.over_of_ranges (hvars : ∀ early x, S.isVar x → V.reads early x)
    (hreturn : ∀ early, S.hasResult → V.reads early "return") (hbinds : ∀ x, V.binds x) :
    ∀ (e : Expr) {under under' : List String} {early early' : Bool},
      (∀ t ∈ (e.part under early).ranges, ∀ early, V.reads early (idOf S.classes t.name)) →
        e.Over V S under' early'
  | .ident _ name => fun _ => .inr (hvars _ name)
  | .result _ => fun _ => hreturn _
  | .old _ x | .field _ x _ | .unary _ _ x => fun h => over_of_ranges hvars hreturn hbinds x h
  | .binary _ _ x y => fun h => by
    rw [part, Part.ranges_append, forall_mem_append] at h
    exact ⟨over_of_ranges hvars hreturn hbinds x h.1, over_of_ranges hvars hreturn hbinds y h.2⟩
  | .quant _ _ var type body => fun h => by
    rw [part, Part.ranges_append, forall_mem_append] at h
    exact ⟨⟨hbinds var, h.1 type mem_cons_self _⟩, over_of_ranges hvars hreturn hbinds body h.2⟩
  | .quantOver _ _ var type range body => fun h => by
    rw [part, Part.ranges_append, Part.ranges_append, forall_mem_append, forall_mem_append] at h
    exact ⟨⟨hbinds var, h.1 type mem_cons_self _⟩,
      over_of_ranges hvars hreturn hbinds range h.2.1, over_of_ranges hvars hreturn hbinds body h.2.2⟩
  | .int .. | .bool .. | .string .. | .null _ | .self _ | .call .. | .invoke .. | .index .. | .new .. =>
    fun _ => trivial

end

/-! ## What quantifiers range over -/

/-- What quantifiers range over does not depend on the names of variables. -/
theorem ranges_shape : ∀ (e : Expr) (under under' : List String) (early early' : Bool),
    (e.shape.part under early).ranges = (e.part under' early').ranges
  | .ident _ name => fun _ _ _ _ => by
    simp only [Expr.shape, Expr.part]
    split_ifs <;> rfl
  | .old _ x | .field _ x _ | .unary _ _ x => fun _ _ _ _ => ranges_shape x _ _ _ _
  | .binary _ _ x y => fun _ _ _ _ => congrArg₂ (· ++ ·) (ranges_shape x _ _ _ _) (ranges_shape y _ _ _ _)
  | .quant _ _ var type body => fun _ _ _ _ => congrArg (type :: ·) (ranges_shape body _ _ _ _)
  | .quantOver _ _ var type range body => fun _ _ _ _ =>
    congrArg₂ (fun xs ys => [type] ++ (xs ++ ys)) (ranges_shape range _ _ _ _) (ranges_shape body _ _ _ _)
  | .result _ | .int .. | .bool .. | .string .. | .null _ | .self _ | .call .. | .invoke .. | .index ..
  | .new .. => fun _ _ _ _ => rfl

@[simp] theorem Expr.ranges_shape (e : Expr) : e.shape.ranges = e.ranges := Source.ranges_shape e _ _ _ _

theorem Stmt.rangesAll_append (ss ts : List Stmt) :
    rangesAll (ss ++ ts) = rangesAll ss ++ rangesAll ts := by
  induction ss with
  | nil => rfl
  | cons s ss ih => rw [cons_append, rangesAll, ih, rangesAll, append_assoc]

mutual

theorem Stmt.rangesAll_shape : ∀ s : Stmt, rangesAll s.shape = s.ranges
  | .declare _ _ _ none => rfl
  | .declare p _ _ (some init) => by
    have hvar : (Expr.ident p "").ranges = [] := rfl
    simp [shape, rangesAll, ranges, hvar]
  | .assign .. | .raise .. | .assert .. | .assume .. | .eval .. => by
    simp [shape, rangesAll, ranges]
  | .block _ body => by
    simp [shape, rangesAll, ranges, rangesAll_shapeAll body]
  | .ifThen _ _ _ thn => by
    simp [shape, rangesAll, ranges, rangesAll_shapeAll thn]
  | .ifElse _ _ _ thn _ els => by
    simp [shape, rangesAll, ranges, rangesAll_shapeAll thn,
      rangesAll_shapeAll els]
  | .loop _ _ _ _ _ body => by
    simp [shape, rangesAll, ranges, rangesAll_shapeAll body, Clause.shape,
      flatMap_map, Option.toList_map]
  | .ret _ _ => by
    simp [shape, rangesAll, ranges, flatMap_map, Option.toList_map]

theorem Stmt.rangesAll_shapeAll : ∀ ss : List Stmt, rangesAll (shapeAll ss) = rangesAll ss
  | [] => rfl
  | s :: ss => by
    rw [shapeAll, rangesAll_append, rangesAll_shape s, rangesAll_shapeAll ss,
      rangesAll]

end

/-- **Renaming a method keeps what its quantifiers range over.** -/
theorem Method.rangesAll_rename (m : Method) (k : Nat) :
    Stmt.rangesAll (m.rename.run k).1.body = Stmt.rangesAll m.stmts := by
  have hhoists := renameAll_hoists m.stmts (m.rename.run k).1.params
    ((bindParams .empty m.params).run k).2
  rw [← Stmt.rangesAll_shapeAll m.stmts, ← hhoists.shape_eq, Stmt.rangesAll_shapeAll]
  rfl

end Source

end Relspec
