import Relspec.Proofs.Contract.Pragmas
import Relspec.Proofs.Formula.Relations
import Relspec.Proofs.Source.Fields
import Relspec.Proofs.Source.Vocabulary

/-!
# Proofs/Contract/Denotation — the meaning of an expression is its value

A source expression has a type, and a value in any model: a variable has the value that the state at hand
gives it, a field is its relation applied to an object, `\old` reads the state before, and a truth value is
one of two atoms.  The formulas that an expression means have this value, as long as no quantified variable
is called like a relation that they read, and every class whose field is read is found again by its identifier.

* `HostType`, `type?`, `value` — types and values of source expressions, without a formula in between;
* `Located` — the class that goes by the identifier of a class has the same field;
* `denotes` — every expression with a type means its value;
* `meaning_denotes_value` — renamed expressions, whose quantified variables are no reserved words;
* `meaning_of_clash` — a field of a class that is found as another one;
* `lower`, `lower_eq` — the same meaning with one table of variables that quantifiers update and restore.
-/

namespace Relspec

open List
open Model (eval holds_truth relations)

namespace Source

/-- The quantifiers of an expression that means something: variables and what they range over. -/
def Expr.quantifiers : Expr → List (String × TypeRef)
  | .old _ x | .field _ x _ | .unary _ _ x => x.quantifiers
  | .binary _ _ x y => x.quantifiers ++ y.quantifiers
  | .quant _ _ var type body => (var, type) :: body.quantifiers
  | .quantOver _ _ var type range body => (var, type) :: (range.quantifiers ++ body.quantifiers)
  | _ => []

/-- What a quantifier asks of the members of `D` that satisfy `P`. -/
def Quantifier.asks {α : Type} (D P : α → Prop) : Quantifier → Prop
  | .all => ∀ a, D a → P a
  | .any => ∃ a, D a ∧ P a

theorem Expr.Over.binds {V : Formula.Vocabulary} {S : Surroundings} {under : List String}
    {early : Bool} : ∀ {e : Expr}, e.Over V S under early → ∀ q ∈ e.quantifiers, V.binds q.1
  | .old _ x, h, q, hq | .field _ x _, h, q, hq | .unary _ _ x, h, q, hq =>
    binds (e := x) h q hq
  | .binary _ _ x y, h, q, hq =>
    (mem_append.mp hq).elim (binds h.1 q) (binds h.2 q)
  | .quant _ _ var type body, h, q, hq => by
    obtain rfl | hq := mem_cons.mp hq
    · exact h.1.1
    · exact binds h.2 q hq
  | .quantOver _ _ var type range body, h, q, hq => by
    obtain rfl | hq := mem_cons.mp hq
    · exact h.1.1
    · exact (mem_append.mp hq).elim (binds h.2.1 q) (binds h.2.2 q)

/-- **No quantified variable of a renamed expression is a reserved word.** -/
theorem not_reserved_of_mem_quantifiers (e : Expr) (scope : Scope) (k : Nat) {q : String × TypeRef}
    (hq : q ∈ ((e.rename scope).run k).1.quantifiers) : q.1 ∉ Naming.reserved := by
  -- every name may be read here, so only the names that quantifiers bind matter
  let V : Formula.Vocabulary := ⟨fun _ _ => True, fun v => v ∉ Naming.reserved⟩
  have hover : ((e.rename scope).run k).1.Over V ⟨[], fun _ => False, False⟩ [] false :=
    rename_over e (show Scope.Below scope [] [] scope from ⟨nofun, fun _ _ => rfl⟩)
      { names := nofun
        ranges := fun _ _ _ => trivial
        results := nofun
        quantified := by
          rintro x - y ⟨n, rfl⟩ hres
          exact (Naming.called_binding x n).ne_of_reserved hres rfl }
  exact hover.binds q hq

end Source

namespace Contract

open Source (ClassDecl Expr TypeRef)
open Source.ClassTable

/-! ## Types of source expressions

An object has the class it is of as its type, and the fields of that class, whatever other classes are called.
A class that is written is the one that the run has by that name. -/

/-- **The types of source expressions**: an object is of a class of the run, or of one that is not. -/
inductive HostType where
  | int
  | bool
  | object (c : ClassDecl)
  | foreign (id : String)

/-- The relational type of a type. -/
def HostType.relational : HostType → ValueType
  | .int => .int
  | .bool => .bool
  | .object c => .ref c.id
  | .foreign id => .ref id

/-- What a type that is written stands for; arrays and `void` have none. -/
def hostType? (classes : List ClassDecl) (type : Option TypeRef) : Option HostType :=
  type.bind fun t =>
    if t.array then none
    else if intTypes.contains t.name then some .int
    else if boolTypes.contains t.name then some .bool
    else
      match lookup? classes t.name with
      | some c => some (.object c)
      | none => some (.foreign (idOf classes t.name))

theorem relational_hostType? (classes : List ClassDecl) (type : Option TypeRef) :
    (hostType? classes type).map HostType.relational = typeOf? classes type := by
  cases type with
  | none => rfl
  | some t =>
    simp only [hostType?, Option.bind_some, typeOf?, namedType]
    split_ifs
    · rfl
    · rfl
    · rfl
    · rw [idOf]
      cases lookup? classes t.name <;> rfl

/-- The field that the objects of a class have by a name, with the class that declares it: the nearest one
among the class and its superclasses. -/
def fieldAt? (classes : List ClassDecl) (c : ClassDecl) (name : String) : Option (ClassDecl × Source.Field) :=
  (looked classes (classes.length + 1) c).findSome? fun d => (d.fields.find? (·.name = name)).map (d, ·)

theorem find?_fieldsOf (classes : List ClassDecl) (c : ClassDecl) (name : String) :
    (fieldsOf classes c).find? name = (fieldAt? classes c name).map fun r => relation classes r.1 r.2 := by
  have hempty : (Table.empty : Table Var).find? name = none := rfl
  rw [fieldsOf, find?_collect, hempty, Option.none_or, fieldAt?, List.map_findSome?]
  refine congrArg (fun f => List.findSome? f _) (funext fun d => ?_)
  rw [declared?, Function.comp, Option.map_map]
  cases hf : d.fields.find? (·.name = name) with
  | none => rfl
  | some f =>
    have hname : f.name = name := by simpa using List.find?_some hf
    rw [Option.map_some, Option.map_some, Function.comp, relation, hname]

/-- Whether values of two types may be compared; any two references may. -/
def comparable : ValueType → ValueType → Bool
  | .ref _, .ref _ => true
  | t, u => t = u

/-- The type of what an operator makes of two operands. -/
def resultType? (op : Source.BinaryOp) (t u : ValueType) : Option HostType :=
  match op with
  | .arith _ => if t = .int ∧ u = .int then some .int else none
  | .lt | .le | .gt | .ge => if t = .int ∧ u = .int then some .bool else none
  | .eq | .ne => if comparable t u then some .bool else none
  | .and | .or | .implies | .iff => if t = .bool ∧ u = .bool then some .bool else none

/-- Where an expression stands, with the type of the result. -/
structure HostSite extends Site where
  result : Option HostType
  returns_eq : returns = result.map HostType.relational

/-- The type of the field that the objects of a class have by a name. -/
def fieldType? (classes : List ClassDecl) (c : ClassDecl) (name : String) : Option HostType :=
  (fieldAt? classes c name).bind fun r => hostType? classes r.2.type

/-- The variables below a quantifier. -/
def HostSite.below (site : HostSite) (vars : Table HostType) (var : String) (type : TypeRef) : Table HostType :=
  vars.insert var ((hostType? site.classes (some type)).getD .int)

/-- **The type of an expression**, if it has one. -/
def type? (site : HostSite) (vars : Table HostType) : Expr → Option HostType
  | .ident _ name =>
    match vars.find? name with
    | some t => some t
    | none => fieldType? site.classes site.self name
  | .int .. => some .int
  | .bool .. => some .bool
  | .null _ => some (.foreign "null")
  | .self _ => some (.object site.self)
  | .result _ => site.result
  | .old _ x => type? site vars x
  | .field _ x name =>
    match type? site vars x with
    | some (.object c) => fieldType? site.classes c name
    | _ => none
  | .unary _ .not x =>
    match type? site vars x with
    | some .bool => some .bool
    | _ => none
  | .unary _ .neg x =>
    match type? site vars x with
    | some .int => some .int
    | _ => none
  | .binary _ op x y => do resultType? op (← type? site vars x).relational (← type? site vars y).relational
  | .quant _ _ var type body =>
    match hostType? site.classes (some type), type? site (site.below vars var type) body with
    | some _, some .bool => some .bool
    | _, _ => none
  | .quantOver _ _ var type range body =>
    match hostType? site.classes (some type), type? site (site.below vars var type) range,
      type? site (site.below vars var type) body with
    | some _, some .bool, some .bool => some .bool
    | _, _, _ => none
  | .string .. | .call .. | .invoke .. | .index .. | .new .. => none

/-- The fields that an expression reads, each with the class of the object. -/
def reads (site : HostSite) (vars : Table HostType) : Expr → List (ClassDecl × String)
  | .ident _ name => if vars.contains name then [] else [(site.self, name)]
  | .field _ x name =>
    reads site vars x ++
      match type? site vars x with
      | some (.object c) => [(c, name)]
      | _ => []
  | .old _ x | .unary _ _ x => reads site vars x
  | .binary _ _ x y => reads site vars x ++ reads site vars y
  | .quant _ _ var type body => reads site (site.below vars var type) body
  | .quantOver _ _ var type range body =>
    reads site (site.below vars var type) range ++ reads site (site.below vars var type) body
  | _ => []

/-- **A field is where it is looked for**: the first class that goes by the identifier of `c` has the same
field by the name as `c`. -/
def Located (classes : List ClassDecl) (c : ClassDecl) (name : String) : Prop :=
  ∃ d, lookup? classes c.id = some d ∧ (fieldsOf classes d).find? name = (fieldsOf classes c).find? name

/-! ## Values of source expressions -/

/-- The name of what the values of a type are the atoms of. -/
def domainName : ValueType → String
  | .int => "Int"
  | .bool => "boolean"
  | .ref id => id

theorem domainOf_eq (t : ValueType) : domainOf t = .ident (domainName t) := by
  cases t <;> rfl

/-- The values of quantified variables, which are the same in every state. -/
abbrev Bound (M : Model) := String → Option M.Value

/-- One more quantified variable has a value. -/
def Bound.set {M : Model} (bound : Bound M) (var : String) (a : M.Value) : Bound M :=
  fun x => if x = var then some a else bound x

section

variable (M : Model)

open Classical in
/-- The atom of a truth value. -/
noncomputable def truthAtom (cur : M.Valuation) (p : Prop) : M.Value := if p then cur "true" else cur "false"

/-- The value of an operator. -/
noncomputable def binaryValue (cur : M.Valuation) : Source.BinaryOp → M.Value → M.Value → M.Value
  | .arith op, a, b => M.call op.function [a, b]
  | .eq, a, b => truthAtom M cur (a = b)
  | .ne, a, b => truthAtom M cur (a ≠ b)
  | .lt, a, b => truthAtom M cur (M.lt a b)
  | .le, a, b => truthAtom M cur (M.le a b)
  | .gt, a, b => truthAtom M cur (M.lt b a)
  | .ge, a, b => truthAtom M cur (M.le b a)
  | .and, a, b => truthAtom M cur (a = cur "true" ∧ b = cur "true")
  | .or, a, b => truthAtom M cur (a = cur "true" ∨ b = cur "true")
  | .implies, a, b => truthAtom M cur (a = cur "true" → b = cur "true")
  | .iff, a, b => truthAtom M cur (a = cur "true" ↔ b = cur "true")

/-- The values of a type: the atoms of its domain. -/
def inhabits (site : HostSite) (cur : M.Valuation) (type : TypeRef) (a : M.Value) : Prop :=
  M.atom a ∧ ∀ t ∈ hostType? site.classes (some type), M.mem a (cur (domainName t.relational))

/-- The field of an object by a name: the relation of the field, applied to the object. -/
def fieldValue (site : HostSite) (cur : M.Valuation) (object : M.Value) (c : ClassDecl) (name : String) : M.Value :=
  match fieldAt? site.classes c name with
  | some r => M.join object (cur (r.1.id ++ "_" ++ r.2.name))
  | none => cur name

/-- **The value of an expression** over the states `pre` and `cur`, under quantified variables. -/
noncomputable def value (site : HostSite) :
    M.Valuation → M.Valuation → Table HostType → Bound M → Expr → M.Value
  | _, cur, vars, bound, .ident _ name =>
    if vars.contains name then (bound name).getD (cur name)
    else fieldValue M site cur (cur "thiz") site.self name
  | _, _, _, _, .int _ v => M.int v
  | _, cur, _, _, .bool _ v => cur (if v then "true" else "false")
  | _, cur, _, _, .null _ => cur "null"
  | _, cur, _, _, .self _ => cur "thiz"
  | _, cur, _, _, .result _ => cur "return"
  | pre, _, vars, bound, .old _ x => value site pre pre vars bound x
  | pre, cur, vars, bound, .field _ x name =>
    match type? site vars x with
    | some (.object c) => fieldValue M site cur (value site pre cur vars bound x) c name
    | _ => cur name
  | pre, cur, vars, bound, .unary _ .not x =>
    truthAtom M cur (value site pre cur vars bound x ≠ cur "true")
  | pre, cur, vars, bound, .unary _ .neg x =>
    M.call ArithOp.sub.function [M.int 0, value site pre cur vars bound x]
  | pre, cur, vars, bound, .binary _ op x y =>
    binaryValue M cur op (value site pre cur vars bound x) (value site pre cur vars bound y)
  | pre, cur, vars, bound, .quant _ q var type body =>
    truthAtom M cur <| q.asks (inhabits M site cur type) fun a =>
      value site pre cur (site.below vars var type) (bound.set var a) body = cur "true"
  | pre, cur, vars, bound, .quantOver _ q var type range body =>
    truthAtom M cur <| q.asks
      (fun a => inhabits M site cur type a ∧
        value site pre cur (site.below vars var type) (bound.set var a) range = cur "true")
      fun a => value site pre cur (site.below vars var type) (bound.set var a) body = cur "true"
  | _, cur, _, _, .string .. | _, cur, _, _, .call .. | _, cur, _, _, .invoke .. | _, cur, _, _, .index ..
  | _, cur, _, _, .new .. => cur "null"

end

attribute [local simp] meaning value

/-! ## What quantified variables leave alone -/

/-- A name that captures nothing when a quantifier binds it: no word of the language, no relation of a
field, and none of the `domains` that quantifiers range over. -/
structure HostSite.Clear (site : HostSite) (domains : List TypeRef) (v : String) : Prop where
  word : v ∉ Naming.reserved
  relation : ∀ c ∈ site.classes, ∀ name r, (fieldsOf site.classes c).find? name = some r → v ≠ r.name
  domain : ∀ type ∈ domains, ∀ id, typeOf? site.classes (some type) = some (.ref id) → v ≠ id

/-- The truth atoms are two, and the same in both states. -/
structure Truths (M : Model) (pre cur : M.Valuation) : Prop where
  yes : pre "true" = cur "true"
  no : pre "false" = cur "false"
  ne : cur "true" ≠ cur "false"

theorem Truths.old {M : Model} {pre cur : M.Valuation} (h : Truths M pre cur) : Truths M pre pre :=
  ⟨rfl, rfl, by rw [h.yes, h.no]; exact h.ne⟩

/-- The valuation under quantified variables. -/
def under {M : Model} (bound : Bound M) (ρ : M.Valuation) : M.Valuation := fun x => (bound x).getD (ρ x)

section

variable {site : HostSite} {domains : List TypeRef} {M : Model} {bound : Bound M} {pre cur ρ : M.Valuation}
  {vars : Table HostType} {e x y : Expr} {p : Position}

theorem under_of_none {name : String} (h : bound name = none) : under bound ρ name = ρ name := by
  rw [under, h, Option.getD_none]

/-- A quantifier of formulas binds its variable as a quantifier of the source does. -/
theorem bind_under (bound : Bound M) (ρ : M.Valuation) (var : String) (a : M.Value) :
    M.bind (under bound ρ) [var] [a] = under (bound.set var a) ρ := by
  funext z
  by_cases h : z = var
  · simp [Model.bind, under, Bound.set, h]
  · rw [Model.bind_of_not_mem (by simpa using h), under, under, Bound.set, if_neg h]

/-- Only names that capture nothing are bound. -/
def Bound.Clear (site : HostSite) (domains : List TypeRef) (bound : Bound M) : Prop :=
  ∀ v, bound v ≠ none → site.Clear domains v

theorem Bound.Clear.set {var : String} (h : bound.Clear site domains) (hvar : site.Clear domains var)
    (a : M.Value) : (bound.set var a).Clear site domains := fun v hv => by
  by_cases heq : v = var
  · exact heq ▸ hvar
  · rw [Bound.set, if_neg heq] at hv
    exact h v hv

namespace Bound.Clear

variable (h : bound.Clear site domains)
include h

theorem word {w : String} (hw : w ∈ Naming.reserved) : under bound ρ w = ρ w :=
  under_of_none (by_contra fun hne => (h w hne).word hw)

theorem relation {c : ClassDecl} {name : String} {r : ClassDecl × Source.Field} (hc : Located site.classes c name)
    (hr : fieldAt? site.classes c name = some r) :
    under bound ρ (r.1.id ++ "_" ++ r.2.name) = ρ (r.1.id ++ "_" ++ r.2.name) := by
  obtain ⟨d, hd, hsame⟩ := hc
  refine under_of_none (by_contra fun hne => ?_)
  refine (h _ hne).relation d (mem_of_find?_eq_some hd) name (Source.ClassTable.relation site.classes r.1 r.2) ?_ rfl
  rw [hsame, find?_fieldsOf, hr]
  rfl

theorem domain {type : TypeRef} {t : HostType} (htype : type ∈ domains)
    (ht : hostType? site.classes (some type) = some t) :
    under bound ρ (domainName t.relational) = ρ (domainName t.relational) := by
  have ht' : typeOf? site.classes (some type) = some t.relational := by rw [← relational_hostType?, ht]; rfl
  cases t with
  | int | bool => exact h.word (by decide)
  | object c => exact under_of_none (by_contra fun hne => (h c.id hne).domain type htype c.id ht' rfl)
  | foreign id => exact under_of_none (by_contra fun hne => (h id hne).domain type htype id ht' rfl)

end Bound.Clear

variable {t : HostType} {name : String} {op : Source.BinaryOp} {c : Formula.BinaryOp} {D : M.Value → Prop}
  {b : Formula}

/-! ## Expressions that mean their value -/

/-- **An expression means its value**: as a term, of its type, and as a condition when it is a truth value.
The formulas are the same for every model. -/
structure Denotes (site : HostSite) (domains : List TypeRef) (vars : Table HostType) (e : Expr)
    (type : HostType) : Prop where
  term : ∃ t, (meaning site.toSite (vars.map HostType.relational) e).term = .ok (t, type.relational) ∧
    ∀ {M : Model} {pre cur : M.Valuation} {bound : Bound M}, Truths M pre cur →
      bound.Clear site domains →
        M.eval (under bound pre) (under bound cur) t = value M site pre cur vars bound e
  cond : type = .bool → ∃ c, (meaning site.toSite (vars.map HostType.relational) e).cond = .ok c ∧
    ∀ {M : Model} {pre cur : M.Valuation} {bound : Bound M}, Truths M pre cur →
      bound.Clear site domains →
        (M.holds (M.eval (under bound pre) (under bound cur) c) ↔
          value M site pre cur vars bound e = cur "true")

theorem truthAtom_eq_true {q : Prop} (h : Truths M pre cur) : truthAtom M cur q = cur "true" ↔ q := by
  rw [truthAtom]
  split
  · next hq => exact iff_of_true rfl hq
  · next hq => exact iff_of_false h.ne.symm hq

/-- A term is turned into a condition. -/
theorem Denotes.ofTerm {t : Formula} {type : HostType}
    (hmeaning : meaning site.toSite (vars.map HostType.relational) e =
      .ofTerm site.toSite e (.ok (t, type.relational)))
    (h : ∀ {M : Model} {pre cur : M.Valuation} {bound : Bound M}, Truths M pre cur →
      bound.Clear site domains →
        M.eval (under bound pre) (under bound cur) t = value M site pre cur vars bound e) :
    Denotes site domains vars e type where
  term := ⟨t, by rw [hmeaning]; rfl, h⟩
  cond := by
    rintro rfl
    refine ⟨.eq t (.ident "true"), by rw [hmeaning]; rfl, fun ht hb => ?_⟩
    rw [Formula.eq, eval, Model.binary, holds_truth, h ht hb, eval, hb.word (by decide)]

/-- A condition is turned into a term. -/
theorem Denotes.ofCond {c : Formula}
    (hmeaning : meaning site.toSite (vars.map HostType.relational) e = .ofCond (.ok c))
    (h : ∀ {M : Model} {pre cur : M.Valuation} {bound : Bound M}, Truths M pre cur →
      bound.Clear site domains → value M site pre cur vars bound e =
        truthAtom M cur (M.holds (M.eval (under bound pre) (under bound cur) c))) :
    Denotes site domains vars e .bool where
  term := by
    refine ⟨.ite c (.ident "true") (.ident "false"), by rw [hmeaning]; rfl, fun ht hb => ?_⟩
    rw [h ht hb, eval, Model.cond, truthAtom, eval, eval, hb.word (by decide),
      hb.word (by decide)]
  cond _ := ⟨c, by rw [hmeaning]; rfl, fun ht hb => by rw [h ht hb, truthAtom_eq_true ht]⟩

/-- **A field is lowered to its relation** exactly if it is where it is looked for. -/
theorem site_field_iff (site : Site) {c : ClassDecl} {v : Var} (h : (fieldsOf site.classes c).find? name = some v)
    (object : Formula) (pos : Position) :
    site.field object (.ref c.id) name pos = .ok (.join object (.ident v.name), v.type) ↔
      Located site.classes c name := by
  rw [Located, h, Site.field]
  cases lookup? site.classes c.id with
  | none => simp
  | some d =>
    rw [Option.bind_some]
    cases hw : (fieldsOf site.classes d).find? name with
    | none => simp [hw]
    | some w =>
      obtain ⟨w, t⟩ := w
      obtain ⟨v, u⟩ := v
      simp [hw]

theorem site_field_eq {c : ClassDecl} {type : HostType} (hc : Located site.classes c name)
    (h : fieldType? site.classes c name = some type) : ∃ r, fieldAt? site.classes c name = some r ∧
      ∀ object pos, site.field object (.ref c.id) name pos =
        .ok (.join object (.ident (r.1.id ++ "_" ++ r.2.name)), type.relational) := by
  obtain ⟨r, hr, htype⟩ := Option.bind_eq_some_iff.mp h
  have htypeOf : typeOf? site.classes r.2.type = some type.relational := by rw [← relational_hostType?, htype]; rfl
  have hfind : (fieldsOf site.classes c).find? name = some ⟨r.1.id ++ "_" ++ r.2.name, type.relational⟩ := by
    rw [find?_fieldsOf, hr, Option.map_some, relation, htypeOf]
    rfl
  exact ⟨r, hr, fun object pos => (site_field_iff site.toSite hfind object pos).mpr hc⟩

/-- A variable has its own value, and another name is a field of the object at hand. -/
theorem denotes_ident {type : HostType} (h : type? site vars (.ident p name) = some type)
    (hlocated : ∀ r ∈ reads site vars (.ident p name), Located site.classes r.1 r.2) :
    Denotes site domains vars (.ident p name) type := by
  rw [type?] at h
  split at h
  · next t hfind =>
    cases h
    refine .ofTerm (t := .ident name) (by rw [meaning, Site.ident, Table.find?_map, hfind]; rfl) fun _ _ => ?_
    rw [value, if_pos (by rw [Table.contains, hfind]; rfl), eval, under]
  · next hfind =>
    have hnone : ¬ vars.contains name = true := by rw [Table.contains, hfind]; exact Bool.false_ne_true
    rw [reads, if_neg hnone, forall_mem_singleton] at hlocated
    obtain ⟨r, hr, hfield⟩ := site_field_eq hlocated h
    have hcontains : (fieldsOf site.classes site.self).contains name = true := by
      rw [Table.contains, find?_fieldsOf, hr]
      rfl
    refine .ofTerm (t := .join (.ident "thiz") (.ident (r.1.id ++ "_" ++ r.2.name))) ?_ fun _ hb => ?_
    · rw [meaning, Site.ident, Table.find?_map, hfind]
      dsimp only [Option.map_none]
      rw [if_pos hcontains, hfield]
    · rw [value, if_neg hnone, fieldValue, hr, eval, eval, eval, hb.word (by decide), hb.relation hlocated hr]

theorem Denotes.old {type : HostType} (h : Denotes site domains vars x type) :
    Denotes site domains vars (.old p x) type where
  term := by
    obtain ⟨t, hterm, ht⟩ := h.term
    refine ⟨.old t, by rw [meaning, hterm]; rfl, fun htruths hb => ?_⟩
    rw [eval, value]
    exact ht htruths.old hb
  cond htype := by
    obtain ⟨c, hcond, hc⟩ := h.cond htype
    refine ⟨.old c, by rw [meaning, hcond]; rfl, fun htruths hb => ?_⟩
    rw [eval, value, ← htruths.yes]
    exact hc htruths.old hb

theorem Denotes.field {c : ClassDecl} {type : HostType} (h : Denotes site domains vars x (.object c))
    (hx : type? site vars x = some (.object c)) (htype : fieldType? site.classes c name = some type)
    (hc : Located site.classes c name) : Denotes site domains vars (.field p x name) type := by
  obtain ⟨f, hterm, hf⟩ := h.term
  obtain ⟨r, hr, hfield⟩ := site_field_eq hc htype
  refine .ofTerm (t := .join f (.ident (r.1.id ++ "_" ++ r.2.name))) ?_ fun htruths hb => ?_
  · rw [meaning, hterm]
    exact congrArg _ (hfield f p)
  · rw [value, hx]
    dsimp only
    rw [fieldValue, hr, eval, hf htruths hb, eval, hb.relation hc hr]

theorem Denotes.not (h : Denotes site domains vars x .bool) :
    Denotes site domains vars (.unary p .not x) .bool := by
  obtain ⟨c, hcond, hc⟩ := h.cond rfl
  refine .ofCond (c := .not c) (by rw [meaning, hcond]; rfl) fun htruths hb => ?_
  rw [value, Formula.not, eval, Model.unary, holds_truth, hc htruths hb]

theorem Denotes.neg {type : HostType} (h : Denotes site domains vars x type) :
    Denotes site domains vars (.unary p .neg x) .int := by
  obtain ⟨t, hterm, ht⟩ := h.term
  refine .ofTerm (t := .unary .neg t) (by rw [meaning, hterm]; rfl) fun htruths hb => ?_
  rw [value, eval, Model.unary, ht htruths hb]

/-- A comparison is about the values of its operands. -/
theorem Denotes.compared {u : HostType} (hx : Denotes site domains vars x t)
    (hy : Denotes site domains vars y u)
    (hmeaning : meaning site.toSite (vars.map HostType.relational) (.binary p op x y) =
      .ofCond ((meaning site.toSite (vars.map HostType.relational) x).both
        (meaning site.toSite (vars.map HostType.relational) y) (.binary c)))
    (hvalue : ∀ {M : Model} (cur : M.Valuation) (v w : M.Value),
      binaryValue M cur op v w = truthAtom M cur (M.holds (M.binary c v w))) :
    Denotes site domains vars (.binary p op x y) .bool := by
  obtain ⟨a, hxt, ha⟩ := hx.term
  obtain ⟨b, hyt, hb⟩ := hy.term
  refine .ofCond (c := .binary c a b) ?_ fun htruths hbound => ?_
  · rw [hmeaning, Meaning.both, hxt, hyt]
    rfl
  · rw [value, hvalue, eval, ha htruths hbound, hb htruths hbound]

/-- A connective is about whether its operands are true. -/
theorem Denotes.connected (hx : Denotes site domains vars x .bool) (hy : Denotes site domains vars y .bool)
    (hmeaning : meaning site.toSite (vars.map HostType.relational) (.binary p op x y) =
      .ofCond (do
        let f ← (meaning site.toSite (vars.map HostType.relational) x).cond
        let g ← (meaning site.toSite (vars.map HostType.relational) y).cond
        return .binary c f g))
    (hvalue : ∀ {M : Model} {cur : M.Valuation} {v w f g : M.Value}, (M.holds f ↔ v = cur "true") →
      (M.holds g ↔ w = cur "true") →
        binaryValue M cur op v w = truthAtom M cur (M.holds (M.binary c f g))) :
    Denotes site domains vars (.binary p op x y) .bool := by
  obtain ⟨f, hxc, hf⟩ := hx.cond rfl
  obtain ⟨g, hyc, hg⟩ := hy.cond rfl
  refine .ofCond (c := .binary c f g) ?_ fun htruths hbound => ?_
  · rw [hmeaning, hxc, hyc]
    rfl
  · rw [value, eval]
    exact hvalue (hf htruths hbound) (hg htruths hbound)

theorem HostType.eq_bool (h : t.relational = .bool) : t = .bool := by
  cases t <;> first | rfl | cases h

theorem Denotes.binary {u type : HostType} (hx : Denotes site domains vars x t)
    (hy : Denotes site domains vars y u) (htype : resultType? op t.relational u.relational = some type) :
    Denotes site domains vars (.binary p op x y) type := by
  cases op with
  | arith op =>
    obtain ⟨-, ⟨⟩⟩ := Option.ite_none_right_eq_some.mp htype
    obtain ⟨a, hxt, ha⟩ := hx.term
    obtain ⟨b, hyt, hb⟩ := hy.term
    refine .ofTerm (t := .binary (.arith op) a b) (by rw [meaning, Meaning.both, hxt, hyt]; rfl)
      fun htruths hbound => ?_
    rw [value, binaryValue, eval, Model.binary, ha htruths hbound, hb htruths hbound]
  | eq | ne | lt | le | gt | ge =>
    obtain ⟨-, ⟨⟩⟩ := Option.ite_none_right_eq_some.mp htype
    exact hx.compared hy rfl fun cur v w => by rw [binaryValue, Model.binary, holds_truth]
  | and | or | implies | iff =>
    obtain ⟨⟨ht, hu⟩, ⟨⟩⟩ := Option.ite_none_right_eq_some.mp htype
    obtain rfl := HostType.eq_bool ht
    obtain rfl := HostType.eq_bool hu
    exact hx.connected hy rfl fun hf hg => by
      rw [binaryValue, Model.binary, holds_truth, hf, hg]

/-- Quantifiers of formulas with one variable ask what quantifiers of the source do. -/
theorem asks_quantifierOf (q : Source.Quantifier) {P : List M.Value → Prop} {d : M.Value}
    (hd : ∀ a, D a ↔ M.atom a ∧ M.mem a d) :
    (quantifierOf q).asks (M.ranges d 1) P ↔ q.asks D fun a => P [a] := by
  have hone : ∀ vals, M.ranges d 1 vals ↔ ∃ a, D a ∧ vals = [a] := fun vals => by
    simp only [Model.ranges, length_eq_one_iff, hd]
    constructor
    · rintro ⟨⟨a, rfl⟩, ha⟩
      exact ⟨a, ha a (mem_singleton_self a), rfl⟩
    · rintro ⟨a, ha, rfl⟩
      exact ⟨⟨a, rfl⟩, fun b hb => mem_singleton.mp hb ▸ ha⟩
  cases q with
  | all =>
    refine ⟨fun h a ha => h [a] ((hone _).mpr ⟨a, ha, rfl⟩), fun h vals hvals => ?_⟩
    obtain ⟨a, ha, rfl⟩ := (hone vals).mp hvals
    exact h a ha
  | any =>
    constructor
    · rintro ⟨vals, hvals, hP⟩
      obtain ⟨a, ha, rfl⟩ := (hone vals).mp hvals
      exact ⟨a, ha, hP⟩
    · rintro ⟨a, ha, hP⟩
      exact ⟨[a], (hone _).mpr ⟨a, ha, rfl⟩, hP⟩

/-- A quantifier, from what its body asks of one value. -/
theorem Denotes.quantified {q : Source.Quantifier} {var : String} {type : TypeRef}
    {r : Except Fault Formula} (hr : r = .ok b)
    (hmeaning : meaning site.toSite (vars.map HostType.relational) e =
      quantifiedMeaning site.toSite p q var type r)
    (ht : hostType? site.classes (some type) = some t) (htype : type ∈ domains)
    (hvar : site.Clear domains var)
    (hvalue : ∀ {M : Model} {pre cur : M.Valuation} {bound : Bound M}, Truths M pre cur →
      (∀ a, (bound.set var a).Clear site domains) → value M site pre cur vars bound e =
        truthAtom M cur (q.asks (inhabits M site cur type) fun a =>
          M.holds (M.eval (under (bound.set var a) pre) (under (bound.set var a) cur) b))) :
    Denotes site domains vars e .bool := by
  refine .ofCond (c := .quant (quantifierOf q) [var] (domainOf t.relational) b) ?_
    fun {M pre cur bound} htruths hb => ?_
  · rw [hmeaning, quantifiedMeaning, ← relational_hostType?, ht, hr]
    rfl
  · have hd : ∀ a, inhabits M site cur type a ↔
        M.atom a ∧ M.mem a (M.eval (under bound pre) (under bound cur) (domainOf t.relational)) := fun a => by
      rw [inhabits, ht, domainOf_eq, eval, hb.domain htype ht]
      simp
    rw [hvalue htruths fun a => hb.set hvar a, eval, holds_truth, length_singleton,
      asks_quantifierOf q hd]
    simp only [bind_under]

theorem asks_congr {α : Type} (q : Source.Quantifier) {D P Q : α → Prop} (h : ∀ a, P a ↔ Q a) :
    q.asks D P ↔ q.asks D Q := by
  rw [funext fun a => propext (h a)]

/-- The range of a quantifier stands in front of its body. -/
theorem asks_guarded (q : Source.Quantifier) {r : Formula} {pre cur : M.Value → M.Valuation} :
    (q.asks D fun a => M.holds (M.eval (pre a) (cur a) (guarded q r b))) ↔
      q.asks (fun a => D a ∧ M.holds (M.eval (pre a) (cur a) r)) fun a =>
        M.holds (M.eval (pre a) (cur a) b) := by
  cases q with
  | all =>
    simp only [Source.Quantifier.asks, guarded, eval, Model.binary, holds_truth, and_imp]
  | any =>
    simp only [Source.Quantifier.asks, guarded, eval, Model.binary, holds_truth, and_assoc]

/-- The variables below a quantifier, on both sides. -/
theorem map_below (site : HostSite) (vars : Table HostType) (var : String) (type : TypeRef) :
    (site.below vars var type).map HostType.relational =
      below site.toSite (vars.map HostType.relational) var type := by
  rw [HostSite.below, below, Table.map_insert, ← relational_hostType?]
  cases hostType? site.classes (some type) <;> rfl

/-- **Every expression with a type means its value**, when its quantified variables capture nothing and the
fields that it reads are where they are looked for. -/
theorem denotes {vars : Table HostType} : ∀ (e : Expr) {type : HostType},
    type? site vars e = some type →
      (∀ q ∈ e.quantifiers, site.Clear domains q.1 ∧ q.2 ∈ domains) →
      (∀ r ∈ reads site vars e, Located site.classes r.1 r.2) → Denotes site domains vars e type
  | .ident _ _, _, h, _, hlocated => denotes_ident h hlocated
  | .int _ v, _, rfl, _, _ => .ofTerm rfl fun _ _ => by rw [value, eval]
  | .bool _ v, _, rfl, _, _ => by
    refine ⟨⟨.ident (if v then "true" else "false"), rfl, fun _ hb => ?_⟩,
      fun _ => ⟨if v then .truth else .falsity, rfl, fun htruths _ => ?_⟩⟩
    · rw [eval, value]
      cases v <;> exact hb.word (by decide)
    · rw [value]
      cases v with
      | true => exact iff_of_true (Model.holds_of_isTruth rfl) rfl
      | false => exact iff_of_false (Model.not_holds_of_isFalsity rfl) htruths.ne.symm
  | .null _, _, rfl, _, _ | .self _, _, rfl, _, _ => .ofTerm rfl fun _ hb => by
    rw [value, eval, hb.word (by decide)]
  | .result p, type, h, _, _ => by
    rw [type?] at h
    refine .ofTerm (t := .ident "return") (by rw [meaning, site.returns_eq, h]; rfl) fun _ hb => ?_
    rw [value, eval, hb.word (by decide)]
  | .old _ x, _, h, hclear, hlocated => (denotes x h hclear hlocated).old
  | .field _ x name, _, h, hclear, hlocated => by
    rw [type?] at h
    split at h
    · next c hx =>
      rw [reads, hx, forall_mem_append, forall_mem_singleton] at hlocated
      exact (denotes x hx hclear hlocated.1).field hx h hlocated.2
    · cases h
  | .unary _ .not x, _, h, hclear, hlocated => by
    rw [type?] at h
    split at h
    · next hx =>
      cases h
      exact (denotes x hx hclear hlocated).not
    · cases h
  | .unary _ .neg x, _, h, hclear, hlocated => by
    rw [type?] at h
    split at h
    · next hx =>
      cases h
      exact (denotes x hx hclear hlocated).neg
    · cases h
  | .binary _ op x y, _, h, hclear, hlocated => by
    rw [type?] at h
    obtain ⟨t, hx, h⟩ := Option.bind_eq_some_iff.mp h
    obtain ⟨u, hy, h⟩ := Option.bind_eq_some_iff.mp h
    rw [reads, forall_mem_append] at hlocated
    exact (denotes x hx (fun q hq => hclear q (mem_append_left _ hq)) hlocated.1).binary
      (denotes y hy (fun q hq => hclear q (mem_append_right _ hq)) hlocated.2) h
  | .quant _ q var type body, _, h, hclear, hlocated => by
    rw [type?] at h
    split at h
    · next t ht hbody =>
      cases h
      obtain ⟨hvar, htype⟩ := hclear (var, type) mem_cons_self
      obtain ⟨b, hcond, hb⟩ :=
        (denotes body hbody (fun q hq => hclear q (mem_cons_of_mem _ hq)) hlocated).cond rfl
      rw [map_below] at hcond
      refine .quantified hcond rfl ht htype hvar fun htruths hbound => ?_
      rw [value]
      exact congrArg _ (propext (asks_congr q fun a => (hb htruths (hbound a)).symm))
    · cases h
  | .quantOver _ q var type range body, _, h, hclear, hlocated => by
    rw [type?] at h
    split at h
    · next t ht hrange hbody =>
      cases h
      rw [reads, forall_mem_append] at hlocated
      obtain ⟨hvar, htype⟩ := hclear (var, type) mem_cons_self
      obtain ⟨r, hrcond, hr⟩ := (denotes range hrange (fun q hq =>
        hclear q (mem_cons_of_mem _ (mem_append_left _ hq))) hlocated.1).cond rfl
      obtain ⟨b, hbcond, hb⟩ := (denotes body hbody (fun q hq =>
        hclear q (mem_cons_of_mem _ (mem_append_right _ hq))) hlocated.2).cond rfl
      rw [map_below] at hrcond hbcond
      refine .quantified (b := guarded q r b) ?_ rfl ht htype hvar fun htruths hbound => ?_
      · rw [hbcond, hrcond]
        rfl
      · rw [value, asks_guarded]
        simp only [fun a => hr htruths (hbound a), fun a => hb htruths (hbound a)]
    · cases h

end

/-! ## One table of variables -/

/-- Runs `body` with one more variable in the table, and then puts back what the table had for it. -/
def within {α : Type} (var : String) (type : ValueType) (body : Table ValueType → α × Table ValueType)
    (vars : Table ValueType) : α × Table ValueType :=
  let (a, after) := body (vars.insert var type)
  match vars.find? var with
  | some t => (a, after.insert var t)
  | none => (a, after.erase var)

/-- **The meaning of an expression**, with one table of variables that quantifiers update and restore. -/
def lower (site : Site) (e : Expr) (vars : Table ValueType) : Meaning × Table ValueType :=
  match e with
  | .old _ x =>
    let (m, vars) := lower site x vars
    (⟨m.cond.map .old, m.term.map fun (t, type) => (.old t, type)⟩, vars)
  | .field p x name =>
    let (m, vars) := lower site x vars
    (.ofTerm site e (do
      let (t, type) ← m.term
      site.field t type name p), vars)
  | .unary _ .not x =>
    let (m, vars) := lower site x vars
    (.ofCond (m.cond.map .not), vars)
  | .unary _ .neg x =>
    let (m, vars) := lower site x vars
    (.ofTerm site e (m.term.map fun (t, _) => (.unary .neg t, .int)), vars)
  | .binary _ op x y =>
    let (mx, vars) := lower site x vars
    let (my, vars) := lower site y vars
    match op with
    | .arith a => (.ofTerm site e ((mx.both my (.binary (.arith a))).map fun t => (t, .int)), vars)
    | _ =>
      match connectiveOf op, comparisonOf op with
      | some c, _ => (.ofCond (do return .binary c (← mx.cond) (← my.cond)), vars)
      | none, some c => (.ofCond (mx.both my (.binary c)), vars)
      | none, none => (.fault (site.notBool e), vars)
  | .quant p q var type body =>
    let (m, vars) := within var ((typeOf? site.classes (some type)).getD .int) (lower site body) vars
    (quantifiedMeaning site p q var type m.cond, vars)
  | .quantOver p q var type range body =>
    let both := fun vars =>
      let (b, vars) := lower site body vars
      let (r, vars) := lower site range vars
      ((b, r), vars)
    let ((b, r), vars) := within var ((typeOf? site.classes (some type)).getD .int) both vars
    (quantifiedMeaning site p q var type (do
      let b ← b.cond
      let r ← r.cond
      return guarded q r b), vars)
  | _ => (meaning site vars e, vars)

theorem put_put_of_lookup {var : String} {t u : ValueType} : ∀ {l : List (String × ValueType)},
    l.lookup var = some t → Table.put var t (Table.put var u l) = l
  | (k, v) :: rest, h => by
    by_cases hk : var = k
    · subst hk
      simp_all [Table.put]
    · have hne : (var == k) = false := by simpa using hk
      rw [lookup_cons, hne] at h
      rw [Table.put, if_neg hk, Table.put, if_neg hk, put_put_of_lookup h]

theorem filter_put_of_lookup {var : String} {u : ValueType} : ∀ {l : List (String × ValueType)},
    l.lookup var = none → (Table.put var u l).filter (fun e => e.1 != var) = l
  | [], _ => by simp [Table.put]
  | (k, v) :: rest, h => by
    by_cases hk : var = k
    · simp [hk] at h
    · have hne : (var == k) = false := by simpa using hk
      rw [lookup_cons, hne] at h
      have hkeep : (k != var) = true := by simpa using Ne.symm hk
      rw [Table.put, if_neg hk, filter_cons, if_pos hkeep, filter_put_of_lookup h]

/-- **A variable that is in the table for a while leaves it as it was.** -/
theorem within_eq {α : Type} {var : String} {type : ValueType} {vars : Table ValueType} {a : α}
    {body : Table ValueType → α × Table ValueType}
    (h : body (vars.insert var type) = (a, vars.insert var type)) : within var type body vars = (a, vars) := by
  rw [within, h]
  cases hfind : vars.find? var with
  | some t => exact congrArg (fun l => (a, Table.mk l)) (put_put_of_lookup hfind)
  | none => exact congrArg (fun l => (a, Table.mk l)) (filter_put_of_lookup hfind)

/-- **One table gives the same meaning**, and is the same afterwards. -/
theorem lower_eq (site : Site) (e : Expr) (vars : Table ValueType) :
    lower site e vars = (meaning site vars e, vars) :=
  match e with
  | .old _ x | .field _ x _ | .unary _ .not x | .unary _ .neg x => by
    rw [lower, lower_eq site x vars, meaning]
  | .binary _ op x y => by
    cases op <;> (rw [lower, lower_eq site x vars]; dsimp only; rw [lower_eq site y vars]; rfl)
  | .quant p q var type body => by
    rw [lower, within_eq (lower_eq site body (below site vars var type)), meaning]
  | .quantOver p q var type range body => by
    rw [lower, meaning]
    dsimp only
    rw [within_eq (a := (meaning site (below site vars var type) body,
      meaning site (below site vars var type) range))]
    change (_, _) = _
    rw [← below, lower_eq site body, lower_eq site range]
  | .ident .. | .int .. | .bool .. | .null _ | .self _ | .result _ | .string ..
  | .index .. | .new .. | .call .. | .invoke .. => rfl

/-! ## Renamed expressions -/

/-- **The meaning of an expression is its value.**  A renamed expression with a type, whose quantified
variables are called neither like the relation of a field nor like a class that its quantifiers range over, and
whose fields are where they are looked for, has a term, which is of this type and denotes the value of the
expression in every model and every state.  If it is a truth value, it has a condition too, which holds just
when the value is the atom of truth.  The table of variables is the same afterwards.  A field that is not where
it is looked for is not lowered to its relation. -/
theorem meaning_denotes_value {site : HostSite} {vars : Table HostType} (e₀ : Expr) (scope : Source.Scope)
    (k : Nat) {e : Expr} (he : ((e₀.rename scope).run k).1 = e) {type : HostType}
    (htype : type? site vars e = some type)
    (hrelation : ∀ q ∈ e.quantifiers, ∀ c ∈ site.classes, ∀ name r,
      (fieldsOf site.classes c).find? name = some r → q.1 ≠ r.name)
    (hclass : ∀ q ∈ e.quantifiers, ∀ q' ∈ e.quantifiers, ∀ id,
      typeOf? site.classes (some q'.2) = some (.ref id) → q.1 ≠ id)
    (hlocated : ∀ r ∈ reads site vars e, Located site.classes r.1 r.2) :
    let m := meaning site.toSite (vars.map HostType.relational) e
    (∃ t, m.term = .ok (t, type.relational) ∧ ∀ (M : Model) (pre cur : M.Valuation), Truths M pre cur →
      M.eval pre cur t = value M site pre cur vars (fun _ => none) e) ∧
    (type = .bool → ∃ c, m.cond = .ok c ∧ ∀ (M : Model) (pre cur : M.Valuation), Truths M pre cur →
      (M.holds (M.eval pre cur c) ↔ value M site pre cur vars (fun _ => none) e = cur "true")) ∧
    lower site.toSite e (vars.map HostType.relational) = (m, vars.map HostType.relational) ∧
    ∀ c name v, (fieldsOf site.classes c).find? name = some v → ∀ object pos,
      (site.field object (.ref c.id) name pos = .ok (.join object (.ident v.name), v.type) ↔
        Located site.classes c name) := by
  intro m
  have hdenotes : Denotes site (e.quantifiers.map (·.2)) vars e type := by
    refine denotes e htype (fun q hq => ⟨⟨?_, hrelation q hq, fun t ht id hid => ?_⟩, List.mem_map_of_mem hq⟩) hlocated
    · exact Source.not_reserved_of_mem_quantifiers e₀ scope k (he ▸ hq)
    · obtain ⟨q', hq', rfl⟩ := List.mem_map.mp ht
      exact hclass q hq q' hq' id hid
  have hnone : ∀ M : Model, Bound.Clear (M := M) site (e.quantifiers.map (·.2)) fun _ => none :=
    fun _ _ h => absurd rfl h
  obtain ⟨t, hterm, ht⟩ := hdenotes.term
  refine ⟨⟨t, hterm, fun M pre cur h => ht h (hnone M)⟩, fun hbool => ?_, lower_eq site.toSite e _,
    fun c name v hv object pos => site_field_iff site.toSite hv object pos⟩
  obtain ⟨c, hcond, hc⟩ := hdenotes.cond hbool
  exact ⟨c, hcond, fun M pre cur h => hc h (hnone M)⟩

/-- A condition about linked objects: `\old(next) == next ==> thiz.next == null` for every `thiz` of the
class with `thiz != next`. -/
def linkedCondition : Expr :=
  let p : Position := default
  .quantOver p .all "thiz" ⟨"C", false⟩ (.binary p .ne (.ident p "thiz") (.ident p "next"))
    (.binary p .implies (.binary p .eq (.old p (.ident p "next")) (.ident p "next"))
      (.binary p .eq (.field p (.ident p "thiz") "next") (.null p)))

/-- Where the condition stands. -/
def linkedSite : HostSite :=
  { classes := [linked "C"], self := linked "C", owner := "", result := none, returns_eq := rfl }

/-- The condition holds just when its value is true. -/
theorem meaning_denotes_value_linked :
    let e := ((linkedCondition.rename Table.empty).run 0).1
    let ρ : Model.relations.Valuation := fun x => ({[.object x]} : Tuples)
    e.quantifiers = [("var_1_thiz", ⟨"C", false⟩)] ∧ type? linkedSite Table.empty e = some .bool ∧
      ∃ c, (meaning linkedSite.toSite Table.empty e).cond = .ok c ∧
        (Model.relations.holds (Model.relations.eval ρ ρ c) ↔
          value Model.relations linkedSite ρ ρ Table.empty (fun _ => none) e = ρ "true") := by
  intro e ρ
  have hq : e.quantifiers = [("var_1_thiz", ⟨"C", false⟩)] := by decide +kernel
  have htype : type? linkedSite Table.empty e = some .bool := by rfl
  have hfields : ∀ r ∈ (fieldsOf [linked "C"] (linked "C")).entries, "var_1_thiz" ≠ r.2.name := by
    decide +kernel
  have hid : typeOf? [linked "C"] (some ⟨"C", false⟩) = some (.ref "C") := by decide +kernel
  have hreads : reads linkedSite Table.empty e = List.replicate 4 (linked "C", "next") := by rfl
  have hlookup : lookup? [linked "C"] (linked "C").id = some (linked "C") := by rfl
  obtain ⟨-, hcond, -⟩ := @meaning_denotes_value linkedSite Table.empty linkedCondition Table.empty 0 e rfl .bool
    htype
    (by
      simp only [hq, List.mem_singleton, forall_eq, linkedSite]
      exact fun name r hr => Table.Forall.find? (P := fun _ (r : Var) => _ ≠ r.name) hfields hr)
    (by
      simp only [hq, List.mem_singleton, forall_eq, linkedSite, hid]
      rintro id ⟨⟩
      decide)
    (by
      rw [hreads]
      intro r hr
      rw [List.eq_of_mem_replicate hr]
      exact ⟨linked "C", hlookup, rfl⟩)
  obtain ⟨c, hc, hholds⟩ := hcond rfl
  refine ⟨hq, htype, c, hc, hholds Model.relations ρ ρ ⟨rfl, rfl, fun heq => ?_⟩⟩
  exact absurd (Set.singleton_injective heq) (by decide)

/-! ## A class that is found as another one

The class `a_b` of one package and the class `b` of the package `a` have one identifier and simple name
between them, and the first of the two counts. -/

/-- A class with a field. -/
def counted (package name : String) : ClassDecl :=
  { file := "", package := some package, name, fields := [⟨.start, "f", some ⟨"int", false⟩⟩] }

/-- Where a name in the class `b` of the package `a` stands. -/
def clashSite : HostSite :=
  { classes := [counted "q" "a_b", counted "a" "b"], self := counted "a" "b", owner := "", result := none
    returns_eq := rfl }

/-- A state in which the object at hand has a value for its field. -/
def clashState (x : String) : Tuples :=
  if x = "thiz" then {[.object "o"]} else if x = "a_b_f" then {[.object "o", .int 0]} else ∅

/-- **A field of another class is read**: the name of a field, which has a type, means the field of the class
that is found by the identifier, and denotes another value. -/
theorem meaning_of_clash :
    let e := Expr.ident default "f"
    type? clashSite Table.empty e = some .int ∧
      (meaning clashSite.toSite Table.empty e).term = .ok (.join (.ident "thiz") (.ident "q_a_b_f"), .int) ∧
      Model.relations.eval clashState clashState (.join (.ident "thiz") (.ident "q_a_b_f")) = (∅ : Tuples) ∧
      value Model.relations clashSite clashState clashState Table.empty (fun _ => none) e =
        ({[.int 0]} : Tuples) := by
  intro e
  have hother : clashState "q_a_b_f" = ∅ := by simp [clashState]
  have hown : clashState "a_b_f" = {[.object "o", .int 0]} := by simp [clashState]
  have hself : clashState "thiz" = {[.object "o"]} := by simp [clashState]
  refine ⟨rfl, rfl, ?_, ?_⟩
  · show {t | ∃ s x u, s ++ [x] ∈ clashState "thiz" ∧ x :: u ∈ clashState "q_a_b_f" ∧ t = s ++ u} = _
    simp [hother]
  · show {t | ∃ s x u, s ++ [x] ∈ clashState "thiz" ∧ x :: u ∈ clashState "a_b_f" ∧ t = s ++ u} = _
    ext t
    simp [hself, hown, List.append_eq_singleton_iff]

end Contract

end Relspec
