import Mathlib.Data.List.Forall2
import Relspec.Contract.OfClass

/-!
# Proofs/Contract/Likeness — classes that differ in contracts and methods only

What an expression means depends on the classes only through their names, superclasses and fields.

* `Source.ClassTable.fieldsOf_eq` — classes with the same fields have the same fields in the class table;
* `Site.Like.meaning`, `Site.Like.ofStmts` — expressions and bodies mean the same among them;
* `ofMethod_like` — methods become the same programs.
-/

namespace Relspec

open Source (ClassDecl Expr Method)
open Source.ClassTable

/-! ## Classes with the same fields -/

/-- **Two classes that differ in their contracts and methods only.** -/
structure Source.ClassDecl.SameFields (c c' : ClassDecl) : Prop where
  file : c'.file = c.file
  name : c'.name = c.name
  qualifiedName : c'.qualifiedName = c.qualifiedName
  superclass : c'.superclass = c.superclass
  fields : c'.fields = c.fields

theorem Source.ClassDecl.SameFields.id_eq {c c' : ClassDecl} (h : c.SameFields c') : c'.id = c.id := by
  rw [ClassDecl.id, h.qualifiedName, ClassDecl.id]

namespace Source.ClassTable

variable {classes classes' : List ClassDecl} {c c' : ClassDecl}
  (h : List.Forall₂ ClassDecl.SameFields classes classes')
include h

theorem rel_lookup? (name : String) :
    Option.Rel ClassDecl.SameFields (lookup? classes name) (lookup? classes' name) := by
  induction h with
  | nil => exact .none
  | @cons c c' classes classes' hc _ ih =>
    have hnames : c'.names = c.names := by
      rw [ClassDecl.names, hc.qualifiedName, hc.name, hc.id_eq, ClassDecl.names]
    rw [lookup?, lookup?, List.find?_cons, List.find?_cons, hnames]
    cases c.names.contains name with
    | true => exact .some hc
    | false => exact ih

theorem idOf_eq : idOf classes' = idOf classes := by
  funext name
  have hfound := rel_lookup? h name
  rw [idOf, idOf]
  generalize lookup? classes name = d at hfound
  generalize lookup? classes' name = d' at hfound
  cases hfound with
  | some hc => exact hc.id_eq
  | none => rfl

theorem typeOf?_eq :
    typeOf? classes' = typeOf? classes := by
  funext t
  simp only [typeOf?, namedType, idOf_eq h]

theorem collect_eq : ∀ (n : Nat) {c c' : ClassDecl} (_ : c.SameFields c') (found : Table Var),
    collect classes' n c' found = collect classes n c found
  | 0, _, _, _, _ => rfl
  | n + 1, c, c', hc, found => by
    have hadd : addFields classes' c' found = addFields classes c found := by
      simp only [addFields, relation, hc.fields, hc.id_eq, typeOf?_eq h]
    have hsuper : Option.Rel ClassDecl.SameFields (c.superclass.bind (lookup? classes))
        (c'.superclass.bind (lookup? classes')) := by
      rw [hc.superclass]
      cases c.superclass with
      | none => exact .none
      | some name => exact rel_lookup? h name
    rw [collect, collect, hadd]
    generalize c.superclass.bind (lookup? classes) = s at hsuper
    generalize c'.superclass.bind (lookup? classes') = s' at hsuper
    cases hsuper with
    | some hs => exact collect_eq n hs _
    | none => rfl

theorem fieldsOf_eq (hc : c.SameFields c') :
    fieldsOf classes' c' = fieldsOf classes c := by
  rw [fieldsOf, fieldsOf, h.length_eq, collect_eq h _ hc]

end Source.ClassTable

namespace Contract

/-- **Two places where expressions mean the same.** -/
structure Site.Like (site site' : Site) : Prop where
  classes : List.Forall₂ ClassDecl.SameFields site.classes site'.classes
  self : site.self.SameFields site'.self
  owner : site'.owner = site.owner
  returns : site'.returns = site.returns

namespace Site.Like

variable {site site' : Site} (h : site.Like site')
include h

theorem unsupported : site'.unsupported = site.unsupported := by
  funext construct pos
  rw [Site.unsupported, h.owner, h.self.file, Site.unsupported]

theorem unknownName : site'.unknownName = site.unknownName := by
  funext name pos
  rw [Site.unknownName, h.owner, h.self.file, Site.unknownName]

theorem field : site'.field = site.field := by
  funext object type name pos
  unfold Site.field
  rw [h.unknownName]
  cases type with
  | ref id =>
    have hfound := rel_lookup? h.classes id
    dsimp only
    generalize lookup? site.classes id = d at hfound
    generalize lookup? site'.classes id = d' at hfound
    cases hfound with
    | some hc => rw [Option.bind_some, Option.bind_some, fieldsOf_eq h.classes hc]
    | none => rfl
  | int | bool => rfl

theorem ident : site'.ident = site.ident := by
  funext vars name pos
  rw [Site.ident, Site.ident, fieldsOf_eq h.classes h.self, h.field, h.self.id_eq, h.unknownName]

theorem ofTerm : Meaning.ofTerm site' = Meaning.ofTerm site := by
  funext e term
  simp only [Meaning.ofTerm, Site.notBool, h.unsupported]

theorem quantified : quantifiedMeaning site' = quantifiedMeaning site := by
  funext pos q var type body
  rw [quantifiedMeaning, quantifiedMeaning, typeOf?_eq h.classes, h.unsupported]

theorem below_eq : below site' = below site := by
  funext vars var type
  rw [below, below, typeOf?_eq h.classes]

theorem meaning_eq (vars : Table ValueType) : ∀ e : Expr, meaning site' vars e = meaning site vars e
  | .ident .. | .int .. | .null _ | .self _ => by
    simp only [meaning, h.ofTerm, h.ident, h.self.id_eq]
  | .result p => by simp only [meaning, h.ofTerm, h.returns, h.unknownName]
  | .bool .. => rfl
  | .old _ x => by simp only [meaning, meaning_eq vars x]
  | .field _ x _ => by simp only [meaning, h.ofTerm, h.field, meaning_eq vars x]
  | .unary _ .not x | .unary _ .neg x => by
    simp only [meaning, h.ofTerm, meaning_eq vars x]
  | .binary _ op x y => by
    simp only [meaning, h.ofTerm, Site.notBool, h.unsupported, meaning_eq vars x, meaning_eq vars y]
  | .quant _ _ var type body => by
    simp only [meaning, h.quantified, h.below_eq, meaning_eq (below site vars var type) body]
  | .quantOver _ _ var type range body => by
    simp only [meaning, h.quantified, h.below_eq, meaning_eq (below site vars var type) range,
      meaning_eq (below site vars var type) body]
  | .string .. | .index .. | .new .. | .call .. | .invoke .. => by
    simp only [meaning, h.unsupported]

theorem condOf_eq : condOf site' = condOf site := by
  funext vars e
  rw [condOf, h.meaning_eq, condOf]

theorem valueOf_eq : valueOf site' = valueOf site := by
  funext vars e
  rw [valueOf, h.meaning_eq, valueOf]

theorem targetOf_eq : targetOf site' = targetOf site := by
  funext vars e
  simp only [targetOf, h.meaning_eq, h.unsupported]

omit h

mutual

theorem ofStmt_eq (h : site.Like site') (vars : Table ValueType) : ∀ s : Source.Stmt,
    ofStmt site' vars s = ofStmt site vars s
  | .block _ body => ofStmts_eq h vars body
  | .assign .. => by simp only [ofStmt, h.targetOf_eq, h.valueOf_eq]
  | .ifThen _ _ _ thn => by simp only [ofStmt, h.condOf_eq, ofStmts_eq h vars thn]
  | .ifElse _ _ _ thn _ els => by
    simp only [ofStmt, h.condOf_eq, ofStmts_eq h vars thn, ofStmts_eq h vars els]
  | .loop _ _ _ _ _ body => by
    simp only [ofStmt, invariantOf, h.condOf_eq, h.valueOf_eq, ofStmts_eq h vars body]
  | .ret .. => by simp only [ofStmt, h.valueOf_eq]
  | .raise _ e => by
    cases e <;> simp only [ofStmt, exceptionAtom, idOf_eq h.classes, h.unsupported]
  | .assert .. | .assume .. => by simp only [ofStmt, h.condOf_eq]
  | .eval _ e => by cases e <;> simp only [ofStmt, h.unsupported]
  | .declare .. => rfl

theorem ofStmts_eq (h : site.Like site') (vars : Table ValueType) : ∀ ss : List Source.Stmt,
    ofStmts site' vars ss = ofStmts site vars ss
  | [] => rfl
  | s :: ss => by simp only [ofStmts, ofStmt_eq h vars s, ofStmts_eq h vars ss]

end

end Site.Like

/-- **Methods become the same programs** among classes with the same fields. -/
theorem ofMethod_like {classes classes' : List ClassDecl} {c c' : ClassDecl}
    (hclasses : List.Forall₂ ClassDecl.SameFields classes classes') (hc : c.SameFields c') (m : Method)
    (overload : Nat) : ofMethod classes' c' m overload = ofMethod classes c m overload := by
  have hlike : ∀ returns, Site.Like ⟨classes, c, m.signature, returns⟩ ⟨classes', c', m.signature, returns⟩ :=
    fun _ => ⟨hclasses, hc, rfl, rfl⟩
  have htype : ∀ returns, typeOrFault ⟨classes', c', m.signature, returns⟩ =
      typeOrFault ⟨classes, c, m.signature, returns⟩ := fun returns => by
    funext t what pos
    rw [typeOrFault, typeOrFault, (hlike returns).unsupported, typeOf?_eq hclasses]
  simp only [ofMethod, paramsOf, localsOf, clausesOf, htype, (hlike _).condOf_eq, (hlike _).ofStmts_eq, hc.id_eq]

end Contract

end Relspec
