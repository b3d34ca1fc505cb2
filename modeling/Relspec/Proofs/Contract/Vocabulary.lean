import Relspec.Proofs.Arithmetic.Vocabulary
import Relspec.Proofs.Contract.Plain
import Relspec.Proofs.Source.Vocabulary

/-!
# Proofs/Contract/Vocabulary — what contract modules speak of

A formula of a contract speaks of the object at hand, of atoms, fields and variables.  What else it speaks
of is loose: a type that a quantifier ranges over, a field of a class without a module, a result in an
earlier state, a local variable, or a name in a pragma that stands for nothing.

* `Known`, `Loose` — what formulas speak of, and what may be left over;
* `Means.over`, `ofStmts_over` — expressions and statements;
* `Program.Speaks`, `Module.Speaks` — programs and modules over the vocabulary of their classes;
* `MadeFrom.speaks`, `ofClass_speaks` — methods and classes.
-/

namespace Relspec

open List
open Formula (Vocabulary)
open Source (ClassDecl Expr Method Part)
open Source.ClassTable

/-! ## References of formulas -/

/-- A name in a formula over names of the source, and whether it stands on the right of a dot. -/
structure Formula.Reference where
  name : String
  dotted : Bool
deriving DecidableEq, Repr

mutual

/-- **The names that a formula over names of the source refers to** under the names `bound`. -/
def Formula.references (bound : List String) (dotted : Bool) : Formula → List Formula.Reference
  | .ident name => if dotted then [⟨name, true⟩] else if bound.contains name then [] else [⟨name, false⟩]
  | .int _ => []
  | .join x y => x.references bound dotted ++ y.references bound true
  | .call _ args => Formula.referencesAll bound args
  | .unary _ x => x.references bound dotted
  | .binary _ x y => x.references bound false ++ y.references bound false
  | .quant _ vars domain body => domain.references bound false ++ body.references (bound ++ vars) false
  | .old x => x.references bound false
  | .ite c t e => c.references bound false ++ (t.references bound false ++ e.references bound false)

/-- The names that several formulas refer to. -/
def Formula.referencesAll (bound : List String) : List Formula → List Formula.Reference
  | [] => []
  | x :: xs => x.references bound false ++ Formula.referencesAll bound xs

end

namespace Source

/-- The formulas of the pragmas of a part of a contract. -/
def Part.Asserts (p : Part) (f : Formula) : Prop := ∃ a ∈ p.pragmas, Formula.read a.formula = .ok f

/-- The variables of the quantifiers of a part of a contract, under the names they go by. -/
def Part.Binds (p : Part) (x : String) : Prop :=
  (∃ v ∈ p.quantified, Naming.GoesBy v x) ∨ ∃ f, p.Asserts f ∧ x ∈ f.binders

/-- What clauses mention. -/
def Clause.parts (cs : List Clause) : Part := cs.foldr (fun c p => c.expr.part [] false ++ p) {}

/-- **The object invariant of a class** as it is written. -/
def ClassDecl.invariantPart (c : ClassDecl) : Part :=
  Clause.parts c.invariants ++ { pragmas := c.pragmas.filter (·.kind == .invariant) }

/-- The pragmas of a method and of the others of its signature. -/
def ClassDecl.pragmasOf (c : ClassDecl) (m : Method) (kind : PragmaKind) : List Pragma :=
  (c.methods.filter (·.signature == m.signature)).flatMap fun m => m.pragmas.filter (·.kind == kind)

/-- **The precondition of a method** as it is written; it speaks of the state before only. -/
def ClassDecl.prePart (c : ClassDecl) (m : Method) : Part :=
  Clause.parts (m.clausesOf .precondition) ++ { before := true, pragmas := c.pragmasOf m .requires }

/-- **The postcondition of a method** as it is written. -/
def ClassDecl.postPart (c : ClassDecl) (m : Method) : Part :=
  Clause.parts (m.clausesOf .postcondition) ++ { pragmas := c.pragmasOf m .ensures }

/-- The body of a method. -/
def Method.bodyPart (m : Method) : Part := { ranges := Stmt.rangesAll m.stmts }

end Source

namespace Contract

/-- The words for the object at hand, for atoms and for their types. -/
def constants : List String := ["thiz", "true", "false", "null", "boolean", "Int"]

/-- The relation of a field of a class. -/
def IsField (classes : List ClassDecl) (x : String) : Prop :=
  ∃ d ∈ classes, ∃ f ∈ d.fields, x = d.id ++ "_" ++ f.name

/-- What every formula may speak of. -/
def Known (classes : List ClassDecl) (x : String) : Prop := x ∈ constants ∨ IsField classes x

/-- A vocabulary that has what every formula may speak of. -/
def Knows (V : Vocabulary) (classes : List ClassDecl) : Prop :=
  ∀ x, Known classes x → ∀ early, V.reads early x

/-- **What may be left over** of a part of the contract of a class, when there are modules for the ids
`kept`. -/
inductive Loose (classes : List ClassDecl) (kept : List String) (c : ClassDecl) (p : Part) : String → Prop
  /-- A type that a quantifier ranges over. -/
  | range {t : Source.TypeRef} (h : t ∈ p.ranges) : Loose classes kept c p (idOf classes t.name)
  /-- A field of a class without a module. -/
  | field {d : ClassDecl} {f : Source.Field} (hd : d ∈ classes) (hkept : d.id ∉ kept) (hf : f ∈ d.fields) :
    Loose classes kept c p (d.id ++ "_" ++ f.name)
  /-- The result in the state before. -/
  | result {early : Bool} (h : early ∈ p.results) (hearly : early = true ∨ p.before = true) :
    Loose classes kept c p "return"
  /-- A name that a local variable goes by. -/
  | issued {n : Nat} {x : String} (h : Naming.issued n x ∈ p.names) :
    Loose classes kept c p (Naming.issued n x)
  /-- A name in a pragma that is neither the object at hand nor one of its fields. -/
  | unresolved {f : Formula} {x : String} (hf : p.Asserts f) (hx : ⟨x, false⟩ ∈ f.references [] false)
    (hself : x ≠ "this") (hfield : ∀ d ∈ c.fields, d.name ≠ x) : Loose classes kept c p x
  /-- A class in a pragma. -/
  | className {f : Formula} {x : String} {d : ClassDecl} (hf : p.Asserts f)
    (hx : ⟨x, false⟩ ∈ f.references [] false) (hd : d ∈ classes) (hname : x = d.name ∨ x = d.qualifiedName) :
    Loose classes kept c p d.id
  /-- A name on the right of a dot that no module has a field for. -/
  | navigated {f : Formula} {x : String} (hf : p.Asserts f) (hx : ⟨x, true⟩ ∈ f.references [] false)
    (hfield : ∀ d ∈ classes, d.id ∈ kept → ∀ f ∈ d.fields, f.name ≠ x) : Loose classes kept c p x

/-- **What is left over of a part without pragmas**, of which no result and no local variable is read, when
all classes have modules: a type that a quantifier ranges over. -/
theorem Loose.exists_range {classes : List ClassDecl} {kept : List String} {c : ClassDecl}
    {part : Part} (hkept : ∀ d ∈ classes, d.id ∈ kept) (hresults : part.results = [])
    (hnames : ∀ n x, Naming.issued n x ∉ part.names) (hpragmas : part.pragmas = []) {x : String}
    (h : Loose classes kept c part x) : ∃ t ∈ part.ranges, x = idOf classes t.name := by
  have hasserts : ∀ f, ¬ part.Asserts f := fun f ⟨b, hb, _⟩ => by
    rw [hpragmas] at hb
    exact not_mem_nil hb
  cases h with
  | range ht => exact ⟨_, ht, rfl⟩
  | field hd hnot _ => exact absurd (hkept _ hd) hnot
  | result hresult _ => exact absurd (hresults ▸ hresult) not_mem_nil
  | issued hissued => exact absurd hissued (hnames _ _)
  | unresolved hf | className hf | navigated hf => exact absurd hf (hasserts _)

/-- **The vocabulary of a part of the contract of a class**, over variables and, where it may be read,
the result. -/
def vocabulary (classes : List ClassDecl) (kept : List String) (c : ClassDecl) (p : Part)
    (vars : List String) (result : Bool → Prop) : Vocabulary where
  reads early x :=
    Known classes x ∨ x ∈ vars ∨ (result early ∧ x = "return") ∨ Loose classes kept c p x
  binds := p.Binds

/-- The vocabulary of an object invariant. -/
def invariantVocabulary (classes : List ClassDecl) (kept : List String) (c : ClassDecl) : Vocabulary :=
  vocabulary classes kept c c.invariantPart [] fun _ => False

/-- The vocabulary of the precondition of a program. -/
def preVocabulary (classes : List ClassDecl) (kept : List String) (c : ClassDecl) (m : Method) (p : Program) :
    Vocabulary :=
  vocabulary classes kept c (c.prePart m) (p.params.map (·.name)) fun _ => False

/-- The vocabulary of the postcondition of a program. -/
def postVocabulary (classes : List ClassDecl) (kept : List String) (c : ClassDecl) (m : Method)
    (p : Program) : Vocabulary :=
  vocabulary classes kept c (c.postPart m) (p.params.map (·.name)) fun early =>
    early = false ∧ p.returns.isSome

/-- The vocabulary of the body of a program. -/
def bodyVocabulary (classes : List ClassDecl) (kept : List String) (c : ClassDecl) (m : Method)
    (p : Program) : Vocabulary :=
  { vocabulary classes kept c m.bodyPart ((p.params ++ p.locals).map (·.name)) fun _ => p.returns.isSome with
    binds := fun _ => True }

/-- **A program over the vocabulary of its method**; none of its parameters is called like its result. -/
structure Program.Speaks (classes : List ClassDecl) (kept : List String) (c : ClassDecl) (m : Method)
    (p : Program) : Prop where
  params : "return" ∉ p.params.map (·.name)
  requires : Side.Speaks (preVocabulary classes kept c m p) p.side .requires p.requires
  ensures : Side.Speaks (postVocabulary classes kept c m p) p.side .ensures p.ensures
  body : ∀ f ∈ Stmt.formulasAll p.body, f.Over (bodyVocabulary classes kept c m p) [] false

/-- **A module over the vocabulary of its class.** -/
structure Module.Speaks (classes : List ClassDecl) (kept : List String) (c : ClassDecl) (m : Module) :
    Prop where
  id : m.id = c.id
  fields : m.fields.map (·.name) = c.fields.map fun f => c.id ++ "_" ++ f.name
  origin : m.side.ofOrigin .invariant = m.side
  side : m.side.Defines (invariantVocabulary classes kept c) .invariant
  predicates : ∀ p ∈ m.predicates,
    p.body.Over (m.side.vocabulary .invariant (invariantVocabulary classes kept c)) [] false
  programs : ∀ p ∈ m.programs, ∃ method k, (method, k) ∈ numbered [] c.methods ∧
    p.id = programId c.id method.name k ∧ p.Speaks classes kept c method

/-! ## Fields -/

section Fields

variable {classes : List ClassDecl}

theorem find?_collect {x : String} {v : Var} : ∀ (n : Nat) {c : ClassDecl} {found : Table Var},
    found.find? x = some v → (collect classes n c found).find? x = some v
  | 0, _, _, h => h
  | n + 1, c, found, h => by
    have hadd : (addFields classes c found).find? x = some v :=
      List.foldlRecOn (motive := fun t : Table Var => t.find? x = some v) c.fields _ h fun _ ht _ _ =>
        Table.find?_insertNew_of_some ht
    rw [collect]
    split
    · exact find?_collect n hadd
    · exact hadd

/-- **The fields of a module are the fields that its class declares.** -/
theorem name_ownFields (c : ClassDecl) :
    (ownFields classes c).map (·.name) = c.fields.map fun f => c.id ++ "_" ++ f.name := by
  rw [ownFields, map_map]
  refine map_congr_left fun f hf => ?_
  -- Fields nearer by are found first, and those of the class are nearest.
  have hown : (addFields classes c .empty).Forall fun x v => v.name = c.id ++ "_" ++ x :=
    addFields_forall .empty fun _ _ => rfl
  have hfound : (addFields classes c .empty).contains f.name = true :=
    Table.contains_foldl_insertNew.mpr (.inr (mem_map_of_mem hf))
  obtain ⟨v, hv⟩ := Option.isSome_iff_exists.mp hfound
  have hfind : (fieldsOf classes c).find? f.name = some v := by
    rw [fieldsOf, collect]
    split
    · exact find?_collect _ hv
    · exact hv
  rw [Function.comp_apply, hfind, Option.getD_some]
  exact hown.find? hv

end Fields

/-! ## Expressions -/

section Meaning

variable {V : Vocabulary} {site : Site} {bound : List String} {early : Bool} {e : Expr}

variable {t f : Formula} {type : Source.TypeRef} {name : String} {pos : Position} {isVar : String → Prop}
  {vars : Table ValueType} {ts us : List Source.TypeRef}

theorem Knows.constant {classes : List ClassDecl} (h : Knows V classes) {x : String}
    (hx : x ∈ constants := by decide) : (Formula.ident x).Over V bound early := .inr (h x (.inl hx) early)

theorem field_over (hV : Knows V site.classes) {object : Formula} {type type' : ValueType}
    (hobject : object.Over V bound early) (ht : site.field object type name pos = .ok (t, type')) :
    t.Over V bound early := by
  unfold Site.field at ht
  dsimp only at ht
  split at ht
  · next v hv =>
    cases ht
    obtain ⟨c, hc, hfind⟩ := Option.bind_eq_some_iff.mp hv
    have hmem : c ∈ site.classes := by
      split at hc
      · exact (mem_of_lookup? hc).1
      · cases hc
    have hfields : (fieldsOf site.classes c).Forall fun _ v => IsField site.classes v.name :=
      fieldsOf_forall (fun _ => id) (fun d hd f hf => ⟨d, hd, f, hf, rfl⟩) hmem
    exact ⟨hobject, .inr (hV _ (.inr (hfields.find? hfind)) early)⟩
  · cases ht

theorem domainOf_over (hV : Knows V site.classes) {t : ValueType}
    (ht : typeOf? site.classes (some type) = some t) (hrange : V.reads early (idOf site.classes type.name)) :
    (domainOf t).Over V bound early := by
  rw [typeOf?] at ht
  split at ht
  · cases ht
  · obtain rfl := Option.some.inj ht
    rw [namedType]
    split_ifs
    · exact hV.constant
    · exact hV.constant
    · exact .inr hrange

/-- **Variables in force** under quantified ones: these, and those of the method. -/
structure InForce (isVar : String → Prop) (vars : Table ValueType) (under bound : List String) : Prop where
  vars : ∀ x, vars.contains x = true → x ∈ under ∨ isVar x
  bound : ∀ x ∈ under, x ∈ bound

theorem InForce.outside (h : ∀ x, vars.contains x = true → isVar x) : InForce isVar vars [] [] :=
  ⟨fun x hx => .inr (h x hx), nofun⟩

theorem InForce.below {under : List String}
    (h : InForce isVar vars under bound) (site : Site) (var : String) (type : Source.TypeRef) :
    InForce isVar (below site vars var type) (var :: under) (bound ++ [var]) where
  vars x hx := by
    rcases (Table.contains_insert ..).mp hx with hx | rfl
    · exact (h.vars x hx).imp_left (mem_cons_of_mem _)
    · exact .inl mem_cons_self
  bound x hx := by
    rcases mem_cons.mp hx with rfl | hx
    · exact mem_append_right _ mem_cons_self
    · exact mem_append_left _ (h.bound x hx)

theorem ident_over (hV : Knows V site.classes) {under : List String}
    (hvars : InForce isVar vars under bound) (hname : name ∈ under ∨ (isVar name → V.reads early name))
    {type : ValueType} (ht : site.ident vars name pos = .ok (t, type)) : t.Over V bound early := by
  rw [Site.ident] at ht
  split at ht
  · next hfind =>
    cases ht
    have hforce := hvars.vars name (by rw [Table.contains, hfind]; rfl)
    rcases hname with hname | hname
    · exact .inl (hvars.bound name hname)
    · exact hforce.imp (hvars.bound name) hname
  · split at ht
    · exact field_over hV hV.constant ht
    · cases ht

/-- **The meaning of an expression over a vocabulary.** -/
theorem Means.over {hasResult : Prop} {o : Option ValueType} (hm : Means site vars e f o)
    (hV : Knows V site.classes) (hreturns : site.returns.isSome = true → hasResult) {under : List String}
    (hvars : InForce isVar vars under bound)
    (he : e.Over V ⟨site.classes, isVar, hasResult⟩ under early) : f.Over V bound early := by
  induction hm generalizing under bound early with
  | ident ht => exact ident_over hV hvars he ht
  | int => trivial
  | @truth _ _ v => cases v <;> trivial
  | @bool _ _ v => cases v <;> exact hV.constant
  | null | self => exact hV.constant
  | result hsome => exact .inr (he (hreturns (by rw [hsome]; rfl)))
  | old _ ih | not _ ih | neg _ ih => exact ih hvars he
  | field _ ht ih => exact field_over hV (ih hvars he) ht
  | binary _ _ ihx ihy => exact ⟨ihx hvars he.1, ihy hvars he.2⟩
  | quant ht _ ih =>
    exact ⟨forall_mem_singleton.mpr he.1.1, domainOf_over hV ht he.1.2, ih (hvars.below ..) he.2⟩
  | @quantOver _ _ q _ _ _ _ _ _ _ ht _ _ ihr ihb =>
    refine ⟨forall_mem_singleton.mpr he.1.1, domainOf_over hV ht he.1.2, ?_⟩
    cases q <;> exact ⟨ihr (hvars.below ..) he.2.1, ihb (hvars.below ..) he.2.2⟩
  | isTrue _ ih => exact ⟨ih hvars he, hV.constant⟩
  | chosen _ ih =>
    exact ⟨ih hvars he, hV.constant, hV.constant⟩

/-! ## Statements -/

/-- **Where all variables and the result may be read**, and quantifiers may have any variable. -/
structure Permits (V : Vocabulary) (site : Site) (vars : Table ValueType) : Prop where
  knows : Knows V site.classes
  vars : ∀ x, vars.contains x = true → ∀ early, V.reads early x
  returns : site.returns.isSome = true → ∀ early, V.reads early "return"
  binds : ∀ x, V.binds x

/-- Types that quantifiers may range over. -/
def RangesOver (V : Vocabulary) (site : Site) (ts : List Source.TypeRef) : Prop :=
  ∀ t ∈ ts, ∀ early, V.reads early (idOf site.classes t.name)

variable {vars : Table ValueType} {f : Formula}

theorem RangesOver.left (h : RangesOver V site (ts ++ us)) :
    RangesOver V site ts := fun t ht => h t (mem_append_left _ ht)

theorem RangesOver.right (h : RangesOver V site (ts ++ us)) :
    RangesOver V site us := fun t ht => h t (mem_append_right _ ht)

theorem RangesOver.mem {α : Type} {l : List α} {ranges : α → List Source.TypeRef}
    (h : RangesOver V site (l.flatMap ranges)) {a : α} (ha : a ∈ l) : RangesOver V site (ranges a) :=
  fun t ht => h t (mem_flatMap.mpr ⟨a, ha, ht⟩)

/-- Expressions mean formulas over the vocabulary. -/
theorem Permits.conveys (h : Permits V site vars) :
    Conveys site vars (fun e => RangesOver V site e.ranges) (·.Over V [] false) where
  means {e f o} he hm := by
    have hover : e.Over V ⟨site.classes, (vars.contains · = true), site.returns.isSome = true⟩ [] false :=
      e.over_of_ranges (fun early x hx => h.vars x hx early) (fun early hr => h.returns hr early) h.binds he
    exact hm.over h.knows (fun hr => hr) (.outside fun _ hx => hx) hover
  all := .all

theorem Stmt.formulasAll_append (ss ts : List Stmt) :
    formulasAll (ss ++ ts) = formulasAll ss ++ formulasAll ts := by
  induction ss with
  | nil => rfl
  | cons s ss ih => rw [cons_append, formulasAll, ih, formulasAll, append_assoc]

mutual

/-- **The statements that a statement becomes**, over a vocabulary. -/
theorem ofStmt_over (h : Conveys site vars (fun e => RangesOver V site e.ranges) (·.Over V [] false))
    {ss : List Stmt} : ∀ {s : Source.Stmt}, RangesOver V site s.ranges → ofStmt site vars s = .ok ss →
      ∀ f ∈ Stmt.formulasAll ss, f.Over V [] false
  | .block _ body, hs, hss => by
    rw [Source.Stmt.ranges] at hs
    rw [ofStmt] at hss
    exact ofStmts_over h hs hss
  | .assign _ target value, hs, hss => by
    obtain ⟨t, ht, hss⟩ := exists_of_except_ok hss
    obtain ⟨v, hv, hss⟩ := exists_of_except_ok hss
    cases hss
    simp only [Stmt.formulasAll, Stmt.formulas, append_nil, forall_mem_cons]
    exact ⟨h.target hs.left ht, h.value hs.right hv, nofun⟩
  | .ifThen _ cond _ thn, hs, hss => by
    obtain ⟨c, hc, hss⟩ := exists_of_except_ok hss
    obtain ⟨t, ht, hss⟩ := exists_of_except_ok hss
    cases hss
    simp only [Stmt.formulasAll, Stmt.formulas, append_nil, forall_mem_cons]
    exact ⟨h.cond hs.left hc, ofStmts_over h hs.right ht⟩
  | .ifElse _ cond _ thn _ els, hs, hss => by
    obtain ⟨c, hc, hss⟩ := exists_of_except_ok hss
    obtain ⟨t, ht, hss⟩ := exists_of_except_ok hss
    obtain ⟨e, he, hss⟩ := exists_of_except_ok hss
    cases hss
    simp only [Stmt.formulasAll, Stmt.formulas, append_nil, forall_mem_cons,
      forall_mem_append]
    exact ⟨h.cond hs.left hc, ofStmts_over h hs.right.left ht, ofStmts_over h hs.right.right he⟩
  | .loop _ cond invariants variant _ body, hs, hss => by
    obtain ⟨c, hc, hss⟩ := exists_of_except_ok hss
    obtain ⟨i, hi, hss⟩ := exists_of_except_ok hss
    obtain ⟨v, hv, hss⟩ := exists_of_except_ok hss
    obtain ⟨b, hb, hss⟩ := exists_of_except_ok hss
    cases hss
    simp only [Stmt.formulasAll, Stmt.formulas, append_nil, forall_mem_cons, forall_mem_append,
      Option.mem_toList]
    exact ⟨h.cond hs.left hc, ⟨h.invariant (fun _ => hs.right.left.mem) hi,
      h.optional (fun _ ha => hs.right.right.left.mem (Option.mem_toList.mpr ha)) hv⟩,
      ofStmts_over h hs.right.right.right hb⟩
  | .ret _ value, hs, hss => by
    obtain ⟨v, hv, hss⟩ := exists_of_except_ok hss
    cases hss
    simp only [Stmt.formulasAll, Stmt.formulas, append_nil, Option.mem_toList]
    exact h.optional (fun _ ha => hs.mem (Option.mem_toList.mpr ha)) hv
  | .raise _ e, _, hss => by
    cases e with
    | new _ type _ =>
      cases hss
      exact nofun
    | _ => cases hss
  | .assert _ e, hs, hss | .assume _ e, hs, hss => by
    obtain ⟨c, hc, hss⟩ := exists_of_except_ok hss
    cases hss
    exact forall_mem_singleton.mpr (h.cond hs hc)
  | .eval _ e, _, hss => by
    cases e <;> cases hss
  | .declare .., _, hss => by
    cases hss
    exact nofun

theorem ofStmts_over (h : Conveys site vars (fun e => RangesOver V site e.ranges) (·.Over V [] false)) :
    ∀ {ts : List Source.Stmt} {ss : List Stmt},
    RangesOver V site (Source.Stmt.rangesAll ts) → ofStmts site vars ts = .ok ss →
      ∀ f ∈ Stmt.formulasAll ss, f.Over V [] false
  | [], ss, _, hss => by
    cases hss
    exact nofun
  | t :: ts, ss, hts, hss => by
    obtain ⟨first, hfirst, hss⟩ := exists_of_except_ok hss
    obtain ⟨rest, hrest, hss⟩ := exists_of_except_ok hss
    cases hss
    rw [Stmt.formulasAll_append, forall_mem_append]
    exact ⟨ofStmt_over h hts.left hfirst, ofStmts_over h hts.right hrest⟩

end

end Meaning

/-! ## Clauses -/

section Clauses

variable {V : Vocabulary} {S : Source.Surroundings} {scope : Source.Scope}
variable {isVar : String → Prop} {hasResult : Prop} {classes : List ClassDecl} {kept vars : List String}
  {c : ClassDecl} {p : Part} {result : Bool → Prop}

theorem allowed_of_mem_clauses {c : Source.Clause} : ∀ {cs : List Source.Clause},
    (Source.Clause.parts cs).Allowed V S scope → c ∈ cs → (c.expr.part [] false).Allowed V S scope
  | d :: cs, h, hc => by
    rcases mem_cons.mp hc with rfl | hc
    · exact h.left
    · exact allowed_of_mem_clauses h.right hc

theorem exists_of_mem_renameClauses (scope : Source.Scope) : ∀ (cs : List Source.Clause) (k : Nat),
    ∀ c' ∈ ((cs.mapM (Source.Clause.rename scope)).run k).1,
      ∃ c ∈ cs, ∃ k', c'.expr = ((c.expr.rename scope).run k').1
  | [], _ => nofun
  | c :: cs, k => by
    rw [mapM_cons]
    refine forall_mem_cons.mpr ⟨⟨c, mem_cons_self, k, rfl⟩, fun c' hc' => ?_⟩
    obtain ⟨d, hd, h⟩ := exists_of_mem_renameClauses scope cs _ c' hc'
    exact ⟨d, mem_cons_of_mem _ hd, h⟩

/-- **The conjunction of renamed clauses** over a vocabulary that allows what they mention. -/
theorem clausesOf_over {site : Site} {vars : Table ValueType} {cs : List Source.Clause} {k : Nat}
    {f : Formula} (hf : clausesOf site vars ((cs.mapM (Source.Clause.rename scope)).run k).1 = .ok f)
    (hV : Knows V site.classes) (hreturns : site.returns.isSome = true → hasResult)
    (hvars : ∀ x, vars.contains x = true → isVar x)
    (hcs : (Source.Clause.parts cs).Allowed V ⟨site.classes, isVar, hasResult⟩ scope) :
    f.Over V [] false := by
  have hmeans : Conveys site vars (·.Over V ⟨site.classes, isVar, hasResult⟩ [] false) (·.Over V [] false) :=
    ⟨fun he hm => hm.over hV hreturns (.outside hvars) he, .all⟩
  refine hmeans.clauses (fun c' hc' => ?_) hf
  obtain ⟨c, hc, k', he⟩ := exists_of_mem_renameClauses scope cs k c' hc'
  rw [he]
  have hbelow : Source.Scope.Below scope [] [] scope := ⟨nofun, fun _ _ => rfl⟩
  exact Source.rename_over c.expr hbelow (allowed_of_mem_clauses hcs hc)

/-- **What a part of a contract mentions is in its vocabulary**, when the variables are in it that its
names go by, other than those of local variables. -/
theorem allowed_vocabulary {q : Part} (hnames : ∀ x, isVar (scope.rename x) →
      scope.rename x ∈ vars ∨ scope.rename x = x ∧ ∃ n z, x = Naming.issued n z)
    (hresults : hasResult → ∀ early, result early ∨ early = true ∨ q.before = true) :
    p.Allowed (vocabulary classes kept c (p ++ q) vars result) ⟨classes, isVar, hasResult⟩ scope where
  names x hx hvar early := by
    rcases hnames x hvar with hmem | ⟨heq, n, z, rfl⟩
    · exact .inr (.inl hmem)
    · rw [heq]
      exact .inr (.inr (.inr (.issued (mem_append_left _ hx))))
  ranges t ht early := .inr (.inr (.inr (.range (mem_append_left _ ht))))
  results early hearly hr := by
    rcases hresults hr early with h | h
    · exact .inr (.inr (.inl ⟨h, rfl⟩))
    · refine .inr (.inr (.inr (.result (mem_append_left _ hearly) (h.imp_right fun hq => ?_))))
      exact Bool.or_eq_true_iff.mpr (.inr hq)
  quantified x hx y hy := .inl ⟨x, mem_append_left _ hx, hy⟩

theorem knows_vocabulary : Knows (vocabulary classes kept c p vars result) classes :=
  fun _ hx _ => .inl hx

end Clauses

/-! ## Methods -/

section Methods

variable {classes : List ClassDecl} {site : Site}
variable {m : Method} {params locals : List Var} {x : String}

theorem names_paramsOf {names : Source.Scope} (h : paramsOf site m names = .ok params) :
    params.map (·.name) = m.params.map fun p => names.rename p.name := by
  refine map_eq_of_forall₂ (forall₂_of_mapM_ok h) fun p v hv => ?_
  obtain ⟨type, -, hv⟩ := exists_of_except_ok hv
  cases hv
  rfl

theorem names_localsOf {ds : List Source.Declaration} (h : localsOf site ds = .ok locals) :
    locals.map (·.name) = ds.map (·.unique) := by
  refine map_eq_of_forall₂ (forall₂_of_mapM_ok h) fun d v hv => ?_
  obtain ⟨type, -, hv⟩ := exists_of_except_ok hv
  cases hv
  rfl

theorem contains_typing {vs : List Var} : (typing vs).contains x = true ↔ x ∈ vs.map (·.name) := by
  rw [typing, Table.ofList, Table.contains_foldl_insert, map_map]
  exact or_iff_right Bool.false_ne_true

/-- **What the names of a method go by**: a name that goes by that of a variable is one of a parameter, or
else was issued for a local variable. -/
theorem rename_of_isVar {k : Nat} (hparams : paramsOf site m (m.rename.run k).1.params = .ok params)
    {site' : Site} (hlocals : localsOf site' (m.rename.run k).1.declarations = .ok locals)
    (hx : Source.Scope.rename (m.rename.run k).1.params x ∈ (params ++ locals).map (·.name)) :
    Source.Scope.rename (m.rename.run k).1.params x ∈ params.map (·.name) ∨
      Source.Scope.rename (m.rename.run k).1.params x = x ∧ ∃ n z, x = Naming.issued n z := by
  rw [map_append, mem_append] at hx
  rcases hx with hx | hx
  · exact .inl hx
  · by_cases hparam : x ∈ m.params.map (·.name)
    · obtain ⟨q, hq, rfl⟩ := mem_map.mp hparam
      rw [names_paramsOf hparams]
      exact .inl (mem_map_of_mem hq)
    · have hnone : (m.rename.run k).1.params.find? x = none :=
        Option.eq_none_iff_forall_ne_some.mpr fun y hy =>
          hparam ((Source.mem_params_iff x m.params k).mpr ⟨y, hy⟩)
      have hself : Source.Scope.rename (m.rename.run k).1.params x = x := by
        rw [Source.Scope.rename, hnone, Option.getD_none]
      rw [hself, names_localsOf hlocals] at hx
      have hissued := (Source.renameAll_hoists m.stmts (m.rename.run k).1.params
        ((Source.bindParams .empty m.params).run k).2).issued
      obtain ⟨n, z, -, -, hn⟩ := hissued.number x hx
      exact .inr ⟨hself, n, z, hn⟩

/-- The body of a program may read its variables and its result. -/
theorem permits_body {kept : List String} {c : ClassDecl} {p : Program} {owner : String} :
    Permits (bodyVocabulary classes kept c m p) ⟨classes, c, owner, p.returns⟩
      (typing (p.params ++ p.locals)) where
  knows _ hx _ := .inl hx
  vars _ hx _ := .inr (.inl (contains_typing.mp hx))
  returns hr _ := .inr (.inr (.inl ⟨hr, rfl⟩))
  binds _ := trivial

namespace MadeFrom

variable {c : ClassDecl} {m : Method} {p : Program} {overload : Nat} {scope : Source.Scope} {k n n' : Nat}
  {pre post : Formula} (h : MadeFrom classes c m overload p scope k n n' pre post)
include h

/-- What names go by in a method. -/
theorem rename (x : String)
    (hx : scope.rename x ∈ (p.params ++ p.locals).map (·.name)) :
    scope.rename x ∈ p.params.map (·.name) ∨ scope.rename x = x ∧ ∃ n z, x = Naming.issued n z := by
  have hparams := h.params_ok
  have hlocals := h.locals_ok
  obtain rfl := h.scope_eq
  exact rename_of_isVar hparams hlocals hx

theorem pre_over (kept : List String) : pre.Over (preVocabulary classes kept c m p) [] false := by
  obtain ⟨_, hpre⟩ := h.pre_ok
  exact clausesOf_over hpre knows_vocabulary (fun hr => hr) (fun _ => contains_typing.mp)
    (allowed_vocabulary h.rename fun _ _ => .inr (.inr rfl))

theorem post_over (kept : List String) : post.Over (postVocabulary classes kept c m p) [] false := by
  obtain ⟨_, hpost⟩ := h.post_ok
  refine clausesOf_over hpost knows_vocabulary (fun hr => hr) (fun _ => contains_typing.mp)
    (allowed_vocabulary h.rename fun hr early => ?_)
  cases early
  · exact .inl ⟨rfl, hr⟩
  · exact .inr (.inl rfl)

/-- No parameter is called like the result. -/
theorem return_not_mem_params : "return" ∉ p.params.map (·.name) := by
  have hparams := h.params_ok
  obtain rfl := h.scope_eq
  rw [names_paramsOf hparams, mem_map]
  rintro ⟨q, hq, hname⟩
  obtain ⟨y, hy⟩ := (Source.mem_params_iff q.name m.params k).mp (mem_map_of_mem hq)
  have hcalled := (Source.paramScope_bindParams m.params k).called q.name y hy
  have hself : Source.Scope.rename (m.rename.run k).1.params q.name = y :=
    congrArg (Option.getD · q.name) hy
  exact hcalled.ne_of_reserved (by decide) (hself.symm.trans hname)

/-- **The program of a method is over its vocabulary.** -/
theorem speaks (kept : List String) : p.Speaks classes kept c m where
  params := h.return_not_mem_params
  requires := by
    have hother : ((Arithmetic.extractPart .ensures post).run n').1.2.Defines
        (preVocabulary classes kept c m p) .requires :=
      Arithmetic.extractPart_defines_of_ne (by decide) post n'
    rw [h.requires_eq, h.side_eq]
    exact (Arithmetic.extractPart_speaks (h.pre_over kept) .requires n).before hother
  ensures := by
    have hother : ((Arithmetic.extractPart .requires pre).run n).1.2.Defines
        (postVocabulary classes kept c m p) .ensures :=
      Arithmetic.extractPart_defines_of_ne (by decide) pre n
    rw [h.ensures_eq, h.side_eq]
    exact (Arithmetic.extractPart_speaks (h.post_over kept) .ensures n').after hother
  body := by
    refine ofStmts_over permits_body.conveys ?_ h.body_ok
    rw [m.rangesAll_rename k]
    exact fun t ht _ => .inr (.inr (.inr (.range ht)))

/-- The parameters go by the names of the program. -/
theorem params_forall : scope.Forall fun _ y => y ∈ p.params.map (·.name) := by
  intro e he
  have hparams := h.params_ok
  obtain rfl := h.scope_eq
  have hkeys : (m.rename.run k).1.params.keys.Nodup :=
    Source.nodup_keys_bindParams m.params k (nodup_nil : (Table.empty : Source.Scope).keys.Nodup)
  have hfind := Table.find?_of_mem hkeys he
  obtain ⟨q, hq, hname⟩ := mem_map.mp ((Source.mem_params_iff e.1 m.params k).mpr ⟨_, hfind⟩)
  have hself : Source.Scope.rename (m.rename.run k).1.params q.name = e.2 := by
    rw [Source.Scope.rename, hname]
    exact congrArg (Option.getD · e.1) hfind
  rw [names_paramsOf hparams, ← hself]
  exact mem_map_of_mem (f := fun q : Source.Param => Source.Scope.rename _ q.name) hq

end MadeFrom

end Methods

/-! ## Classes -/

section Classes

variable {classes : List ClassDecl} {c : ClassDecl} {s s' : Supply} {l : LoweredClass}

/-- **The module of a class is over the vocabulary of the class.** -/
theorem ofClass_speaks (kept : List String) (hrun : (ofClass classes c).run.run s = (.ok l, s')) :
    l.body.Speaks classes kept c := by
  obtain ⟨k, n, invariant, programs, hinvariant, -, hprograms, rfl⟩ := exists_of_ofClass hrun
  have hover : invariant.Over (invariantVocabulary classes kept c) [] false := by
    have hallowed : (Source.Clause.parts c.invariants).Allowed (invariantVocabulary classes kept c)
        ⟨classes, fun _ => False, False⟩ .empty := allowed_vocabulary (fun _ => False.elim) False.elim
    exact clausesOf_over hinvariant knows_vocabulary nofun nofun hallowed
  have hspeaks := Arithmetic.extractPart_speaks hover .invariant n
  refine ⟨rfl, name_ownFields c, Arithmetic.ofOrigin_sideOf _ _, hspeaks.defines,
    forall_mem_singleton.mpr hspeaks.formula, ?_⟩
  refine forall_mem_map.mpr (forall_mem_of_forall₂_mem hprograms fun q p hq h => ?_)
  obtain ⟨_, _, _, _, _, h, -⟩ := h
  exact ⟨q.1, q.2, hq, h.id_eq, h.speaks kept⟩

theorem map_fst_numbered : ∀ (earlier : List String) (ms : List Method),
    (numbered earlier ms).map (·.1) = ms
  | _, [] => rfl
  | earlier, m :: ms => by rw [numbered, map_cons, map_fst_numbered]

/-- The programs of a lowered class are on record under the signatures of their methods. -/
theorem ofClass_programs (hrun : (ofClass classes c).run.run s = (.ok l, s')) :
    l.programs.Forall fun key id => ∃ m k, (m, k) ∈ numbered [] c.methods ∧
      key = c.qualifiedName ++ "." ++ m.signature ∧ id = programId c.id m.name k := by
  obtain ⟨k, n, invariant, programs, -, -, hprograms, rfl⟩ := exists_of_ofClass hrun
  refine .ofList (forall_mem_map.mpr fun (m, p) hmem => ?_)
  rw [← map_fst_numbered [] c.methods, zip_map_left] at hmem
  obtain ⟨⟨⟨m', k'⟩, p'⟩, hzip, heq⟩ := mem_map.mp hmem
  obtain ⟨rfl, rfl⟩ := Prod.mk.inj heq
  obtain ⟨_, _, _, _, _, h, -⟩ := (forall₂_iff_zip.mp hprograms).2 hzip
  exact ⟨m', k', (of_mem_zip hzip).1, rfl, h.id_eq⟩

/-- The names on record for the parameters of a program are those that they go by. -/
theorem ofClass_params (hrun : (ofClass classes c).run.run s = (.ok l, s')) :
    l.params.Forall fun id names => ∃ p ∈ l.body.programs, p.id = id ∧
      names.Forall fun _ y => y ∈ p.params.map (·.name) := by
  obtain ⟨k, n, invariant, programs, -, -, hprograms, rfl⟩ := exists_of_ofClass hrun
  have hnames : ∀ p ∈ programs, p.2.Forall fun _ y => y ∈ p.1.params.map (·.name) :=
    forall_mem_of_forall₂_mem hprograms fun _ _ _ ⟨_, _, _, _, _, h, _⟩ => h.params_forall
  exact .ofList (forall_mem_map.mpr fun p hp => ⟨p.1, mem_map_of_mem hp, rfl, hnames p hp⟩)

end Classes

end Contract

end Relspec
