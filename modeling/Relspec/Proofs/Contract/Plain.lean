import Relspec.Proofs.Arithmetic.Taking
import Relspec.Proofs.Contract.AsRead
import Relspec.Proofs.Contract.Made
import Relspec.Proofs.Source.Plain

/-!
# Proofs/Contract/Plain — plain classes become plain modules

A literal in a formula stands for a literal of the source, so no sign comes before a literal or an operand
of a join; the names in it are relations, variables under the names they go by, and classes.

* `Means` — what expressions mean, `meaning_sound` — it is found;
* `Means.plain`, `ofStmts_plain` — expressions and statements;
* `Takes.plain` — taking out the operations of formulas;
* `MadeFrom.plain`, `ofClass_plain`, `ofClasses_plain` — methods, classes, and all classes of a run.
-/

namespace Relspec

open List
open Formula (isName isName_of_mem isName_joined isWord_append isIdentifier_of_isWord isWord_of_isName
  Replaces plain_binary plain_all)
open Bool (and_eq_true_iff and_eq_true)
open Formula.Lexeme (isWord)
open Source (ClassDecl Expr Method)
open Source.ClassTable

namespace Contract

/-! ## Types and fields -/

section Types

variable {classes : List ClassDecl}

variable (h : ∀ c ∈ classes, c.Plain)
include h

theorem plain_typeOf? {t : Option Source.TypeRef}
    (ht : ∀ r ∈ t, r.plain = true) {v : ValueType} (hv : typeOf? classes t = some v) : v.plain = true := by
  cases t with
  | none => cases hv
  | some r =>
    rw [typeOf?] at hv
    split at hv
    · cases hv
    · obtain rfl := Option.some.inj hv
      rw [namedType]
      split_ifs
      · rfl
      · rfl
      · exact isWord_idOf h (ht r rfl)

/-- What a quantified variable ranges over is called like no operator. -/
theorem plain_domainOf {t : Source.TypeRef}
    (ht : isName (ClassName.identifier t.name) = true) {v : ValueType}
    (hv : typeOf? classes (some t) = some v) : (domainOf v).plain = true := by
  rw [typeOf?] at hv
  split at hv
  · cases hv
  · obtain rfl := Option.some.inj hv
    rw [namedType]
    split_ifs
    · rfl
    · rfl
    · exact isName_idOf h ht

theorem isRelation_relation {c : ClassDecl} (hc : c.Plain)
    {f : Source.Field} (hf : f ∈ c.fields) : (relation classes c f).IsRelation := by
  obtain ⟨hname, htype⟩ := hc.fields f hf
  refine ⟨isName_joined hc.id (isIdentifier_of_isWord hname), ?_⟩
  rw [relation]
  cases htypeOf : typeOf? classes f.type with
  | none => exact (rfl : ValueType.plain .int = true)
  | some v => exact plain_typeOf? h htype htypeOf

section Fields

omit h

variable {D : ClassDecl → Prop} {P : String → Var → Prop} {c : ClassDecl}

theorem addFields_forall {found : Table Var} (hfound : found.Forall P)
    (hP : ∀ f ∈ c.fields, P f.name (relation classes c f)) : (addFields classes c found).Forall P :=
  List.foldlRecOn c.fields _ hfound fun _ ht f hf => ht.insertNew (hP f hf)

theorem collect_forall (hD : ∀ c ∈ classes, D c)
    (hP : ∀ c, D c → ∀ f ∈ c.fields, P f.name (relation classes c f)) : ∀ (n : Nat) {c : ClassDecl}
      {found : Table Var}, D c → found.Forall P → (collect classes n c found).Forall P
  | 0, _, _, _, hfound => hfound
  | n + 1, c, found, hc, hfound => by
    have hadd := addFields_forall hfound (hP c hc)
    rw [collect]
    split
    · next s hs =>
      obtain ⟨name, -, hs⟩ := Option.bind_eq_some_iff.mp hs
      exact collect_forall hD hP n (hD s (mem_of_lookup? hs).1) hadd
    · exact hadd

/-- **The fields of a class** are those that it and its superclasses declare. -/
theorem fieldsOf_forall (hD : ∀ c ∈ classes, D c)
    (hP : ∀ c, D c → ∀ f ∈ c.fields, P f.name (relation classes c f)) (hc : D c) :
    (fieldsOf classes c).Forall P := collect_forall hD hP _ hc .empty

theorem ownFields_forall (hD : ∀ c ∈ classes, D c)
    (hP : ∀ c, D c → ∀ f ∈ c.fields, P f.name (relation classes c f)) (hc : D c) :
    ∀ v ∈ ownFields classes c, ∃ x, P x v := by
  refine forall_mem_map.mpr fun f hf => ⟨f.name, ?_⟩
  cases hfind : (fieldsOf classes c).find? f.name with
  | none => exact hP c hc f hf
  | some v => exact (fieldsOf_forall hD hP hc).find? hfind

end Fields

/-- **Every field is a relation.** -/
theorem fieldsOf_isRelation {c : ClassDecl} (hc : c.Plain) :
    (fieldsOf classes c).Forall fun _ v => v.IsRelation :=
  fieldsOf_forall h (fun _ hc _ hf => isRelation_relation h hc hf) hc

theorem ownFields_isRelation {c : ClassDecl} (hc : c.Plain) :
    ∀ v ∈ ownFields classes c, v.IsRelation := fun v hv =>
  (ownFields_forall (P := fun _ v => v.IsRelation) h (fun _ hc _ hf => isRelation_relation h hc hf)
    hc v hv).elim fun _ hv => hv

end Types

/-! ## Expressions -/

/-- **What an expression means**, from the leaves up and whatever its operator: a condition, or a term with
its type. -/
inductive Means (site : Site) : Table ValueType → Expr → Formula → Option ValueType → Prop
  | ident {vars p name t type} (h : site.ident vars name p = .ok (t, type)) :
    Means site vars (.ident p name) t (some type)
  | int {vars p v} : Means site vars (.int p v) (.int v) (some .int)
  | truth {vars p v} : Means site vars (.bool p v) (if v then .truth else .falsity) none
  | bool {vars p v} : Means site vars (.bool p v) (.ident (if v then "true" else "false")) (some .bool)
  | null {vars p} : Means site vars (.null p) (.ident "null") (some (.ref "null"))
  | self {vars p} : Means site vars (.self p) (.ident "thiz") (some (.ref site.self.id))
  | result {vars p type} (h : site.returns = some type) :
    Means site vars (.result p) (.ident "return") (some type)
  | old {vars p x f type} (h : Means site vars x f type) : Means site vars (.old p x) (.old f) type
  | field {vars p x name t u type type'} (h : Means site vars x t (some type))
      (hfield : site.field t type name p = .ok (u, type')) : Means site vars (.field p x name) u (some type')
  | not {vars p x f} (h : Means site vars x f none) : Means site vars (.unary p .not x) (.not f) none
  | neg {vars p x t type} (h : Means site vars x t (some type)) :
    Means site vars (.unary p .neg x) (.unary .neg t) (some .int)
  | binary {vars p op x y c a b} {type type' result : Option ValueType} (hx : Means site vars x a type)
      (hy : Means site vars y b type') : Means site vars (.binary p op x y) (.binary c a b) result
  | quant {vars p q var type t body b} (ht : typeOf? site.classes (some type) = some t)
      (h : Means site (below site vars var type) body b none) :
    Means site vars (.quant p q var type body) (.quant (quantifierOf q) [var] (domainOf t) b) none
  | quantOver {vars p q var type t range body r b} (ht : typeOf? site.classes (some type) = some t)
      (hrange : Means site (below site vars var type) range r none)
      (hbody : Means site (below site vars var type) body b none) :
    Means site vars (.quantOver p q var type range body)
      (.quant (quantifierOf q) [var] (domainOf t) (guarded q r b)) none
  /-- A truth value where a condition is asked for. -/
  | isTrue {vars e t} (h : Means site vars e t (some .bool)) : Means site vars e (.eq t (.ident "true")) none
  /-- A condition where a truth value is asked for. -/
  | chosen {vars e f} (h : Means site vars e f none) :
    Means site vars e (.ite f (.ident "true") (.ident "false")) (some .bool)

/-- The meaning that was found is what the expression means. -/
structure Meaning.Sound (site : Site) (vars : Table ValueType) (e : Expr) (m : Meaning) : Prop where
  cond : ∀ f, m.cond = .ok f → Means site vars e f none
  term : ∀ t type, m.term = .ok (t, type) → Means site vars e t (some type)

namespace Meaning.Sound

variable {e : Expr} {site : Site} {vars : Table ValueType}

theorem ofCond {cond : Except Fault Formula} (h : ∀ f, cond = .ok f → Means site vars e f none) :
    (Meaning.ofCond cond).Sound site vars e where
  cond := h
  term t type ht := by
    obtain ⟨f, hf, ht⟩ := exists_of_except_ok ht
    cases ht
    exact .chosen (h f hf)

theorem ofTerm {term : Except Fault (Formula × ValueType)}
    (h : ∀ t type, term = .ok (t, type) → Means site vars e t (some type)) :
    (Meaning.ofTerm site e term).Sound site vars e where
  cond f hf := by
    obtain ⟨⟨t, type⟩, ht, hf⟩ := exists_of_except_ok hf
    dsimp only at hf
    split at hf
    · next htype =>
      cases hf
      exact .isTrue (h t _ (htype ▸ ht))
    · cases hf
  term := h

theorem fault (f : Fault) : (Meaning.fault f).Sound site vars e := ⟨nofun, nofun⟩

end Meaning.Sound

/-- **The meaning of an expression is found from the leaves up.** -/
theorem meaning_sound {site : Site} : ∀ (e : Expr) (vars : Table ValueType),
    (meaning site vars e).Sound site vars e
  | .ident .. => fun _ => .ofTerm fun _ _ => .ident
  | .int .. | .null _ | .self _ => fun _ => .ofTerm fun _ _ ht => by
    cases ht
    constructor
  | .bool .. => fun _ => ⟨fun _ hf => by cases hf; exact .truth, fun _ _ ht => by cases ht; exact .bool⟩
  | .result p => fun _ => .ofTerm fun _ _ ht => by
    split at ht
    · next hsome =>
      cases ht
      exact .result hsome
    · cases ht
  | .old _ x => fun vars => by
    refine ⟨fun f hf => ?_, fun t type ht => ?_⟩
    · obtain ⟨g, hg, rfl⟩ := exists_of_except_map_ok hf
      exact .old ((meaning_sound x vars).cond g hg)
    · obtain ⟨⟨u, utype⟩, hu, ht⟩ := exists_of_except_map_ok ht
      cases ht
      exact .old ((meaning_sound x vars).term u _ hu)
  | .field p x name => fun vars => .ofTerm fun _ _ ht => by
    obtain ⟨⟨u, utype⟩, hu, ht⟩ := exists_of_except_ok ht
    exact .field ((meaning_sound x vars).term u utype hu) ht
  | .unary _ .not x => fun vars => .ofCond fun f hf => by
    obtain ⟨g, hg, rfl⟩ := exists_of_except_map_ok hf
    exact .not ((meaning_sound x vars).cond g hg)
  | .unary _ .neg x => fun vars => .ofTerm fun _ _ ht => by
    obtain ⟨⟨u, utype⟩, hu, ht⟩ := exists_of_except_map_ok ht
    cases ht
    exact .neg ((meaning_sound x vars).term u utype hu)
  | .binary p op x y => fun vars => by
    have hboth : ∀ c f result, (meaning site vars x).both (meaning site vars y) (.binary c) = .ok f →
        Means site vars (.binary p op x y) f result := fun c f result hf => by
      obtain ⟨⟨a, ta⟩, ha, hf⟩ := exists_of_except_ok hf
      obtain ⟨⟨b, tb⟩, hb, hf⟩ := exists_of_except_ok hf
      cases hf
      exact .binary ((meaning_sound x vars).term a ta ha) ((meaning_sound y vars).term b tb hb)
    have hconnect : ∀ c, (Meaning.ofCond (do
        return .binary c (← (meaning site vars x).cond) (← (meaning site vars y).cond))).Sound site vars
          (.binary p op x y) := fun c => .ofCond fun f hf => by
      obtain ⟨a, ha, hf⟩ := exists_of_except_ok hf
      obtain ⟨b, hb, hf⟩ := exists_of_except_ok hf
      cases hf
      exact .binary ((meaning_sound x vars).cond a ha) ((meaning_sound y vars).cond b hb)
    cases op with
    | arith a =>
      refine .ofTerm fun t type ht => ?_
      obtain ⟨f, hf, ht⟩ := exists_of_except_map_ok ht
      cases ht
      exact hboth _ _ _ hf
    | eq | ne | lt | le | gt | ge => exact .ofCond fun f => hboth _ f none
    | and | or | implies | iff => exact hconnect _
  | .quant p q var type body => fun vars => .ofCond fun f hf => by
    split at hf
    · cases hf
    · next t ht =>
      obtain ⟨b, hb, rfl⟩ := exists_of_except_map_ok hf
      exact .quant ht ((meaning_sound body _).cond b hb)
  | .quantOver p q var type range body => fun vars => .ofCond fun f hf => by
    split at hf
    · cases hf
    · next t ht =>
      obtain ⟨g, hg, rfl⟩ := exists_of_except_map_ok hf
      obtain ⟨b, hb, hg⟩ := exists_of_except_ok hg
      obtain ⟨r, hr, hg⟩ := exists_of_except_ok hg
      cases hg
      exact .quantOver ht ((meaning_sound range _).cond r hr) ((meaning_sound body _).cond b hb)
  | .string .. | .index .. | .new .. | .call .. | .invoke .. => fun _ => .fault _

/-- **A place where expressions with a property mean formulas with a property**, which conjunctions keep. -/
structure Conveys (site : Site) (vars : Table ValueType) (E : Expr → Prop) (F : Formula → Prop) : Prop where
  means : ∀ {e f o}, E e → Means site vars e f o → F f
  all : ∀ {fs : List Formula}, (∀ f ∈ fs, F f) → F (.all fs)

namespace Conveys

variable {site : Site} {vars : Table ValueType} {E : Expr → Prop} {F : Formula → Prop}
variable {e : Expr} {f : Formula} {cs : List Source.Clause} {r : Option Formula} (h : Conveys site vars E F)
include h

theorem cond (he : E e) (hf : condOf site vars e = .ok f) : F f :=
  h.means he ((meaning_sound e vars).cond f hf)

theorem value (he : E e) (hf : valueOf site vars e = .ok f) : F f := by
  obtain ⟨⟨t, type⟩, ht, rfl⟩ := exists_of_except_map_ok hf
  exact h.means he ((meaning_sound e vars).term t type ht)

theorem target (he : E e) (hf : targetOf site vars e = .ok f) : F f := by
  unfold targetOf at hf
  split at hf
  · exact h.value he hf
  · exact h.value he hf
  · cases hf

theorem conds (hcs : ∀ c ∈ cs, E c.expr) {fs : List Formula}
    (hfs : (cs.mapM fun c => condOf site vars c.expr) = .ok fs) : ∀ f ∈ fs, F f :=
  forall_mem_of_forall₂_mem (forall₂_of_mapM_ok hfs) fun c _ hc => h.cond (hcs c hc)

theorem clauses (hcs : ∀ c ∈ cs, E c.expr) (hf : clausesOf site vars cs = .ok f) : F f := by
  obtain ⟨fs, hfs, rfl⟩ := exists_of_except_map_ok hf
  exact h.all (h.conds hcs hfs)

theorem invariant (hcs : ∀ c ∈ cs, E c.expr) (hr : invariantOf site vars cs = .ok r) : ∀ f ∈ r, F f := by
  obtain ⟨fs, hfs, hr⟩ := exists_of_except_ok hr
  cases hr
  split
  · exact nofun
  · rintro _ ⟨⟩
    exact h.all (h.conds hcs hfs)

/-- A value that there may be. -/
theorem optional {α : Type} {expr : α → Expr} : ∀ {o : Option α}, (∀ a ∈ o, E (expr a)) →
    (o.mapM fun a => valueOf site vars (expr a)) = .ok r → ∀ f ∈ r, F f
  | none, _, hr => by
    cases hr
    exact nofun
  | some a, ho, hr => by
    obtain ⟨b, hb, rfl⟩ := exists_of_except_map_ok hr
    rintro _ ⟨⟩
    exact h.value (ho a rfl) hb

end Conveys

/-- Variables under names that stand for no operator. -/
def Vars (vars : Table ValueType) : Prop := vars.Forall fun x _ => isName x = true

section Meaning

variable {site : Site} {vars : Table ValueType}
variable {t f : Formula} {type : ValueType} {name var : String} {pos : Position} {e : Expr}
  (h : ∀ c ∈ site.classes, c.Plain)
include h

theorem field_plain {object : Formula} {type' : ValueType}
    (hobject : object.plain = true) (hliteral : object.isLiteral = true → type = .int)
    (ht : site.field object type name pos = .ok (t, type')) : t.plain = true ∧ t.isLiteral = false := by
  cases type with
  | int => cases ht
  | bool => cases ht
  | ref id =>
    -- Only objects have fields, so a literal is none.
    have hsign : object.isNegative = false := by
      cases object with
      | int value => cases hliteral rfl
      | _ => rfl
    unfold Site.field at ht
    dsimp only at ht
    split at ht
    · next v hv =>
      cases ht
      obtain ⟨c, hc, hfind⟩ := Option.bind_eq_some_iff.mp hv
      have hname : (Formula.ident v.name).plain = true :=
        ((fieldsOf_isRelation h (h c (mem_of_lookup? hc).1)).find? hfind).1
      refine ⟨?_, rfl⟩
      rw [Formula.plain, hobject, hname, hsign]
      rfl
    · cases ht

theorem ident_plain (hvars : Vars vars)
    (ht : site.ident vars name pos = .ok (t, type)) : t.plain = true ∧ t.isLiteral = false := by
  rw [Site.ident] at ht
  split at ht
  · next hfind =>
    cases ht
    exact ⟨hvars.find? hfind, rfl⟩
  · split at ht
    · have hself : (Formula.ident "thiz").plain = true := rfl
      exact field_plain h hself nofun ht
    · cases ht

/-- **A plain expression has a plain meaning**, in which a literal stands for a literal. -/
theorem Means.plain {o : Option ValueType} (hm : Means site vars e f o)
    (hvars : Vars vars) (he : e.plain isName = true) :
    f.plain = true ∧ (f.isLiteral = true → e.isInt = true ∧ o = some .int) := by
  have habsurd : ∀ {P : Prop}, false = true → P := fun h => absurd h Bool.false_ne_true
  induction hm with
  | ident ht =>
    obtain ⟨hplain, hliteral⟩ := ident_plain h hvars ht
    exact ⟨hplain, fun hl => habsurd (hliteral.symm.trans hl)⟩
  | int => exact ⟨he, fun _ => ⟨rfl, rfl⟩⟩
  | @truth _ _ v | @bool _ _ v => cases v <;> exact ⟨rfl, habsurd⟩
  | null | self | result => exact ⟨rfl, habsurd⟩
  | old _ ih => exact ⟨(ih hvars he).1, habsurd⟩
  | field _ ht ih =>
    obtain ⟨hplain, hliteral⟩ := ih hvars he
    obtain ⟨hplain, hliteral⟩ := field_plain h hplain (fun hl => Option.some.inj (hliteral hl).2) ht
    exact ⟨hplain, fun hl => habsurd (hliteral.symm.trans hl)⟩
  | not _ ih =>
    refine ⟨?_, habsurd⟩
    rw [Formula.not, Formula.plain, (ih hvars (and_eq_true_iff.mp he).1).1]
    rfl
  | @neg _ _ _ t _ _ ih =>
    obtain ⟨hx, hsign⟩ := and_eq_true_iff.mp he
    obtain ⟨hplain, hliteral⟩ := ih hvars hx
    refine ⟨?_, habsurd⟩
    cases hl : t.isLiteral with
    | false => simp [Formula.plain, hplain, hl]
    | true => simp [(hliteral hl).1] at hsign
  | binary _ _ ihx ihy =>
    obtain ⟨hx, hy⟩ := and_eq_true_iff.mp he
    exact ⟨plain_binary (ihx hvars hx).1 (ihy hvars hy).1, habsurd⟩
  | quant ht _ ih =>
    simp only [Expr.plain, and_eq_true] at he
    obtain ⟨⟨hvar, htype⟩, hbody⟩ := he
    simp [Formula.plain, hvar, plain_domainOf h htype ht, (ih (hvars.insert hvar) hbody).1, Formula.isLiteral]
  | @quantOver _ _ q _ _ _ _ _ _ _ ht _ _ ihr ihb =>
    simp only [Expr.plain, and_eq_true] at he
    obtain ⟨⟨⟨hvar, htype⟩, hrange⟩, hbody⟩ := he
    have hbody := (ihb (hvars.insert hvar) hbody).1
    have hrange := (ihr (hvars.insert hvar) hrange).1
    cases q <;> simp [Formula.plain, guarded, hvar, plain_domainOf h htype ht, hrange, hbody, Formula.isLiteral]
  | isTrue _ ih => exact ⟨plain_binary (ih hvars he).1 rfl, habsurd⟩
  | chosen _ ih =>
    refine ⟨?_, habsurd⟩
    rw [Formula.plain, (ih hvars he).1]
    rfl

/-- Plain expressions mean plain formulas. -/
theorem conveys_plain (hvars : Vars vars) :
    Conveys site vars (·.plain isName = true) (·.plain = true) :=
  ⟨fun he hm => (hm.plain h hvars he).1, plain_all⟩

/-! ## Statements -/

omit h

theorem Stmt.plainAll_append {ss ts : List Stmt} (hs : plainAll ss = true)
    (ht : plainAll ts = true) : plainAll (ss ++ ts) = true := by
  induction ss with
  | nil => exact ht
  | cons s ss ih =>
    obtain ⟨hs, hss⟩ := and_eq_true_iff.mp hs
    exact and_eq_true_iff.mpr ⟨hs, ih hss⟩

theorem Stmt.plainAll_singleton {s : Stmt} (h : s.plain = true) : plainAll [s] = true :=
  and_eq_true_iff.mpr ⟨h, rfl⟩

mutual

/-- **A plain statement becomes plain statements.** -/
theorem ofStmt_plain (h : ∀ c ∈ site.classes, c.Plain)
    (hm : Conveys site vars (·.plain isName = true) (·.plain = true)) {ss : List Stmt} :
    ∀ {s : Source.Stmt}, s.plain isName = true → ofStmt site vars s = .ok ss →
      Stmt.plainAll ss = true
  | .block _ body, hs, hss => by
    rw [Source.Stmt.plain] at hs
    rw [ofStmt] at hss
    exact ofStmts_plain h hm hs hss
  | .assign _ target value, hs, hss => by
    obtain ⟨htarget, hvalue⟩ := and_eq_true_iff.mp hs
    obtain ⟨t, ht, hss⟩ := exists_of_except_ok hss
    obtain ⟨v, hv, hss⟩ := exists_of_except_ok hss
    cases hss
    simp [Stmt.plainAll, Stmt.plain, hm.target htarget ht, hm.value hvalue hv]
  | .ifThen _ cond _ thn, hs, hss => by
    obtain ⟨hcond, hthn⟩ := and_eq_true_iff.mp hs
    obtain ⟨c, hc, hss⟩ := exists_of_except_ok hss
    obtain ⟨t, ht, hss⟩ := exists_of_except_ok hss
    cases hss
    simp [Stmt.plainAll, Stmt.plain, hm.cond hcond hc, ofStmts_plain h hm hthn ht]
  | .ifElse _ cond _ thn _ els, hs, hss => by
    simp only [Source.Stmt.plain, and_eq_true] at hs
    obtain ⟨⟨hcond, hthn⟩, hels⟩ := hs
    obtain ⟨c, hc, hss⟩ := exists_of_except_ok hss
    obtain ⟨t, ht, hss⟩ := exists_of_except_ok hss
    obtain ⟨e, he, hss⟩ := exists_of_except_ok hss
    cases hss
    simp [Stmt.plainAll, Stmt.plain, hm.cond hcond hc, ofStmts_plain h hm hthn ht,
      ofStmts_plain h hm hels he]
  | .loop _ cond invariants variant _ body, hs, hss => by
    simp only [Source.Stmt.plain, and_eq_true] at hs
    obtain ⟨⟨⟨hcond, hinvs⟩, hvariant⟩, hbody⟩ := hs
    obtain ⟨c, hc, hss⟩ := exists_of_except_ok hss
    obtain ⟨i, hi, hss⟩ := exists_of_except_ok hss
    obtain ⟨v, hv, hss⟩ := exists_of_except_ok hss
    obtain ⟨b, hb, hss⟩ := exists_of_except_ok hss
    cases hss
    have hi := (Option.all_eq_true _ _).mpr (hm.invariant (all_eq_true.mp hinvs) hi)
    have hv := (Option.all_eq_true _ _).mpr (hm.optional ((Option.all_eq_true _ _).mp hvariant) hv)
    simp [Stmt.plainAll, Stmt.plain, hm.cond hcond hc, hi, hv, ofStmts_plain h hm hbody hb]
  | .ret _ value, hs, hss => by
    obtain ⟨v, hv, hss⟩ := exists_of_except_ok hss
    cases hss
    exact Stmt.plainAll_singleton
      ((Option.all_eq_true _ _).mpr (hm.optional ((Option.all_eq_true _ _).mp hs) hv))
  | .raise _ e, hs, hss => by
    cases e with
    | new _ type _ =>
      cases hss
      exact Stmt.plainAll_singleton (isWord_append (isWord_idOf h hs) (by decide))
    | _ => cases hss
  | .assert _ e, hs, hss | .assume _ e, hs, hss => by
    obtain ⟨c, hc, hss⟩ := exists_of_except_ok hss
    cases hss
    exact Stmt.plainAll_singleton (hm.cond hs hc)
  | .eval _ e, _, hss => by
    cases e <;> cases hss
  | .declare .., _, hss => by
    cases hss
    rfl

theorem ofStmts_plain (h : ∀ c ∈ site.classes, c.Plain)
    (hm : Conveys site vars (·.plain isName = true) (·.plain = true)) :
    ∀ {ts : List Source.Stmt} {ss : List Stmt}, Source.Stmt.plainAll isName ts = true →
      ofStmts site vars ts = .ok ss → Stmt.plainAll ss = true
  | [], ss, _, hss => by
    cases hss
    rfl
  | t :: ts, ss, hts, hss => by
    obtain ⟨ht, hts⟩ := and_eq_true_iff.mp hts
    obtain ⟨first, hfirst, hss⟩ := exists_of_except_ok hss
    obtain ⟨rest, hrest, hss⟩ := exists_of_except_ok hss
    cases hss
    exact Stmt.plainAll_append (ofStmt_plain h hm ht hfirst) (ofStmts_plain h hm hts hrest)

end

end Meaning

end Contract

/-! ## Operations of contracts -/

namespace Arithmetic

theorem isName_sideVar (n : Nat) : isName (sideVar n) = true :=
  isName_of_mem (isWord_append (by decide) (isIdentifier_toString n)) (by simp [sideVar])

/-- Plain definitions of side variables. -/
def PlainDefinitions (ds : List Definition) : Prop := ∀ d ∈ ds, isName d.name = true ∧ d.value.plain = true

theorem Alike.plainAll {es outs : List Formula} {f g : Formula} (h : Alike es outs f g)
    (hf : f.plain = true) : Formula.plainAll es = true := by
  cases h <;> simp_all [Formula.plain, Formula.plainAll]

theorem Alike.replaces : ∀ {es outs : List Formula} {f g : Formula}, Alike es outs f g →
    List.Forall₂ Replaces es outs → Replaces f g
  | _, _, _, _, .join .., .cons hx (.cons hy .nil) => hx.join hy
  | _, _, _, _, .unary op .., .cons hx .nil => hx.unary op
  | _, _, _, _, .binary op .., .cons hx (.cons hy .nil) => hx.binary hy op
  | _, _, _, _, .ite .., .cons hc (.cons hx (.cons hy .nil)) => hc.ite hx hy
  | _, _, _, _, .call name .., hparts => by
    refine .call (fun h => ?_) name
    rw [Formula.plainAll_iff] at h ⊢
    exact forall_mem_of_forall₂_mem hparts fun a _ ha hab => hab.plain (h a ha)

/-- **Taking out the operations of plain formulas** leaves plain formulas in their places, and plain
definitions. -/
theorem Takes.plain {bound : List String} {inOld : Bool} {es outs : List Formula} {ds : List Definition}
    {n m : Nat} (h : Takes bound inOld es outs ds n m) :
    List.Forall₂ Replaces es outs ∧ (Formula.plainAll es = true → PlainDefinitions ds) := by
  induction h with
  | nil => exact ⟨.nil, fun _ => nofun⟩
  | cons _ _ ihe ihes =>
    refine ⟨.cons (forall₂_cons.mp ihe.1).1 ihes.1, fun h => ?_⟩
    obtain ⟨he, hes⟩ := and_eq_true_iff.mp h
    exact forall_mem_append.mpr ⟨ihe.2 (and_eq_true_iff.mpr ⟨he, rfl⟩), ihes.2 hes⟩
  | ident name | int value => exact ⟨.cons (.refl _) .nil, fun _ => nofun⟩
  | kept _ hfg _ ih =>
    exact ⟨.cons (hfg.replaces ih.1) .nil, fun h => ih.2 (hfg.plainAll (and_eq_true_iff.mp h).1)⟩
  | @named _ inOld _ _ _ _ m _ _ _ hfg _ _ ih =>
    refine ⟨.cons (.put (isName_sideVar m) rfl) .nil, fun h => ?_⟩
    have hf := (and_eq_true_iff.mp h).1
    have hg := (hfg.replaces ih.1).plain hf
    refine forall_mem_append.mpr ⟨ih.2 (hfg.plainAll hf), forall_mem_singleton.mpr ?_⟩
    refine ⟨isName_sideVar m, ?_⟩
    cases inOld <;> exact hg
  | quant kind _ _ ihx ihy =>
    refine ⟨.cons (.quant (forall₂_cons.mp ihx.1).1 (forall₂_cons.mp ihy.1).1 kind _) .nil, fun h => ?_⟩
    simp only [Formula.plainAll, Formula.plain, and_eq_true, and_true] at h
    exact forall_mem_append.mpr ⟨ihx.2 (by simp [Formula.plainAll, h]), ihy.2 (by simp [Formula.plainAll, h])⟩
  | old _ ih => exact ⟨.cons (forall₂_cons.mp ih.1).1.old .nil, ih.2⟩

theorem extractPart_plain {f : Formula} (h : f.plain = true) (o : Origin) (n : Nat) :
    ((extractPart o f).run n).1.1.plain = true ∧ ((extractPart o f).run n).1.2.Plain := by
  obtain ⟨hreplaces, hdefs⟩ := (extract_takes [] false f n).plain
  have hdefs := hdefs (and_eq_true_iff.mpr ⟨h, rfl⟩)
  exact ⟨(forall₂_cons.mp hreplaces).1.plain h,
    forall_mem_map.mpr fun d hd => isWord_of_isName (hdefs d hd).1,
    forall_mem_map.mpr fun d hd => plain_binary (hdefs d hd).1 (hdefs d hd).2⟩

end Arithmetic

theorem Side.Plain.append {s t : Side} (hs : s.Plain) (ht : t.Plain) : (s ++ t).Plain :=
  ⟨forall_mem_append.mpr ⟨hs.vars, ht.vars⟩, forall_mem_append.mpr ⟨hs.defs, ht.defs⟩⟩

namespace Contract

/-! ## Methods -/

section Methods

variable {classes : List ClassDecl} {site : Site}
variable {what : String} {pos : Position} {m : Method} {names : Source.Scope} {α : Type} {a : α}
  {s s' : Supply}

theorem plain_typeOrFault (h : ∀ c ∈ site.classes, c.Plain) {t : Source.TypeRef} (ht : t.plain = true)
    {v : ValueType} (hv : typeOrFault site t what pos = .ok v) : v.plain = true := by
  unfold typeOrFault at hv
  split at hv
  · next htype =>
    cases hv
    exact plain_typeOf? h (fun r hr => Option.some.inj hr ▸ ht) htype
  · cases hv

theorem paramsOf_isRelation (h : ∀ c ∈ site.classes, c.Plain) (hm : m.Plain) (hnames : PlainNames names)
    (hbound : ∀ p ∈ m.params, ∃ y, names.find? p.name = some y) {params : List Var}
    (hparams : paramsOf site m names = .ok params) : ∀ v ∈ params, v.IsRelation := by
  refine forall_mem_of_forall₂_mem (forall₂_of_mapM_ok hparams) fun p v hp hv => ?_
  obtain ⟨type, htype, hv⟩ := exists_of_except_ok hv
  cases hv
  obtain ⟨y, hy⟩ := hbound p hp
  rw [hy]
  exact ⟨hnames.find? hy, plain_typeOrFault h (hm.params p hp).2 htype⟩

theorem localsOf_isRelation (h : ∀ c ∈ site.classes, c.Plain) {ds : List Source.Declaration}
    (hds : ∀ d ∈ ds, d.plain = true) {locals : List Var} (hlocals : localsOf site ds = .ok locals) :
    ∀ v ∈ locals, v.IsRelation := by
  refine forall_mem_of_forall₂_mem (forall₂_of_mapM_ok hlocals) fun d v hd hv => ?_
  obtain ⟨type, htype, hv⟩ := exists_of_except_ok hv
  cases hv
  obtain ⟨hname, hplain⟩ := and_eq_true_iff.mp (hds d hd)
  exact ⟨hname, plain_typeOrFault h hplain htype⟩

theorem vars_typing {vs : List Var} (h : ∀ v ∈ vs, v.IsRelation) : Vars (typing vs) :=
  .ofList (forall_mem_map.mpr fun v hv => (h v hv).1)

theorem isWord_programId {owner method : String} (howner : isWord owner = true)
    (hmethod : isWord method = true) (k : Nat) : isWord (programId owner method k) = true :=
  isWord_of_isName (isName_joined (isWord_of_isName (isName_joined howner
    (isIdentifier_of_isWord hmethod))) (isIdentifier_toString k))

theorem plain_clausesOf (hm : m.Plain) (kind : Source.ClauseKind) :
    (m.clausesOf kind).all (Source.Clause.plain isWord) = true :=
  all_eq_true.mpr fun c hc => all_eq_true.mp hm.clauses c (mem_filter.mp hc).1

/-- **A plain method becomes a plain program.** -/
theorem MadeFrom.plain (h : ∀ c ∈ classes, c.Plain) {c : ClassDecl} (hc : c.Plain) (hm : m.Plain)
    {overload : Nat} (hlt : overload < 2 ^ 63) {p : Program} {k n n' : Nat} {pre post : Formula}
    (hp : MadeFrom classes c m overload p names k n n' pre post) : p.Plain c.id ∧ PlainNames names := by
  obtain ⟨hnames, hstmts, hdeclarations⟩ := hm.rename k
  obtain rfl := hp.scope_eq
  have hbound : ∀ q ∈ m.params, ∃ y, (m.rename.run k).1.params.find? q.name = some y := fun q hq =>
    (Source.mem_params_iff q.name m.params k).mp (mem_map_of_mem hq)
  have hparams := paramsOf_isRelation h hm hnames hbound hp.params_ok
  have hlocals := localsOf_isRelation h hdeclarations hp.locals_ok
  have hmeans := @conveys_plain ⟨classes, c, m.signature, p.returns⟩ _ h
    (vars_typing (forall_mem_append.mpr ⟨hparams, hlocals⟩))
  obtain ⟨_, hpre⟩ := hp.pre_ok
  obtain ⟨_, hpost⟩ := hp.post_ok
  have hpre := Arithmetic.extractPart_plain (hmeans.clauses (all_eq_true.mp
    (Source.plain_renameClauses _ _ (plain_clausesOf hm .precondition))) hpre) .requires n
  have hpost := Arithmetic.extractPart_plain (hmeans.clauses (all_eq_true.mp
    (Source.plain_renameClauses _ _ (plain_clausesOf hm .postcondition))) hpost) .ensures n'
  refine ⟨{
    id := by rw [hp.id_eq, hp.method_eq, hp.overload_eq]
    word := hp.id_eq ▸ isWord_programId hc.id hm.name overload
    overload := hp.overload_eq ▸ hlt
    params := fun v hv => (hparams v hv).plain
    returns := fun v hv => ?_
    locals := fun v hv => (hlocals v hv).plain
    requires := hp.requires_eq ▸ hpre.1
    ensures := hp.ensures_eq ▸ hpost.1
    side := hp.side_eq ▸ hpre.2.append hpost.2
    body := ofStmts_plain h hmeans hstmts hp.body_ok }, hnames⟩
  obtain ⟨r, hr, htype⟩ := hp.returns_ok v hv
  exact plain_typeOrFault h (hm.returns r hr) htype

end Methods

/-! ## Classes -/

/-- A method has fewer earlier methods of its name than there are. -/
theorem mem_of_mem_numbered : ∀ {ms : List Method} {earlier : List String} {m : Method} {k : Nat},
    (m, k) ∈ numbered earlier ms →
      m ∈ ms ∧ k < earlier.count m.name + ms.countP (·.name == m.name)
  | m' :: ms, earlier, m, k, h => by
    rw [numbered, mem_cons] at h
    rcases h with h | h
    · cases h
      exact ⟨mem_cons_self, by simp⟩
    · obtain ⟨hmem, hlt⟩ := mem_of_mem_numbered h
      refine ⟨mem_cons_of_mem _ hmem, Nat.lt_of_lt_of_eq hlt ?_⟩
      rw [count_cons, countP_cons]
      omega

/-- A class that became a plain module, with names for parameters that stand for no operator. -/
structure LoweredClass.Plain (l : LoweredClass) : Prop where
  body : l.body.Plain
  params : l.params.Forall fun _ names => PlainNames names

section Classes

variable {classes : List ClassDecl}

theorem plain_selfParam {id : String} (h : isWord id = true) : (selfParam id).plain = true := by
  have hself : isWord "thiz" = true := by decide
  exact and_eq_true_iff.mpr ⟨hself, h⟩

/-- **A plain class becomes a plain module.** -/
theorem ofClass_plain (h : ∀ c ∈ classes, c.Plain) {c : ClassDecl} (hc : c.Plain) {s s' : Supply}
    {l : LoweredClass} (hrun : (ofClass classes c).run.run s = (.ok l, s')) : l.Plain := by
  obtain ⟨k, n, invariant, programs, hinvariant, -, hprograms, rfl⟩ := exists_of_ofClass hrun
  have hinvariant := Arithmetic.extractPart_plain ((conveys_plain h .empty).clauses (all_eq_true.mp
    (Source.plain_renameClauses _ _ hc.invariants)) hinvariant) .invariant n
  have hname : isWord (invariantName c.id) = true := isWord_append hc.id (by decide)
  have hprograms : ∀ p ∈ programs, p.1.Plain c.id ∧ PlainNames p.2 := by
    refine forall_mem_of_forall₂_mem hprograms fun m p hm hp => ?_
    obtain ⟨_, _, _, _, _, hp, -⟩ := hp
    obtain ⟨hmem, hlt⟩ := mem_of_mem_numbered hm
    rw [count_nil, Nat.zero_add] at hlt
    exact hp.plain h hc (hc.methods m.1 hmem) (Nat.lt_trans hlt (hc.few m.1.name))
  refine ⟨⟨hc.id, hc.qualifiedName, ownFields_isRelation h hc, ?_,
    rfl, hinvariant.2,
    forall_mem_map.mpr fun p hp => (hprograms p hp).1⟩, ?_⟩
  · exact forall_mem_singleton.mpr
      ⟨hname, forall_mem_singleton.mpr (plain_selfParam hc.id), hinvariant.1⟩
  · exact .ofList (forall_mem_map.mpr fun p hp => (hprograms p hp).2)

theorem withQueryMethod_plain (s : Settings) (h : ∀ c ∈ classes, c.Plain) :
    ∀ c ∈ withQueryMethod s classes, c.Plain := by
  rw [withQueryMethod]
  split
  · refine forall_mem_map.mpr fun c hc => ?_
    have hc := h c hc
    split
    · next hadded =>
      have hquery : isWord MethodName.generateInvariant = true := by decide
      rw [and_eq_true, Bool.not_eq_true', any_eq_false] at hadded
      refine { hc with
        methods := forall_mem_append.mpr ⟨hc.methods, forall_mem_singleton.mpr
          ⟨hquery, nofun, nofun, rfl, nofun, nofun⟩⟩
        few := fun name => ?_ }
      rw [countP_append, countP_singleton]
      split
      · next heq =>
        -- Only when no method has its name is the method added.
        have hnone : c.methods.countP (·.name == name) = 0 := countP_eq_zero.mpr
          (by rw [← beq_iff_eq.mp heq]; exact hadded.2)
        rw [hnone]
        decide
      · exact hc.few name
    · exact hc
  · exact h

/-- A catalog whose parameters go by names that stand for no operator. -/
def Catalog.Plain (c : Catalog) : Prop := c.params.Forall fun _ names => PlainNames names

/-- **Plain classes become plain modules.** -/
theorem ofClasses_plain (h : ∀ c ∈ classes, c.Plain) {s : Settings} {n : Supply} {ms : List Module}
    (hms : ((ofClasses s classes).run n).1.result = .ok ms) :
    (∀ m ∈ ms, m.Plain) ∧ ((ofClasses s classes).run n).1.catalog.Plain := by
  have hquery := withQueryMethod_plain s h
  obtain ⟨modules, hplain, hresult⟩ := ofClasses_induction s classes
    (P := fun done catalog => (∀ m ∈ done, m.Plain) ∧ catalog.Plain)
    (fun hc ⟨hdone, hcatalog⟩ hrun => by
      have hl := ofClass_plain hquery (hquery _ hc) hrun
      exact ⟨forall_mem_append.mpr ⟨hdone, forall_mem_singleton.mpr hl.body⟩, hcatalog.union hl.params⟩)
    id n ⟨nofun, .empty⟩
  rw [hresult ms hms]
  exact hplain

end Classes

end Contract

end Relspec
