import Relspec.Proofs.Formula.Reassociation
import Relspec.Proofs.Source.Renaming
import Relspec.Source.ClassTable

/-!
# Proofs/Source/Plain — classes over words

Every name in a class is a word, no sign stands before a literal that has one of its own, and no quantifier
ranges over a class that is called like an operator of the formula language.  Renaming keeps that, and
calls no variable like an operator.

* `Naming.isName_binding` — no variable is newly called like an operator;
* `Expr.plain`, `Stmt.plain`, `Method.Plain`, `ClassDecl.Plain` — classes over words;
* `plain_rename`, `renameAll_plain`, `bindParams_isName` — renaming.
-/

namespace Relspec

open List
open Formula (isName isName_of_mem isName_joined isWord_append isIdentifier_of_isWord isWord_of_isName
  keywords)
open Bool (and_eq_true_iff and_eq_true)
open Formula.Lexeme (isWord)

/-! ## Names that are issued or kept -/

namespace Naming

theorem isName_issued (n : Nat) {name : String} (h : isWord name = true) :
    isName (issued n name) = true := by
  refine isName_joined (isWord_append (by decide) (isIdentifier_toString n)) fun c hc => ?_
  rw [String.toList_ofList] at hc
  obtain ⟨d, hd, rfl⟩ := mem_map.mp hc
  split
  · rfl
  · exact isIdentifier_of_isWord h d hd

/-- **No variable is newly called like an operator.** -/
theorem isName_binding {x : String} (h : isWord x = true) (k : Nat) :
    isName ((binding x).run k).1 = true := by
  have hreserved : ∀ w ∈ keywords, needsFresh w = true := by decide
  rw [binding]
  split
  · exact isName_issued (k + 1) h
  · next hkept =>
    have hword : keywords.contains x = false := by
      rw [← Bool.not_eq_true, contains_iff_mem]
      exact fun hmem => hkept (hreserved x hmem)
    change isName x = true
    rw [isName, h, hword]
    rfl

end Naming

/-- Names that stand for no operator, in the places of others. -/
def PlainNames (names : Table String) : Prop := names.Forall fun _ y => isName y = true

/-! ## Dotted names -/

/-- Words with dots between them. -/
def IsDotted (q : String) : Prop :=
  ∃ head tail, q = Text.join "." (head :: tail) ∧ ∀ w ∈ head :: tail, isWord w = true

theorem IsDotted.of_isWord {w : String} (h : isWord w = true) : IsDotted w :=
  ⟨w, [], String.intercalate_singleton.symm, forall_mem_singleton.mpr h⟩

theorem join_concat (w : String) : ∀ (head : String) (tail : List String),
    Text.join "." (head :: tail ++ [w]) = Text.join "." (head :: tail) ++ "." ++ w
  | head, [] => by
    simp only [Text.join, cons_append, nil_append, String.intercalate_cons_cons,
      String.intercalate_singleton]
  | head, v :: tail => by
    have ih := join_concat w v tail
    simp only [Text.join, cons_append] at ih ⊢
    rw [String.intercalate_cons_cons, ih, String.intercalate_cons_cons]
    simp only [String.append_assoc]

theorem IsDotted.concat {q w : String} (hq : IsDotted q) (hw : isWord w = true) :
    IsDotted (q ++ "." ++ w) := by
  obtain ⟨head, tail, rfl, hwords⟩ := hq
  refine ⟨head, tail ++ [w], (join_concat w head tail).symm, ?_⟩
  rw [← cons_append, forall_mem_append]
  exact ⟨hwords, forall_mem_singleton.mpr hw⟩

namespace ClassName

theorem identifier_append (w v : String) : identifier (w ++ v) = identifier w ++ identifier v := by
  simp [identifier]

theorem identifier_of_not_mem {q : String} (h : '.' ∉ q.toList) : identifier q = q := by
  have hself : q.toList.map (fun c => if c = '.' then '_' else c) = q.toList := by
    refine (map_congr_left fun c hc => if_neg ?_).trans (map_id _)
    rintro rfl
    exact h hc
  rw [identifier, hself, String.ofList_toList]

theorem identifier_of_isWord {w : String} (h : isWord w = true) : identifier w = w :=
  identifier_of_not_mem ((isIdentifier_of_isWord h).not_mem rfl)

theorem isWord_identifier {q : String} (h : IsDotted q) : isWord (identifier q) = true := by
  obtain ⟨head, tail, rfl, hwords⟩ := h
  induction tail generalizing head with
  | nil =>
    have hhead := forall_mem_singleton.mp hwords
    rwa [Text.join, String.intercalate_singleton, identifier_of_isWord hhead]
  | cons w tail ih =>
    obtain ⟨hhead, htail⟩ := forall_mem_cons.mp hwords
    rw [Text.join, String.intercalate_cons_cons, identifier_append, identifier_append,
      identifier_of_isWord hhead]
    exact isWord_append (isWord_append hhead (by decide)) (isIdentifier_of_isWord (ih w htail))

end ClassName

namespace Source

open ClassName (identifier)

/-! ## Expressions -/

/-- Whether an expression is an integer. -/
def Expr.isInt : Expr → Bool
  | .int .. => true
  | _ => false

/-- **Plain expressions**: their quantified variables pass a test, and range over types whose name stands
for no operator; a sign before an integer is part of it. -/
def Expr.plain (isVar : String → Bool) : Expr → Bool
  | .int _ v => decide (-2 ^ 63 < v.toInt)
  | .old _ x => x.plain isVar
  | .field _ x _ => x.plain isVar
  | .new _ type _ => isWord (identifier type)
  | .unary _ op x => x.plain isVar && !(op = .neg && x.isInt)
  | .binary _ _ x y => x.plain isVar && y.plain isVar
  | .quant _ _ var type body => isVar var && isName (identifier type.name) && body.plain isVar
  | .quantOver _ _ var type range body =>
    isVar var && isName (identifier type.name) && range.plain isVar && body.plain isVar
  | .ident .. | .bool .. | .string .. | .null _ | .self _ | .result _ | .call .. | .invoke ..
  | .index .. => true

theorem isInt_rename (e : Expr) (scope : Scope) (k : Nat) : ((e.rename scope).run k).1.isInt = e.isInt := by
  cases e <;> rfl

/-- **Renaming keeps an expression plain**, and calls no variable like an operator. -/
theorem plain_rename (scope : Scope) (k : Nat) : ∀ {e : Expr}, e.plain isWord = true →
    ((e.rename scope).run k).1.plain isName = true
  | .int .., h | .new .., h => h
  | .old _ x, h | .field _ x _, h => plain_rename (e := x) scope k h
  | .unary _ op x, h => by
    obtain ⟨hx, hsign⟩ := and_eq_true_iff.mp h
    exact and_eq_true_iff.mpr ⟨plain_rename scope k hx, isInt_rename x scope k ▸ hsign⟩
  | .binary _ _ x y, h => by
    obtain ⟨hx, hy⟩ := and_eq_true_iff.mp h
    exact and_eq_true_iff.mpr ⟨plain_rename scope k hx, plain_rename scope _ hy⟩
  | .quant _ _ var type body, h => by
    simp only [Expr.plain, and_eq_true] at h
    obtain ⟨⟨hvar, htype⟩, hbody⟩ := h
    refine and_eq_true_iff.mpr ⟨and_eq_true_iff.mpr ⟨Naming.isName_binding hvar k, htype⟩, ?_⟩
    exact plain_rename _ _ hbody
  | .quantOver _ _ var type range body, h => by
    simp only [Expr.plain, and_eq_true] at h
    obtain ⟨⟨⟨hvar, htype⟩, hrange⟩, hbody⟩ := h
    refine and_eq_true_iff.mpr ⟨and_eq_true_iff.mpr ⟨?_, plain_rename _ _ hrange⟩,
      plain_rename _ _ hbody⟩
    exact and_eq_true_iff.mpr ⟨Naming.isName_binding hvar k, htype⟩
  | .ident .., _ | .bool .., _ | .string .., _ | .null _, _ | .self _, _
  | .result _, _ | .call .., _ | .invoke .., _ | .index .., _ => rfl

/-- Whether the expression of a clause is plain. -/
def Clause.plain (isVar : String → Bool) (c : Clause) : Bool := c.expr.plain isVar

theorem plain_renameClauses (scope : Scope) : ∀ {cs : List Clause} (k : Nat),
    cs.all (Clause.plain isWord) = true →
      ((cs.mapM (Clause.rename scope)).run k).1.all (Clause.plain isName) = true
  | [], _, _ => rfl
  | c :: cs, k, h => by
    obtain ⟨hc, hcs⟩ := and_eq_true_iff.mp h
    rw [mapM_cons]
    exact and_eq_true_iff.mpr ⟨plain_rename scope k hc, plain_renameClauses scope _ hcs⟩

theorem all_optional {α β : Type} {f : α → Naming β} {p : α → Bool} {q : β → Bool}
    (hf : ∀ a k, p a = true → q ((f a).run k).1 = true) : ∀ {o : Option α} (k : Nat), o.all p = true →
      ((o.mapM f).run k).1.all q = true
  | none, _, _ => rfl
  | some a, k, h => hf a k h

/-! ## Statements -/

/-- Whether the name of a type is a word. -/
def TypeRef.plain (t : TypeRef) : Bool := isWord (identifier t.name)

mutual

/-- **Plain statements**: their expressions are plain, and their variables and types are words. -/
def Stmt.plain (isVar : String → Bool) : Stmt → Bool
  | .block _ body => Stmt.plainAll isVar body
  | .declare _ name type init => isWord name && type.plain && init.all (Expr.plain isVar)
  | .assign _ target value => target.plain isVar && value.plain isVar
  | .ifThen _ cond _ thn => cond.plain isVar && Stmt.plainAll isVar thn
  | .ifElse _ cond _ thn _ els => cond.plain isVar && Stmt.plainAll isVar thn && Stmt.plainAll isVar els
  | .loop _ cond invariants variant _ body =>
    cond.plain isVar && invariants.all (Clause.plain isVar) && variant.all (Clause.plain isVar) &&
      Stmt.plainAll isVar body
  | .ret _ value => value.all (Expr.plain isVar)
  | .raise _ e => e.plain isVar
  | .assert _ e => e.plain isVar
  | .assume _ e => e.plain isVar
  | .eval .. => true

/-- Whether statements are plain. -/
def Stmt.plainAll (isVar : String → Bool) : List Stmt → Bool
  | [] => true
  | s :: ss => s.plain isVar && Stmt.plainAll isVar ss

end

theorem Stmt.plainAll_append {isVar : String → Bool} {ss ts : List Stmt}
    (hs : plainAll isVar ss = true) (ht : plainAll isVar ts = true) :
    plainAll isVar (ss ++ ts) = true := by
  induction ss with
  | nil => exact ht
  | cons s ss ih =>
    obtain ⟨hs, hss⟩ := and_eq_true_iff.mp hs
    exact and_eq_true_iff.mpr ⟨hs, ih hss⟩

/-- A declaration under a name that stands for no operator. -/
def Declaration.plain (d : Declaration) : Bool := isName d.unique && d.type.plain

/-- Plain statements, and the declarations taken out of them. -/
structure RenamedPlain (stmts : List Stmt) (ds : List Declaration) : Prop where
  stmts : Stmt.plainAll isName stmts = true
  declarations : ∀ d ∈ ds, d.plain = true

namespace RenamedPlain

variable {stmts stmts' : List Stmt} {ds ds' : List Declaration} {s : Stmt}

theorem simple (h : s.plain isName = true) (hds : ∀ d ∈ ds, d.plain = true) : RenamedPlain [s] ds :=
  ⟨and_eq_true_iff.mpr ⟨h, rfl⟩, hds⟩

theorem append (h : RenamedPlain stmts ds) (h' : RenamedPlain stmts' ds') :
    RenamedPlain (stmts ++ stmts') (ds ++ ds') :=
  ⟨Stmt.plainAll_append h.stmts h'.stmts, forall_mem_append.mpr ⟨h.declarations, h'.declarations⟩⟩

end RenamedPlain

mutual

/-- **Renaming keeps a statement plain.** -/
theorem rename_plain (scope : Scope) (k : Nat) : ∀ {s : Stmt}, s.plain isWord = true →
    RenamedPlain ((s.rename scope).run k).1.stmts ((s.rename scope).run k).1.declarations
  | .declare p name type none, h => by
    simp only [Stmt.plain, and_eq_true] at h
    refine ⟨rfl, forall_mem_singleton.mpr (and_eq_true_iff.mpr ⟨?_, h.1.2⟩)⟩
    exact Naming.isName_issued (k + 1) h.1.1
  | .declare p name type (some init), h => by
    simp only [Stmt.plain, and_eq_true] at h
    obtain ⟨⟨hname, htype⟩, hinit⟩ := h
    refine .simple (plain_rename scope k hinit) ?_
    exact forall_mem_singleton.mpr (and_eq_true_iff.mpr ⟨Naming.isName_issued _ hname, htype⟩)
  | .assign p target value, h => by
    obtain ⟨htarget, hvalue⟩ := and_eq_true_iff.mp h
    refine .simple (and_eq_true_iff.mpr ⟨plain_rename scope k htarget, ?_⟩) nofun
    exact plain_rename scope _ hvalue
  | .block p body, h => by
    have hbody := renameAll_plain scope k h
    exact .simple hbody.stmts hbody.declarations
  | .ifThen p cond tp thn, h => by
    obtain ⟨hcond, hthn⟩ := and_eq_true_iff.mp h
    have hthn := renameAll_plain scope ((cond.rename scope).run k).2 hthn
    exact .simple (and_eq_true_iff.mpr ⟨plain_rename scope k hcond, hthn.stmts⟩) hthn.declarations
  | .ifElse p cond tp thn ep els, h => by
    simp only [Stmt.plain, and_eq_true] at h
    obtain ⟨⟨hcond, hthn⟩, hels⟩ := h
    have hthn := renameAll_plain scope ((cond.rename scope).run k).2 hthn
    have hels := renameAll_plain scope ((Stmt.renameAll scope thn).run ((cond.rename scope).run k).2).2 hels
    refine .simple ?_ (hthn.append hels).declarations
    exact and_eq_true_iff.mpr
      ⟨and_eq_true_iff.mpr ⟨plain_rename scope k hcond, hthn.stmts⟩, hels.stmts⟩
  | .loop p cond invariants variant bp body, h => by
    simp only [Stmt.plain, and_eq_true] at h
    obtain ⟨⟨⟨hcond, hinvs⟩, hvariant⟩, hbody⟩ := h
    have hinvs := plain_renameClauses scope ((cond.rename scope).run k).2 hinvs
    have hvariant := all_optional (f := Clause.rename scope) (q := Clause.plain isName)
      (fun _ k => plain_rename scope k)
      ((invariants.mapM (Clause.rename scope)).run ((cond.rename scope).run k).2).2 hvariant
    have hbody := renameAll_plain scope ((variant.mapM (Clause.rename scope)).run
      ((invariants.mapM (Clause.rename scope)).run ((cond.rename scope).run k).2).2).2 hbody
    refine .simple ?_ hbody.declarations
    refine and_eq_true_iff.mpr ⟨and_eq_true_iff.mpr ⟨and_eq_true_iff.mpr ⟨?_, hinvs⟩,
      hvariant⟩, hbody.stmts⟩
    exact plain_rename scope k hcond
  | .ret p value, h => .simple (all_optional (fun _ k => plain_rename scope k) k h) nofun
  | .raise p e, h | .assert p e, h | .assume p e, h =>
    .simple (plain_rename scope k h) nofun
  | .eval p e, _ => .simple rfl nofun

theorem renameAll_plain (scope : Scope) (k : Nat) : ∀ {ss : List Stmt}, Stmt.plainAll isWord ss = true →
    RenamedPlain ((Stmt.renameAll scope ss).run k).1.1 ((Stmt.renameAll scope ss).run k).1.2
  | [], _ => ⟨rfl, nofun⟩
  | s :: ss, h => by
    obtain ⟨hs, hss⟩ := and_eq_true_iff.mp h
    exact (rename_plain scope k hs).append (renameAll_plain _ _ hss)

end

/-- **No parameter goes by the name of an operator.** -/
theorem bindParams_isName : ∀ (ps : List Param) {scope : Scope} (k : Nat),
    (∀ p ∈ ps, isWord p.name = true) → PlainNames scope → PlainNames ((bindParams scope ps).run k).1
  | [], _, _, _, h => h
  | p :: ps, _, k, hps, h => by
    obtain ⟨hp, hps⟩ := forall_mem_cons.mp hps
    exact bindParams_isName ps _ hps (h.insert (Naming.isName_binding hp k))

/-! ## Classes -/

/-- Whether every formula that a pragma reads as is plain. -/
def Pragma.Plain (a : Pragma) : Prop := ∀ f, Formula.read a.formula = .ok f → f.plain = true

/-- **Plain methods.** -/
structure Method.Plain (m : Method) : Prop where
  name : isWord m.name = true
  params : ∀ p ∈ m.params, isWord p.name = true ∧ p.type.plain = true
  returns : ∀ t ∈ m.returns, t.plain = true
  clauses : m.clauses.all (Clause.plain isWord) = true
  pragmas : ∀ a ∈ m.pragmas, a.Plain
  body : ∀ b ∈ m.body, Stmt.plainAll isWord b.stmts = true

/-- **Plain classes.**  The methods of one name can be numbered. -/
structure ClassDecl.Plain (c : ClassDecl) : Prop where
  package : ∀ p ∈ c.package, IsDotted p
  name : isWord c.name = true
  fields : ∀ f ∈ c.fields, isWord f.name = true ∧ ∀ t ∈ f.type, t.plain = true
  invariants : c.invariants.all (Clause.plain isWord) = true
  pragmas : ∀ a ∈ c.pragmas, a.Plain
  methods : ∀ m ∈ c.methods, m.Plain
  few : ∀ name, c.methods.countP (·.name == name) < 2 ^ 63

/-- **Renaming a plain method.** -/
theorem Method.Plain.rename {m : Method} (h : m.Plain) (k : Nat) :
    PlainNames (m.rename.run k).1.params ∧
      RenamedPlain (m.rename.run k).1.body (m.rename.run k).1.declarations := by
  have hbody : Stmt.plainAll isWord ((m.body.map (·.stmts)).getD []) = true := by
    cases hb : m.body with
    | none => rfl
    | some b => exact h.body b hb
  exact ⟨bindParams_isName m.params k (fun p hp => (h.params p hp).1) .empty, renameAll_plain _ _ hbody⟩

namespace ClassDecl.Plain

variable {c : ClassDecl}

theorem qualifiedName (h : c.Plain) : IsDotted c.qualifiedName := by
  rw [ClassDecl.qualifiedName]
  split
  · next p hp => exact (h.package p hp).concat h.name
  · exact .of_isWord h.name

theorem id (h : c.Plain) : isWord c.id = true := ClassName.isWord_identifier h.qualifiedName

/-- A class is called like an operator only by that operator. -/
theorem isName_id (h : c.Plain) {name : String} (hname : name ∈ c.names)
    (hword : isName (identifier name) = true) : isName c.id = true := by
  rw [ClassDecl.names, mem_cons, mem_cons, mem_singleton] at hname
  rcases hname with rfl | rfl | rfl
  · exact hword
  · -- A package puts a mark before the name.
    rw [ClassDecl.id, ClassDecl.qualifiedName]
    split
    · next p hp =>
      rw [ClassName.identifier_append, ClassName.identifier_append]
      exact isName_joined (ClassName.isWord_identifier (h.package p hp))
        (isIdentifier_of_isWord (isWord_of_isName hword))
    · exact hword
  · rwa [ClassName.identifier_of_isWord h.id] at hword

end ClassDecl.Plain

/-! ## Identifiers of classes -/

namespace ClassTable

variable {classes : List ClassDecl} {name : String}

theorem mem_of_lookup? {c : ClassDecl} (h : lookup? classes name = some c) :
    c ∈ classes ∧ name ∈ c.names := by
  have hnames : c.names.contains name = true :=
    List.find?_some (p := fun c : ClassDecl => c.names.contains name) h
  exact ⟨mem_of_find?_eq_some h, contains_iff_mem.mp hnames⟩

theorem identifier_standard (name : String) :
    identifier ("java.lang." ++ name) = "java_lang" ++ "_" ++ identifier name := by
  rw [ClassName.identifier_append]
  congr 1

theorem isWord_idOf (h : ∀ c ∈ classes, c.Plain) (hname : isWord (identifier name) = true) :
    isWord (idOf classes name) = true := by
  rw [idOf]
  split
  · next c hc => exact (h c (mem_of_lookup? hc).1).id
  · split
    · exact hname
    · rw [identifier_standard]
      exact isWord_of_isName (isName_joined (by decide) (isIdentifier_of_isWord hname))

theorem isName_idOf (h : ∀ c ∈ classes, c.Plain) (hname : isName (identifier name) = true) :
    isName (idOf classes name) = true := by
  rw [idOf]
  split
  · next c hc =>
    obtain ⟨hmem, hnames⟩ := mem_of_lookup? hc
    exact (h c hmem).isName_id hnames hname
  · split
    · exact hname
    · rw [identifier_standard]
      exact isName_joined (by decide) (isIdentifier_of_isWord (isWord_of_isName hname))

end ClassTable

end Source

end Relspec
