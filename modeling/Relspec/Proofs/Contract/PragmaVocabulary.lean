import Relspec.Proofs.Contract.Identifiers
import Relspec.Proofs.Contract.Pragmas
import Relspec.Proofs.Contract.Vocabulary

/-!
# Proofs/Contract/PragmaVocabulary — what pragmas make contract modules speak of

The names of a pragma stand for parameters, fields and classes.  A name that stands for none of them is
left as it is, and a class is left over too.  So modules stay over the vocabulary of their classes when the
pragmas are added.

* `Resolver.resolve_over` — resolving the names of a formula;
* `Catalog.Records` — what the catalog says of programs and their parameters;
* `Assertion.Of` — a pragma that was read belongs to a class, or to the method of a program;
* `mergePragmas_speaks`, `Module.Speaks.asRead` — modules with their pragmas, and read from their texts.
-/

namespace Relspec

open List
open Formula (Reference Vocabulary)
open Source (ClassDecl Method Part Pragma)
open Source.ClassTable

/-! ## References under other names -/

namespace Formula

section

variable {names : Table String} {r : Reference}

/-- A reference is one of `refs`, or a name put for one of them. -/
def RefersAs (names : Table String) (refs : List Reference) (r : Reference) : Prop :=
  ∃ x, ⟨x, r.dotted⟩ ∈ refs ∧ (x = r.name ∨ names.find? x = some r.name)

theorem RefersAs.mono {refs refs' : List Reference} (h : RefersAs names refs r) (hsub : refs ⊆ refs') :
    RefersAs names refs' r :=
  let ⟨x, hx, hname⟩ := h
  ⟨x, hsub hx, hname⟩

mutual

/-- **What a formula refers to under other names.** -/
theorem refersAs_of_mem {bound : List String} {dotted : Bool} : ∀ {f : Formula},
    r ∈ (f.rebuild (substituteNode (names.map .ident)) bound).references bound dotted →
      RefersAs names (f.references bound dotted) r
  | .ident name, h => by
    rw [rebuild, substituteNode, Table.find?_map] at h
    by_cases hmem : bound.contains name = true
    · rw [if_pos hmem] at h
      exact ⟨r.name, h, .inl rfl⟩
    · rw [if_neg hmem] at h
      cases hfind : names.find? name with
      | none =>
        rw [hfind] at h
        exact ⟨r.name, h, .inl rfl⟩
      | some y =>
        rw [hfind, Option.map_some, Option.getD_some] at h
        refine ⟨name, ?_, .inr ?_⟩ <;> cases dotted <;> simp_all [references]
  | .int _, h => nomatch h
  | .join x y, h | .binary _ x y, h | .quant _ vars domain body, h => (mem_append.mp h).elim
    (fun h => (refersAs_of_mem h).mono (subset_append_left _ _))
    (fun h => (refersAs_of_mem h).mono (subset_append_right _ _))
  | .call _ args, h => refersAs_of_mem_all h
  | .unary _ x, h | .old x, h => refersAs_of_mem (f := x) h
  | .ite c t e, h => (mem_append.mp h).elim
    (fun h => (refersAs_of_mem h).mono (subset_append_left _ _))
    (fun h => (mem_append.mp h).elim
      (fun h => (refersAs_of_mem h).mono fun _ hx => mem_append_right _ (mem_append_left _ hx))
      (fun h => (refersAs_of_mem h).mono fun _ hx => mem_append_right _ (mem_append_right _ hx)))

theorem refersAs_of_mem_all {bound : List String} : ∀ {fs : List Formula},
    r ∈ referencesAll bound (rebuildAll (substituteNode (names.map .ident)) bound fs) →
      RefersAs names (referencesAll bound fs) r
  | [], h => nomatch h
  | _ :: _, h => (mem_append.mp h).elim
    (fun h => (refersAs_of_mem h).mono (subset_append_left _ _))
    (fun h => (refersAs_of_mem_all h).mono (subset_append_right _ _))

end

/-- Putting names for names keeps the binders. -/
theorem binders_rename (bound : List String) (f : Formula) :
    (f.rebuild (substituteNode (names.map .ident)) bound).binders = f.binders := by
  induction f generalizing bound with
  | ident name =>
    rw [rebuild, substituteNode, Table.find?_map]
    split
    · rfl
    · cases names.find? name <;> rfl
  | call name args ih =>
    simp only [rebuild, substituteNode, binders, rebuildAll_eq_map, bindersAll_eq_flatMap, flatMap_map]
    exact flatMap_congr fun a ha => ih a ha bound
  | _ => simp_all [rebuild, substituteNode, binders]

end

end Formula

namespace Contract

/-! ## Resolving names -/

namespace Resolver

section

variable {V : Vocabulary} {r : Resolver} {self : String} {params : List String}

/-- What a reference stands for. -/
def reference (r : Resolver) (self : String) (params : List String) (x : Reference) : Formula :=
  if x.dotted then r.navigated self x.name else r.ident self params x.name

theorem ident_append {inner : List String} {name : String} (h : name ∉ inner) :
    r.ident self (params ++ inner) name = r.ident self params name := by
  have hmem : (params ++ inner).contains name = params.contains name := by
    rw [Bool.eq_iff_iff, contains_iff_mem, contains_iff_mem, mem_append, or_iff_left h]
  rw [ident, ident, hmem]

mutual

/-- **Resolving the names of a formula** under parameters, over a vocabulary with what they stand for. -/
theorem resolve_over {inner : List String} {o : Bool} : ∀ {dotted : Bool} {f : Formula},
    (∀ x ∈ f.references inner dotted, ∀ o, (r.reference self params x).Over V [] o) →
      (∀ v ∈ f.binders, V.binds v) → (r.resolve self (params ++ inner) dotted f).Over V inner o
  | true, .ident name, hrefs, _ => (hrefs ⟨name, true⟩ mem_cons_self o).inside
  | false, .ident name, hrefs, _ => by
    by_cases hmem : name ∈ inner
    · have hself : r.resolve self (params ++ inner) false (.ident name) = .ident name :=
        if_pos (contains_iff_mem.mpr (mem_append_right _ hmem))
      rw [hself]
      exact .inl hmem
    · have hself : r.resolve self (params ++ inner) false (.ident name) =
          r.reference self params ⟨name, false⟩ := ident_append hmem
      rw [hself]
      exact (hrefs ⟨name, false⟩ (by simp [Formula.references, hmem]) o).inside
  | _, .int _, _, _ => trivial
  | _, .join x y, hrefs, hbinds | _, .binary _ x y, hrefs, hbinds => by
    rw [Formula.references, forall_mem_append] at hrefs
    rw [Formula.binders, forall_mem_append] at hbinds
    exact ⟨resolve_over hrefs.1 hbinds.1, resolve_over hrefs.2 hbinds.2⟩
  | _, .call _ args, hrefs, hbinds => by
    rw [Formula.references] at hrefs
    rw [Formula.binders] at hbinds
    exact resolveAll_over hrefs hbinds
  | _, .unary _ x, hrefs, hbinds | _, .old x, hrefs, hbinds => resolve_over (f := x) hrefs hbinds
  | _, .quant _ vars domain body, hrefs, hbinds => by
    rw [Formula.references, forall_mem_append] at hrefs
    rw [Formula.binders, forall_mem_append, forall_mem_append] at hbinds
    rw [resolve, append_assoc]
    exact ⟨hbinds.1.1, resolve_over hrefs.1 hbinds.1.2, resolve_over hrefs.2 hbinds.2⟩
  | _, .ite c t e, hrefs, hbinds => by
    rw [Formula.references, forall_mem_append, forall_mem_append] at hrefs
    rw [Formula.binders, forall_mem_append, forall_mem_append] at hbinds
    exact ⟨resolve_over hrefs.1 hbinds.1.1, resolve_over hrefs.2.1 hbinds.1.2,
      resolve_over hrefs.2.2 hbinds.2⟩

theorem resolveAll_over {inner : List String} {o : Bool} : ∀ {fs : List Formula},
    (∀ x ∈ Formula.referencesAll inner fs, ∀ o, (r.reference self params x).Over V [] o) →
      (∀ v ∈ Formula.bindersAll fs, V.binds v) →
        Formula.OverAll V inner o (r.resolveAll self (params ++ inner) fs)
  | [], _, _ => trivial
  | f :: fs, hrefs, hbinds => by
    rw [Formula.referencesAll, forall_mem_append] at hrefs
    rw [Formula.bindersAll, forall_mem_append] at hbinds
    exact ⟨resolve_over hrefs.1 hbinds.1, resolveAll_over hrefs.2 hbinds.2⟩

end

theorem resolve_outside {dotted o : Bool} {f : Formula}
    (hrefs : ∀ x ∈ f.references [] dotted, ∀ o, (r.reference self params x).Over V [] o)
    (hbinds : ∀ v ∈ f.binders, V.binds v) : (r.resolve self params dotted f).Over V [] o := by
  have hover : (r.resolve self (params ++ []) dotted f).Over V [] o := resolve_over hrefs hbinds
  rwa [append_nil] at hover

end

variable {classes : List ClassDecl} {kept : List String} {r : Resolver}

/-- **What a resolver finds**: fields of classes, those of every class with a module, and the ids of
classes. -/
structure Finds (classes : List ClassDecl) (kept : List String) (r : Resolver) : Prop where
  relation : ∀ {id x rel : String}, r.field? id x = some rel → IsField classes rel
  order : ∀ d ∈ classes, d.id ∈ kept → d.id ∈ r.order
  field : ∀ d ∈ classes, d.id ∈ kept → ∀ f ∈ d.fields, (r.field? d.id f.name).isSome
  className : r.classes.Forall fun x id => ∃ d ∈ classes, id = d.id ∧ (x = d.name ∨ x = d.qualifiedName)

section

variable {c : ClassDecl} {p : Part} {params : List String} {result : Bool → Prop}

/-- A name that stands on the right of a dot. -/
theorem Finds.navigated_over (h : r.Finds classes kept) {self x : String} {o : Bool}
    (hx : (∀ d ∈ classes, d.id ∈ kept → ∀ f ∈ d.fields, f.name ≠ x) →
      (vocabulary classes kept c p params result).reads o x) :
    (r.navigated self x).Over (vocabulary classes kept c p params result) [] o := by
  rw [navigated]
  cases hfound : (self :: r.order).findSome? fun id => r.field? id x with
  | some rel =>
    obtain ⟨id, -, hrel⟩ := exists_of_findSome?_eq_some hfound
    exact .inr (.inl (.inr (h.relation hrel)))
  | none =>
    refine .inr (hx fun d hd hkept f hf hname => ?_)
    have hnone := List.findSome?_eq_none_iff.mp hfound d.id (mem_cons_of_mem _ (h.order d hd hkept))
    have hsome := h.field d hd hkept f hf
    rw [hname, hnone] at hsome
    cases hsome

/-- What a name in a pragma of a class stands for. -/
theorem Finds.reference_over (h : r.Finds classes kept) (hc : c ∈ classes) (hkept : c.id ∈ kept)
    {x : Reference} (hx : x.name ∈ params ∨ ∃ f, p.Asserts f ∧ x ∈ f.references [] false) (o : Bool) :
    (r.reference c.id params x).Over (vocabulary classes kept c p params result) [] o := by
  obtain ⟨x, dotted⟩ := x
  cases dotted with
  | true =>
    refine h.navigated_over fun hfield => ?_
    rcases hx with hx | ⟨f, hf, hx⟩
    · exact .inr (.inl hx)
    · exact .inr (.inr (.inr (.navigated hf hx hfield)))
  | false =>
    have hreference : r.reference c.id params ⟨x, false⟩ = r.ident c.id params x := rfl
    rw [hreference, ident]
    by_cases hparam : x ∈ params
    · rw [if_pos (contains_iff_mem.mpr hparam)]
      exact .inr (.inr (.inl hparam))
    obtain ⟨f, hf, hx⟩ := hx.resolve_left hparam
    rw [if_neg (mt contains_iff_mem.mp hparam)]
    split_ifs with hself
    · exact .inr (.inl (.inl (by decide)))
    · cases hrel : r.field? c.id x with
      | some rel => exact ⟨.inr (.inl (.inl (by decide))), .inr (.inl (.inr (h.relation hrel)))⟩
      | none =>
        cases hid : r.classes.find? x with
        | some id =>
          obtain ⟨d, hd, rfl, hname⟩ := h.className.find? hid
          exact .inr (.inr (.inr (.inr (.className hf hx hd hname))))
        | none =>
          have hloose : Loose classes kept c p x := .unresolved hf hx hself fun d hd hname => ?_
          · exact .inr (.inr (.inr (.inr hloose)))
          have hsome := h.field c hc hkept d hd
          rw [hname, hrel] at hsome
          cases hsome

/-- **A pragma of a class is over the vocabulary** of the part of the contract that it belongs to. -/
theorem Finds.resolve_over (h : r.Finds classes kept) (hc : c ∈ classes) (hkept : c.id ∈ kept)
    {f : Formula} (hf : p.Asserts f) :
    (r.resolve c.id params false f).Over (vocabulary classes kept c p params result) [] false := by
  exact resolve_outside (fun x hx => h.reference_over hc hkept (.inr ⟨f, hf, hx⟩))
    fun v hv => .inr ⟨f, hf, hv⟩

/-- The same when names of parameters are put for names. -/
theorem Finds.resolve_rename_over (h : r.Finds classes kept) (hc : c ∈ classes) (hkept : c.id ∈ kept)
    {f : Formula} (hf : p.Asserts f) {names : Table String}
    (hnames : names.Forall fun _ y => y ∈ params) :
    (r.resolve c.id params false (f.rename names)).Over (vocabulary classes kept c p params result) []
      false := by
  refine resolve_outside (fun x hx => ?_) fun v hv => ?_
  · obtain ⟨y, hy, hname⟩ := Formula.refersAs_of_mem hx
    rcases hname with rfl | hput
    · exact h.reference_over hc hkept (.inr ⟨f, hf, hy⟩)
    · exact h.reference_over hc hkept (.inl (hnames.find? hput))
  · exact .inr ⟨f, hf, Formula.binders_rename [] f ▸ hv⟩

end

end Resolver

/-! ## The catalog of a run -/

/-- **What the catalog says of programs**: a signature stands for the program of a method, and its
parameters go by the names of the program. -/
structure Catalog.Records (classes : List ClassDecl) (ms : List Module) (c : Catalog) : Prop where
  modules : c.modules.Forall fun q id => id = ClassName.identifier q
  programs : c.programs.Forall fun key id => ∃ d ∈ classes, ∃ m k, (m, k) ∈ numbered [] d.methods ∧
    key = d.qualifiedName ++ "." ++ m.signature ∧ id = programId d.id m.name k
  params : c.params.Forall fun id names => ∃ m ∈ ms, ∃ p ∈ m.programs, p.id = id ∧
    names.Forall fun _ y => y ∈ p.params.map (·.name)

namespace Catalog.Records

variable {classes : List ClassDecl} {modules : List Module} {catalog : Catalog}

theorem add (h : catalog.Records classes modules) {c : ClassDecl} (hc : c ∈ classes) {s s' : Supply}
    {l : LoweredClass} (hrun : (ofClass classes c).run.run s = (.ok l, s')) :
    (catalog.add c.qualifiedName l.body l.programs l.params).Records classes (modules ++ [l.body]) where
  modules := h.modules.insert (congrArg Prod.fst (ofClass_ids hrun))
  programs := h.programs.union ((ofClass_programs hrun).imp fun _ _ hkey => ⟨c, hc, hkey⟩)
  params := by
    refine (h.params.imp fun _ _ ⟨m, hm, hp⟩ => ⟨m, mem_append_left _ hm, hp⟩).union ?_
    exact (ofClass_params hrun).imp fun _ _ hp => ⟨l.body, mem_append_right _ mem_cons_self, hp⟩

theorem drop (h : catalog.Records classes modules) (qualified : String) (place : Location) (fault : Fault) :
    (catalog.drop qualified place fault).Records classes modules := by
  unfold Catalog.drop
  split
  · exact h
  · exact ⟨h.modules.filter _, h.programs.filter _, h.params.filter _⟩

end Catalog.Records

/-- **The contract modules of a run**, with what is known of their ids. -/
structure Spoken (classes : List ClassDecl) (modules : List Module) : Prop where
  apart : Apart classes
  ids : (modules.map Module.ids).Sublist (classes.map idsOf)
  speaks : ∀ m ∈ modules, ∃ c ∈ classes, ∀ kept, m.Speaks classes kept c

theorem ofClasses_speaks {s : Settings} {classes : List ClassDecl} {n : Supply} {ms : List Module}
    (hms : ((ofClasses s classes).run n).1.result = .ok ms) :
    (∀ m ∈ ms, ∃ c ∈ withQueryMethod s classes, ∀ kept, m.Speaks (withQueryMethod s classes) kept c) ∧
      ((ofClasses s classes).run n).1.catalog.Records (withQueryMethod s classes) ms := by
  obtain ⟨modules, h, hresult⟩ := ofClasses_induction s classes
    (P := fun done catalog =>
      (∀ m ∈ done, ∃ c ∈ withQueryMethod s classes, ∀ kept, m.Speaks (withQueryMethod s classes) kept c) ∧
        catalog.Records (withQueryMethod s classes) done)
    (fun hc ⟨hspeaks, hrecords⟩ hrun => by
      refine ⟨forall_mem_append.mpr ⟨hspeaks, forall_mem_singleton.mpr ?_⟩, hrecords.add hc hrun⟩
      exact ⟨_, hc, fun kept => ofClass_speaks kept hrun⟩)
    (fun ⟨hspeaks, hrecords⟩ => ⟨hspeaks, hrecords.modules, hrecords.programs, hrecords.params⟩)
    n ⟨nofun, .empty, .empty, .empty⟩
  rw [hresult ms hms]
  exact h

namespace Spoken

variable {classes : List ClassDecl} {modules : List Module} (h : Spoken classes modules)
include h

theorem class_eq {c d : ClassDecl} (hc : c ∈ classes) (hd : d ∈ classes) (hid : c.id = d.id) : c = d :=
  inj_on_of_nodup_map h.apart.ids hc hd hid

theorem nodup : (modules.map (·.id)).Nodup := by
  have hids := h.ids.map Prod.fst
  rw [map_map, map_map] at hids
  exact hids.nodup h.apart.ids

theorem module_eq {m m' : Module} (hm : m ∈ modules) (hm' : m' ∈ modules) (hid : m.id = m'.id) : m = m' :=
  inj_on_of_nodup_map h.nodup hm hm' hid

theorem exists_ids {m : Module} (hm : m ∈ modules) : ∃ c ∈ classes, m.ids = idsOf c := by
  obtain ⟨c, hc, hids⟩ := mem_map.mp (h.ids.subset (mem_map_of_mem hm))
  exact ⟨c, hc, hids.symm⟩

theorem nodup_programs {m : Module} (hm : m ∈ modules) : (m.programs.map (·.id)).Nodup := by
  obtain ⟨c, -, hids⟩ := h.exists_ids hm
  have hprograms : m.programs.map (·.id) = (idsOf c).2 := congrArg Prod.snd hids
  exact hprograms ▸ nodup_ids c

/-- **Programs have ids of their own.** -/
theorem program_eq {m m' : Module} (hm : m ∈ modules) (hm' : m' ∈ modules) {p p' : Program}
    (hp : p ∈ m.programs) (hp' : p' ∈ m'.programs) (hid : p.id = p'.id) : p = p' := by
  obtain ⟨c, hc, hids⟩ := h.exists_ids hm
  obtain ⟨d, hd, hids'⟩ := h.exists_ids hm'
  have hx : p.id ∈ (idsOf c).2 := congrArg Prod.snd hids ▸ mem_map_of_mem hp
  have hx' : p.id ∈ (idsOf d).2 := hid ▸ congrArg Prod.snd hids' ▸ mem_map_of_mem hp'
  obtain rfl := h.class_eq hc hd (h.apart.id_eq hc hd hx hx')
  obtain rfl := h.module_eq hm hm' (congrArg Prod.fst (hids.trans hids'.symm))
  exact inj_on_of_nodup_map (h.nodup_programs hm) hp hp' hid

end Spoken

/-! ## Reading -/

/-- **A pragma that was read**, of a class or of the method of one of its programs. -/
inductive Assertion.Of (c : ClassDecl) (m : Module) : Assertion → Prop
  | ofClass {a : Pragma} {f : Formula} (ha : a ∈ c.pragmas) (hf : Formula.read a.formula = .ok f) :
    Of c m ⟨a.kind, none, .empty, f⟩
  | ofMethod {a : Pragma} {f : Formula} {p : Program} {names : Table String} {method : Method} {k : Nat}
    (hp : p ∈ m.programs) (hmethod : (method, k) ∈ numbered [] c.methods)
    (hid : p.id = programId c.id method.name k) (ha : a ∈ c.pragmasOf method a.kind)
    (hf : Formula.read a.formula = .ok f) (hnames : names.Forall fun _ y => y ∈ p.params.map (·.name)) :
    Of c m ⟨a.kind, some p, names, f⟩

/-- A class with further methods. -/
def Grows (c d : ClassDecl) : Prop :=
  ∃ ms, d = { c with methods := c.methods ++ ms }

theorem exists_grows (s : Settings) {classes : List ClassDecl} {c : ClassDecl} (hc : c ∈ classes) :
    ∃ d ∈ withQueryMethod s classes, Grows c d := by
  have hself : Grows c c := ⟨[], by rw [append_nil]⟩
  rw [withQueryMethod]
  split
  · refine ⟨_, mem_map_of_mem hc, ?_⟩
    split
    · exact ⟨_, rfl⟩
    · exact hself
  · exact ⟨c, hc, hself⟩

theorem mem_of_program? {m : Module} {id : String} {p : Program} (h : m.program? id = some p) :
    p ∈ m.programs ∧ p.id = id := by
  have hid := List.find?_some h
  exact ⟨mem_of_find?_eq_some h, beq_iff_eq.mp hid⟩

section Reading

variable {classes : List ClassDecl} {modules : List Module} {catalog : Catalog} {c d : ClassDecl}
  {m : Module}

/-- The program on record for a method is that of a method with its signature. -/
theorem Spoken.exists_method (h : Spoken classes modules) (hrecords : catalog.Records classes modules)
    (hm : m ∈ modules) (hd : d ∈ classes) (hid : m.id = d.id) {signature id : String} {p : Program}
    (hfind : (catalog.programs.find? (d.qualifiedName ++ "." ++ signature)).getD "" = id)
    (hp : m.program? id = some p) : ∃ method k, (method, k) ∈ numbered [] d.methods ∧
      method.signature = signature ∧ p.id = programId d.id method.name k := by
  obtain ⟨e, he, hspeaks⟩ := h.speaks m hm
  obtain rfl := h.class_eq he hd ((hspeaks []).id.symm.trans hid)
  obtain ⟨hmem, hpid⟩ := mem_of_program? hp
  obtain ⟨m₁, k₁, hm₁, hp₁, -⟩ := (hspeaks []).programs p hmem
  cases hsome : catalog.programs.find? (e.qualifiedName ++ "." ++ signature) with
  | none =>
    rw [hsome, Option.getD_none, ← hpid, hp₁] at hfind
    exact absurd hfind.symm (programId_ne_empty _ _ _)
  | some found =>
    rw [hsome, Option.getD_some, ← hpid] at hfind
    obtain ⟨e', he', m₂, k₂, hm₂, hkey, hp₂⟩ := hrecords.programs.find? hsome
    have hx₁ : p.id ∈ (idsOf e).2 := mem_map.mpr ⟨_, hm₁, hp₁.symm⟩
    have hx₂ : p.id ∈ (idsOf e').2 := mem_map.mpr ⟨_, hm₂, hp₂.symm.trans hfind⟩
    obtain rfl := h.class_eq he he' (h.apart.id_eq he he' hx₁ hx₂)
    refine ⟨m₂, k₂, hm₂, ?_, hfind.symm.trans hp₂⟩
    exact (String.append_right_inj _).mp hkey.symm

theorem readMethod_of (h : Spoken classes modules) (hrecords : catalog.Records classes modules)
    (hm : m ∈ modules) (hd : d ∈ classes) (hgrows : Grows c d) (hid : m.id = d.id) {method : Method}
    (hmethod : method ∈ c.methods) {read : List Assertion}
    (hread : readMethod c m catalog method = .ok read) : ∀ a ∈ read, a.Of d m := by
  obtain ⟨ms, rfl⟩ := hgrows
  unfold readMethod at hread
  dsimp only at hread
  split at hread
  · cases hread
    exact nofun
  · next p hp =>
    obtain ⟨m₁, k, hm₁, hsignature, hpid⟩ := h.exists_method hrecords hm hd hid rfl hp
    obtain ⟨hmem, hfound⟩ := mem_of_program? hp
    refine forall_mem_of_forall₂_mem (forall₂_of_mapM_ok hread) fun a b ha hb => ?_
    obtain ⟨f, hf, hb⟩ := exists_of_except_ok hb
    cases hb
    refine .ofMethod hmem hm₁ hpid ?_ (read_of_readPragma hf) ?_
    · refine mem_flatMap.mpr ⟨method, mem_filter.mpr ⟨mem_append_left _ hmethod, ?_⟩,
        mem_filter.mpr ⟨ha, beq_self_eq_true _⟩⟩
      exact beq_iff_eq.mpr hsignature.symm
    · cases hnames : catalog.params.find? _ with
      | none => exact .empty
      | some names =>
        obtain ⟨m', hm', p', hp', hpid', hforall⟩ := hrecords.params.find? hnames
        have hsame : p' = p := h.program_eq hm' hm hp' hmem (hpid'.trans hfound.symm)
        exact hsame ▸ hforall

theorem readClass_of (h : Spoken classes modules) (hrecords : catalog.Records classes modules)
    (hm : m ∈ modules) (hd : d ∈ classes) (hgrows : Grows c d) (hid : m.id = d.id)
    {read : List Assertion} (hread : readClass c m catalog = .ok read) : ∀ a ∈ read, a.Of d m := by
  obtain ⟨own, hown, hread⟩ := exists_of_except_ok hread
  obtain ⟨methods, hmethods, hread⟩ := exists_of_except_ok hread
  cases hread
  refine forall_mem_append.mpr ⟨?_, ?_⟩
  · obtain ⟨ms, rfl⟩ := hgrows
    refine forall_mem_of_forall₂_mem (forall₂_of_mapM_ok hown) fun a b ha hb => ?_
    obtain ⟨f, hf, hb⟩ := exists_of_except_ok hb
    cases hb
    exact .ofClass ha (read_of_readPragma hf)
  · rw [forall_mem_flatten]
    exact forall_mem_of_forall₂_mem (forall₂_of_mapM_ok hmethods) fun method read hmem hread =>
      readMethod_of h hrecords hm hd hgrows hid hmem hread

/-- What reading the pragmas of classes leads to. -/
structure ReadPragmas.Of (classes : List ClassDecl) (modules : List Module) (read : ReadPragmas) :
    Prop where
  assertions : ∀ e ∈ read.assertions, ∃ d ∈ classes, ∃ m ∈ modules, Grows e.1 d ∧ m.id = d.id ∧
    ∀ a ∈ e.2, a.Of d m
  records : read.catalog.Records classes modules

theorem of_moduleOf? (hrecords : catalog.Records classes modules)
    (hm : moduleOf? modules catalog c = some m) : m ∈ modules ∧ m.id = c.id := by
  obtain ⟨id, hid, hfind⟩ := Option.bind_eq_some_iff.mp hm
  have hsame := List.find?_some hfind
  exact ⟨mem_reverse.mp (mem_of_find?_eq_some hfind),
    (beq_iff_eq.mp hsame).trans (hrecords.modules.find? hid)⟩

theorem readClasses_of (h : Spoken classes modules) {s : Settings} : ∀ {cs : List ClassDecl}
    {read : ReadPragmas}, (∀ c ∈ cs, ∃ d ∈ classes, Grows c d) → read.Of classes modules →
      (readClasses s modules read cs).2.Of classes modules
  | [], _, _, hread => hread
  | c :: cs, read, hcs, hread => by
    obtain ⟨⟨d, hd, hgrows⟩, hcs⟩ := forall_mem_cons.mp hcs
    rw [readClasses]
    split
    · exact readClasses_of h hcs hread
    · next m hm =>
      obtain ⟨hmem, hid⟩ := of_moduleOf? hread.records hm
      have hid : m.id = d.id := by
        obtain ⟨ms, rfl⟩ := hgrows
        exact hid
      split
      · next as has =>
        refine readClasses_of h hcs ⟨forall_mem_append.mpr ⟨hread.assertions, ?_⟩, hread.records⟩
        exact forall_mem_singleton.mpr
          ⟨d, hd, m, hmem, hgrows, hid, readClass_of h hread.records hmem hd hgrows hid has⟩
      · split
        · exact hread
        · exact readClasses_of h hcs ⟨hread.assertions, hread.records.drop _ _ _⟩

end Reading

/-! ## Merging -/

section Merging

variable {classes : List ClassDecl} {kept : List String} {c : ClassDecl} {m m₀ : Module} {f : Formula}

theorem Module.Speaks.withPredicate (h : m.Speaks classes kept c) (name : String) :
    (m.withPredicate name).Speaks classes kept c := by
  unfold Module.withPredicate
  split
  · exact h
  · exact { h with
      predicates := forall_mem_append.mpr ⟨h.predicates, forall_mem_singleton.mpr .truth⟩ }

/-- **A formula added to the invariant of a module.** -/
theorem mergeInvariant_speaks (hf : f.Over (invariantVocabulary classes kept c) [] false)
    (h : m.Speaks classes kept c) (n : Nat) : ((mergeInvariant f m).run n).1.Speaks classes kept c := by
  have hpart := Arithmetic.extractPart_speaks hf .invariant n
  have hwith := h.withPredicate (m.invariant.getD "")
  refine { hwith with
    origin := (Side.ofOrigin_append ..).trans
      (congrArg₂ (· ++ ·) hwith.origin (Arithmetic.ofOrigin_sideOf _ _))
    side := hwith.side.append hpart.defines
    predicates := ?_ }
  have hpredicates := fun p hp => (hwith.predicates p hp).mono
    (Side.within_append_left (t := ((Arithmetic.extractPart .invariant f).run n).1.2))
  refine updateFirst_forall _ hpredicates fun p hp _ => ?_
  exact .all_pair (hpredicates p hp) (hpart.formula.mono Side.within_append_right)

/-- **A formula added to the contract of a program.** -/
theorem mergeContract_speaks {kind : Source.PragmaKind} {method : Method} {p : Program}
    (hpre : kind = .requires → f.Over (preVocabulary classes kept c method p) [] false)
    (hpost : kind = .ensures → f.Over (postVocabulary classes kept c method p) [] false)
    (h : p.Speaks classes kept c method) (n : Nat) :
    ((mergeContract kind f p).run n).1.Speaks classes kept c method := by
  cases kind with
  | invariant => exact h
  | requires =>
    exact { h with
      requires := h.requires.append (Arithmetic.extractPart_speaks (hpre rfl) .requires n)
      ensures := h.ensures.before (Arithmetic.extractPart_defines_of_ne (by decide) f n) }
  | ensures =>
    exact { h with
      requires := h.requires.before (Arithmetic.extractPart_defines_of_ne (by decide) f n)
      ensures := h.ensures.append (Arithmetic.extractPart_speaks (hpost rfl) .ensures n) }

/-- The programs of a module with their parameters. -/
def Module.heads (m : Module) : List (String × List Var) := m.programs.map fun p => (p.id, p.params)

/-- **A module with pragmas added**: it has the programs that it had, with the same parameters. -/
structure Merged (classes : List ClassDecl) (kept : List String) (c : ClassDecl) (m₀ m : Module) :
    Prop where
  speaks : m.Speaks classes kept c
  heads : m.heads = m₀.heads

/-- A program that is changed has the parameters that it had. -/
theorem Merged.params_eq (h : Merged classes kept c m₀ m) (hnodup : (m₀.programs.map (·.id)).Nodup)
    {p q : Program} (hp : p ∈ m₀.programs) (hq : q ∈ m.programs) (hid : q.id = p.id) :
    q.params = p.params := by
  have hmem : (q.id, q.params) ∈ m₀.heads := h.heads ▸ mem_map_of_mem hq
  obtain ⟨p', hp', heq⟩ := mem_map.mp hmem
  obtain ⟨hid', hparams⟩ := Prod.mk.inj heq
  rw [← hparams, inj_on_of_nodup_map hnodup hp' hp (hid'.trans hid)]

theorem mergeAssertion_merged {r : Resolver} (hr : r.Finds classes kept) (hc : c ∈ classes)
    (hkept : c.id ∈ kept) (hnodup : (m₀.programs.map (·.id)).Nodup) {a : Assertion} (ha : a.Of c m₀)
    (h : Merged classes kept c m₀ m) (n : Nat) :
    Merged classes kept c m₀ ((mergeAssertion r a m).run n).1 := by
  cases ha with
  | @ofClass a f ha hf =>
    by_cases hkind : a.kind = .invariant
    · have hasserts : c.invariantPart.Asserts f :=
        ⟨a, mem_append_right _ (mem_filter.mpr ⟨ha, beq_iff_eq.mpr hkind⟩), hf⟩
      have hover : (r.resolve c.id [] false f).Over (invariantVocabulary classes kept c) [] false :=
        hr.resolve_over hc hkept hasserts
      rw [mergeAssertion]
      simp only [hkind, if_true, h.speaks.id]
      refine ⟨mergeInvariant_speaks hover h.speaks n, ?_⟩
      rw [← h.heads, mergeInvariant]
      simp only [Module.withPredicate]
      split <;> rfl
    · rw [mergeAssertion]
      simp only [hkind]
      exact h
  | @ofMethod a f p names method k hp hmethod hid ha hf hnames =>
    refine ⟨{ h.speaks with programs := ?_ }, ?_⟩
    · refine updateFirst_forall n h.speaks.programs fun q hq hsame => ?_
      have hqid : q.id = p.id := beq_iff_eq.mp hsame
      obtain ⟨method', k', hmethod', hid', hspeaks⟩ := h.speaks.programs q hq
      obtain ⟨rfl, rfl⟩ := Prod.mk.inj (inj_on_of_nodup_map (nodup_ids c) hmethod' hmethod
        (hid'.symm.trans (hqid.trans hid)))
      refine ⟨method', k', hmethod', (mergeContract_id a.kind _ q n).trans hid', ?_⟩
      have hrenamed : (renamedOnly names).Forall fun _ y => y ∈ q.params.map (·.name) := by
        rw [h.params_eq hnodup hp hq hqid]
        exact hnames.filter _
      rw [h.speaks.id, ← h.params_eq hnodup hp hq hqid]
      refine mergeContract_speaks (fun hkind => ?_) (fun hkind => ?_) hspeaks n
      · exact hr.resolve_rename_over hc hkept ⟨a, mem_append_right _ (hkind ▸ ha), hf⟩ hrenamed
      · exact hr.resolve_rename_over hc hkept ⟨a, mem_append_right _ (hkind ▸ ha), hf⟩ hrenamed
    · rw [← h.heads]
      refine map_updateFirst (fun q n => ?_) m.programs n
      cases a.kind <;> rfl

/-- A module with all pragmas of its class. -/
theorem mergeAll_merged {r : Resolver} (hr : r.Finds classes kept) (hc : c ∈ classes) (hkept : c.id ∈ kept)
    (hnodup : (m₀.programs.map (·.id)).Nodup) : ∀ (as : List Assertion) {m : Module} (n : Nat),
      (∀ a ∈ as, a.Of c m₀) → Merged classes kept c m₀ m →
        Merged classes kept c m₀ ((as.foldlM (fun m a => mergeAssertion r a m) m).run n).1
  | [], _, _, _, h => h
  | a :: as, m, n, has, h => by
    obtain ⟨ha, has⟩ := forall_mem_cons.mp has
    rw [foldlM_cons, StateT.run_bind]
    exact mergeAll_merged hr hc hkept hnodup as _ has (mergeAssertion_merged hr hc hkept hnodup ha h n)

variable {modules : List Module}

/-- A module that came from one of `modules`; it is over its vocabulary if there will be a module for it. -/
def CameFrom (classes : List ClassDecl) (kept : List String) (modules : List Module) (m : Module) : Prop :=
  ∃ m₀ ∈ modules, m₀.id = m.id ∧ (m.id ∈ kept → ∃ c ∈ classes, Merged classes kept c m₀ m)

theorem mergeEach_cameFrom (h : Spoken classes modules) {r : Resolver} (hr : r.Finds classes kept)
    {catalog : Catalog} (hrecords : catalog.Records classes modules)
    {read : List (ClassDecl × List Assertion)}
    (hread : ∀ e ∈ read, ∃ d ∈ classes, ∃ m ∈ modules, Grows e.1 d ∧ m.id = d.id ∧ ∀ a ∈ e.2, a.Of d m)
    {ms ms' : List Module} {n n' : Nat} (hms : ∀ m ∈ ms, CameFrom classes kept modules m)
    (hrun : (mergeEach r catalog ms read).run n = (.ok ms', n')) :
    ∀ m ∈ ms', CameFrom classes kept modules m := by
  refine mergeEach_induction (P := fun _ ms => ∀ m ∈ ms, CameFrom classes kept modules m)
    (fun e he id hfind n ms hms m hm => ?_) hms hrun
  obtain ⟨d, hd, m₁, hm₁, hgrows, hid, has⟩ := hread e he
  have hreversed : ∀ m ∈ ms.reverse, CameFrom classes kept modules m :=
    fun m hm => hms m (mem_reverse.mp hm)
  refine updateFirst_forall n hreversed (fun m hm hsame => ?_) m (mem_reverse.mp hm)
  obtain ⟨m₀, hm₀, hid₀, hmerged⟩ := hreversed m hm
  have hids : ((e.2.foldlM (fun m a => mergeAssertion r a m) m).run n).1.id = m.id :=
    congrArg Prod.fst (mergeAll_ids r e.2 m n)
  refine ⟨m₀, hm₀, hid₀.trans hids.symm, fun hkept => ?_⟩
  obtain ⟨c, hc, hmerged⟩ := hmerged (hids ▸ hkept)
  -- The module that is changed is the one that the pragmas were read for.
  have hdc : d = c := by
    refine h.class_eq hd hc ?_
    rw [← hmerged.speaks.id, beq_iff_eq.mp hsame]
    obtain ⟨_, rfl⟩ := hgrows
    exact (hrecords.modules.find? hfind).symm
  obtain rfl := hdc
  obtain rfl := h.module_eq hm₀ hm₁ (hid₀.trans (hmerged.speaks.id.trans hid.symm))
  exact ⟨d, hd, mergeAll_merged hr hd (hid ▸ hid₀ ▸ hids ▸ hkept) (h.nodup_programs hm₀) e.2 n has hmerged⟩

end Merging

/-! ## All classes -/

section All

variable {classes raw : List ClassDecl} {modules : List Module}

theorem Module.Speaks.isField {m : Module} {c : ClassDecl} {kept : List String}
    (h : m.Speaks classes kept c) (hc : c ∈ classes) {v : Var} (hv : v ∈ m.fields) :
    IsField classes v.name := by
  have hname : v.name ∈ m.fields.map (·.name) := mem_map_of_mem hv
  rw [h.fields] at hname
  obtain ⟨f, hf, hname⟩ := mem_map.mp hname
  exact ⟨c, hc, f, hf, hname.symm⟩

theorem Module.Speaks.contains_fieldsOf {m : Module} {c : ClassDecl} {kept : List String}
    (h : m.Speaks classes kept c) {f : Source.Field} (hf : f ∈ c.fields) :
    (Resolver.fieldsOf m).contains f.name = true := by
  have hname : c.id ++ "_" ++ f.name ∈ m.fields.map (·.name) := by
    rw [h.fields]
    exact mem_map_of_mem (f := fun f : Source.Field => c.id ++ "_" ++ f.name) hf
  obtain ⟨v, hv, hname⟩ := mem_map.mp hname
  rw [Resolver.fieldsOf, Table.ofList, Table.contains_foldl_insert, map_map]
  refine .inr (mem_map.mpr ⟨v, hv, ?_⟩)
  rw [Function.comp_apply, hname, h.id, Text.dropStart_append]

/-- The fields on record for the modules that are kept. -/
theorem finds_of (h : Spoken classes modules) (hraw : ∀ c ∈ raw, ∃ d ∈ classes, Grows c d)
    (keep : Module → Bool) :
    (Resolver.of (modules.filter keep) raw).Finds classes ((modules.filter keep).map (·.id)) where
  relation := by
    intro id x rel hrel
    obtain ⟨relations, hrelations, hrel⟩ := Option.bind_eq_some_iff.mp hrel
    refine Table.Forall.find? (P := fun _ rel => IsField classes rel) ?_ hrel
    refine Table.Forall.find? (P := fun _ t => t.Forall fun _ rel => IsField classes rel) ?_ hrelations
    refine .ofList (forall_mem_map.mpr fun m hm => ?_)
    obtain ⟨c, hc, hspeaks⟩ := h.speaks m (mem_filter.mp hm).1
    exact .ofList (forall_mem_map.mpr fun v hv => (hspeaks []).isField hc hv)
  order d _ hkept := hkept
  field := by
    intro d hd hkept f hf
    have hfound : (Resolver.of (modules.filter keep) raw).fields.contains d.id = true := by
      refine Table.contains_foldl_insert.mpr (.inr ?_)
      rwa [map_map]
    obtain ⟨relations, hrelations⟩ := Option.isSome_iff_exists.mp hfound
    have hfields : relations.contains f.name = true := by
      refine Table.Forall.find? (P := fun id t => id = d.id → t.contains f.name = true) ?_ hrelations rfl
      refine .ofList (forall_mem_map.mpr fun m hm hid => ?_)
      obtain ⟨c, hc, hspeaks⟩ := h.speaks m (mem_filter.mp hm).1
      obtain rfl := h.class_eq hc hd ((hspeaks []).id.symm.trans hid)
      exact (hspeaks []).contains_fieldsOf hf
    rw [Resolver.field?, hrelations]
    exact hfields
  className := by
    refine .ofList (forall_mem_flatMap.mpr fun c hc => ?_)
    obtain ⟨d, hd, ms, rfl⟩ := hraw c hc
    rw [forall_mem_cons, forall_mem_singleton]
    exact ⟨⟨_, hd, rfl, .inl rfl⟩, _, hd, rfl, .inr rfl⟩

/-- The ids of the modules that are kept. -/
def keptIds (dropped : List String) (ms : List Module) : List String :=
  (ms.filter fun m => !dropped.contains m.id).map (·.id)

theorem keptIds_eq (dropped : List String) {ms ms' : List Module}
    (h : ms.map Module.ids = ms'.map Module.ids) : keptIds dropped ms = keptIds dropped ms' := by
  have hfilter : ∀ ms : List Module, keptIds dropped ms =
      ((ms.map Module.ids).filter fun e => !dropped.contains e.1).map Prod.fst := fun ms => by
    rw [filter_map, map_map]
    rfl
  rw [hfilter, hfilter, h]

/-- **Modules with their pragmas are over the vocabulary of their classes.** -/
theorem mergePragmas_speaks (h : Spoken classes modules) (hraw : ∀ c ∈ raw, ∃ d ∈ classes, Grows c d)
    {catalog : Catalog} (hrecords : catalog.Records classes modules) {s : Settings} {n : Supply}
    {ms : List Module} (hms : ((mergePragmas s modules raw catalog).run n).1.result = .ok ms) :
    ∀ m ∈ ms, ∃ c ∈ classes, m.Speaks classes (ms.map (·.id)) c := by
  have hof : (readClasses s modules { catalog } raw).2.Of classes modules :=
    readClasses_of h hraw ⟨nofun, hrecords⟩
  obtain ⟨read, merged, _, hread, hmerge, rfl, -⟩ := exists_of_mergePragmas hms
  rw [hread] at hof
  have hstart : ∀ m ∈ modules, CameFrom classes (keptIds read.dropped modules) modules m := fun m hm => by
    obtain ⟨c, hc, hspeaks⟩ := h.speaks m hm
    exact ⟨m, hm, rfl, fun _ => ⟨c, hc, hspeaks _, rfl⟩⟩
  have hcame := mergeEach_cameFrom h (finds_of h hraw fun m => !read.dropped.contains m.id) hof.records
    hof.assertions hstart hmerge
  have hids := keptIds_eq read.dropped (mergeEach_ids hmerge)
  intro m hm
  obtain ⟨m₀, hm₀, hid, hmerged⟩ := hcame m (mem_filter.mp hm).1
  have hkept : m.id ∈ keptIds read.dropped modules := hids ▸ mem_map_of_mem hm
  obtain ⟨c, hc, hmerged⟩ := hmerged hkept
  have hspeaks : m.Speaks classes (keptIds read.dropped modules) c := hmerged.speaks
  rw [← hids] at hspeaks
  exact ⟨c, hc, hspeaks⟩

end All

/-! ## Through the texts -/

section Texts

variable {classes : List ClassDecl} {kept : List String} {c : ClassDecl}

mutual

theorem Stmt.formulas_map (φ : Formula → Formula) : ∀ s : Stmt, (s.map φ).formulas = s.formulas.map φ
  | .assign _ _ | .assert _ | .assume _ | .raise _ => rfl
  | .branch _ thn els => by
    simp only [map, formulas, formulasAll_map φ thn, formulasAll_map φ els,
      map_cons, map_append]
  | .loop _ invariant variant body => by
    simp only [map, formulas, formulasAll_map φ body, map_cons, map_append,
      Option.toList_map]
  | .ret _ => Option.toList_map ..

theorem Stmt.formulasAll_map (φ : Formula → Formula) : ∀ ss : List Stmt,
    formulasAll (mapAll φ ss) = (formulasAll ss).map φ
  | [] => rfl
  | s :: ss => by
    rw [mapAll, formulasAll, formulas_map φ s, formulasAll_map φ ss, formulasAll,
      map_append]

end

theorem ofOrigin_map (φ : Formula → Formula) (s : Side) (o : Origin) :
    (s.map φ).ofOrigin o = (s.ofOrigin o).map φ := by
  simp [Side.map, Side.ofOrigin, filter_map, Function.comp_def]

theorem defines_asRead {V : Vocabulary} {s : Side} {o : Origin} (h : s.Defines V o) :
    (s.map Formula.asRead).Defines V o where
  names := by
    rw [ofOrigin_map]
    exact h.names
  formulas := by
    have hformulas : ((s.ofOrigin o).map Formula.asRead).formulas =
        (s.ofOrigin o).formulas.map Formula.asRead := by
      rw [Side.formulas, Side.map, map_map, Side.formulas, map_map]
      rfl
    rw [ofOrigin_map, hformulas]
    exact forall_mem_map.mpr fun d hd => (h.formulas d hd).asRead

theorem speaks_asRead {V : Vocabulary} {s : Side} {o : Origin} {f : Formula} (h : s.Speaks V o f) :
    (s.map Formula.asRead).Speaks V o f.asRead := ⟨h.formula.asRead, defines_asRead h.defines⟩

theorem Program.Speaks.asRead {m : Method} {p : Program} (h : p.Speaks classes kept c m) :
    (p.map Formula.asRead ValueType.asRead).Speaks classes kept c m := by
  have hnames : ∀ vs : List Var, (vs.map (Var.map ValueType.asRead)).map (·.name) = vs.map (·.name) :=
    fun vs => by rw [map_map]; rfl
  refine ⟨?_, ?_, ?_, ?_⟩
  · rw [Program.map, hnames]
    exact h.params
  · rw [preVocabulary, Program.map, hnames]
    exact speaks_asRead h.requires
  · rw [postVocabulary, Program.map, hnames, Option.isSome_map]
    exact speaks_asRead h.ensures
  · rw [bodyVocabulary, Program.map, ← map_append, hnames, Option.isSome_map, Stmt.formulasAll_map]
    exact forall_mem_map.mpr fun f hf => (h.body f hf).asRead

/-- **A module that was read from its text is over the same vocabulary.** -/
theorem Module.Speaks.asRead {m : Module} (h : m.Speaks classes kept c) :
    m.asRead.Speaks classes kept c where
  id := h.id
  fields := by
    rw [← h.fields, Module.asRead, Module.map, map_map]
    rfl
  origin := (ofOrigin_map ..).trans (congrArg _ h.origin)
  side := defines_asRead h.side
  predicates := forall_mem_map.mpr fun p hp => (h.predicates p hp).asRead
  programs := forall_mem_map.mpr fun p hp => by
    obtain ⟨method, k, hmethod, hid, hspeaks⟩ := h.programs p hp
    exact ⟨method, k, hmethod, hid, hspeaks.asRead⟩

end Texts

end Contract

end Relspec
