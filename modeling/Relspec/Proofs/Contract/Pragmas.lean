import Relspec.Proofs.Contract.Merging
import Relspec.Proofs.Contract.Plain

/-!
# Proofs/Contract/Pragmas — plain modules with their pragmas, and through their texts

Pragmas of plain classes are plain formulas, and stay so when their names are resolved: names become
relations and classes, which are called like no operator.  So the modules of plain classes are plain, and
what becomes of them on the way through their texts is known.

* `replaces_resolve` — resolving the names of a formula;
* `readClasses_over` — what holds of the pragmas that are read;
* `mergePragmas_counted` — what one more pragma keeps of a module, the pragmas of all classes keep;
* `mergeAssertion_plain`, `mergePragmas_plain` — adding pragmas to a module, and to all modules;
* `ofClasses_roundTrip` — the modules of classes through their texts.
-/

namespace Relspec

open List
open Formula (isName isWord_of_isName Replaces)
open Formula.Lexeme (isWord)
open Source (ClassDecl Pragma)

namespace Contract

/-! ## Names -/

namespace Resolver

/-- What a resolver puts in the place of names stands for no operator. -/
structure Plain (r : Resolver) : Prop where
  fields : r.fields.Forall fun _ relations => PlainNames relations
  classes : r.classes.Forall fun name id => isName name = true → isName id = true

theorem of_plain {modules : List Module} {classes : List ClassDecl} (hmodules : ∀ m ∈ modules, m.Plain)
    (hclasses : ∀ c ∈ classes, c.Plain) : (of modules classes).Plain where
  fields := .ofList (forall_mem_map.mpr fun m hm =>
    .ofList (forall_mem_map.mpr fun v hv => ((hmodules m hm).fields v hv).1))
  classes := by
    have hid : ∀ c ∈ classes, ∀ name ∈ c.names, isName name = true → isName c.id = true :=
      fun c hc name hmem hname => (hclasses c hc).isName_id hmem
        (by rwa [ClassName.identifier_of_isWord (isWord_of_isName hname)])
    refine .ofList (forall_mem_flatMap.mpr fun c hc => ?_)
    rw [forall_mem_cons, forall_mem_singleton]
    exact ⟨hid c hc c.name (by simp [ClassDecl.names]), hid c hc c.qualifiedName (by simp [ClassDecl.names])⟩

variable {r : Resolver}

theorem isName_of_field? (h : r.Plain) {id name rel : String} (hrel : r.field? id name = some rel) :
    isName rel = true := by
  obtain ⟨relations, hrelations, hrel⟩ := Option.bind_eq_some_iff.mp hrel
  exact (h.fields.find? hrelations).find? hrel

theorem replaces_ident (h : r.Plain) (self : String) (bound : List String) (name : String) :
    Replaces (.ident name) (r.ident self bound name) := by
  rw [Resolver.ident]
  split
  · exact .refl _
  · split
    · exact .put rfl rfl
    · split
      · next rel hrel =>
        have hname : (Formula.ident rel).plain = true := isName_of_field? h hrel
        refine .put ?_ rfl
        rw [Formula.plain, hname]
        rfl
      · cases hclass : r.classes.find? name with
        | none => exact .refl _
        | some id => exact ⟨h.classes.find? hclass, nofun⟩

theorem replaces_navigated (h : r.Plain) (self name : String) :
    Replaces (.ident name) (r.navigated self name) := by
  rw [navigated]
  cases hrel : (self :: r.order).findSome? fun id => r.field? id name with
  | none => exact .refl _
  | some rel =>
    obtain ⟨id, -, hrel⟩ := exists_of_findSome?_eq_some hrel
    exact .put (isName_of_field? h hrel) rfl

mutual

/-- **Resolving the names of a formula** puts names and joins of names for names. -/
theorem replaces_resolve (h : r.Plain) (self : String) (bound : List String) :
    ∀ (dotted : Bool) (f : Formula), Replaces f (r.resolve self bound dotted f)
  | false, .ident name => replaces_ident h self bound name
  | true, .ident name => replaces_navigated h self name
  | _, .int value => .refl (.int value)
  | dotted, .join x y =>
    (replaces_resolve h self bound dotted x).join (replaces_resolve h self bound true y)
  | _, .call name args => .call (plainAll_resolve h self bound args) name
  | dotted, .unary op x => (replaces_resolve h self bound dotted x).unary op
  | _, .binary op x y =>
    (replaces_resolve h self bound false x).binary (replaces_resolve h self bound false y) op
  | _, .quant kind vars domain body =>
    (replaces_resolve h self bound false domain).quant (replaces_resolve h self (bound ++ vars) false body)
      kind vars
  | _, .old x => (replaces_resolve h self bound false x).old
  | _, .ite c t e =>
    (replaces_resolve h self bound false c).ite (replaces_resolve h self bound false t)
      (replaces_resolve h self bound false e)

theorem plainAll_resolve (h : r.Plain) (self : String) (bound : List String) : ∀ fs : List Formula,
    Formula.plainAll fs = true → Formula.plainAll (r.resolveAll self bound fs) = true
  | [], _ => rfl
  | f :: fs, hfs => by
    obtain ⟨hf, hfs⟩ := Bool.and_eq_true_iff.mp hfs
    exact Bool.and_eq_true_iff.mpr
      ⟨(replaces_resolve h self bound false f).plain hf, plainAll_resolve h self bound fs hfs⟩

end

end Resolver

/-! ## Reading -/

theorem read_of_readPragma {file : String} {a : Pragma} {f : Formula} (h : readPragma file a = .ok f) :
    Formula.read a.formula = .ok f := by
  unfold readPragma at h
  split at h
  · next g hg =>
    cases h
    exact hg
  · cases h

/-- A pragma that was read, with a property of the names of parameters and one of the formula. -/
structure Assertion.Over (K : Table String → Prop) (F : Formula → Prop) (a : Assertion) : Prop where
  params : K a.params
  formula : F a.formula

/-- What reading pragmas leads to, with a property of the names of parameters and one of formulas. -/
structure ReadPragmas.Over (K : Table String → Prop) (F : Formula → Prop) (read : ReadPragmas) : Prop where
  assertions : ∀ e ∈ read.assertions, ∀ a ∈ e.2, a.Over K F
  params : read.catalog.params.Forall fun _ names => K names

section Reading

variable {K : Table String → Prop} {F : Formula → Prop}
variable {read : List Assertion} {c : ClassDecl} {m : Module} {catalog : Catalog}

/-- Pragmas read one after the other. -/
theorem mapM_readPragma_over {file : String} {as : List Pragma}
    (h : ∀ a ∈ as, ∀ f, Formula.read a.formula = .ok f → F f) {program : Option Program}
    {names : Table String} (hnames : K names) (hread : (as.mapM fun a => do
      return (⟨a.kind, program, names, ← readPragma file a⟩ : Assertion)) = .ok read) :
    ∀ a ∈ read, a.Over K F := by
  refine forall_mem_of_forall₂_mem (forall₂_of_mapM_ok hread) fun a b ha hb => ?_
  obtain ⟨f, hf, hb⟩ := exists_of_except_ok hb
  cases hb
  exact ⟨hnames, h a ha f (read_of_readPragma hf)⟩

theorem readMethod_over (hempty : K .empty) (hcatalog : catalog.params.Forall fun _ names => K names)
    {method : Source.Method} (h : ∀ a ∈ method.pragmas, ∀ f, Formula.read a.formula = .ok f → F f)
    (hread : readMethod c m catalog method = .ok read) : ∀ a ∈ read, a.Over K F := by
  unfold readMethod at hread
  generalize (catalog.programs.find? (c.qualifiedName ++ "." ++ method.signature)).getD "" = id at hread
  have hnames : K ((catalog.params.find? id).getD .empty) := by
    cases hfind : catalog.params.find? id with
    | none => exact hempty
    | some names => exact hcatalog.find? hfind
  dsimp only at hread
  split at hread
  · cases hread
    exact nofun
  · exact mapM_readPragma_over h hnames hread

theorem readClass_over (hempty : K .empty)
    (h : ∀ a ∈ c.annotations, ∀ f, Formula.read a.formula = .ok f → F f)
    (hcatalog : catalog.params.Forall fun _ names => K names) (hread : readClass c m catalog = .ok read) :
    ∀ a ∈ read, a.Over K F := by
  obtain ⟨own, hown, hread⟩ := exists_of_except_ok hread
  obtain ⟨methods, hmethods, hread⟩ := exists_of_except_ok hread
  cases hread
  obtain ⟨hclass, hmethod⟩ := forall_mem_append.mp h
  refine forall_mem_append.mpr ⟨mapM_readPragma_over hclass hempty hown, ?_⟩
  rw [forall_mem_flatten]
  exact forall_mem_of_forall₂_mem (forall₂_of_mapM_ok hmethods) fun method read hmem hread =>
    readMethod_over hempty hcatalog (forall_mem_flatMap.mp hmethod method hmem) hread

/-- **The pragmas of classes**, with what holds of the names of parameters and of the formulas. -/
theorem readClasses_over (hempty : K .empty) {s : Settings} {modules : List Module} :
    ∀ {cs : List ClassDecl} {read : ReadPragmas},
      (∀ c ∈ cs, ∀ a ∈ c.annotations, ∀ f, Formula.read a.formula = .ok f → F f) → read.Over K F →
        (readClasses s modules read cs).2.Over K F
  | [], _, _, h => h
  | c :: cs, read, hcs, h => by
    obtain ⟨hc, hcs⟩ := forall_mem_cons.mp hcs
    rw [readClasses]
    split
    · exact readClasses_over hempty hcs h
    · split
      · next as has =>
        refine readClasses_over hempty hcs ⟨forall_mem_append.mpr ⟨h.assertions, ?_⟩, h.params⟩
        exact forall_mem_singleton.mpr (readClass_over hempty hc h.params has)
      · split
        · exact h
        · refine readClasses_over hempty hcs ⟨h.assertions, ?_⟩
          unfold Catalog.drop
          split
          · exact h.params
          · exact h.params.filter _

end Reading

/-! ## Merging -/

/-- What holds of all members, and of the member that is changed, holds of all. -/
theorem updateFirst_forall {α : Type} {P : α → Prop} {p : α → Bool} {f : α → SideNaming α} :
    ∀ {as : List α} (n : Nat), (∀ a ∈ as, P a) → (∀ a ∈ as, p a = true → P ((f a).run n).1) →
      ∀ a ∈ ((updateFirst p f as).run n).1, P a
  | [], _, _, _ => nofun
  | a :: as, n, h, hf => by
    obtain ⟨ha, has⟩ := forall_mem_cons.mp h
    rw [updateFirst]
    split
    · next hp => exact forall_mem_cons.mpr ⟨hf a mem_cons_self hp, has⟩
    · exact forall_mem_cons.mpr
        ⟨ha, updateFirst_forall n has fun a ha => hf a (mem_cons_of_mem _ ha)⟩

section Counted

variable {Q : Nat → Module → Prop} {A : Assertion → Prop} {r : Resolver}

/-- The same for what depends on how many side variables there are, and stays when there are more. -/
theorem updateFirst_counted {α : Type} {Q : Nat → α → Prop} (hmono : ∀ n n' a, n ≤ n' → Q n a → Q n' a)
    {p : α → Bool} {f : α → SideNaming α} (hf : ∀ a, Issuing (withSides (f a))) :
    ∀ {as : List α} (n : Nat), (∀ a ∈ as, Q n a) →
      (∀ a ∈ as, p a = true → Q ((f a).run n).2 ((f a).run n).1) →
        ∀ a ∈ ((updateFirst p f as).run n).1, Q ((updateFirst p f as).run n).2 a
  | [], _, _, _ => nofun
  | a :: as, n, h, hstep => by
    obtain ⟨ha, has⟩ := forall_mem_cons.mp h
    rw [updateFirst]
    split
    · next hp =>
      exact forall_mem_cons.mpr
        ⟨hstep a mem_cons_self hp, fun b hb => hmono _ _ b (le_of_issuing (hf a) n) (has b hb)⟩
    · exact forall_mem_cons.mpr ⟨hmono _ _ a (le_of_issuing (issuing_updateFirst p hf as) n) ha,
        updateFirst_counted hmono hf n has fun b hb => hstep b (mem_cons_of_mem _ hb)⟩

/-- **What one more pragma keeps**, many do. -/
theorem mergeAll_counted (hstep : ∀ a, A a → ∀ n m, Q n m →
      Q ((mergeAssertion r a m).run n).2 ((mergeAssertion r a m).run n).1) :
    ∀ (as : List Assertion) {m : Module} (n : Nat), (∀ a ∈ as, A a) → Q n m →
      Q ((as.foldlM (fun m a => mergeAssertion r a m) m).run n).2
        ((as.foldlM (fun m a => mergeAssertion r a m) m).run n).1
  | [], _, _, _, h => h
  | a :: as, m, n, has, h => by
    obtain ⟨ha, has⟩ := forall_mem_cons.mp has
    rw [foldlM_cons, StateT.run_bind]
    exact mergeAll_counted hstep as _ has (hstep a ha n m h)

theorem mergeEach_counted (hmono : ∀ n n' m, n ≤ n' → Q n m → Q n' m)
    (hstep : ∀ a, A a → ∀ n m, Q n m →
      Q ((mergeAssertion r a m).run n).2 ((mergeAssertion r a m).run n).1) {catalog : Catalog}
    {read : List (ClassDecl × List Assertion)} (hread : ∀ e ∈ read, ∀ a ∈ e.2, A a) {ms ms' : List Module}
    {n n' : Nat} (h : ∀ m ∈ ms, Q n m) (hrun : (mergeEach r catalog ms read).run n = (.ok ms', n')) :
    ∀ m ∈ ms', Q n' m := by
  refine mergeEach_induction (P := fun n ms => ∀ m ∈ ms, Q n m) (fun e he id _ n ms h m hm => ?_) h hrun
  have hreversed : ∀ m ∈ ms.reverse, Q n m := fun m hm => h m (mem_reverse.mp hm)
  exact updateFirst_counted hmono (closed_sides.foldlM (fun m a => issuing_mergeAssertion r a m) e.2) n
    hreversed (fun m hm _ => mergeAll_counted hstep e.2 n (hread e he) (hreversed m hm)) m (mem_reverse.mp hm)

/-- **What one more pragma keeps of a module**, the pragmas of all classes keep of all modules. -/
theorem mergePragmas_counted {K : Table String → Prop} {F : Formula → Prop} (hempty : K .empty)
    (hmono : ∀ n n' m, n ≤ n' → Q n m → Q n' m) {classes : List ClassDecl} {modules : List Module}
    (hclasses : ∀ c ∈ classes, ∀ a ∈ c.annotations, ∀ f, Formula.read a.formula = .ok f → F f)
    (hstep : ∀ keep a, a.Over K F → ∀ n m, Q n m →
      Q ((mergeAssertion (.of (modules.filter keep) classes) a m).run n).2
        ((mergeAssertion (.of (modules.filter keep) classes) a m).run n).1)
    {catalog : Catalog} (hcatalog : catalog.params.Forall fun _ names => K names) {s : Settings} {n : Supply}
    (hmodules : ∀ m ∈ modules, Q n.sides m) {ms : List Module}
    (hms : ((mergePragmas s modules classes catalog).run n).1.result = .ok ms) :
    ∀ m ∈ ms, Q ((mergePragmas s modules classes catalog).run n).2.sides m := by
  have hover : (readClasses s modules { catalog } classes).2.Over K F :=
    readClasses_over hempty hclasses ⟨nofun, hcatalog⟩
  obtain ⟨read, merged, sides, hread, hmerge, rfl, hrun⟩ := exists_of_mergePragmas hms
  rw [hread] at hover
  rw [hrun]
  have hmerged := mergeEach_counted hmono (hstep fun m => !read.dropped.contains m.id) hover.assertions hmodules
    hmerge
  exact fun m hm => hmerged m (mem_filter.mp hm).1

end Counted

theorem Module.Plain.withPredicate {m : Module} (h : m.Plain) {name : String} (hname : isWord name = true) :
    (m.withPredicate name).Plain := by
  unfold Module.withPredicate
  split
  · exact h
  · refine { h with predicates := forall_mem_append.mpr ⟨h.predicates, ?_⟩ }
    exact forall_mem_singleton.mpr ⟨hname, forall_mem_singleton.mpr (plain_selfParam h.id), rfl⟩

/-- A plain formula added to another. -/
theorem plain_both {f g : Formula} (hf : f.plain = true) (hg : g.plain = true) :
    (Formula.all [f, g]).plain = true :=
  Formula.plain_all (forall_mem_cons.mpr ⟨hf, forall_mem_singleton.mpr hg⟩)

theorem mergeInvariant_plain {f : Formula} (hf : f.plain = true) {m : Module} (h : m.Plain) (n : Nat) :
    ((mergeInvariant f m).run n).1.Plain := by
  obtain ⟨hpart, hside⟩ := Arithmetic.extractPart_plain hf .invariant n
  have hword : isWord (m.invariant.getD "") = true := by
    rw [h.invariant, Option.getD_some]
    exact Formula.isWord_append h.id (by decide)
  have hwith := h.withPredicate hword
  refine { hwith with predicates := ?_, side := hwith.side.append hside }
  refine updateFirst_forall _ hwith.predicates fun p hp _ => ?_
  obtain ⟨hname, hparams, hbody⟩ := hwith.predicates p hp
  exact ⟨hname, hparams, plain_both hbody hpart⟩

theorem mergeContract_plain {f : Formula} (hf : f.plain = true) (kind : Source.PragmaKind)
    {owner : String} {p : Program} (h : p.Plain owner) (n : Nat) :
    ((mergeContract kind f p).run n).1.Plain owner := by
  cases kind with
  | invariant => exact h
  | requires =>
    obtain ⟨hpart, hside⟩ := Arithmetic.extractPart_plain hf .requires n
    exact { h with requires := plain_both h.requires hpart, side := h.side.append hside }
  | ensures =>
    obtain ⟨hpart, hside⟩ := Arithmetic.extractPart_plain hf .ensures n
    exact { h with ensures := plain_both h.ensures hpart, side := h.side.append hside }

/-- **A module with one more pragma** stays plain. -/
theorem mergeAssertion_plain {r : Resolver} (hr : r.Plain) {a : Assertion}
    (ha : a.Over PlainNames fun f => f.plain = true) {m : Module} (h : m.Plain) (n : Nat) : ((mergeAssertion r a m).run n).1.Plain := by
  rw [mergeAssertion]
  split
  · split
    · exact mergeInvariant_plain ((Resolver.replaces_resolve hr m.id [] false a.formula).plain ha.formula) h n
    · exact h
  · next p hp =>
    have hrenamed := Formula.plain_rename ha.formula fun _ _ =>
      (Table.Forall.filter ha.params fun e => e.1 != e.2).find?
    have hf := (Resolver.replaces_resolve hr m.id (p.params.map (·.name)) false _).plain hrenamed
    refine { h with programs := updateFirst_forall n h.programs fun q hq _ => ?_ }
    exact mergeContract_plain hf a.kind (h.programs q hq) n

/-- **The modules of plain classes stay plain with their pragmas.** -/
theorem mergePragmas_plain {classes : List ClassDecl} (hclasses : ∀ c ∈ classes, c.Plain)
    {modules : List Module} (hmodules : ∀ m ∈ modules, m.Plain) {catalog : Catalog}
    (hcatalog : catalog.Plain) {s : Settings} {n : Supply} {ms : List Module}
    (hms : ((mergePragmas s modules classes catalog).run n).1.result = .ok ms) : ∀ m ∈ ms, m.Plain := by
  refine mergePragmas_counted (Q := fun _ m => m.Plain) (K := PlainNames) (F := fun f => f.plain = true)
    .empty (fun _ _ _ _ h => h) (fun c hc => ?_) (fun keep a ha n m h => ?_) hcatalog hmodules hms
  · exact forall_mem_append.mpr ⟨(hclasses c hc).pragmas,
      forall_mem_flatMap.mpr fun m hm => ((hclasses c hc).methods m hm).pragmas⟩
  · exact mergeAssertion_plain
      (Resolver.of_plain (fun m hm => hmodules m (mem_filter.mp hm).1) hclasses) ha h n

/-! ## Through the texts -/

/-- **Modules of plain classes through their texts.**  Each becomes the module that its text reads as, and
nothing goes wrong when the texts are not kept.  They all stay what they were exactly when no class is
called like a type of formulas and no join stands on the right of a join. -/
theorem ofClasses_roundTrip {s : Settings} {classes : List ClassDecl} (hclasses : ∀ c ∈ classes, c.Plain)
    {n n' : Supply} {modules ms : List Module}
    (hmodules : ((ofClasses s classes).run n).1.result = .ok modules)
    (hms : ((mergePragmas s modules classes ((ofClasses s classes).run n).1.catalog).run n').1.result =
      .ok ms) :
    (∀ d, (roundTrip ms "").run.run d = (.ok (ms.map Module.asRead), d)) ∧
      ∀ dir d got d', (roundTrip ms dir).run.run d = (.ok got, d') →
        got = ms.map Module.asRead ∧
          (got = ms ↔ ∀ m ∈ ms, (∀ t ∈ m.types, t ≠ .ref "Int" ∧ t ≠ .ref "Bool") ∧
            ∀ f ∈ m.formulas, f.leftNested = true) := by
  obtain ⟨hplain, hcatalog⟩ := ofClasses_plain hclasses hmodules
  have hplain := mergePragmas_plain hclasses hplain hcatalog hms
  refine ⟨run_roundTrip_of_plain hplain, fun dir d got d' hrun => ?_⟩
  obtain rfl := roundTrip_of_plain hplain hrun
  refine ⟨rfl, ?_⟩
  rw [list_map_eq_self_iff]
  exact forall₂_congr fun m hm => Module.asRead_eq_self_iff (hplain m hm)

/-- A class of linked objects, with a method that links two of them. -/
def linked (name : String) : ClassDecl where
  file := name ++ ".java"
  name := name
  fields := [⟨.start, "next", some ⟨name, false⟩⟩]
  methods := [{
    name := "link"
    params := [⟨.start, "other", ⟨name, false⟩⟩]
    body := some ⟨.start, [.assign .start (.field .start (.self .start) "next")
      (.ident .start "other")]⟩ }]

/-- The module of the class. -/
def linkedModule (name : String) : Module where
  id := name
  className := name
  fields := [⟨name ++ "_next", .ref name⟩]
  predicates := [⟨invariantName name, [selfParam name], .truth⟩]
  invariant := some (invariantName name)
  programs := [{
    id := programId name "link" 0
    method := "link"
    overload := 0
    params := [⟨"other", .ref name⟩]
    body := [.assign (.join (.ident "thiz") (.ident (name ++ "_next"))) (.ident "other")] }]

theorem plain_linked {name : String} (h : isWord name = true) : (linked name).Plain := by
  have hnext : isWord "next" = true := by decide
  have hlink : isWord "link" = true := by decide
  have hother : isWord "other" = true := by decide
  have htype : Source.TypeRef.plain ⟨name, false⟩ = true := by
    rwa [Source.TypeRef.plain, ClassName.identifier_of_isWord h]
  refine ⟨nofun, h, forall_mem_singleton.mpr ⟨hnext, fun t ht => Option.some.inj ht ▸ htype⟩, rfl,
    nofun, forall_mem_singleton.mpr ⟨hlink, forall_mem_singleton.mpr ⟨hother, htype⟩, nofun,
      rfl, nofun, fun b hb => Option.some.inj hb ▸ rfl⟩, fun _ => ?_⟩
  exact Nat.lt_of_le_of_lt countP_le_length (Nat.one_lt_two_pow (by decide))

/-- The settings that ask for the method of the class. -/
def linking (name : String) : Settings := { className := name, method := "link" }

/-- A class called like no type reads as itself. -/
theorem ofClasses_roundTrip_node :
    ((ofClasses (linking "Node") [linked "Node"]).run {}).1.result = .ok [linkedModule "Node"] ∧
      ((mergePragmas (linking "Node") [linkedModule "Node"] [linked "Node"]
        ((ofClasses (linking "Node") [linked "Node"]).run {}).1.catalog).run {}).1.result =
          .ok [linkedModule "Node"] ∧
      (roundTrip [linkedModule "Node"] "").run.run {} = (.ok [linkedModule "Node"], {}) := by
  have hclasses : ∀ c ∈ [linked "Node"], c.Plain :=
    List.forall_mem_singleton.mpr (plain_linked (by decide))
  have hmodules : ((ofClasses (linking "Node") [linked "Node"]).run {}).1.result =
    .ok [linkedModule "Node"] := rfl
  have hms : ((mergePragmas (linking "Node") [linkedModule "Node"] [linked "Node"]
    ((ofClasses (linking "Node") [linked "Node"]).run {}).1.catalog).run {}).1.result =
      .ok [linkedModule "Node"] := rfl
  obtain ⟨hsucceeds, hreads⟩ := ofClasses_roundTrip hclasses hmodules hms
  have hsame := (hreads "" {} _ _ (hsucceeds {})).2.mpr (by decide)
  exact ⟨hmodules, hms, (hsucceeds {}).trans (by rw [hsame])⟩

/-- **A class called like a type of formulas does not read as itself**: its objects become integers. -/
theorem roundTrip_class_called_Int : ∃ modules ms got,
    ((ofClasses (linking "Int") [linked "Int"]).run {}).1.result = .ok modules ∧
      ((mergePragmas (linking "Int") modules [linked "Int"]
        ((ofClasses (linking "Int") [linked "Int"]).run {}).1.catalog).run {}).1.result = .ok ms ∧
      (roundTrip ms "").run.run {} = (.ok got, {}) ∧ got ≠ ms := by
  have hclasses : ∀ c ∈ [linked "Int"], c.Plain :=
    List.forall_mem_singleton.mpr (plain_linked (by decide))
  have hmodules : ((ofClasses (linking "Int") [linked "Int"]).run {}).1.result =
    .ok [linkedModule "Int"] := rfl
  obtain ⟨hplain, -⟩ := ofClasses_plain hclasses hmodules
  refine ⟨[linkedModule "Int"], [linkedModule "Int"], [(linkedModule "Int").asRead], hmodules, rfl,
    run_roundTrip_of_plain hplain {}, fun hsame => ?_⟩
  have hself := (Module.asRead_eq_self_iff (hplain _ List.mem_cons_self)).mp (List.cons.inj hsame).1
  exact absurd (hself.1 (.ref "Int") (by decide)) (by decide)

end Contract

end Relspec
