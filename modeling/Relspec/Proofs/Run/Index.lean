import Relspec.Proofs.Contract.Target
import Relspec.Proofs.Run.Artifacts

/-!
# Proofs/Run/Index — whether the index of a pass keeps programs apart

The index is keyed by ids.  The id of a program joins the id of its class, its method and the number of
its overload with underscores, and class ids and methods may have underscores themselves, so programs of
different classes can share an id.  The index then has the side set of the later one for both.

* `Traced.ids_sublist` — the ids of modules and programs are those of classes and methods;
* `Traced.keepsApart` — classes whose programs share no id;
* `pass_index_apart` — when the index of a pass keeps modules and programs apart.
-/

namespace Relspec

open List
open Source (ClassDecl Method)

/-! ## The modules on record -/

/-- The ids of a relational module and its programs. -/
def Relational.Module.ids (m : Relational.Module) : String × List String :=
  (m.id, m.programs.map (·.id))

theorem Relational.ofModules_ids {s : Settings} {ms : List Contract.Module} {rs : List Relational.Module}
    (h : ofModules s ms = .ok rs) : rs.map Module.ids = ms.map Contract.Module.ids := by
  refine map_eq_of_forall₂ (forall₂_of_mapM_ok h) fun m r hr => ?_
  obtain ⟨_, programs, -, hprograms, rfl⟩ := exists_of_ofModule hr
  refine congrArg (Prod.mk m.id) (map_eq_of_forall₂ hprograms fun p q hq => ?_)
  obtain ⟨_, _, _, -, -, rfl⟩ := exists_of_ofProgram hq
  rfl

namespace Run

variable {σ : Type} {w w' : World σ} {s : Settings} {classes : List ClassDecl} {n : Nat}
  {g : Contracted s classes n} {p : Pass}

/-- **The modules and programs on record are called after plain classes and their methods.** -/
theorem Traced.ids_sublist (h : Traced g p) (hclasses : ∀ c ∈ classes, c.Plain) :
    (p.modules.map Relational.Module.ids).Sublist
      ((Contract.withQueryMethod s classes).map Contract.idsOf) := by
  have hread : g.withPragmas.map (Contract.Module.ids ∘ Contract.Module.asRead) =
      g.withPragmas.map Contract.Module.ids := by
    refine map_congr_left fun m _ => congrArg (Prod.mk m.id) ?_
    rw [Contract.Module.asRead, Contract.Module.map, map_map]
    rfl
  rw [Relational.ofModules_ids (h.relational_of_plain hclasses), map_map, hread]
  exact g.ids_sublist

theorem Traced.exists_class (h : Traced g p) (hclasses : ∀ c ∈ classes, c.Plain) {m : Relational.Module}
    (hm : m ∈ p.modules) :
    ∃ c ∈ Contract.withQueryMethod s classes, m.id = c.id ∧ m.programs.map (·.id) = (Contract.idsOf c).2 := by
  obtain ⟨c, hc, hids⟩ := mem_map.mp ((h.ids_sublist hclasses).subset (mem_map_of_mem hm))
  exact ⟨c, hc, (congrArg Prod.fst hids).symm, (congrArg Prod.snd hids).symm⟩

/-- The id of a program on record tells its class, its method and its overload. -/
theorem Traced.id_program (h : Traced g p) (hclasses : ∀ c ∈ classes, c.Plain) {m : Relational.Module}
    (hm : m ∈ p.modules) {q : Relational.Program} (hq : q ∈ m.programs) :
    q.id = Contract.programId m.id q.method q.overload := by
  obtain ⟨read, hread, hid, -, hprograms⟩ :=
    Relational.exists_of_mem_ofModules (h.relational_of_plain hclasses) m hm
  obtain ⟨contract, hcontract, rfl⟩ := mem_map.mp hread
  obtain ⟨q', hq', hof⟩ := hprograms q hq
  obtain ⟨q₀, hq₀, rfl⟩ := mem_map.mp hq'
  obtain ⟨_, _, _, -, -, rfl⟩ := Relational.exists_of_ofProgram hof
  have hplain := ((g.plain hclasses contract hcontract).programs q₀ hq₀).id
  rw [hid]
  exact hplain

/-- **Classes whose ids are their own are kept apart.** -/
theorem Traced.keepsApart (h : Traced g p) (hclasses : ∀ c ∈ classes, c.Plain)
    (hapart : Contract.Apart (Contract.withQueryMethod s classes)) :
    (Relational.SideIndex.collect p.modules).KeepsApart p.modules := by
  have hids : (p.modules.map (·.id)).Nodup := by
    refine h.id_sublist.nodup ?_
    rw [← Contract.id_withQueryMethod s]
    exact hapart.ids
  have hsame : ∀ m ∈ p.modules, ∀ m' ∈ p.modules, m.id = m'.id → m = m' := fun m hm m' hm' =>
    inj_on_of_nodup_map hids hm hm'
  refine Relational.SideIndex.keepsApart_collect_iff.mpr
    ⟨fun m hm m' hm' hid => by rw [hsame m hm m' hm' hid], fun m hm m' hm' q hq q' hq' hid => ?_⟩
  obtain ⟨c, hc, hcid, hprograms⟩ := h.exists_class hclasses hm
  obtain ⟨d, hd, hdid, hprograms'⟩ := h.exists_class hclasses hm'
  have hx : q.id ∈ (Contract.idsOf c).2 := hprograms ▸ mem_map_of_mem hq
  have hx' : q.id ∈ (Contract.idsOf d).2 := hid ▸ hprograms' ▸ mem_map_of_mem hq'
  obtain rfl := hsame m hm m' hm' (by rw [hcid, hdid, hapart.id_eq hc hd hx hx'])
  have hnodup : (m.programs.map (·.id)).Nodup := hprograms ▸ Contract.nodup_ids c
  rw [inj_on_of_nodup_map hnodup hq hq' hid]

/-- **When the index of a pass keeps modules and programs apart**: exactly when those of one id have the
same side set.  Programs of plain classes share an id exactly when class and method join to the same text
and the overloads have the same number, so classes whose ids are their own are kept apart. -/
theorem pass_index_apart {engine : Engine σ} {analyze : Bool}
    (h : (pass engine s classes analyze).run w = (p, w')) {i : Relational.SideIndex}
    (hi : p.index = some i) :
    (i.KeepsApart p.modules ↔
      (∀ m ∈ p.modules, ∀ m' ∈ p.modules, m.id = m'.id → m.side = m'.side) ∧
        ∀ m ∈ p.modules, ∀ m' ∈ p.modules, ∀ q ∈ m.programs, ∀ q' ∈ m'.programs,
          q.id = q'.id → q.side = q'.side) ∧
    ((∀ c ∈ classes, c.Plain) →
      (∀ m ∈ p.modules, ∀ m' ∈ p.modules, ∀ q ∈ m.programs, ∀ q' ∈ m'.programs,
        (q.id = q'.id ↔ m.id ++ "_" ++ q.method = m'.id ++ "_" ++ q'.method ∧ q.overload = q'.overload)) ∧
      (Contract.Apart (Contract.withQueryMethod s classes) → i.KeepsApart p.modules)) := by
  obtain ⟨g, htraced⟩ := traced_of_index h hi
  obtain rfl := Option.some.inj (htraced.index.symm.trans hi)
  refine ⟨Relational.SideIndex.keepsApart_collect_iff, fun hclasses => ⟨?_, htraced.keepsApart hclasses⟩⟩
  intro m hm m' hm' q hq q' hq'
  rw [htraced.id_program hclasses hm hq, htraced.id_program hclasses hm' hq', Contract.programId_eq_iff]

/-! ## Two classes with bounds -/

/-- A class whose method requires a bound on its field. -/
def bounded (name field method : String) (op : ArithOp) : ClassDecl where
  file := name ++ ".java"
  name := name
  fields := [⟨.start, field, some ⟨"int", false⟩⟩]
  methods := [{
    name := method
    clauses := [⟨.start, .precondition, .binary .start .gt
      (.binary .start (.arith op) (.ident .start field) (.int .start 1)) (.int .start 0)⟩]
    body := some ⟨.start, []⟩ }]

theorem plain_bounded {name field method : String} {op : ArithOp}
    (hname : Formula.Lexeme.isWord name = true) (hfield : Formula.Lexeme.isWord field = true)
    (hmethod : Formula.Lexeme.isWord method = true) : (bounded name field method op).Plain := by
  refine ⟨nofun, hname, forall_mem_singleton.mpr ⟨hfield, fun t ht => Option.some.inj ht ▸ rfl⟩, rfl,
    nofun, forall_mem_singleton.mpr ⟨hmethod, nofun, nofun, ?_, nofun,
      fun b hb => Option.some.inj hb ▸ rfl⟩, fun _ => ?_⟩
  · simp [Source.Clause.plain, Source.Expr.plain]
  · exact Nat.lt_of_le_of_lt countP_le_length (Nat.one_lt_two_pow (by decide))

/-- The settings that ask for the method of the first class. -/
def boundedSettings : Settings := { className := "A", method := "b_m_0" }

/-- A pair of classes with bounds: the ids of `A` and its method `b_m` join to those of `A_b` and `m`. -/
def boundedPair (method : String) : List ClassDecl :=
  [bounded "A" "f" "b_m" .add, bounded "A_b" "g" method .sub]

theorem plain_boundedPair {method : String} (h : Formula.Lexeme.isWord method = true) :
    ∀ c ∈ boundedPair method, c.Plain :=
  forall_mem_cons.mpr ⟨plain_bounded (by decide) (by decide) (by decide),
    forall_mem_singleton.mpr (plain_bounded (by decide) (by decide) h)⟩

/-- The side set of a bound. -/
def boundSide (field var : String) (value : Formula → Formula → Formula) : Side where
  vars := [⟨var, .requires⟩]
  defs := [⟨.requires, .binary .eq (.ident var) (value (.join (.ident "thiz") (.ident field)) (.int 1))⟩]

/-- The relational program of a method with a bound. -/
def boundedProgram (name field method var call : String) : Relational.Program where
  id := Contract.programId name method 0
  owner := name
  method := method
  overload := 0
  pre := .binary .gt (.ident var) (.int 0)
  side := boundSide (name ++ "_" ++ field) var fun x y => .call call [x, y]

/-- The relational module of a class with a bound. -/
def boundedRelational (name field method var call : String) : Relational.Module where
  id := name
  className := name
  fields := [⟨name ++ "_" ++ field, .int⟩]
  invariant := ⟨Contract.invariantName name, [Contract.selfParam name], .truth⟩
  programs := [boundedProgram name field method var call]

/-- The relational modules of the pair. -/
def pairRelational (method : String) : List Relational.Module :=
  [boundedRelational "A" "f" "b_m" "arith_0" "add", boundedRelational "A_b" "g" method "arith_1" "sub"]

/-- The catalog of the pair. -/
def pairCatalog (method : String) : Contract.Catalog :=
  ((Contract.ofClasses boundedSettings (boundedPair method)).run ⟨0, 0⟩).1.catalog

theorem target_pairCatalog {method : String} (hkeys : (pairCatalog method).modules.keys = ["A", "A_b"])
    (hids : (pairCatalog method).programIds "A" = ["A_b_m_0"]) :
    (pairCatalog method).target boundedSettings = .ok ("A", "A_b_m_0") := by
  have hnames : ((boundedPair method).map (·.qualifiedName)).Nodup := show ["A", "A_b"].Nodup by decide
  have hfaithful : (pairCatalog method).Faithful
      (Contract.withQueryMethod boundedSettings (boundedPair method)) :=
    Contract.ofClasses_faithful hnames boundedSettings ⟨0, 0⟩
  obtain ⟨q, hq⟩ := Contract.Catalog.exists_first (c := pairCatalog method) (q := "A")
    (by rw [hkeys]; decide)
  have hfirst : q = "A" := by
    obtain ⟨hmem, hsame, -⟩ := Contract.find?_mergeSort hq
    rw [hkeys] at hmem
    rcases mem_pair.mp hmem with rfl | rfl
    · rfl
    · exact absurd hsame (by decide)
  have hmethod : boundedSettings.method = "b_m" ++ "_" ++ toString 0 := rfl
  have hparts : "b_m".toList.all MethodName.isPart = true := by decide
  refine (Contract.Catalog.target_eq_ok_iff hfaithful hq (by decide) (all_eq_true.mp hparts)
    hmethod).mpr ⟨by rw [hfirst]; decide, by decide, ?_⟩
  exact hids ▸ mem_singleton_self _

/-- The specification of the method of the first class, with a side set for it. -/
def pairSpec (method : String) (side : Side) : Spec.Specification :=
  Spec.Frame.specify ⟨pairRelational method, boundedRelational "A" "f" "b_m" "arith_0" "add",
    boundedProgram "A" "f" "b_m" "arith_0" "add"⟩ boundedSettings {} side

/-- The side sets of the first method and the second. -/
def firstSide : Side := boundSide "A_f" "arith_0" fun x y => .call "add" [x, y]
def secondSide : Side := boundSide "A_b_g" "arith_1" fun x y => .call "sub" [x, y]

/-- The stages of a pass over classes that are apart. -/
def apartStages : Stages boundedSettings (boundedPair "n") 0 :=
  .ofPlain _ (pairCatalog "n") _ ("A", "A_b_m_0") (pairRelational "n")
    (pairSpec "n" firstSide) (plain_boundedPair (by decide)) rfl (target_pairCatalog rfl rfl) rfl rfl rfl
    rfl

/-- The stages of a pass over classes that are not. -/
def clashStages : Stages boundedSettings (boundedPair "m") 0 :=
  .ofPlain _ (pairCatalog "m") _ ("A", "A_b_m_0") (pairRelational "m")
    (pairSpec "m" secondSide) (plain_boundedPair (by decide)) rfl (target_pairCatalog rfl rfl) rfl rfl rfl
    rfl

theorem stands_pair :
    Stands (Path.join boundedSettings.outputDir ("A_b_m_0" ++ ".als")) ["output"] "A_b_m_0.als" :=
  ⟨by decide +kernel, by decide +kernel, by decide +kernel⟩

/-- Classes with a bound each whose methods are called otherwise. -/
theorem pass_index_apart_pair : ∃ p w' i,
    (pass (noEngine false) boundedSettings (boundedPair "n") true).run idleWorld = (p, w') ∧
      p.index = some i ∧ p.modules = pairRelational "n" ∧ i.KeepsApart p.modules := by
  obtain ⟨p, w', hpass, hrecorded, hindex⟩ := apartStages.exists_pass rfl stands_pair
  have hapart : Contract.Apart (Contract.withQueryMethod boundedSettings (boundedPair "n")) :=
    ⟨by decide, by decide +kernel⟩
  exact ⟨p, w', _, hpass, hindex, hrecorded.modules,
    ((pass_index_apart hpass hindex).2 (plain_boundedPair (by decide))).2 hapart⟩

/-- **Classes of different names whose programs share an id**: the index has the side set of the second
program for the first one. -/
theorem pass_index_clash : ∃ p w' i,
    (pass (noEngine false) boundedSettings (boundedPair "m") true).run idleWorld = (p, w') ∧
      p.index = some i ∧ ((boundedPair "m").map (·.qualifiedName)).Nodup ∧
      (∃ m ∈ p.modules, ∃ q ∈ m.programs, q.side = firstSide ∧ i.ofProgram q.id = .ok secondSide) ∧
      ¬ i.KeepsApart p.modules := by
  obtain ⟨p, w', hpass, hrecorded, hindex⟩ := clashStages.exists_pass rfl stands_pair
  have hmodules : p.modules = pairRelational "m" := hrecorded.modules
  have hfirst := List.mem_cons_self (a := boundedRelational "A" "f" "b_m" "arith_0" "add")
    (l := [boundedRelational "A_b" "g" "m" "arith_1" "sub"])
  have hprogram := List.mem_singleton_self (boundedProgram "A" "f" "b_m" "arith_0" "add")
  have hfound : (Relational.SideIndex.collect (pairRelational "m")).ofProgram "A_b_m_0" =
      .ok secondSide := rfl
  refine ⟨p, w', _, hpass, hindex, by decide, ?_, fun hkeeps => ?_⟩
  · rw [hmodules]
    exact ⟨_, hfirst, _, hprogram, rfl, hfound⟩
  · rw [hmodules] at hkeeps
    have hown := (hkeeps.programs _ hfirst _ hprogram).symm.trans hfound
    exact absurd (congrArg Side.vars (Except.ok.inj hown)) (by decide)

end Run

end Relspec
