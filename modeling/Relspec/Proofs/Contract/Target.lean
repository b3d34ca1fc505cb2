import Relspec.Proofs.Contract.Identifiers
import Relspec.Proofs.Contract.Pragmas

/-!
# Proofs/Contract/Target — the method to check

The settings name a class, and a class may be meant by its qualified name, its identifier or its simple
name.  Of the classes that a name may mean, the first by qualified name counts, so a class without a
package is hidden by one with its simple name whose package goes first.

* `find?_mergeSort` — the first of sorted names is the least;
* `Catalog.Faithful` — what the catalog says of each class, kept along a run;
* `target_exact` — when the settings find the method they name.
-/

namespace Relspec

open List
open Source (ClassDecl Method)
open ClassName (identifier same same_iff)

namespace Contract

/-! ## The first of sorted names -/

/-- **The first name that passes a test** in sorted order is the least one that does. -/
theorem find?_mergeSort {names : List String} {p : String → Bool} {q : String}
    (h : names.mergeSort.find? p = some q) :
    q ∈ names ∧ p q = true ∧ ∀ r ∈ names, p r = true → q ≤ r := by
  obtain ⟨hq, front, back, hnames, hfront⟩ := List.find?_eq_some_iff_append.mp h
  have hmem : ∀ r, r ∈ names ↔ r ∈ front ++ q :: back := fun r => by
    rw [← hnames, mem_mergeSort]
  have hsorted : (front ++ q :: back).Pairwise fun a b => decide (a ≤ b) = true := by
    rw [← hnames]
    refine pairwise_mergeSort (fun a b c hab hbc => ?_) (fun a b => ?_) names
    · exact decide_eq_true (String.le_trans (of_decide_eq_true hab) (of_decide_eq_true hbc))
    · rw [Bool.or_eq_true, decide_eq_true_iff, decide_eq_true_iff]
      exact String.le_total a b
  refine ⟨(hmem q).mpr (by simp), hq, fun r hr hpr => ?_⟩
  rcases mem_append.mp ((hmem r).mp hr) with hr | hr
  · have hfalse := hfront r hr
    rw [hpr] at hfalse
    cases hfalse
  · rcases mem_cons.mp hr with rfl | hr
    · exact String.le_refl r
    · have hback := (pairwise_append.mp hsorted).2.1
      exact of_decide_eq_true ((pairwise_cons.mp hback).1 r hr)

/-- The only name that passes a test is the first. -/
theorem find?_mergeSort_of_only {names : List String} {p : String → Bool} {q : String} (hq : q ∈ names)
    (hp : p q = true) (honly : ∀ r ∈ names, p r = true → r = q) : names.mergeSort.find? p = some q := by
  have hsome : (names.mergeSort.find? p).isSome = true :=
    List.find?_isSome.mpr ⟨q, mem_mergeSort.mpr hq, hp⟩
  obtain ⟨r, hr⟩ := Option.isSome_iff_exists.mp hsome
  obtain ⟨hmem, hpr, -⟩ := find?_mergeSort hr
  rw [hr, honly r hmem hpr]

/-- **Which class a qualified name means** among sorted names: the class of that name, unless a class with
that simple name goes before it and before every class with its identifier. -/
theorem identifier_first_iff {names : List String} {name q : String}
    (h : names.mergeSort.find? (fun r => same r name) = some q) :
    identifier q = identifier name ↔
      ∀ r ∈ names, ClassName.simple r = name → r ≠ name →
        ∃ r' ∈ names, identifier r' = identifier name ∧ r' < r := by
  obtain ⟨hq, hsame, hleast⟩ := find?_mergeSort h
  constructor
  · intro hid r hr hsimple hne
    have hlonger := ClassName.length_simple_lt (q := r) (by rw [hsimple]; exact hne.symm)
    refine ⟨q, hq, hid, String.not_le.mp fun hle => ?_⟩
    -- The first name would be `r`, whose identifier is too long.
    have hqr := String.le_antisymm (hleast r hr (same_iff.mpr (.inr (.inr hsimple)))) hle
    have hlength := congrArg (fun s : String => s.toList.length) hid
    simp only [ClassName.length_toList_identifier, hqr] at hlength
    rw [hsimple] at hlonger
    omega
  · intro hbefore
    rcases same_iff.mp hsame with rfl | hid | hsimple
    · rfl
    · rw [← hid, ClassName.identifier_of_not_mem (ClassName.dot_not_mem_identifier q)]
    · by_cases hname : q = name
      · rw [hname]
      · obtain ⟨r, hr, hid, hlt⟩ := hbefore q hq hsimple hname
        -- A simple name is its own identifier, so `r` is meant as well.
        have hdot : '.' ∉ name.toList := hsimple ▸ ClassName.dot_not_mem_simple q
        rw [ClassName.identifier_of_not_mem hdot] at hid
        exact absurd hlt (String.not_lt.mpr (hleast r hr (same_iff.mpr (.inr (.inl hid)))))

/-! ## The catalog of a run -/

namespace Catalog

theorem programIds_add (c : Catalog) (qualified : String) (m : Module) (programs : Table String)
    (params : Table (Table String)) (id : String) :
    (c.add qualified m programs params).programIds id =
      if id = m.id then c.programIds id ++ m.programs.map (·.id) else c.programIds id := by
  have hnil : m.programs.isEmpty = true → m.programs.map (·.id) = [] := fun h => by
    rw [isEmpty_iff.mp h, map_nil]
  rw [add, programIds]
  split_ifs with hempty hid hid
  · rw [hnil hempty, append_nil, programIds]
  · rw [programIds]
  · rw [hid, Table.find?_insert_self, Option.getD_some]
  · rw [Table.find?_insert_of_ne _ hid, programIds]

/-- **What the catalog says of the classes**: a class has the module called after it, with a program for
each of its methods. -/
structure Faithful (classes : List ClassDecl) (c : Catalog) : Prop where
  modules : c.modules.Forall fun q id => id = identifier q
  programs : ∀ d ∈ classes, d.qualifiedName ∈ c.modules.keys → ∀ m k, (m, k) ∈ numbered [] d.methods →
    programId d.id m.name k ∈ c.programIds d.id

variable {classes : List ClassDecl} {c : Catalog}

theorem Faithful.empty : Faithful classes {} := ⟨.empty, nofun⟩

theorem Faithful.fail (h : Faithful classes c) (name : String) (place : Location) (fault : Fault) :
    Faithful classes (c.fail name place fault) := ⟨h.modules, h.programs⟩

/-- A class with a name of its own that became a module. -/
theorem Faithful.add (hnames : (classes.map (·.qualifiedName)).Nodup) (h : Faithful classes c)
    {d : ClassDecl} (hd : d ∈ classes) {m : Module} (hm : m.ids = idsOf d) (programs : Table String)
    (params : Table (Table String)) : Faithful classes (c.add d.qualifiedName m programs params) where
  modules := h.modules.insert (congrArg Prod.fst hm)
  programs := by
    intro e he hkey method k hmethod
    rw [programIds_add]
    rcases Table.mem_keys_insert.mp hkey with hold | hnew
    · have hlisted := h.programs e he hold method k hmethod
      split_ifs
      · exact mem_append_left _ hlisted
      · exact hlisted
    · obtain rfl := inj_on_of_nodup_map hnames he hd hnew
      have hid : e.id = m.id := (congrArg Prod.fst hm).symm
      have hprograms : m.programs.map (·.id) = (idsOf e).2 := congrArg Prod.snd hm
      rw [if_pos hid, hprograms]
      exact mem_append_right _ (mem_map.mpr ⟨(method, k), hmethod, rfl⟩)

theorem Faithful.find? (h : Faithful classes c) {q : String} (hq : q ∈ c.modules.keys) :
    c.modules.find? q = some (identifier q) := by
  obtain ⟨id, hid⟩ := Option.isSome_iff_exists.mp (Table.mem_keys_iff.mp hq)
  rw [hid, h.modules.find? hid]

end Catalog

/-- **The catalog of a run says of each class what became of it.** -/
theorem ofClasses_faithful {classes : List ClassDecl} (hnames : (classes.map (·.qualifiedName)).Nodup)
    (s : Settings) (n : Supply) :
    ((ofClasses s classes).run n).1.catalog.Faithful (withQueryMethod s classes) := by
  rw [← qualifiedName_withQueryMethod s] at hnames
  obtain ⟨-, hfaithful, -⟩ := ofClasses_induction s classes
    (P := fun _ catalog => catalog.Faithful (withQueryMethod s classes))
    (fun hc h hrun => h.add hnames hc (ofClass_ids hrun) _ _) (fun h => h.fail _ _ _) n .empty
  exact hfaithful

/-! ## The target -/

namespace Catalog

variable {c : Catalog} {t : Settings} {base : String} {k : Nat}

theorem programFor_numbered (hne : base ≠ "") (hparts : ∀ x ∈ base.toList, MethodName.isPart x = true)
    (ht : t.method = base ++ "_" ++ toString k) (qualified id : String) :
    c.programFor t qualified id =
      some (if k < 2 ^ 63 then programId id base k else programId id (base ++ "_" ++ toString k) 0) := by
  have hparen : t.method.toList.contains '(' = false := by
    rw [ht, contains_eq_mem, decide_eq_false_iff_not]
    intro hmem
    exact absurd (MethodName.isPart_of_mem_numbered hparts '(' hmem) (by decide)
  rw [programFor, hparen, if_neg Bool.false_ne_true, ht, MethodName.normalize_numbered hne hparts,
    MethodName.split_numbered]
  split_ifs <;> rfl

theorem programId_numbered_ne (id base : String) (k : Nat) :
    programId id (base ++ "_" ++ toString k) 0 ≠ programId id base k := by
  intro h
  have hlength := congrArg (fun s : String => s.toList.length) h
  simp [programId] at hlength

/-- A name that some class has is found. -/
theorem exists_first {q : String} (hq : q ∈ c.modules.keys) :
    ∃ r, c.modules.keys.mergeSort.find? (fun r => same r q) = some r := by
  rw [← Option.isSome_iff_exists, List.find?_isSome]
  exact ⟨q, mem_mergeSort.mpr hq, same_iff.mpr (.inl rfl)⟩

section First

variable {classes : List ClassDecl} (h : c.Faithful classes) {q : String}
  (hq : c.modules.keys.mergeSort.find? (fun r => same r t.className) = some q)
include h hq

/-- What settings find, from the first class that they may mean. -/
theorem target_of_first {p : String} (hfor : c.programFor t q (identifier q) = some p)
    (hp : p ≠ "") :
    c.target t = if p ∈ c.programIds (identifier q) then .ok (identifier q, p)
      else .error (.methodNotFound t.className t.method (c.programIds (identifier q))) := by
  have hfind := h.find? (find?_mergeSort hq).1
  rw [target, hq]
  simp only [hfind, Option.getD_some, hfor, bne_iff_ne, ne_eq, hp, not_false_eq_true, Bool.and_eq_true,
    contains_iff_mem, true_and]

/-- **The module and the program that settings find**, when they give the number of the overload. -/
theorem target_eq_ok_iff (hne : base ≠ "") (hparts : ∀ x ∈ base.toList, MethodName.isPart x = true)
    (ht : t.method = base ++ "_" ++ toString k) {id : String} :
    c.target t = .ok (id, programId id base k) ↔
      identifier q = id ∧ k < 2 ^ 63 ∧ programId id base k ∈ c.programIds id := by
  have hfor := programFor_numbered (c := c) hne hparts ht q (identifier q)
  by_cases hk : k < 2 ^ 63
  · rw [if_pos hk] at hfor
    rw [target_of_first h hq hfor (programId_ne_empty _ _ _), and_iff_right hk]
    split
    · next hlisted =>
      rw [Except.ok.injEq, Prod.mk.injEq]
      constructor
      · rintro ⟨rfl, -⟩
        exact ⟨rfl, hlisted⟩
      · rintro ⟨rfl, -⟩
        exact ⟨rfl, rfl⟩
    · next hlisted =>
      refine iff_of_false nofun ?_
      rintro ⟨rfl, hmem⟩
      exact hlisted hmem
  · rw [if_neg hk] at hfor
    rw [target_of_first h hq hfor (programId_ne_empty _ _ _)]
    refine iff_of_false ?_ fun hright => hk hright.2.1
    split
    · rw [Except.ok.injEq, Prod.mk.injEq]
      rintro ⟨rfl, hprogram⟩
      exact programId_numbered_ne _ base k hprogram
    · exact nofun

end First

end Catalog

/-- **When settings find the method they name** by the qualified name of its class and the number of its
overload: exactly when the number fits, and no class with the same simple name goes first. -/
theorem target_exact {s t : Settings} {classes : List ClassDecl}
    (hnames : (classes.map (·.qualifiedName)).Nodup) (n : Supply) {c : ClassDecl}
    (hc : c ∈ withQueryMethod s classes)
    (hlowered : c.qualifiedName ∈ ((ofClasses s classes).run n).1.catalog.modules.keys)
    {m : Method} {k : Nat} (hm : (m, k) ∈ numbered [] c.methods) (hne : m.name ≠ "")
    (hparts : ∀ x ∈ m.name.toList, MethodName.isPart x = true)
    (hclass : t.className = c.qualifiedName) (hmethod : t.method = m.name ++ "_" ++ toString k) :
    ((ofClasses s classes).run n).1.catalog.target t = .ok (c.id, programId c.id m.name k) ↔
      k < 2 ^ 63 ∧
        ∀ q ∈ ((ofClasses s classes).run n).1.catalog.modules.keys,
          ClassName.simple q = c.qualifiedName → q ≠ c.qualifiedName →
            ∃ r ∈ ((ofClasses s classes).run n).1.catalog.modules.keys,
              ClassName.identifier r = c.id ∧ r < q := by
  have hfaithful := ofClasses_faithful hnames s n
  obtain ⟨q, hq⟩ := Catalog.exists_first hlowered
  have hprogram := hfaithful.programs c hc hlowered m k hm
  rw [Catalog.target_eq_ok_iff hfaithful (hclass ▸ hq) hne hparts hmethod, and_iff_left hprogram,
    and_comm]
  exact and_congr_right fun _ => identifier_first_iff hq

/-- The class of linked objects in a package. -/
def linkedIn (package name : String) : ClassDecl := { linked name with package := some package }

/-- The settings that ask for the method of the class by its number. -/
def numberedLink (name : String) : Settings := { className := name, method := "link_0" }

/-- A class in a package that goes after the class to check. -/
theorem target_exact_last :
    ((ofClasses (numberedLink "Node") [linkedIn "lists" "Node", linked "Node"]).run {}).1.catalog.target
      (numberedLink "Node") = .ok ("Node", "Node_link_0") := by
  refine (target_exact (s := numberedLink "Node") (c := linked "Node") (k := 0) (by decide) {}
    (List.mem_cons_of_mem _ List.mem_cons_self) ?_ List.mem_cons_self (by decide)
    (List.all_eq_true.mp (by decide)) rfl rfl).mpr ⟨by decide, ?_⟩
  · decide +kernel
  · decide +kernel

/-- **A class in a package that goes first hides the class to check.** -/
theorem target_hidden :
    ((ofClasses (numberedLink "Node") [linkedIn "Lists" "Node", linked "Node"]).run {}).1.catalog.target
      (numberedLink "Node") = .ok ("Lists_Node", "Lists_Node_link_0") := by
  have hnames : ([linkedIn "Lists" "Node", linked "Node"].map (·.qualifiedName)).Nodup := by decide
  have hfaithful := ofClasses_faithful hnames (numberedLink "Node") {}
  generalize hcatalog : ((ofClasses (numberedLink "Node")
    [linkedIn "Lists" "Node", linked "Node"]).run {}).1.catalog = catalog at hfaithful
  have hkeys : catalog.modules.keys = ["Lists.Node", "Node"] := by rw [← hcatalog]; rfl
  obtain ⟨q, hq⟩ := Catalog.exists_first (c := catalog) (q := "Node") (by rw [hkeys]; decide)
  have hfirst : q = "Lists.Node" := by
    obtain ⟨hmem, -, hleast⟩ := find?_mergeSort hq
    rw [hkeys] at hmem hleast
    rcases List.mem_pair.mp hmem with rfl | rfl
    · rfl
    · exact absurd (hleast "Lists.Node" (by decide) (by decide)) (by decide)
  have hmethod : (numberedLink "Node").method = "link" ++ "_" ++ toString 0 := rfl
  refine (Catalog.target_eq_ok_iff hfaithful hq (by decide) (List.all_eq_true.mp (by decide)) hmethod).mpr
    ⟨by rw [hfirst]; decide, by decide, ?_⟩
  rw [← hcatalog]
  decide +kernel

end Contract

end Relspec
