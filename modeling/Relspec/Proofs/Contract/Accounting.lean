import Relspec.Proofs.Contract.Identifiers

/-!
# Proofs/Contract/Accounting — every relevant class becomes a module or a failure

A class is lost on the way to contract modules when it cannot be lowered, and again when a pragma of it does
not read.  Each time the catalog has a failure instead of a module, so at any time its modules and its
failures together are the classes so far.

* `Catalog.Accounts` — modules and failures are the classes of given names, each once;
* `Accounts.add`, `Accounts.fail`, `Accounts.drop` — what the catalog can be told;
* `ofClasses_accounts` — lowering;
* `mergePragmas_accounts` — the pragmas, which do not lose the class to check.
-/

namespace Relspec

open List
open Source (ClassDecl)
open ClassName (identifier same)

namespace Contract

/-- **The catalog accounts for classes**: each of them has a module, in their order, or a failure, and
modules and failures have no others. -/
structure Catalog.Accounts (names : List String) (ms : List Module) (k : Catalog) : Prop where
  called : k.modules.Forall fun q id => id = identifier q
  order : k.modules.keys.Sublist names
  all : (k.modules.keys ++ k.failures.map (·.className)).Perm names
  modules : ms.map (·.id) = k.modules.keys.map identifier

namespace Catalog.Accounts

variable {names : List String} {ms : List Module} {k : Catalog} {q : String}

theorem empty : ({} : Catalog).Accounts [] [] := ⟨.empty, .slnil, .nil, rfl⟩

/-- One more class that became a module. -/
theorem add (h : k.Accounts names ms) (hnew : q ∉ names) {m : Module} (hm : m.id = identifier q)
    (programs : Table String) (params : Table (Table String)) :
    (k.add q m programs params).Accounts (names ++ [q]) (ms ++ [m]) := by
  have hkeys : (k.add q m programs params).modules.keys = k.modules.keys ++ [q] :=
    Table.keys_insert_of_not_mem fun hq => hnew (h.order.subset hq)
  refine ⟨h.called.insert hm, ?_, ?_, ?_⟩
  · rw [hkeys]
    exact h.order.append (.refl _)
  · rw [hkeys, append_assoc]
    refine (List.Perm.append_left _ perm_append_comm).trans ?_
    rw [← append_assoc]
    exact h.all.append_right [q]
  · rw [hkeys, map_append, map_append, h.modules, map_singleton, map_singleton, hm]

/-- One more class that failed. -/
theorem fail (h : k.Accounts names ms) (q : String) (place : Location) (fault : Fault) :
    (k.fail q place fault).Accounts (names ++ [q]) ms where
  called := h.called
  order := h.order.trans (sublist_append_left ..)
  all := by
    rw [Catalog.fail, map_append, ← append_assoc]
    exact h.all.append_right [q]
  modules := h.modules

/-- A class that fails after it had become a module. -/
theorem drop (hids : (names.map identifier).Nodup) (h : k.Accounts names ms)
    (hq : q ∈ k.modules.keys) (place : Location) (fault : Fault) :
    (k.drop q place fault).Accounts names (ms.filter (·.id != identifier q)) := by
  obtain ⟨id, hid⟩ := Option.isSome_iff_exists.mp (Table.mem_keys_iff.mp hq)
  have hkeys : (k.modules.erase q).keys = k.modules.keys.filter (· != q) := Table.keys_erase k.modules q
  have hnodup : k.modules.keys.Nodup := h.order.nodup hids.of_map
  rw [Catalog.drop, hid]
  refine ⟨h.called.filter _, ?_, ?_, ?_⟩
  · rw [hkeys]
    exact filter_sublist.trans h.order
  · rw [hkeys, ← hnodup.erase_eq_filter, map_append, map_singleton]
    refine List.Perm.trans ?_ h.all
    rw [← append_assoc]
    refine perm_append_comm.trans ?_
    rw [singleton_append, ← cons_append]
    exact (perm_cons_erase hq).symm.append_right _
  · -- Classes with ids of their own are told apart by their ids.
    have hsame : ∀ r ∈ k.modules.keys, (r != q) = (identifier r != identifier q) :=
      fun r hr => by
        have hinj := inj_on_of_nodup_map hids (h.order.subset hr) (h.order.subset hq)
        rw [Bool.eq_iff_iff, bne_iff_ne, bne_iff_ne]
        exact not_congr ⟨congrArg _, hinj⟩
    have hfilter : (ms.filter (·.id != identifier q)).map (·.id) =
        (ms.map (·.id)).filter (· != identifier q) := by
      rw [filter_map]
      rfl
    rw [hkeys, hfilter, h.modules, filter_congr hsame, filter_map]
    rfl

end Catalog.Accounts

/-! ## Lowering -/

section Each

variable {s : Settings} {classes : List ClassDecl}

/-- The names of the relevant classes. -/
def relevantNames (s : Settings) (classes : List ClassDecl) : List String :=
  (classes.map (·.qualifiedName)).filter s.isRelevant

theorem ofEach_accounts {cs : List ClassDecl} {n : Supply} {ms : List Module}
    (hnodup : (relevantNames s cs).Nodup) (hms : ((ofEach s classes [] {} cs).run n).1.result = .ok ms) :
    ((ofEach s classes [] {} cs).run n).1.catalog.Accounts (relevantNames s cs) ms := by
  have hcons : ∀ {c : ClassDecl} {cs : List ClassDecl} {names : List String},
      s.isRelevant c.qualifiedName = true →
        names ++ relevantNames s (c :: cs) = names ++ [c.qualifiedName] ++ relevantNames s cs :=
    fun hrelevant => by rw [relevantNames, map_cons, filter_cons_of_pos hrelevant, append_cons]; rfl
  obtain ⟨_, _, _, ⟨names, hnames, haccounts⟩, hresult⟩ := ofEach_induction (s := s)
    (P := fun rest done catalog _ => ∃ names, names ++ relevantNames s rest = relevantNames s cs ∧
      catalog.Accounts names done)
    (fun {c _ _ _ _ l _} hrelevant ⟨names, hnames, h⟩ hrun => by
      rw [hcons hrelevant] at hnames
      rw [← hnames] at hnodup
      have hnew : c.qualifiedName ∉ names := fun hmem =>
        (nodup_append.mp (nodup_append.mp hnodup).1).2.2 _ hmem _ mem_cons_self rfl
      exact ⟨_, hnames, h.add hnew (congrArg Prod.fst (ofClass_ids hrun)) l.programs l.params⟩)
    (fun hrelevant ⟨names, hnames, h⟩ _ => ⟨_, hcons hrelevant ▸ hnames, h.fail _ _ _⟩)
    (fun {c rest _ _ _} hrelevant ⟨names, hnames, h⟩ => by
      refine ⟨names, ?_, h⟩
      rwa [relevantNames, map_cons, filter_cons_of_neg (by simp [hrelevant])] at hnames)
    n ⟨[], rfl, .empty⟩
  obtain ⟨rfl, rfl, -⟩ := hresult ms hms
  rw [← hnames, relevantNames, map_nil, filter_nil, append_nil]
  exact haccounts

end Each

section Pass

variable {s : Settings} {classes : List ClassDecl}

theorem nodup_relevantNames (hids : (classes.map (·.id)).Nodup) (s : Settings) :
    ((relevantNames s classes).map identifier).Nodup := by
  refine (filter_sublist.map identifier).nodup ?_
  rwa [map_map]

/-- **The catalog of lowering accounts for the relevant classes.** -/
theorem ofClasses_accounts (hids : (classes.map (·.id)).Nodup) {n : Supply} {ms : List Module}
    (hms : ((ofClasses s classes).run n).1.result = .ok ms) :
    ((ofClasses s classes).run n).1.catalog.Accounts (relevantNames s classes) ms := by
  have heach : ofClasses s classes =
    ofEach s (withQueryMethod s classes) [] {} (withQueryMethod s classes) := rfl
  have hnodup := (nodup_relevantNames hids s).of_map
  rw [relevantNames, ← qualifiedName_withQueryMethod, ← relevantNames] at hnodup ⊢
  rw [heach] at hms ⊢
  exact ofEach_accounts hnodup hms

/-! ## Pragmas -/

/-- A module that is left out besides others. -/
theorem filter_dropped (modules : List Module) (dropped : List String) (id : String) :
    (modules.filter fun m => !dropped.contains m.id).filter (·.id != id) =
      modules.filter fun m => !(dropped ++ [id]).contains m.id := by
  rw [filter_filter]
  refine filter_congr fun m _ => ?_
  rw [Bool.eq_iff_iff]
  simp [and_comm]

/-- **Reading pragmas keeps the account**, of the modules that are not left out, and keeps the class to
check. -/
theorem readClasses_accounts {names : List String} (hids : (names.map identifier).Nodup)
    {modules : List Module} {cs : List ClassDecl} (read : ReadPragmas) {read' : ReadPragmas}
    (h : read.catalog.Accounts names (modules.filter fun m => !read.dropped.contains m.id))
    (hread : readClasses s modules read cs = (.ok (), read')) :
    read'.catalog.Accounts names (modules.filter fun m => !read'.dropped.contains m.id) ∧
      ∀ q ∈ read.catalog.modules.keys, same q s.className = true →
        q ∈ read'.catalog.modules.keys := by
  induction cs generalizing read with
  | nil =>
    obtain rfl : read = read' := (Prod.mk.inj hread).2
    exact ⟨h, fun q hq _ => hq⟩
  | cons c cs ih =>
    rw [readClasses] at hread
    split at hread
    · exact ih read h hread
    · next m hm =>
      split at hread
      · next as _ =>
        exact ih ⟨read.assertions ++ [(c, as)], read.dropped, read.catalog⟩ h hread
      · next f _ =>
        split at hread
        · cases hread
        · next hother =>
          obtain ⟨id, hid, hfind⟩ := Option.bind_eq_some_iff.mp hm
          have hmodule : m.id = identifier c.qualifiedName := by
            rw [← h.called.find? hid]
            exact beq_iff_eq.mp (List.find?_some (p := fun m : Module => m.id == id) hfind)
          have hkey : c.qualifiedName ∈ read.catalog.modules.keys :=
            Table.mem_keys_iff.mpr (Option.isSome_iff_exists.mpr ⟨id, hid⟩)
          have hdrop := h.drop hids hkey (c.pos.inFile c.file) f
          rw [filter_dropped, ← hmodule] at hdrop
          obtain ⟨haccounts, hkeeps⟩ := ih _ hdrop hread
          refine ⟨haccounts, fun q hq hsame => hkeeps q ?_ hsame⟩
          have hne : q ≠ c.qualifiedName := by
            rintro rfl
            exact hother hsame
          rw [Catalog.drop, hid, Table.keys_erase]
          exact mem_filter.mpr ⟨hq, bne_iff_ne.mpr hne⟩

variable {names : List String} {modules ms : List Module} {catalog : Catalog} {n : Supply}

/-- **The catalog with pragmas accounts for the same classes.** -/
theorem mergePragmas_accounts (hids : (names.map identifier).Nodup)
    (h : catalog.Accounts names modules)
    (hms : ((mergePragmas s modules classes catalog).run n).1.result = .ok ms) :
    ((mergePragmas s modules classes catalog).run n).1.catalog.Accounts names ms ∧
      ∀ q ∈ catalog.modules.keys, same q s.className = true →
        q ∈ ((mergePragmas s modules classes catalog).run n).1.catalog.modules.keys := by
  have hstart : catalog.Accounts names (modules.filter fun m => !([] : List String).contains m.id) := by
    have hall : (modules.filter fun m => !([] : List String).contains m.id) = modules :=
      filter_eq_self.mpr fun _ _ => rfl
    rwa [hall]
  obtain ⟨read, merged, _, hread, hmerge, rfl, hrun⟩ := exists_of_mergePragmas hms
  rw [hrun]
  obtain ⟨haccounts, hkeeps⟩ := readClasses_accounts hids { catalog } hstart hread
  refine ⟨⟨haccounts.called, haccounts.order, haccounts.all, ?_⟩, hkeeps⟩
  have hid := congrArg (List.map Prod.fst) (mergeEach_ids hmerge)
  rw [map_map, map_map] at hid
  have hfilter : ∀ l : List Module, (l.filter fun m => !read.dropped.contains m.id).map (·.id) =
      (l.map (·.id)).filter fun id => !read.dropped.contains id := fun l => by
    rw [filter_map]
    rfl
  refine Eq.trans ?_ haccounts.modules
  rw [hfilter, hfilter]
  exact congrArg _ hid

end Pass

end Contract

end Relspec
