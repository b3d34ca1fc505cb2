import Relspec.Proofs.Contract.Accounting
import Relspec.Proofs.Contract.Target
import Relspec.Proofs.Run.Artifacts

/-!
# Proofs/Run/Accounting — no class of a pass is lost without a warning

A pass leaves a class out when it cannot be lowered or when a pragma of it does not read.  Its record has
the modules of the classes that are left and a warning for each of the others.

* `Diagnostic.skips` — a warning that names a class as left out;
* `Contracted.accounts` — the catalog of a pass accounts for its relevant classes;
* `pass_accounts` — so do the modules and the warnings on record.
-/

namespace Relspec

open List
open ClassName (identifier same)

namespace Diagnostic

/-- **A warning that a class was left out**, by its code and its message. -/
def skips (d : Diagnostic) (className : String) : Bool :=
  d.code == Code.skippedClass.text && d.message == "class '" ++ className ++ "' skipped"

theorem skips_skipped (q name : String) (cause : Fault) (place : Location) :
    (skipped q cause place).skips name = (q == name) := by
  have hmessage : "class '" ++ q ++ "' skipped" = "class '" ++ name ++ "' skipped" ↔ q = name := by
    rw [String.append_left_inj, String.append_right_inj]
  rw [Bool.eq_iff_iff, skips, Bool.and_eq_true, beq_iff_eq, beq_iff_eq, beq_iff_eq, skipped, hmessage]
  exact and_iff_right rfl

end Diagnostic

namespace Contract.Catalog

variable {k : Catalog} {names : List String} {ms : List Module} {q : String}

theorem countP_skips (k : Catalog) (q : String) :
    k.diagnostics.countP (·.skips q) = (k.failures.map (·.className)).count q := by
  rw [diagnostics, countP_map, List.count, countP_map]
  exact countP_congr fun f _ => by rw [Function.comp, Diagnostic.skips_skipped, Function.comp]

namespace Accounts

/-- Names with identifiers of their own: a module is that of one class. -/
theorem count_id (hids : (names.map identifier).Nodup) (h : k.Accounts names ms) (hq : q ∈ names) :
    (ms.map (·.id)).count (identifier q) = k.modules.keys.count q := by
  rw [h.modules, List.count, countP_map, List.count]
  refine countP_congr fun r hr => ?_
  rw [Function.comp, beq_iff_eq, beq_iff_eq]
  exact ⟨inj_on_of_nodup_map hids (h.order.subset hr) hq, congrArg _⟩

/-- **A class that is accounted for** has a module or a warning. -/
theorem count_cases (hids : (names.map identifier).Nodup) (h : k.Accounts names ms)
    (hq : q ∈ names) :
    ((ms.map (·.id)).count (identifier q) = 1 ∧ k.diagnostics.countP (·.skips q) = 0) ∨
      ((ms.map (·.id)).count (identifier q) = 0 ∧ k.diagnostics.countP (·.skips q) = 1) := by
  have hall : k.modules.keys.count q + (k.failures.map (·.className)).count q = 1 := by
    rw [← count_append, h.all.count_eq, count_eq_one_of_mem hids.of_map hq]
  rw [h.count_id hids hq, k.countP_skips]
  omega

/-- A class that is not among those accounted for. -/
theorem count_of_not_mem (h : k.Accounts names ms)
    (hq : identifier q ∉ names.map identifier) :
    (ms.map (·.id)).count (identifier q) = 0 ∧ k.diagnostics.countP (·.skips q) = 0 := by
  constructor
  · rw [h.modules]
    exact count_eq_zero_of_not_mem fun hmem => hq ((h.order.map _).subset hmem)
  · rw [k.countP_skips]
    refine count_eq_zero_of_not_mem fun hmem => hq (mem_map_of_mem ?_)
    exact h.all.subset (mem_append_right _ hmem)

end Accounts

/-- The class of the target has a module. -/
theorem exists_of_target {s : Settings} {owner program : String} (h : k.Accounts names ms)
    (htarget : k.target s = .ok (owner, program)) :
    ∃ q ∈ k.modules.keys, same q s.className = true ∧ owner = identifier q := by
  rw [target] at htarget
  split at htarget
  · cases htarget
  · next q hq =>
    obtain ⟨hkey, hsame, -⟩ := find?_mergeSort hq
    obtain ⟨id, hid⟩ := Option.isSome_iff_exists.mp (Table.mem_keys_iff.mp hkey)
    refine ⟨q, hkey, hsame, ?_⟩
    have hmodule : (k.modules.find? q).getD "" = identifier q := by
      rw [hid, Option.getD_some, h.called.find? hid]
    simp only [hmodule] at htarget
    split at htarget
    · split at htarget
      · exact (Prod.mk.inj (Except.ok.inj htarget)).1.symm
      · cases htarget
    · cases htarget

end Contract.Catalog

namespace Run

open Source (ClassDecl)

variable {σ : Type} {w w' : World σ} {s : Settings} {classes : List ClassDecl} {n : Nat}

/-- **The catalog of a pass accounts for its relevant classes**, and the class to check is not lost. -/
theorem Contracted.accounts (g : Contracted s classes n) (hids : (classes.map (·.id)).Nodup) :
    g.merged.catalog.Accounts (Contract.relevantNames s classes) g.withPragmas ∧
      ∃ q ∈ g.merged.catalog.modules.keys, same q s.className = true ∧
        g.target.1 = identifier q := by
  have hlowered := Contract.ofClasses_accounts hids g.lowered_ok
  rw [g.lowered_eq] at hlowered
  have hmerged := Contract.mergePragmas_accounts (Contract.nodup_relevantNames hids s) hlowered g.merged_ok
  rw [g.merged_eq] at hmerged
  obtain ⟨q, hq, hsame, howner⟩ := Contract.Catalog.exists_of_target hlowered g.target_eq
  exact ⟨hmerged.1, q, hmerged.2 q hq hsame, hsame, howner⟩

/-- The relevant names are those of the relevant classes. -/
theorem map_identifier_relevantNames (s : Settings) (classes : List ClassDecl) :
    (Contract.relevantNames s classes).map identifier =
      (classes.filter fun c => s.isRelevant c.qualifiedName).map (·.id) := by
  rw [Contract.relevantNames, filter_map, map_map]
  rfl

/-- **Modules and warnings account for the classes of a pass.** -/
theorem pass_accounts {engine : Engine σ} {analyze : Bool} {p : Pass} {a : Artifact}
    (hids : (classes.map (·.id)).Nodup) (h : (pass engine s classes analyze).run w = (p, w'))
    (ha : p.artifact = some a) :
    (p.modules.map (·.id)).Sublist ((classes.filter fun c => s.isRelevant c.qualifiedName).map (·.id)) ∧
      (∀ c ∈ classes, s.isRelevant c.qualifiedName = true →
        ((p.modules.map (·.id)).count c.id = 1 ∧ p.diagnostics.countP (·.skips c.qualifiedName) = 0) ∨
          ((p.modules.map (·.id)).count c.id = 0 ∧ p.diagnostics.countP (·.skips c.qualifiedName) = 1)) ∧
      (∀ c ∈ classes, s.isRelevant c.qualifiedName = false →
        (p.modules.map (·.id)).count c.id = 0 ∧ p.diagnostics.countP (·.skips c.qualifiedName) = 0) ∧
      (∀ d ∈ p.diagnostics, ∃ c ∈ classes, s.isRelevant c.qualifiedName = true ∧
        d.skips c.qualifiedName = true) ∧
      ∃ c ∈ classes, ∃ m ∈ p.modules, ∃ q ∈ m.programs, p.target = some (m.id, q.id) ∧ m.id = c.id ∧
        ClassName.same c.qualifiedName s.className = true := by
  obtain ⟨g, htraced⟩ := traced_of_artifact h ha
  obtain ⟨haccounts, q, hq, hsame, howner⟩ := g.accounts hids
  have hnodup := Contract.nodup_relevantNames hids s
  have hname : ∀ {q}, q ∈ Contract.relevantNames s classes →
      ∃ c ∈ classes, s.isRelevant c.qualifiedName = true ∧ c.qualifiedName = q := fun hq => by
    obtain ⟨hmem, hrelevant⟩ := List.mem_filter.mp hq
    obtain ⟨c, hc, rfl⟩ := List.mem_map.mp hmem
    exact ⟨c, hc, hrelevant, rfl⟩
  rw [htraced.map_id, htraced.diagnostics]
  refine ⟨?_, fun c hc hrelevant => ?_, fun c hc hother => ?_, fun d hd => ?_, ?_⟩
  · rw [← map_identifier_relevantNames, haccounts.modules]
    exact haccounts.order.map _
  · exact haccounts.count_cases hnodup (List.mem_filter.mpr ⟨List.mem_map_of_mem hc, hrelevant⟩)
  · refine haccounts.count_of_not_mem fun hmem => ?_
    rw [map_identifier_relevantNames] at hmem
    obtain ⟨c', hc', hid⟩ := List.mem_map.mp hmem
    obtain ⟨hc', hrelevant⟩ := List.mem_filter.mp hc'
    obtain rfl : c' = c := List.inj_on_of_nodup_map hids hc' hc hid
    rw [hother] at hrelevant
    cases hrelevant
  · obtain ⟨f, hf, rfl⟩ := List.mem_map.mp hd
    have hmem : f.className ∈ Contract.relevantNames s classes :=
      haccounts.all.subset (List.mem_append_right _ (List.mem_map_of_mem hf))
    obtain ⟨c, hc, hrelevant, hcalled⟩ := hname hmem
    exact ⟨c, hc, hrelevant, by rw [Diagnostic.skips_skipped, hcalled, beq_self_eq_true]⟩
  · obtain ⟨c, hc, -, rfl⟩ := hname (haccounts.order.subset hq)
    obtain ⟨spec, -, hspec⟩ := htraced.artifact a ha
    obtain ⟨frame, _, _, hframe, -⟩ := exists_frame_of_assemble hspec
    obtain ⟨-, hmodule, hid, hprogram, hprogramId⟩ := Spec.Frame.mem_of_frame? hframe
    refine ⟨c, hc, frame.owner, hmodule, frame.program, hprogram, ?_, hid.trans howner, hsame⟩
    rw [htraced.target, hid, hprogramId]

/-- A class that cannot be lowered, for its array. -/
def arrayed : ClassDecl := { idle with name := "A", fields := [⟨.start, "f", some ⟨"int", true⟩⟩] }

/-- A class with a pragma that does not read. -/
def misspelt : ClassDecl := { idle with name := "B", pragmas := [⟨.start, .invariant, "?"⟩] }

/-- Settings that take in both classes besides the class to check, and no others. -/
def askingAmong : Settings := { asking "m" with relevant := ["A", "B"] }

/-- Classes of which only the one to check is left; the last takes no part. -/
def unevenClasses : List ClassDecl := [arrayed, misspelt, idle, { idle with name := "D" }]

/-- The contract module of a class with one method that does nothing. -/
def idleModule (name : String) : Contract.Module where
  id := name
  className := name
  predicates := [⟨Contract.invariantName name, [Contract.selfParam name], .truth⟩]
  invariant := some (Contract.invariantName name)
  programs := [{ id := Contract.programId name "m" 0, method := "m", overload := 0 }]

/-- The modules before pragmas are read. -/
def unevenModules : List Contract.Module := [idleModule "B", idleModule "C"]

theorem legible_idleModule : ∀ m ∈ [idleModule "C"], m.Legible :=
  forall_mem_singleton.mpr ⟨by decide, ⟨"C", [], by decide, by decide⟩, by decide, by decide, by decide,
    by decide, forall_mem_singleton.mpr ⟨rfl, by decide, Nat.two_pow_pos 63, rfl, rfl, rfl, rfl, rfl,
      rfl, rfl⟩⟩

/-- The catalog before pragmas are read. -/
def unevenCatalog : Contract.Catalog := ((Contract.ofClasses askingAmong unevenClasses).run ⟨0, 0⟩).1.catalog

/-- No lexeme starts with a question mark. -/
theorem readPragma_misspelt : Contract.readPragma "C.java" ⟨.start, .invariant, "?"⟩ =
    .error (.pragma "?" Fault.badText ⟨"C.java", 1, 1, 0⟩) := by
  have hread : (Formula.read "?").toOption = none := by decide +kernel
  rw [Contract.readPragma]
  cases h : Formula.read "?" with
  | ok f =>
    rw [h] at hread
    cases hread
  | error e => rfl

/-- The catalog once pragmas are read. -/
def unevenMerged : Contract.Catalog :=
  unevenCatalog.drop "B" ⟨"C.java", 1, 1, 0⟩ (.pragma "?" Fault.badText ⟨"C.java", 1, 1, 0⟩)

theorem mergePragmas_uneven :
    (Contract.mergePragmas askingAmong unevenModules unevenClasses unevenCatalog).run ⟨0, 0⟩ =
      (⟨.ok [idleModule "C"], unevenMerged⟩, ⟨0, 0⟩) := by
  have hclass : ∀ m, Contract.readClass misspelt m unevenCatalog =
      .error (.pragma "?" Fault.badText ⟨"C.java", 1, 1, 0⟩) := fun m => by
    unfold Contract.readClass
    rw [misspelt, mapM_cons, idle, readPragma_misspelt]
    rfl
  have hread : Contract.readClasses askingAmong unevenModules { catalog := unevenCatalog } unevenClasses =
      (.ok (), ⟨[(idle, [])], ["B"], unevenMerged⟩) := by
    have hnone : Contract.moduleOf? unevenModules unevenCatalog arrayed = none := rfl
    have hsome : Contract.moduleOf? unevenModules unevenCatalog misspelt = unevenModules.head? := rfl
    rw [unevenClasses, Contract.readClasses, hnone]
    simp only
    rw [Contract.readClasses, hsome]
    simp only [unevenModules, List.head?_cons, hclass]
    rfl
  rw [Contract.mergePragmas, hread]
  rfl

/-- The class to check is found among two. -/
theorem target_uneven : unevenCatalog.target askingAmong = .ok ("C", "C_m_0") := by
  rw [Contract.Catalog.target, Contract.find?_mergeSort_of_only (q := "C") (by decide +kernel) rfl
    (by decide +kernel)]
  decide +kernel

/-- The stages of a pass over them. -/
def unevenStages : Stages askingAmong unevenClasses 0 where
  lowered := ⟨.ok unevenModules, unevenCatalog⟩
  supply := ⟨0, 0⟩
  modules := unevenModules
  target := ("C", "C_m_0")
  merged := ⟨.ok [idleModule "C"], unevenMerged⟩
  issued := ⟨0, 0⟩
  withPragmas := [idleModule "C"]
  relational := [idleRelational ["m"]]
  spec := Spec.Frame.specify ⟨[idleRelational ["m"]], idleRelational ["m"], idleProgram "m"⟩ askingAmong {} {}
  lowered_eq := rfl
  modules_eq := rfl
  target_eq := target_uneven
  merged_eq := mergePragmas_uneven
  withPragmas_eq := rfl
  legible := legible_idleModule
  relational_eq := rfl
  spec_eq := rfl

/-- One module and two warnings for four classes. -/
theorem pass_accounts_uneven : ∃ p w',
    (pass (noEngine false) askingAmong unevenClasses true).run idleWorld = (p, w') ∧
      p.modules.map (·.id) = ["C"] ∧ p.diagnostics.countP (·.skips "A") = 1 ∧
      p.diagnostics.countP (·.skips "B") = 1 ∧ p.diagnostics.countP (·.skips "D") = 0 := by
  have hfile : Stands (Path.join askingAmong.outputDir (unevenStages.target.2 ++ ".als")) ["output"]
      "C_m_0.als" :=
    ⟨by decide +kernel, by decide +kernel, by decide +kernel⟩
  obtain ⟨p, w', hpass, hrecorded, -⟩ := unevenStages.exists_pass rfl hfile
  obtain ⟨-, hrelevant, hother, -⟩ := pass_accounts (by decide +kernel) hpass hrecorded.artifact
  have hmodules : p.modules.map (·.id) = ["C"] := by
    rw [hrecorded.modules]
    rfl
  rw [hmodules] at hrelevant hother
  refine ⟨p, w', hpass, hmodules, ?_, ?_, ?_⟩
  · exact ((hrelevant arrayed (.head _) rfl).resolve_left fun h => nomatch h.1).2
  · exact ((hrelevant misspelt (.tail _ (.head _)) rfl).resolve_left fun h => nomatch h.1).2
  · exact (hother _ (.tail _ (.tail _ (.tail _ (.head _)))) rfl).2

end Run

end Relspec
