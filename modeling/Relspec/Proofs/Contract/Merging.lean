import Relspec.Contract.Pragmas
import Relspec.Proofs.Failing
import Relspec.Proofs.Table

/-!
# Proofs/Contract/Merging — how pragmas get to their modules

The pragmas of all classes are read before any is added.  A class with a pragma that does not read takes its
entry out of the catalog, and with it the entry of a class of the same name, whose pragmas may have been
read before.  Such a class is stranded, and it is the only one that is.

* `mergeEach_induction` — what the pragmas of one class keep, those of all keep;
* `exists_of_mergePragmas` — what was read and added, when all went well;
* `strands_of_brokeOff` — a class is stranded only by another one of its name.
-/

namespace Relspec

open List
open Source (ClassDecl Pragma)

/-- The pragmas of a class and its methods. -/
def Source.ClassDecl.annotations (c : ClassDecl) : List Pragma :=
  c.pragmas ++ c.methods.flatMap (·.pragmas)

/-- A class with a pragma that does not read. -/
def Source.ClassDecl.Misspelt (c : ClassDecl) : Prop :=
  ∃ a ∈ c.annotations, ∀ f, Formula.read a.formula ≠ .ok f

/-- **Classes of which one may be stranded**: it has pragmas, and a later class of the same name, which is
not the one to check, has a pragma that does not read. -/
def Source.Strands (target : String) (classes : List ClassDecl) : Prop :=
  ∃ c d, [c, d].Sublist classes ∧ c.qualifiedName = d.qualifiedName ∧ c.annotations ≠ [] ∧ d.Misspelt ∧
    ClassName.same d.qualifiedName target = false

namespace Contract

variable {s : Settings} {modules ms : List Module} {catalog : Catalog} {n : Supply}

/-! ## Adding -/

/-- **What the pragmas of one class keep, those of all keep**, of the modules and of the number of side
variables. -/
theorem mergeEach_induction {r : Resolver} {P : Nat → List Module → Prop} :
    ∀ {read : List (ClassDecl × List Assertion)} {ms ms' : List Module} {n n' : Nat},
      (∀ e ∈ read, ∀ id, catalog.modules.find? e.1.qualifiedName = some id → ∀ n ms, P n ms →
        let merge (m : Module) := e.2.foldlM (fun m a => mergeAssertion r a m) m
        let updated := (updateFirst (·.id == id) merge ms.reverse).run n
        P updated.2 updated.1.reverse) →
      P n ms → (mergeEach r catalog ms read).run n = (.ok ms', n') → P n' ms'
  | [], _, _, _, _, _, h, hrun => by
    cases hrun
    exact h
  | (c, as) :: read, ms, ms', n, n', hstep, h, hrun => by
    obtain ⟨hfirst, hstep⟩ := forall_mem_cons.mp hstep
    rw [mergeEach] at hrun
    split at hrun
    · split at hrun
      · cases hrun
      · exact mergeEach_induction hstep h hrun
    · next id hid => exact mergeEach_induction hstep (hfirst id hid n ms h) hrun

/-- What was read and added, when all went well. -/
theorem exists_of_mergePragmas {classes : List ClassDecl}
    (hms : ((mergePragmas s modules classes catalog).run n).1.result = .ok ms) :
    ∃ read merged sides, readClasses s modules { catalog } classes = (.ok (), read) ∧
      (mergeEach (.of (modules.filter fun m => !read.dropped.contains m.id) classes) read.catalog modules
        read.assertions).run n.sides = (.ok merged, sides) ∧
      ms = merged.filter (fun m => !read.dropped.contains m.id) ∧
      (mergePragmas s modules classes catalog).run n = (⟨.ok ms, read.catalog⟩, { n with sides }) := by
  unfold mergePragmas at hms ⊢
  rcases hread : readClasses s modules { catalog } classes with ⟨_ | _, read⟩
  · rw [hread] at hms
    cases hms
  · rw [hread] at hms
    rcases hmerge : (mergeEach (.of (modules.filter fun m => !read.dropped.contains m.id) classes) read.catalog
      modules read.assertions).run n.sides with ⟨r, sides⟩
    have hrun : (withSides (mergeEach (.of (modules.filter fun m => !read.dropped.contains m.id) classes)
        read.catalog modules read.assertions)).run n = (r, { n with sides }) :=
      congrArg (fun y : Except Fault (List Module) × Nat => (y.1, ({ n with sides := y.2 } : Supply))) hmerge
    simp only [StateT.run_bind, hrun] at hms ⊢
    obtain ⟨merged, rfl, rfl⟩ := exists_of_except_map_ok hms
    exact ⟨read, merged, sides, rfl, hmerge, rfl, rfl⟩

/-! ## Classes that are stranded -/

section Reading

variable {read read' : ReadPragmas} {c d : ClassDecl} {m : Module} {as : List Assertion} {f : Fault}

theorem not_read_of_readPragma {file : String} {a : Pragma} (h : readPragma file a = .error f) :
    (∀ g, Formula.read a.formula ≠ .ok g) ∧ ∃ text message place, f = .pragma text message place := by
  unfold readPragma at h
  split at h
  · cases h
  · next e he =>
    cases h
    refine ⟨fun g hg => ?_, _, _, _, rfl⟩
    rw [he] at hg
    cases hg

/-- Pragmas that do not read, one after the other. -/
theorem exists_of_mapM_readPragma {file : String} {program : Option Program} {names : Table String}
    {as : List Pragma} (h : (as.mapM fun a => do
      return (⟨a.kind, program, names, ← readPragma file a⟩ : Assertion)) = .error f) :
    ∃ a ∈ as, ∃ file, readPragma file a = .error f := by
  obtain ⟨a, ha, herror⟩ := exists_of_mapM_error h
  rcases exists_of_except_error herror with herror | ⟨_, -, herror⟩
  · exact ⟨a, ha, file, herror⟩
  · cases herror

/-- The class of a pragma that does not read. -/
theorem misspelt_of_readClass (h : readClass c m catalog = .error f) :
    c.Misspelt ∧ ∃ text message place, f = .pragma text message place := by
  have hpragma : ∃ a ∈ c.annotations, ∃ file, readPragma file a = .error f := by
    rcases exists_of_except_error h with h | ⟨own, -, h⟩
    · obtain ⟨a, ha, hread⟩ := exists_of_mapM_readPragma h
      exact ⟨a, mem_append_left _ ha, hread⟩
    · rcases exists_of_except_error h with h | ⟨methods, -, h⟩
      · obtain ⟨method, hmethod, h⟩ := exists_of_mapM_error h
        unfold readMethod at h
        dsimp only at h
        split at h
        · cases h
        · obtain ⟨a, ha, hread⟩ := exists_of_mapM_readPragma h
          exact ⟨a, mem_append_right _ (mem_flatMap.mpr ⟨method, hmethod, ha⟩), hread⟩
      · cases h
  obtain ⟨a, ha, file, hread⟩ := hpragma
  exact ⟨⟨a, ha, (not_read_of_readPragma hread).1⟩, (not_read_of_readPragma hread).2⟩

/-- A class without pragmas has none that was read. -/
theorem annotations_ne_nil_of_readClass (h : readClass c m catalog = .ok as) (has : as ≠ []) :
    c.annotations ≠ [] := by
  intro hnone
  obtain ⟨hpragmas, hmethods⟩ := append_eq_nil_iff.mp hnone
  obtain ⟨own, hown, h⟩ := exists_of_except_ok h
  obtain ⟨methods, hread, h⟩ := exists_of_except_ok h
  cases h
  rw [hpragmas] at hown
  cases hown
  refine has (flatten_eq_nil_iff.mpr (forall_mem_of_forall₂_mem (forall₂_of_mapM_ok hread) ?_))
  intro method read hmethod hread
  have hnone : method.pragmas = [] := flatMap_eq_nil_iff.mp hmethods method hmethod
  unfold readMethod at hread
  rw [hnone] at hread
  dsimp only at hread
  split at hread <;> exact (Except.ok.inj hread).symm

/-- The entry of a class is lost with that of a class of its name only. -/
theorem Catalog.find?_drop_of_ne {q qualified : String} (hne : q ≠ qualified) (place : Location) (fault : Fault) :
    (catalog.drop qualified place fault).modules.find? q = catalog.modules.find? q := by
  unfold Catalog.drop
  split
  · rfl
  · exact Table.find?_erase_of_ne _ hne

/-- **Where the entry of a class went whose pragmas were read**: it was not there before, or a later class of
the same name took it out. -/
theorem exists_of_readClasses {cs : List ClassDecl} (hread : readClasses s modules read cs = (.ok (), read'))
    {e : ClassDecl × List Assertion} (he : e ∈ read'.assertions) (has : e.2 ≠ [])
    (hgone : read'.catalog.modules.find? e.1.qualifiedName = none) :
    e ∈ read.assertions ∧ (read.catalog.modules.find? e.1.qualifiedName = none ∨
      ∃ d ∈ cs, e.1.qualifiedName = d.qualifiedName ∧ d.Misspelt ∧
        ClassName.same d.qualifiedName s.className = false) ∨
    ∃ d, [e.1, d].Sublist cs ∧ e.1.qualifiedName = d.qualifiedName ∧ e.1.annotations ≠ [] ∧ d.Misspelt ∧
      ClassName.same d.qualifiedName s.className = false := by
  induction cs generalizing read with
  | nil =>
    obtain rfl : read = read' := (Prod.mk.inj hread).2
    exact .inl ⟨he, .inl hgone⟩
  | cons c cs ih =>
    rw [readClasses] at hread
    split at hread
    · obtain ⟨he, hgone | ⟨d, hd, hrest⟩⟩ | ⟨d, hd, hrest⟩ := ih hread
      · exact .inl ⟨he, .inl hgone⟩
      · exact .inl ⟨he, .inr ⟨d, mem_cons_of_mem c hd, hrest⟩⟩
      · exact .inr ⟨d, hd.cons c, hrest⟩
    · next m hm =>
      obtain ⟨id, hid, -⟩ := Option.bind_eq_some_iff.mp hm
      split at hread
      · next as hclass =>
        obtain ⟨he, hrest⟩ | ⟨d, hd, hrest⟩ := ih hread
        · rcases mem_append.mp he with he | he
          · refine .inl ⟨he, hrest.imp_right ?_⟩
            rintro ⟨d, hd, hrest⟩
            exact ⟨d, mem_cons_of_mem c hd, hrest⟩
          · obtain rfl := mem_singleton.mp he
            rcases hrest with hgone | ⟨d, hd, hsame, hrest⟩
            · rw [hid] at hgone
              cases hgone
            · refine .inr ⟨d, (singleton_sublist.mpr hd).cons_cons c, hsame, ?_, hrest⟩
              exact annotations_ne_nil_of_readClass hclass has
        · exact .inr ⟨d, hd.cons c, hrest⟩
      · next f hclass =>
        split at hread
        · cases hread
        · next hother =>
          obtain ⟨he, hgone | ⟨d, hd, hrest⟩⟩ | ⟨d, hd, hrest⟩ := ih hread
          · by_cases hsame : e.1.qualifiedName = c.qualifiedName
            · refine .inl ⟨he, .inr ⟨c, mem_cons_self, hsame, (misspelt_of_readClass hclass).1, ?_⟩⟩
              exact Bool.eq_false_iff.mpr hother
            · rw [Catalog.find?_drop_of_ne hsame] at hgone
              exact .inl ⟨he, .inl hgone⟩
          · exact .inl ⟨he, .inr ⟨d, mem_cons_of_mem c hd, hrest⟩⟩
          · exact .inr ⟨d, hd.cons c, hrest⟩

/-- A fault of reading is that of a pragma. -/
theorem readClasses_error : ∀ {cs : List ClassDecl} {read : ReadPragmas},
    readClasses s modules read cs = (.error f, read') → ∃ text message place, f = .pragma text message place
  | [], _, h => by cases congrArg Prod.fst h
  | c :: cs, read, h => by
    rw [readClasses] at h
    split at h
    · exact readClasses_error h
    · split at h
      · exact readClasses_error h
      · next hclass =>
        split at h
        · cases h
          exact (misspelt_of_readClass hclass).2
        · exact readClasses_error h

/-- The class that is stranded has a pragma to add, and no entry. -/
theorem exists_of_mergeEach {r : Resolver} : ∀ {read : List (ClassDecl × List Assertion)} {ms : List Module}
    {n : Nat}, ((mergeEach r catalog ms read).run n).1 = .error f →
      ∃ e ∈ read, e.2 ≠ [] ∧ catalog.modules.find? e.1.qualifiedName = none
  | [], _, _, h => by cases h
  | (c, as) :: read, ms, n, h => by
    rw [mergeEach] at h
    split at h
    · next hnone =>
      split at h
      · next hany =>
        refine ⟨_, mem_cons_self, ?_, hnone⟩
        rintro rfl
        cases hany
      · obtain ⟨e, he, hrest⟩ := exists_of_mergeEach h
        exact ⟨e, mem_cons_of_mem _ he, hrest⟩
    · obtain ⟨e, he, hrest⟩ := exists_of_mergeEach h
      exact ⟨e, mem_cons_of_mem _ he, hrest⟩

end Reading

/-- **A class is stranded only by a later class of its name.** -/
theorem strands_of_brokeOff {classes : List ClassDecl}
    (h : ((mergePragmas s modules classes catalog).run n).1.brokeOff = true) :
    Source.Strands s.className classes := by
  unfold mergePragmas at h
  rcases hread : readClasses s modules { catalog } classes with ⟨f | _, read⟩
  · obtain ⟨text, message, place, rfl⟩ := readClasses_error hread
    rw [hread] at h
    cases h
  · rw [hread] at h
    rcases hmerge : ((mergeEach (.of (modules.filter fun m => !read.dropped.contains m.id) classes) read.catalog
      modules read.assertions).run n.sides).1 with f | merged
    · obtain ⟨e, he, has, hgone⟩ := exists_of_mergeEach hmerge
      rcases exists_of_readClasses hread he has hgone with ⟨hnone, -⟩ | ⟨d, hd⟩
      · cases hnone
      · exact ⟨e.1, d, hd⟩
    · have hbroke : Lowered.brokeOff ⟨(Except.ok merged : Except Fault (List Module)).map
          (·.filter fun m => !read.dropped.contains m.id), read.catalog⟩ = true := by
        rw [← hmerge]
        exact h
      cases hbroke

end Contract

end Relspec
