import Relspec.Proofs.Run.Artifacts

/-!
# Proofs/Run/Signatures — whether a specification declares its signatures once

A specification declares the signatures of the library, those of classes and exceptions, and the holder of
all variables.  Classes are told apart before their signatures are made, and so are exceptions, but neither
are compared with the library, the holder or each other.

* `Specification.declared`, `DeclaresOnce` — what a specification declares, each name once;
* `Frame.nodup_classes` — the class signatures of a program;
* `pass_declares_once` — when the specification of a pass declares its signatures once.
-/

namespace Relspec

open List

namespace Spec

/-- A list without duplicates, each member where it comes first. -/
theorem nodup_eraseDups : ∀ l : List String, l.eraseDups.Nodup
  | [] => nodup_nil
  | x :: l => by
    rw [eraseDups_cons, nodup_cons, mem_eraseDups]
    exact ⟨by simp, nodup_eraseDups _⟩
termination_by l => l.length
decreasing_by exact Nat.lt_succ_of_le (length_filter_le _ _)

/-! ## Declarations -/

/-- The names that are taken in every specification: the library and the holder. -/
def reserved : List String := (Library.all.flatMap (·.sigs)).map (·.name) ++ [holder]

/-- **The signatures that a specification declares**, in the order of its text. -/
def Specification.declared (s : Specification) : List Sig :=
  Library.all.flatMap (·.sigs) ++ s.sigs ++ [{ name := holder, one := true }]

/-- **A specification declares its signatures once**, and none of them below itself. -/
structure Specification.DeclaresOnce (s : Specification) : Prop where
  once : (s.declared.map (·.name)).Nodup
  apart : ∀ g ∈ s.declared, g.parent ≠ some g.name

theorem nodup_reserved : reserved.Nodup := by decide

/-- The names of all signatures, those that are taken first. -/
theorem perm_declared (s : Specification) :
    (s.declared.map (·.name)).Perm (reserved ++ s.sigs.map (·.name)) := by
  rw [Specification.declared, reserved, map_append, map_append, append_assoc,
    append_assoc]
  exact perm_append_comm.append_left _

/-- The library and the holder are below no signature of their own name. -/
theorem parent_ne_of_reserved {g : Sig}
    (h : g ∈ Library.all.flatMap (·.sigs) ++ [{ name := holder, one := true }]) :
    g.parent ≠ some g.name := by
  revert g
  decide

namespace Frame

variable {a : Frame}

theorem nodup_otherClasses : a.otherClasses.Nodup :=
  (mergeSort_perm _ _).nodup_iff.mpr (nodup_eraseDups _)

theorem not_mem_modules_of_otherClasses {c : String} (h : c ∈ a.otherClasses) :
    c ∉ a.modules.map (·.id) := by
  rw [otherClasses, mem_mergeSort, mem_eraseDups, mem_filterMap] at h
  obtain ⟨t, -, ht⟩ := h
  split at ht
  · split at ht
    · cases ht
    · next hnot =>
      obtain rfl := Option.some.inj ht
      rwa [contains_iff_mem] at hnot
  · cases ht

/-- **The class signatures differ** when the modules have ids of their own. -/
theorem nodup_classes (h : (a.modules.map (·.id)).Nodup) : a.classes.Nodup :=
  nodup_append'.mpr ⟨h, nodup_otherClasses, fun _ hmodule hother =>
    not_mem_modules_of_otherClasses hother hmodule⟩

theorem nodup_exceptions (p : Relational.Program) : p.exceptions.Nodup := nodup_eraseDups _

theorem names_sigs (a : Frame) : a.sigs.map (·.name) = a.classes ++ a.program.exceptions := by
  simp [sigs, Function.comp_def]

/-- **When the signatures of a program are declared once**: classes and exceptions are not called like a
signature of the library or the holder, and no exception is called like a class. -/
theorem declaresOnce_iff {s : Specification} (hsigs : s.sigs = a.sigs)
    (hmodules : (a.modules.map (·.id)).Nodup) :
    s.DeclaresOnce ↔ (∀ c ∈ a.classes, c ∉ reserved) ∧
      ∀ e ∈ a.program.exceptions, e ∉ reserved ∧ e ∉ a.classes := by
  have honce : (s.declared.map (·.name)).Nodup ↔ (∀ c ∈ a.classes, c ∉ reserved) ∧
      ∀ e ∈ a.program.exceptions, e ∉ reserved ∧ e ∉ a.classes := by
    rw [(perm_declared s).nodup_iff, hsigs, names_sigs, nodup_append', nodup_append',
      disjoint_append_right]
    have hleft := nodup_classes hmodules
    have hright := nodup_exceptions a.program
    constructor
    · rintro ⟨-, ⟨-, -, hapart⟩, hclasses, hexceptions⟩
      exact ⟨fun c hc hmem => hclasses hmem hc,
        fun e he => ⟨fun hmem => hexceptions hmem he, fun hmem => hapart hmem he⟩⟩
    · rintro ⟨hclasses, hexceptions⟩
      exact ⟨nodup_reserved, ⟨hleft, hright, fun x hx he => (hexceptions x he).2 hx⟩,
        fun x hx hc => hclasses x hc hx, fun x hx he => (hexceptions x he).1 hx⟩
  refine ⟨fun h => honce.mp h.once, fun h => ⟨honce.mpr h, fun g hg => ?_⟩⟩
  rw [Specification.declared, mem_append, mem_append, hsigs] at hg
  rcases hg with (hg | hg) | hg
  · exact parent_ne_of_reserved (mem_append_left _ hg)
  · -- A signature of the program extends one of the library, so it has another name.
    rcases mem_append.mp hg with hg | hg
    · obtain ⟨c, hc, rfl⟩ := mem_map.mp hg
      intro heq
      obtain rfl : "java_lang_Object" = c := Option.some.inj heq
      exact h.1 _ hc (by decide)
    · obtain ⟨e, he, rfl⟩ := mem_map.mp hg
      intro heq
      obtain rfl : "java_lang_Throwable" = e := Option.some.inj heq
      exact (h.2 _ he).1 (by decide)
  · exact parent_ne_of_reserved (mem_append_right _ hg)

end Frame

end Spec

namespace Run

variable {σ : Type} {w w' : World σ} {s : Settings} {classes : List Source.ClassDecl}

/-- **When the specification of a pass declares its signatures once**, for classes with ids of their own:
exactly when its classes and exceptions are not called like a signature of the library or the holder, and
no exception is called like a class. -/
theorem pass_declares_once {engine : Engine σ} {analyze : Bool} {p : Pass}
    (h : (pass engine s classes analyze).run w = (p, w')) {a : Artifact} (ha : p.artifact = some a)
    (hids : (classes.map (·.id)).Nodup) :
    ∃ spec owner program f, a = artifactOf s spec ∧ p.target = some (owner, program) ∧
      Spec.frame? p.modules owner program = some f ∧ spec.sigs = f.sigs ∧
      (spec.DeclaresOnce ↔ (∀ c ∈ f.classes, c ∉ Spec.reserved) ∧
        ∀ e ∈ f.program.exceptions, e ∉ Spec.reserved ∧ e ∉ f.classes) := by
  obtain ⟨g, htraced⟩ := traced_of_artifact h ha
  obtain ⟨spec, rfl, hspec⟩ := htraced.artifact a ha
  obtain ⟨f, moduleSide, programSide, hframe, -, -, rfl⟩ := exists_frame_of_assemble hspec
  have hmodules : (f.modules.map (·.id)).Nodup := by
    rw [(Spec.Frame.mem_of_frame? hframe).1]
    exact htraced.id_sublist.nodup hids
  exact ⟨_, _, _, f, rfl, htraced.target, hframe, rfl, Spec.Frame.declaresOnce_iff rfl hmodules⟩

/-! ## A class that holds an object -/

/-- A class with a field of a given type, and a method that throws an exception. -/
def holding (type : String) : Source.ClassDecl where
  file := "C.java"
  name := "C"
  fields := [⟨.start, "o", some ⟨type, false⟩⟩]
  methods := [{
    name := "m"
    body := some ⟨.start, [.raise .start (.new .start "Error" [])]⟩ }]

theorem plain_holding {type : String} (h : Source.TypeRef.plain ⟨type, false⟩ = true) :
    (holding type).Plain := by
  have hnames : ∀ x ∈ ["C", "o", "m"], Formula.Lexeme.isWord x = true := by decide
  refine ⟨nofun, hnames "C" (by decide), forall_mem_singleton.mpr ⟨hnames "o" (by decide),
    fun t ht => Option.some.inj ht ▸ h⟩, rfl, nofun, forall_mem_singleton.mpr
      ⟨hnames "m" (by decide), nofun, nofun, rfl, nofun, fun b hb => Option.some.inj hb ▸ by decide⟩,
    fun _ => ?_⟩
  exact Nat.lt_of_le_of_lt countP_le_length (Nat.one_lt_two_pow (by decide))

/-- The relational program of the method. -/
def raising : Relational.Program := { idleProgram "m" with body := [.raise "java_lang_ErrorLit"] }

/-- The relational module of the class. -/
def holdingRelational (id : String) : Relational.Module :=
  { idleRelational [] with fields := [⟨"C_o", .ref id⟩], programs := [raising] }

/-- The frame of the method. -/
def holdingFrame (id : String) : Spec.Frame := ⟨[holdingRelational id], holdingRelational id, raising⟩

theorem classes_holdingFrame (id : String) (h : id ≠ "C") : (holdingFrame id).classes = ["C", id] := by
  have hids : (holdingFrame id).modules.map (·.id) = ["C"] := rfl
  have hmentioned : (holdingFrame id).mentioned = [.ref id] := rfl
  simp [Spec.Frame.classes, Spec.Frame.otherClasses, hids, hmentioned, h, eraseDups_cons]

/-- The specification of the method. -/
def holdingSpec (id : String) : Spec.Specification := (holdingFrame id).specify (asking "m") {} {}

/-- The stages of a pass over a class that holds a text. -/
def textStages : Stages (asking "m") [holding "String"] 0 :=
  .ofPlain _ _ _ ("C", "C_m_0") [holdingRelational "java_lang_String"] (holdingSpec "java_lang_String")
    (forall_mem_singleton.mpr (plain_holding (by decide))) rfl (by decide +kernel) rfl rfl rfl rfl

/-- The stages of a pass over a class that holds any object. -/
def objectStages : Stages (asking "m") [holding "Object"] 0 :=
  .ofPlain _ _ _ ("C", "C_m_0") [holdingRelational "java_lang_Object"] (holdingSpec "java_lang_Object")
    (forall_mem_singleton.mpr (plain_holding (by decide))) rfl (by decide +kernel) rfl rfl rfl rfl

theorem stands_holding :
    Stands (Path.join (asking "m").outputDir ("C_m_0" ++ ".als")) ["output"] "C_m_0.als" :=
  ⟨by decide +kernel, by decide +kernel, by decide +kernel⟩

/-- A class, a class without a module and an exception, each called its own way. -/
theorem pass_declares_once_text : ∃ p w' spec,
    (pass (noEngine false) (asking "m") [holding "String"] true).run idleWorld = (p, w') ∧
      p.artifact = some (artifactOf (asking "m") spec) ∧
      spec.sigs.map (·.name) = ["C", "java_lang_String", "java_lang_ErrorLit"] ∧ spec.DeclaresOnce := by
  obtain ⟨p, w', hpass, hrecorded, -⟩ := textStages.exists_pass rfl stands_holding
  obtain ⟨spec, owner, program, f, hartifact, htarget, hframe, hsigs, honce⟩ :=
    pass_declares_once hpass hrecorded.artifact (by decide)
  obtain ⟨rfl, rfl⟩ := Prod.mk.inj (Option.some.inj (htarget.symm.trans hrecorded.target))
  rw [hrecorded.modules] at hframe
  obtain rfl : holdingFrame "java_lang_String" = f := Option.some.inj hframe
  have hclasses := classes_holdingFrame "java_lang_String" (by decide)
  refine ⟨p, w', spec, hpass, hartifact ▸ hrecorded.artifact, ?_, honce.mpr ?_⟩
  · rw [hsigs, Spec.Frame.names_sigs, hclasses]
    decide
  · rw [hclasses]
    exact ⟨by decide, by decide⟩

/-- **A class that holds any object**: the signature of all objects is declared again, below itself. -/
theorem pass_declares_twice : ∃ p w' spec,
    (pass (noEngine false) (asking "m") [holding "Object"] true).run idleWorld = (p, w') ∧
      p.artifact = some (artifactOf (asking "m") spec) ∧
      { name := "java_lang_Object", parent := some "java_lang_Object" } ∈ spec.sigs ∧
      ¬ (spec.declared.map (·.name)).Nodup := by
  obtain ⟨p, w', hpass, hrecorded, -⟩ := objectStages.exists_pass rfl stands_holding
  have hclasses := classes_holdingFrame "java_lang_Object" (by decide)
  have hsigs : (holdingSpec "java_lang_Object").sigs = (holdingFrame "java_lang_Object").sigs := rfl
  refine ⟨p, w', holdingSpec "java_lang_Object", hpass, hrecorded.artifact, ?_, ?_⟩
  · rw [hsigs, Spec.Frame.sigs, hclasses]
    decide
  · rw [Spec.Specification.declared, List.map_append, List.map_append, hsigs, Spec.Frame.names_sigs,
      hclasses]
    decide

end Run

end Relspec
