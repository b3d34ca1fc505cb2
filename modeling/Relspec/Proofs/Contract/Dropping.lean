import Relspec.Proofs.Contract.PragmaVocabulary
import Relspec.Proofs.Contract.Target
import Relspec.Source.Scan

/-!
# Proofs/Contract/Dropping — a class taken out of the catalog

A catalog has four tables: two by names of classes, of which one goes on with a signature, and two by ids of
modules and programs.  Taking out a class takes out what starts with its name and a dot, and what has an id
of one of its programs.  A class in a package of that name loses its signatures, and a class with a program
of the same id loses the names of its parameters.

* `Catalog.Lists` — what the catalog has of each class that became a module;
* `Catalog.Lacks`, `Catalog.Agrees` — catalogs that have nothing of a class, or what another has;
* `Lists.lacks_drop`, `Lists.agrees_drop_iff` — the class that is taken out, and the others;
* `drop_exact` — the catalog of a run.
-/

namespace Relspec

open List
open Source (ClassDecl Method)

namespace Contract

/-- The name of a class with the signature of one of its methods. -/
def methodKey (c : ClassDecl) (m : Method) : String := c.qualifiedName ++ "." ++ m.signature

/-! ## What the catalog has of a class -/

section Classes

variable {classes : List ClassDecl} {c : ClassDecl} {s s' : Supply} {l : LoweredClass}

theorem methodKey_mem_ofClass (hrun : (ofClass classes c).run.run s = (.ok l, s')) {m : Method}
    (hm : m ∈ c.methods) : methodKey c m ∈ l.programs.keys := by
  obtain ⟨_, _, _, programs, -, -, hprograms, rfl⟩ := exists_of_ofClass hrun
  have hlength : c.methods.length = programs.length := by
    rw [← hprograms.length_eq, ← length_map (f := Prod.fst), map_fst_numbered]
  rw [Table.mem_keys_ofList, map_map]
  have hmem : m ∈ (c.methods.zip programs).map (·.1) := by
    rwa [map_fst_zip (Nat.le_of_eq hlength)]
  obtain ⟨p, hp, rfl⟩ := mem_map.mp hmem
  exact mem_map.mpr ⟨p, hp, rfl⟩

theorem keys_params_ofClass (hrun : (ofClass classes c).run.run s = (.ok l, s')) {x : String}
    (hx : x ∈ (idsOf c).2) : x ∈ l.params.keys := by
  rw [← ofClass_ids hrun] at hx
  obtain ⟨_, _, _, programs, -, -, -, rfl⟩ := exists_of_ofClass hrun
  rw [Table.mem_keys_ofList, map_map]
  rwa [Module.ids, map_map] at hx

end Classes

namespace Catalog

/-- **What the catalog has of each class that became a module**: its signatures, its programs and no others,
and the names of their parameters. -/
structure Lists (classes : List ClassDecl) (k : Catalog) : Prop where
  signatures : ∀ d ∈ classes, d.qualifiedName ∈ k.modules.keys → ∀ m ∈ d.methods, methodKey d m ∈ k.programs.keys
  programs : ∀ d ∈ classes, ∀ x ∈ k.programIds d.id, x ∈ (idsOf d).2
  params : ∀ d ∈ classes, d.qualifiedName ∈ k.modules.keys → ∀ x ∈ (idsOf d).2, x ∈ k.params.keys

/-- **A catalog that has nothing of a class.** -/
structure Lacks (k : Catalog) (c : ClassDecl) : Prop where
  modules : k.modules.find? c.qualifiedName = none
  programs : ∀ m ∈ c.methods, k.programs.find? (methodKey c m) = none
  programsOf : k.programsOf.find? c.id = none
  params : ∀ x ∈ (idsOf c).2, k.params.find? x = none

/-- **A catalog that has of a class what another has.** -/
structure Agrees (k k' : Catalog) (d : ClassDecl) : Prop where
  modules : k'.modules.find? d.qualifiedName = k.modules.find? d.qualifiedName
  programs : ∀ m ∈ d.methods, k'.programs.find? (methodKey d m) = k.programs.find? (methodKey d m)
  programsOf : k'.programsOf.find? d.id = k.programsOf.find? d.id
  params : ∀ x ∈ (idsOf d).2, k'.params.find? x = k.params.find? x

section

variable {classes : List ClassDecl} {k : Catalog} {c d : ClassDecl}

theorem Lists.empty : Lists classes {} := ⟨nofun, nofun, nofun⟩

theorem Lists.fail (h : k.Lists classes) (name : String) (place : Location) (fault : Fault) :
    (k.fail name place fault).Lists classes := ⟨h.signatures, h.programs, h.params⟩

/-- A class with an id of its own that became a module. -/
theorem Lists.add (hids : (classes.map (·.id)).Nodup) (h : k.Lists classes) (hc : c ∈ classes)
    {s s' : Supply} {l : LoweredClass} (hrun : (ofClass classes c).run.run s = (.ok l, s')) :
    (k.add c.qualifiedName l.body l.programs l.params).Lists classes := by
  have hbody := ofClass_ids hrun
  have hsame : ∀ d ∈ classes, d.qualifiedName = c.qualifiedName → d = c := fun d hd hname =>
    inj_on_of_nodup_map hids hd hc (congrArg ClassName.identifier hname)
  refine ⟨fun d hd hkey m hm => ?_, fun d hd x hx => ?_, fun d hd hkey x hx => ?_⟩
  · refine Table.mem_keys_union.mpr ?_
    rcases Table.mem_keys_insert.mp hkey with hold | hnew
    · exact .inl (h.signatures d hd hold m hm)
    · obtain rfl := hsame d hd hnew
      exact .inr (methodKey_mem_ofClass hrun hm)
  · rw [programIds_add] at hx
    split_ifs at hx with hid
    · rcases mem_append.mp hx with hx | hx
      · exact h.programs d hd x hx
      · obtain rfl := inj_on_of_nodup_map hids hd hc (hid.trans (congrArg Prod.fst hbody))
        exact hbody ▸ hx
    · exact h.programs d hd x hx
  · refine Table.mem_keys_union.mpr ?_
    rcases Table.mem_keys_insert.mp hkey with hold | hnew
    · exact .inl (h.params d hd hold x hx)
    · obtain rfl := hsame d hd hnew
      exact .inr (keys_params_ofClass hrun hx)

/-! ## Taking out a class -/

/-- What is taken out of a table is missed exactly if it was there. -/
theorem ite_none_eq_iff {α : Type} {o : Option α} (ho : o.isSome = true) {p : Bool} :
    (if p then o else none) = o ↔ p = true := by
  obtain ⟨a, rfl⟩ := Option.isSome_iff_exists.mp ho
  cases p <;> simp

variable (hfaithful : k.Faithful classes) (hlists : k.Lists classes) (hc : c ∈ classes)
  (hlowered : c.qualifiedName ∈ k.modules.keys)
include hfaithful hlists hc hlowered

theorem mem_programIds_iff {x : String} : x ∈ k.programIds c.id ↔ x ∈ (idsOf c).2 := by
  refine ⟨hlists.programs c hc x, fun hx => ?_⟩
  obtain ⟨⟨m, i⟩, hm, rfl⟩ := mem_map.mp hx
  exact hfaithful.programs c hc hlowered m i hm

/-- The tables of a catalog that a class is taken out of. -/
theorem drop_tables (place : Location) (fault : Fault) :
    (k.drop c.qualifiedName place fault).modules = k.modules.erase c.qualifiedName ∧
      (k.drop c.qualifiedName place fault).programs =
        k.programs.filterKeys (fun x => !Text.startsWith x (c.qualifiedName ++ ".")) ∧
      (k.drop c.qualifiedName place fault).programsOf = k.programsOf.erase c.id ∧
      ∀ x, (k.drop c.qualifiedName place fault).params.find? x =
        if decide (x ∉ (idsOf c).2) then k.params.find? x else none := by
  have hfind : k.modules.find? c.qualifiedName = some c.id := hfaithful.find? hlowered
  rw [drop, hfind]
  refine ⟨rfl, rfl, rfl, fun x => ?_⟩
  rw [Table.find?_filterKeys]
  simp only [contains_eq_mem, mem_programIds_iff hfaithful hlists hc hlowered, decide_not]

/-- **Nothing is left of the class.** -/
theorem lacks_drop (place : Location) (fault : Fault) :
    (k.drop c.qualifiedName place fault).Lacks c := by
  obtain ⟨hmodules, hprograms, hprogramsOf, hparams⟩ :=
    drop_tables hfaithful hlists hc hlowered place fault
  refine ⟨?_, fun m _ => ?_, ?_, fun x hx => ?_⟩
  · rw [hmodules, Table.find?_erase_self]
  · rw [hprograms, Table.find?_filterKeys, methodKey, Text.startsWith_append]
    rfl
  · rw [hprogramsOf, Table.find?_erase_self]
  · rw [hparams, if_neg (by simpa using hx)]

/-- **What is left of another class**: everything, exactly when no signature of it starts with the name of
the class and a dot, and no program of it has the id of a program of the class. -/
theorem agrees_drop_iff (hd : d ∈ classes) (hkept : d.qualifiedName ∈ k.modules.keys) (hne : d.id ≠ c.id)
    (place : Location) (fault : Fault) :
    k.Agrees (k.drop c.qualifiedName place fault) d ↔
      (∀ m ∈ d.methods, ¬ (c.qualifiedName ++ ".").toList <+: (methodKey d m).toList) ∧
        ∀ x ∈ (idsOf d).2, x ∉ (idsOf c).2 := by
  obtain ⟨hmodules, hprograms, hprogramsOf, hparams⟩ :=
    drop_tables hfaithful hlists hc hlowered place fault
  have hname : d.qualifiedName ≠ c.qualifiedName := fun h => hne (congrArg ClassName.identifier h)
  have hsignatures : ∀ m ∈ d.methods,
      (k.drop c.qualifiedName place fault).programs.find? (methodKey d m) = k.programs.find? (methodKey d m) ↔
        ¬ (c.qualifiedName ++ ".").toList <+: (methodKey d m).toList := fun m hm => by
    have hsome := Table.mem_keys_iff.mp (hlists.signatures d hd hkept m hm)
    rw [hprograms, Table.find?_filterKeys, ite_none_eq_iff hsome, Bool.not_eq_true', ← Bool.not_eq_true,
      Text.startsWith_iff]
  have hnames : ∀ x ∈ (idsOf d).2,
      (k.drop c.qualifiedName place fault).params.find? x = k.params.find? x ↔ x ∉ (idsOf c).2 :=
    fun x hx => by
      have hsome := Table.mem_keys_iff.mp (hlists.params d hd hkept x hx)
      rw [hparams, ite_none_eq_iff hsome, decide_eq_true_iff]
  constructor
  · intro h
    exact ⟨fun m hm => (hsignatures m hm).mp (h.programs m hm), fun x hx => (hnames x hx).mp (h.params x hx)⟩
  · rintro ⟨hstarts, hids⟩
    refine ⟨?_, fun m hm => (hsignatures m hm).mpr (hstarts m hm), ?_, fun x hx => (hnames x hx).mpr (hids x hx)⟩
    · rw [hmodules, Table.find?_erase_of_ne _ hname]
    · rw [hprogramsOf, Table.find?_erase_of_ne _ hne]

end

end Catalog

end Contract

/-! ## Names as they are written

Identifiers may have letters that formulas do not have, so the names of classes that can be written down need
not be plain. -/

namespace Source

/-- **Whether a text is an identifier**: a letter, and then letters and digits. -/
def isIdentifier (w : String) : Bool :=
  match w.toList with
  | [] => false
  | c :: s => isLetter c && s.all fun c => isLetter c || isDigit c

/-- **Identifiers with dots between them.** -/
def IsPath (q : String) : Prop :=
  ∃ head tail, q = Text.join "." (head :: tail) ∧ ∀ w ∈ head :: tail, isIdentifier w = true

/-- **Classes whose names can be written down**, with those of their methods. -/
structure ClassDecl.Spelled (c : ClassDecl) : Prop where
  package : ∀ p ∈ c.package, IsPath p
  name : isIdentifier c.name = true
  methods : ∀ m ∈ c.methods, isIdentifier m.name = true

theorem isLetter_or_isDigit {w : String} (h : isIdentifier w = true) :
    ∀ x ∈ w.toList, (isLetter x || isDigit x) = true := by
  unfold isIdentifier at h
  split at h
  · cases h
  · next c s hcs =>
    obtain ⟨hc, hs⟩ := Bool.and_eq_true_iff.mp h
    rw [hcs]
    exact forall_mem_cons.mpr ⟨Bool.or_eq_true_iff.mpr (.inl hc), all_eq_true.mp hs⟩

/-- No path has a parenthesis. -/
theorem IsPath.paren_not_mem {q : String} (h : IsPath q) : '(' ∉ q.toList := by
  obtain ⟨head, tail, rfl, hwords⟩ := h
  have hword : ∀ {w}, isIdentifier w = true → '(' ∉ w.toList := fun hw hmem =>
    absurd (isLetter_or_isDigit hw '(' hmem) (by decide)
  induction tail generalizing head with
  | nil =>
    rw [Text.join, String.intercalate_singleton]
    exact hword (hwords head mem_cons_self)
  | cons w tail ih =>
    obtain ⟨hhead, htail⟩ := forall_mem_cons.mp hwords
    rw [Text.join, String.intercalate_cons_cons, String.toList_append, String.toList_append]
    simp only [mem_append, not_or]
    exact ⟨⟨hword hhead, by decide⟩, ih w htail⟩

theorem ClassDecl.Spelled.paren_not_mem {c : ClassDecl} (h : c.Spelled) : '(' ∉ c.qualifiedName.toList := by
  have hname : '(' ∉ c.name.toList := fun hmem => absurd (isLetter_or_isDigit h.name '(' hmem) (by decide)
  rw [ClassDecl.qualifiedName]
  split
  · next p hp =>
    simp only [String.toList_append, mem_append, not_or]
    exact ⟨⟨(h.package p hp).paren_not_mem, by decide⟩, hname⟩
  · exact hname

end Source

namespace Contract

section Names

variable {c d : ClassDecl} {m : Method}

/-- The beginning of a text that lacks a character goes no further than that character. -/
theorem isPrefix_of_not_mem {x : Char} {p s t : List Char} (h : p <+: s ++ x :: t) (hx : x ∉ p) : p <+: s := by
  rcases Nat.lt_or_ge s.length p.length with hlt | hle
  · have hcut : s ++ [x] <+: p := by
      refine prefix_of_prefix_length_le ?_ h (by rw [length_append, length_singleton]; omega)
      rw [append_cons s x t]
      exact prefix_append _ _
    exact absurd (hcut.subset (mem_append_right s mem_cons_self)) hx
  · exact prefix_of_prefix_length_le h (prefix_append _ _) hle

/-- **A signature starts with the name of another class and a dot** exactly when its class is in a package
whose name does, or is that name. -/
theorem isPrefix_methodKey_iff (hc : c.Spelled) (hm : Source.isIdentifier m.name = true) (hne : d.id ≠ c.id) :
    (c.qualifiedName ++ ".").toList <+: (methodKey d m).toList ↔
      (c.qualifiedName ++ ".").toList <+: d.qualifiedName.toList := by
  have hkey : (methodKey d m).toList = d.qualifiedName.toList ++ ['.'] ++ m.signature.toList := by
    rw [methodKey, String.toList_append, String.toList_append]
    rfl
  have hdot : (c.qualifiedName ++ ".").toList = c.qualifiedName.toList ++ ['.'] := String.toList_append ..
  rw [hkey, hdot]
  refine ⟨fun h => ?_, fun h => h.trans (by rw [append_assoc]; exact prefix_append _ _)⟩
  rcases Nat.lt_or_ge c.qualifiedName.toList.length d.qualifiedName.toList.length with hlt | hle
  · rw [append_assoc] at h
    refine prefix_of_prefix_length_le h (prefix_append _ _) ?_
    rw [length_append, length_singleton]
    omega
  · -- The name of the class would go on into the signature, and end within the name of the method.
    have hcut : d.qualifiedName.toList ++ ['.'] <+: c.qualifiedName.toList ++ ['.'] := by
      refine prefix_of_prefix_length_le (prefix_append _ _) h ?_
      simp only [length_append, length_singleton]
      omega
    obtain ⟨rest, hrest⟩ := hcut
    rw [← hrest, prefix_append_right_inj] at h
    have hparen : '(' ∉ rest := fun hmem => by
      have hmem : '(' ∈ c.qualifiedName.toList ++ ['.'] := hrest ▸ mem_append_right _ hmem
      rcases mem_append.mp hmem with hmem | hmem
      · exact hc.paren_not_mem hmem
      · exact absurd hmem (by decide)
    have hsignature : m.signature.toList = m.name.toList ++ '(' ::
        (",".intercalate (m.params.map fun p => p.type.text) ++ ")").toList := by
      rw [Method.signature, String.append_assoc, String.toList_append, String.toList_append]
      simp
    have hname := isPrefix_of_not_mem (hsignature ▸ h) hparen
    rcases eq_nil_or_concat' rest with rfl | ⟨front, last, rfl⟩
    · rw [append_nil] at hrest
      have heq := String.toList_inj.mp (append_cancel_right hrest)
      exact absurd (congrArg ClassName.identifier heq) hne
    · rw [← append_assoc] at hrest
      obtain rfl : last = '.' := List.cons.inj (append_inj_right' hrest rfl) |>.1
      exact absurd (Source.isLetter_or_isDigit hm '.' (hname.subset (mem_append_right _ mem_cons_self))) (by decide)

end Names

/-! ## The catalog of a run -/

theorem ofClasses_lists {s : Settings} {classes : List ClassDecl} (hids : (classes.map (·.id)).Nodup)
    (n : Supply) : ((ofClasses s classes).run n).1.catalog.Lists (withQueryMethod s classes) := by
  rw [← id_withQueryMethod s] at hids
  obtain ⟨-, hlists, -⟩ := ofClasses_induction s classes
    (P := fun _ catalog => catalog.Lists (withQueryMethod s classes))
    (fun hc h hrun => h.add hids hc hrun) (fun h => h.fail _ _ _) n .empty
  exact hlists

/-- **What taking out a class does to the catalog of a run** over classes with ids of their own.  Nothing is
left of the class.  Of another class the module and the list of its programs are left as they were; the rest
is exactly when no signature of it starts with the name of the class and a dot, and no program of it has the
id of a program of the class.  For classes as they are written, the first means that it has no methods or is
in no package called like the class, and the second that no two methods with the same number join with their
classes to the same text. -/
theorem drop_exact {s : Settings} {classes : List ClassDecl} (hids : (classes.map (·.id)).Nodup)
    {n n' : Supply} {lowered : Lowered} (hrun : (ofClasses s classes).run n = (lowered, n')) {c : ClassDecl}
    (hc : c ∈ withQueryMethod s classes) (hlowered : c.qualifiedName ∈ lowered.catalog.modules.keys)
    (place : Location) (fault : Fault) :
    (lowered.catalog.drop c.qualifiedName place fault).Lacks c ∧
      ∀ d ∈ withQueryMethod s classes, d.qualifiedName ∈ lowered.catalog.modules.keys → d.id ≠ c.id →
        (lowered.catalog.drop c.qualifiedName place fault).modules.find? d.qualifiedName = some d.id ∧
        (lowered.catalog.drop c.qualifiedName place fault).programIds d.id = lowered.catalog.programIds d.id ∧
        (lowered.catalog.Agrees (lowered.catalog.drop c.qualifiedName place fault) d ↔
          (∀ m ∈ d.methods, ¬ (c.qualifiedName ++ ".").toList <+: (methodKey d m).toList) ∧
            ∀ x ∈ (idsOf d).2, x ∉ (idsOf c).2) ∧
        (c.Spelled → d.Spelled →
          (lowered.catalog.Agrees (lowered.catalog.drop c.qualifiedName place fault) d ↔
            (d.methods = [] ∨ ¬ (c.qualifiedName ++ ".").toList <+: d.qualifiedName.toList) ∧
              ∀ m m' i, (m, i) ∈ numbered [] d.methods → (m', i) ∈ numbered [] c.methods →
                d.id ++ "_" ++ m.name ≠ c.id ++ "_" ++ m'.name)) := by
  have hnames : (classes.map (·.qualifiedName)).Nodup := by
    refine List.Nodup.of_map ClassName.identifier ?_
    rwa [List.map_map]
  have hfaithful := ofClasses_faithful hnames s n
  have hlists := ofClasses_lists (s := s) hids n
  rw [hrun] at hfaithful hlists
  refine ⟨Catalog.lacks_drop hfaithful hlists hc hlowered place fault, fun d hd hkept hne => ?_⟩
  have hiff := Catalog.agrees_drop_iff hfaithful hlists hc hlowered hd hkept hne place fault
  obtain ⟨hmodules, -, hprogramsOf, -⟩ := Catalog.drop_tables hfaithful hlists hc hlowered place fault
  have hname : d.qualifiedName ≠ c.qualifiedName := fun h => hne (congrArg ClassName.identifier h)
  refine ⟨?_, ?_, hiff, fun hspelled hspelled' => hiff.trans (and_congr ?_ ?_)⟩
  · rw [hmodules, Table.find?_erase_of_ne _ hname]
    exact hfaithful.find? hkept
  · rw [Catalog.programIds, hprogramsOf, Table.find?_erase_of_ne _ hne, Catalog.programIds]
  · -- All signatures of a class start with its name.
    constructor
    · intro h
      by_cases hmethods : d.methods = []
      · exact .inl hmethods
      · obtain ⟨m, hm⟩ := List.exists_mem_of_ne_nil _ hmethods
        rw [← isPrefix_methodKey_iff hspelled (hspelled'.methods m hm) hne]
        exact .inr (h m hm)
    · rintro (hmethods | h) m hm
      · rw [hmethods] at hm
        cases hm
      · rwa [isPrefix_methodKey_iff hspelled (hspelled'.methods m hm) hne]
  · constructor
    · intro h m m' i hm hm' hjoined
      refine h _ (List.mem_map.mpr ⟨(m, i), hm, rfl⟩) (List.mem_map.mpr ⟨(m', i), hm', ?_⟩)
      exact programId_eq_iff.mpr ⟨hjoined.symm, rfl⟩
    · intro h x hx hx'
      obtain ⟨⟨m, i⟩, hm, rfl⟩ := List.mem_map.mp hx
      obtain ⟨⟨m', i'⟩, hm', heq⟩ := List.mem_map.mp hx'
      obtain ⟨hjoined, rfl⟩ := programId_eq_iff.mp heq
      exact h m m' i' hm hm' hjoined.symm

/-- Classes of one simple name, of which the one without a package is taken out. -/
theorem drop_exact_last : ∃ lowered n',
    (ofClasses (numberedLink "Node") [linkedIn "lists" "Node", linked "Node"]).run {} = (lowered, n') ∧
      (lowered.catalog.drop "Node" .nowhere .cancelled).Lacks (linked "Node") ∧
      lowered.catalog.Agrees (lowered.catalog.drop "Node" .nowhere .cancelled) (linkedIn "lists" "Node") := by
  have hids : ([linkedIn "lists" "Node", linked "Node"].map (·.id)).Nodup := by decide
  obtain ⟨hlacks, hothers⟩ := drop_exact (s := numberedLink "Node") (n := {}) (c := linked "Node") hids rfl
    (List.mem_cons_of_mem _ List.mem_cons_self) (by decide +kernel) .nowhere .cancelled
  obtain ⟨-, -, hiff, -⟩ := hothers (linkedIn "lists" "Node") List.mem_cons_self (by decide +kernel) (by decide)
  refine ⟨_, _, rfl, hlacks, hiff.mpr ⟨List.forall_mem_singleton.mpr (by decide), ?_⟩⟩
  exact List.forall_mem_singleton.mpr (by decide)

/-- **A class whose name is the package of another**: the method of the other loses its signature. -/
theorem drop_loses_signature : ∃ lowered n',
    (ofClasses (numberedLink "Lists") [linked "Lists", linkedIn "Lists" "Node"]).run {} = (lowered, n') ∧
      ([linked "Lists", linkedIn "Lists" "Node"].map (·.id)).Nodup ∧
      lowered.catalog.modules.keys = ["Lists", "Lists.Node"] ∧
      lowered.catalog.programs.find? "Lists.Node.link(Node)" = some "Lists_Node_link_0" ∧
      (lowered.catalog.drop "Lists" .nowhere .cancelled).modules.keys = ["Lists.Node"] ∧
      (lowered.catalog.drop "Lists" .nowhere .cancelled).programs.find? "Lists.Node.link(Node)" = none :=
  ⟨_, _, rfl, by decide, by decide +kernel, by decide +kernel, by decide +kernel, by decide +kernel⟩

end Contract

end Relspec
