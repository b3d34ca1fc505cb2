import Mathlib.Data.List.Forall2
import Mathlib.Data.List.TakeWhile
import Relspec.Proofs.Contract.Merging
import Relspec.Proofs.Contract.Plain

/-!
# Proofs/Contract/Identifiers — what classes, methods, modules and programs are called

The identifier of a class has an underscore for each dot of its qualified name.  A module is called after
its class, and a program after its module, its method and the number of the overload.

* `ClassName.same_iff` — the names that mean a class;
* `MethodName.split_numbered` — a method with the number of its overload;
* `programId_eq_iff`, `nodup_ids`, `Apart` — which programs share an id, and classes whose programs share
  none;
* `ofClasses_ids`, `mergePragmas_ids`, `roundTrip_id` — modules and programs are called after classes and
  methods, with their pragmas and read from their texts as well.
-/

namespace Relspec

open List

/-! ## Names of classes -/

namespace ClassName

theorem dot_not_mem_identifier (q : String) : '.' ∉ (identifier q).toList := by
  rw [identifier, String.toList_ofList, mem_map]
  rintro ⟨c, -, hc⟩
  split at hc
  · exact absurd hc (by decide)
  · next hne => exact hne hc

theorem length_toList_identifier (q : String) : (identifier q).toList.length = q.toList.length := by
  rw [identifier, String.toList_ofList, length_map]

theorem simple_of_not_mem {q : String} (h : '.' ∉ q.toList) : simple q = q := by
  have hcut : Text.cut? ['.'] q.toList.reverse = none := by
    rw [Text.cut?_eq_none_iff, singleton_infix_iff, mem_reverse]
    exact h
  rw [simple, Text.cutLast?, hcut]

/-- **The simple name of a qualified name** is what follows its last dot. -/
theorem exists_simple_of_mem {q : String} (h : '.' ∈ q.toList) :
    ∃ front, q.toList = front ++ '.' :: (simple q).toList ∧ '.' ∉ (simple q).toList := by
  obtain ⟨last, front, hq, hlast⟩ := eq_append_cons_of_mem (mem_reverse.mpr h)
  have hsimple : simple q = String.ofList last.reverse := by
    rw [simple, Text.cutLast?, hq, Text.cut?_append front hlast]
  have hchars : (simple q).toList = last.reverse := by rw [hsimple, String.toList_ofList]
  refine ⟨front.reverse, ?_, by rwa [hchars, mem_reverse]⟩
  rw [hchars, ← reverse_reverse q.toList, hq]
  simp

theorem dot_not_mem_simple (q : String) : '.' ∉ (simple q).toList := by
  by_cases h : '.' ∈ q.toList
  · obtain ⟨_, -, hdot⟩ := exists_simple_of_mem h
    exact hdot
  · rwa [simple_of_not_mem h]

/-- A name with a package is longer than its simple name. -/
theorem length_simple_lt {q : String} (h : simple q ≠ q) :
    (simple q).toList.length < q.toList.length := by
  have hdot : '.' ∈ q.toList := by
    by_contra hdot
    exact h (simple_of_not_mem hdot)
  obtain ⟨front, hq, -⟩ := exists_simple_of_mem hdot
  have hlength := congrArg List.length hq
  rw [length_append, length_cons] at hlength
  omega

/-- **The names that mean a class**: its qualified name, its identifier, and its simple name. -/
theorem same_iff {q name : String} :
    same q name = true ↔ q = name ∨ identifier q = name ∨ simple q = name := by
  have hsimple : '.' ∉ name.toList ∧ simple q = name ↔ simple q = name :=
    and_iff_right_of_imp fun h => h ▸ dot_not_mem_simple q
  rw [← hsimple, ← or_assoc]
  simp [same]

end ClassName

/-! ## Names of methods -/

namespace MethodName

variable {base : String} {k : Nat}

theorem isPart_of_mem_numbered (hparts : ∀ c ∈ base.toList, isPart c = true) :
    ∀ c ∈ (base ++ "_" ++ toString k).toList, isPart c = true := by
  have hnumber : ∀ c ∈ (toString k).toList, isPart c = true := fun c hc => by
    have hdigit := Text.isDigit_of_mem_toDigits (n := k) (Nat.toList_repr ▸ hc)
    simp [isPart, Char.isAlphanum, hdigit]
  rw [String.toList_append, String.toList_append]
  have hmark : "_".toList.all isPart = true := by decide
  exact forall_mem_append.mpr
    ⟨forall_mem_append.mpr ⟨hparts, all_eq_true.mp hmark⟩, hnumber⟩

theorem isNumbered_numbered (hne : base ≠ "") (hparts : ∀ c ∈ base.toList, isPart c = true) :
    isNumbered (base ++ "_" ++ toString k) = true := by
  have hpart := all_eq_true.mpr (isPart_of_mem_numbered (k := k) hparts)
  have hdigits : (Nat.repr k).toList.all Char.isDigit = true :=
    all_eq_true.mpr fun c hc => Text.isDigit_of_mem_toDigits (Nat.toList_repr ▸ hc)
  have hnumber : Nat.repr k ≠ "" := by
    intro h
    have hnil : Nat.toDigits 10 k = [] := by rw [← Nat.toList_repr, h]; rfl
    exact Nat.toDigits_ne_nil hnil
  rw [Nat.toString_eq_repr] at hpart ⊢
  rw [isNumbered, Text.cutLast?_numbered]
  simp only [hpart, hdigits, bne_iff_ne.mpr hne, bne_iff_ne.mpr hnumber, Bool.and_self]

/-- A method with the number of its overload is normalized already. -/
theorem normalize_numbered (hne : base ≠ "") (hparts : ∀ c ∈ base.toList, isPart c = true) :
    normalize (base ++ "_" ++ toString k) = base ++ "_" ++ toString k := by
  have hpart := isPart_of_mem_numbered (k := k) hparts
  have hblank : Text.blanks.flatten.all (!isPart ·) = true := by decide
  have htrim : Text.trim (base ++ "_" ++ toString k) = base ++ "_" ++ toString k := by
    rw [Text.trim, Text.trimChars_of_not_mem, String.ofList_toList]
    intro c hc hmem
    have hnot := all_eq_true.mp hblank c hmem
    rw [hpart c hc] at hnot
    cases hnot
  have hwhole : (base ++ "_" ++ toString k).toList.takeWhile (· != '(') =
      (base ++ "_" ++ toString k).toList := by
    refine takeWhile_eq_self_iff.mpr fun c hc => ?_
    have hparen : isPart '(' = false := by decide
    rw [bne_iff_ne]
    rintro rfl
    cases (hpart '(' hc).symm.trans hparen
  rw [normalize, htrim]
  simp only [hwhole, String.ofList_toList]
  rw [if_pos (isNumbered_numbered hne hparts)]

/-- **A method with the number of its overload** means that overload, as long as the number fits. -/
theorem split_numbered (base : String) (k : Nat) : split (base ++ "_" ++ toString k) =
    if k < 2 ^ 63 then (base, (k : Int)) else (base ++ "_" ++ toString k, 0) := by
  rw [Nat.toString_eq_repr, split, Text.cutLast?_numbered]
  split_ifs with h
  · simp only [Text.integer?_repr h]
  · simp only [Text.integer?_repr_of_le (Nat.not_lt.mp h)]

end MethodName

namespace Contract

open Source (ClassDecl Method)

/-! ## Modules and programs -/

/-- The ids of a module and its programs. -/
def Module.ids (m : Module) : String × List String := (m.id, m.programs.map (·.id))

/-- The ids that a class gives to its module and its programs, one for each method. -/
def idsOf (c : ClassDecl) : String × List String :=
  (c.id, (numbered [] c.methods).map fun p => programId c.id p.1.name p.2)

/-- **A module and its programs are called after the class and its methods.** -/
theorem ofClass_ids {classes : List ClassDecl} {c : ClassDecl} {s s' : Supply} {l : LoweredClass}
    (hrun : (ofClass classes c).run.run s = (.ok l, s')) : l.body.ids = idsOf c := by
  obtain ⟨_, _, _, programs, -, -, hprograms, rfl⟩ := exists_of_ofClass hrun
  refine congrArg (Prod.mk c.id) ?_
  rw [map_map]
  exact map_eq_of_forall₂ hprograms fun _ _ ⟨_, _, _, _, _, hp, _⟩ => hp.id_eq

variable {s : Settings} {classes : List ClassDecl} {n : Supply} {ms : List Module}

theorem qualifiedName_withQueryMethod (s : Settings) (classes : List ClassDecl) :
    (withQueryMethod s classes).map (·.qualifiedName) = classes.map (·.qualifiedName) := by
  rw [withQueryMethod]
  split
  · rw [map_map]
    refine map_congr_left fun c _ => ?_
    rw [Function.comp_apply]
    split <;> rfl
  · rfl

theorem id_withQueryMethod (s : Settings) (classes : List ClassDecl) :
    (withQueryMethod s classes).map (·.id) = classes.map (·.id) := by
  have hnames := congrArg (List.map ClassName.identifier) (qualifiedName_withQueryMethod s classes)
  rw [map_map, map_map] at hnames
  exact hnames

/-- **The modules of classes are called after them**, in their order. -/
theorem ofClasses_ids (hms : ((ofClasses s classes).run n).1.result = .ok ms) :
    (ms.map Module.ids).Sublist ((withQueryMethod s classes).map idsOf) := by
  have hskip : ∀ {c : ClassDecl} {cs : List ClassDecl} {done : List Module},
      (done.map Module.ids ++ (c :: cs).map idsOf).Sublist ((withQueryMethod s classes).map idsOf) →
        (done.map Module.ids ++ cs.map idsOf).Sublist ((withQueryMethod s classes).map idsOf) :=
    fun h => ((sublist_cons_self _ _).append_left _).trans h
  rw [ofClasses] at hms
  obtain ⟨rest, modules, _, hsub, hresult⟩ := ofEach_induction (s := s)
    (P := fun rest done _ _ =>
      (done.map Module.ids ++ rest.map idsOf).Sublist ((withQueryMethod s classes).map idsOf))
    (fun _ h hrun => by
      rw [map_append, map_singleton, ofClass_ids hrun, append_assoc]
      exact h)
    (fun _ h _ => hskip h) (fun _ => hskip) n (by rw [map_nil, nil_append])
  obtain ⟨rfl, rfl, -⟩ := hresult ms hms
  simpa using hsub

/-! ## Ids that programs share -/

/-- **Programs share an id** exactly when owner and method join to the same text and the overloads have
the same number. -/
theorem programId_eq_iff {a b m m' : String} {k k' : Nat} : programId a m k = programId b m' k' ↔
    a ++ "_" ++ m = b ++ "_" ++ m' ∧ k = k' := by
  constructor
  · intro h
    have hcut := congrArg (Text.cutLast? '_') h
    rw [programId, programId, Nat.toString_eq_repr, Nat.toString_eq_repr, Text.cutLast?_numbered,
      Text.cutLast?_numbered, Option.some.injEq, Prod.mk.injEq] at hcut
    refine ⟨hcut.1, Text.toDigits_inj ?_⟩
    rw [← Nat.toList_repr, hcut.2, Nat.toList_repr]
  · rintro ⟨hjoined, rfl⟩
    rw [programId, hjoined, programId]

theorem programId_ne_empty (id base : String) (k : Nat) : programId id base k ≠ "" := by
  intro h
  simpa [programId] using congrArg String.toList h

/-- A method has at least as many earlier methods of its name as there were at the start. -/
theorem count_le_of_mem_numbered : ∀ {ms : List Method} {earlier : List String} {m : Method} {k : Nat},
    (m, k) ∈ numbered earlier ms → earlier.count m.name ≤ k
  | m' :: ms, earlier, m, k, h => by
    rw [numbered, mem_cons] at h
    rcases h with h | h
    · cases h
      exact Nat.le_refl _
    · have hle := count_le_of_mem_numbered h
      rw [count_cons] at hle
      omega

/-- The methods of a class are told apart by their names and numbers. -/
theorem nodup_numbered : ∀ (ms : List Method) (earlier : List String),
    ((numbered earlier ms).map fun p => (p.1.name, p.2)).Nodup
  | [], _ => nodup_nil
  | m :: ms, earlier => by
    rw [numbered, map_cons, nodup_cons]
    refine ⟨fun hmem => ?_, nodup_numbered ms _⟩
    obtain ⟨⟨m', k⟩, hmem, heq⟩ := mem_map.mp hmem
    obtain ⟨hname, rfl⟩ := Prod.mk.inj heq
    have hle : (m.name :: earlier).count m'.name ≤ earlier.count m.name := count_le_of_mem_numbered hmem
    rw [show m'.name = m.name from hname, count_cons_self] at hle
    omega

/-- The programs of a class have ids of their own. -/
theorem nodup_ids (c : ClassDecl) : (idsOf c).2.Nodup := by
  have hmap : (idsOf c).2 = ((numbered [] c.methods).map fun p => (p.1.name, p.2)).map fun p =>
      programId c.id p.1 p.2 := by
    rw [map_map]
    rfl
  rw [hmap]
  refine (nodup_numbered c.methods []).map fun p q h => ?_
  obtain ⟨hjoined, hnumber⟩ := programId_eq_iff.mp h
  exact Prod.ext ((String.append_right_inj _).mp hjoined) hnumber

/-- **Classes whose modules and programs have ids of their own**: the classes have, and no method of
another class joins with it to the same text. -/
structure Apart (classes : List ClassDecl) : Prop where
  ids : (classes.map (·.id)).Nodup
  joined : ∀ c ∈ classes, ∀ d ∈ classes, ∀ m ∈ c.methods, ∀ m' ∈ d.methods,
    c.id ++ "_" ++ m.name = d.id ++ "_" ++ m'.name → c.id = d.id

theorem Apart.id_eq (h : Apart classes) {c d : ClassDecl} (hc : c ∈ classes) (hd : d ∈ classes) {x : String}
    (hx : x ∈ (idsOf c).2) (hx' : x ∈ (idsOf d).2) : c.id = d.id := by
  obtain ⟨⟨m, k⟩, hm, rfl⟩ := mem_map.mp hx
  obtain ⟨⟨m', k'⟩, hm', heq⟩ := mem_map.mp hx'
  exact h.joined c hc d hd m (mem_of_mem_numbered hm).1 m' (mem_of_mem_numbered hm').1
    (programId_eq_iff.mp heq).1.symm

/-! ## Pragmas and texts -/

/-- Changing members in a way that keeps something of each. -/
theorem map_updateFirst {α β : Type} {p : α → Bool} {f : α → SideNaming α} {g : α → β}
    (hf : ∀ a n, g ((f a).run n).1 = g a) : ∀ (as : List α) (n : Nat),
      ((updateFirst p f as).run n).1.map g = as.map g
  | [], _ => rfl
  | a :: as, n => by
    rw [updateFirst]
    split
    · exact congrArg (· :: as.map g) (hf a n)
    · exact congrArg (g a :: ·) (map_updateFirst hf as n)

theorem mergeContract_id (kind : Source.PragmaKind) (f : Formula) (p : Program) (n : Nat) :
    ((mergeContract kind f p).run n).1.id = p.id := by
  cases kind <;> rfl

theorem mergeAssertion_ids (r : Resolver) (a : Assertion) (m : Module) (n : Nat) :
    ((mergeAssertion r a m).run n).1.ids = m.ids := by
  rw [mergeAssertion]
  split
  · split
    · rw [mergeInvariant]
      simp only [Module.withPredicate]
      split <;> rfl
    · rfl
  · exact congrArg (Prod.mk m.id) (map_updateFirst (mergeContract_id a.kind _) m.programs n)

theorem mergeAll_ids (r : Resolver) : ∀ (as : List Assertion) (m : Module) (n : Nat),
    ((as.foldlM (fun m a => mergeAssertion r a m) m).run n).1.ids = m.ids
  | [], _, _ => rfl
  | a :: as, m, n => by
    rw [foldlM_cons, StateT.run_bind]
    exact (mergeAll_ids r as _ _).trans (mergeAssertion_ids r a m n)

theorem mergeEach_ids {r : Resolver} {catalog : Catalog} {read : List (ClassDecl × List Assertion)}
    {ms ms' : List Module} {n n' : Nat} (hrun : (mergeEach r catalog ms read).run n = (.ok ms', n')) :
    ms'.map Module.ids = ms.map Module.ids := by
  refine mergeEach_induction (P := fun _ ms' => ms'.map Module.ids = ms.map Module.ids)
    (fun e _ id _ n ms' h => ?_) rfl hrun
  have hreversed := map_updateFirst (p := (·.id == id)) (mergeAll_ids r e.2) ms'.reverse n
  intro merge updated
  calc updated.1.reverse.map Module.ids = (updated.1.map Module.ids).reverse := map_reverse
    _ = (ms'.reverse.map Module.ids).reverse := congrArg List.reverse hreversed
    _ = ms.map Module.ids := by rw [map_reverse, reverse_reverse, h]

/-- **Pragmas give no new names to modules and programs.** -/
theorem mergePragmas_ids {modules : List Module} {catalog : Catalog}
    (hms : ((mergePragmas s modules classes catalog).run n).1.result = .ok ms) :
    (ms.map Module.ids).Sublist (modules.map Module.ids) := by
  obtain ⟨_, _, _, -, hmerge, rfl, -⟩ := exists_of_mergePragmas hms
  rw [← mergeEach_ids hmerge]
  exact (filter_sublist).map _

theorem id_of_reread {m got : Module} (h : reread m = .ok got) : got.id = m.id := by
  unfold reread at h
  split at h
  · cases h
  · next got' _ =>
    obtain ⟨_, hsame, h⟩ := exists_of_except_ok h
    obtain rfl : got' = got := Except.ok.inj h
    unfold sameIdentifiers at hsame
    by_contra hid
    rw [if_pos (bne_iff_ne.mpr (Ne.symm hid))] at hsame
    cases hsame

/-- **Modules keep their ids when they pass through their texts.** -/
theorem roundTrip_id {got : List Module} {dir : String} {d d' : Disk}
    (hrun : (roundTrip ms dir).run.run d = (.ok got, d')) : got.map (·.id) = ms.map (·.id) :=
  map_eq_of_forall₂ (forall₂_reread hrun) fun _ _ => id_of_reread

end Contract

end Relspec
