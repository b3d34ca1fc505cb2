import Relspec.Proofs.Contract.PragmaVocabulary
import Relspec.Proofs.Relational.Vocabulary
import Relspec.Proofs.Run.Index
import Relspec.Proofs.Run.Signatures
import Relspec.Proofs.Spec.Closed

/-!
# Proofs/Run/Closed — whether the predicates of a specification are closed

A predicate has parameters for the object at hand, for variables and for the fields of all modules.  What
is loose in its part of the contract has no parameter, and nothing declares a signature for it: signatures
are declared for modules, for the types of fields and variables, and for exceptions that are thrown.

* `Specification.Closes` — a predicate that is closed up to some names;
* `Frame.Speaks` — a program and the modules around it over the vocabulary of their classes;
* `closes_invariantPred`, `closes_prePred`, `closes_postPred`, `closes_verificationPred` — its predicates;
* `Traced.speaks` — the program of a pass;
* `pass_closes` — what is left over in the specification of a pass.
-/

namespace Relspec

open List
open Source (ClassDecl Method)

/-- **What may be left over of a postcondition**, given what may be left over of its part of the contract,
the parameters of the precondition and the variables of its quantifiers. -/
inductive Contract.LooseAfter (left : String → Prop) (params : List String) (binds : String → Prop) :
    String → Prop
  /-- What is left over, without primes at its end. -/
  | bare {k : Nat} {x : String} (h : left (Relational.primed^[k] x)) : LooseAfter left params binds x
  /-- The result after the program. -/
  | result (h : left "return") : LooseAfter left params binds (Relational.primed "return")
  /-- A variable whose name ends in primes, without some of them. -/
  | shortened {k : Nat} {x : String} (hk : 0 < k)
    (h : Relational.primed^[k] x ∈ params ∨ binds (Relational.primed^[k] x)) : LooseAfter left params binds x

open Contract (Loose LooseAfter)

namespace Spec

/-- A name that is a parameter, a signature of a specification or the integers, or one of those in
`left`. -/
def Specification.Covers (s : Specification) (params : List String) (left : String → Prop) (x : String) :
    Prop :=
  x ∈ params ∨ x ∈ s.declared.map (·.name) ∨ x = "Int" ∨ left x

/-- **A predicate of a specification is closed up to the names in `left`**: every other name that is free
in it is one of its parameters, a signature of the specification, or the integers. -/
def Specification.Closes (s : Specification) (p : Pred) (left : String → Prop) : Prop :=
  ∀ f ∈ p.body.formulas, ∀ x ∈ f.freeNames, s.Covers (p.params.map (·.name)) left x

/-- What is left over may have signatures. -/
theorem Specification.Closes.of_declared {s : Specification} {p : Pred} {left : String → Prop}
    (h : s.Closes p left) (hleft : ∀ x, left x → x ∈ s.declared.map (·.name)) :
    s.Closes p fun _ => False := fun f hf x hx => by
  rcases h f hf x hx with hx | hx | hx | hx
  · exact .inl hx
  · exact .inr (.inl hx)
  · exact .inr (.inr (.inl hx))
  · exact .inr (.inl (hleft x hx))

/-- **The predicates of the specification of a method** are closed up to what is left over of their parts
of the contract: the object invariant, the precondition, the postcondition and the program. -/
structure Specification.ClosesFor (s : Specification) (left : Source.Part → String → Prop) (c : ClassDecl)
    (m : Method) (inv pre post program : Pred) : Prop where
  invariant : s.Closes inv (left c.invariantPart)
  requires : s.Closes pre (left (c.prePart m))
  ensures : s.Closes post
    (LooseAfter (left (c.postPart m)) (pre.params.map (·.name)) (c.postPart m).Binds)
  body : s.Closes program (left m.bodyPart)

/-- What is taken in every specification is one of its signatures. -/
theorem Specification.Covers.of_reserved {x : String} (h : x ∈ reserved ∨ x = "Int") (s : Specification)
    (params : List String) (left : String → Prop) : s.Covers params left x :=
  .inr (h.imp (fun hx => (perm_declared s).mem_iff.mpr (mem_append_left _ hx)) .inl)

/-! ## The names of a frame -/

namespace Frame

/-- The ids of the modules of a frame. -/
def kept (a : Frame) : List String := a.modules.map (·.id)

/-- The names of all fields. -/
def fieldNames (a : Frame) : List String := a.fields.map (·.var.name)

/-- The names that have a value before and after the program. -/
def state (a : Frame) : List String := ["return", "throw"] ++ a.fieldNames

/-- The names of the object at hand and of the variables of the contract of a program: those that both of
its predicates have a parameter for. -/
def common (a : Frame) : List String :=
  "thiz" :: (a.program.params.map (·.name) ++ a.fieldNames ++ a.program.skolems.map (·.name))

variable {a : Frame}

theorem names_fieldParams (a : Frame) : (a.fieldParams false).map (·.name) = a.fieldNames := by
  rw [fieldParams, map_map, fieldNames]
  rfl

theorem names_varParams (vs : List Var) : (varParams vs).map (·.name) = vs.map (·.name) := by
  rw [varParams, map_map]
  rfl

theorem names_preParams (a : Frame) : a.preParams.map (·.name) = "throw" :: a.common := by
  simp [preParams, common, names_fieldParams, names_varParams, selfParam]

theorem common_subset_postParams (a : Frame) : a.common ⊆ a.postParams.map (·.name) := by
  intro x hx
  simp only [common, mem_cons, mem_append] at hx
  simp only [postParams, map_append, mem_append, names_fieldParams, names_varParams,
    map_cons, mem_cons]
  rcases hx with hx | (hx | hx) | hx
  · exact .inl (.inl (.inl (.inl (.inl (.inl (.inl hx))))))
  · exact .inl (.inl (.inl (.inl (.inl (.inr hx)))))
  · exact .inl (.inl (.inl (.inl (.inr hx))))
  · exact .inr hx

/-- The state after the program: a prime makes it a parameter, the result only of a program that has
one. -/
theorem primed_mem_postParams {x : String} (h : x ∈ a.state) :
    Relational.primed x ∈ a.postParams.map (·.name) ∨ x = "return" := by
  simp only [state, mem_append, mem_cons, not_mem_nil, or_false] at h
  simp only [postParams, map_append, mem_append]
  rcases h with (rfl | rfl) | h
  · exact .inr rfl
  · exact .inl (.inl (.inr mem_cons_self))
  · obtain ⟨f, hf, rfl⟩ := mem_map.mp h
    refine .inl (.inl (.inl (.inl (.inr ?_))))
    rw [fieldParams, map_map]
    exact mem_map.mpr ⟨f, hf, rfl⟩

theorem result_mem_postParams (h : a.program.returns.isSome) :
    Relational.primed "return" ∈ a.postParams.map (·.name) := by
  obtain ⟨t, ht⟩ := Option.isSome_iff_exists.mp h
  simp [postParams, ht]

/-! ## Programs over the vocabulary of their methods -/

/-- **A program and the modules around it over the vocabulary of their classes.** -/
structure Speaks (classes : List ClassDecl) (c : ClassDecl) (m : Method) (p : Contract.Program) (a : Frame) :
    Prop where
  apart : (classes.map (·.id)).Nodup
  modules : ∀ r ∈ a.modules, ∃ d ∈ classes, r.Speaks classes a.kept a.state d
  owner : a.owner.Speaks classes a.kept a.state c
  program : a.program.Speaks classes a.kept a.state c m p

namespace Speaks

variable {classes : List ClassDecl} {c : ClassDecl} {m : Method} {p : Contract.Program}
  (h : a.Speaks classes c m p)
include h

/-- A field of a class with a module is a field of the frame. -/
theorem mem_fieldNames {d : ClassDecl} (hd : d ∈ classes) (hkept : d.id ∈ a.kept) {f : Source.Field}
    (hf : f ∈ d.fields) : d.id ++ "_" ++ f.name ∈ a.fieldNames := by
  obtain ⟨r, hr, hid⟩ := mem_map.mp hkept
  obtain ⟨d', hd', hspeaks⟩ := h.modules r hr
  obtain rfl : d = d' := inj_on_of_nodup_map h.apart hd hd' (hid.symm.trans hspeaks.id)
  have hname : d.id ++ "_" ++ f.name ∈ r.fields.map (·.name) := by
    rw [hspeaks.fields]
    exact mem_map_of_mem hf
  obtain ⟨v, hv, hvname⟩ := mem_map.mp hname
  exact mem_map.mpr ⟨⟨r.id, v⟩, mem_flatMap.mpr ⟨r, hr, mem_map_of_mem hv⟩, hvname⟩

/-- **What every formula may speak of**: the object at hand, a field, the library, the integers, or a field
of a class without a module. -/
theorem known_cases {x : String} (hx : Contract.Known classes x) (part : Source.Part) :
    x = "thiz" ∨ x ∈ a.fieldNames ∨ (x ∈ reserved ∨ x = "Int") ∨ Loose classes a.kept c part x := by
  rcases hx with hx | ⟨d, hd, f, hf, rfl⟩
  · have hconstants : ∀ y ∈ Contract.constants, y = "thiz" ∨ y ∈ reserved ∨ y = "Int" := by decide
    exact (hconstants x hx).imp_right fun hx => .inr (.inl hx)
  · by_cases hkept : d.id ∈ a.kept
    · exact .inr (.inl (h.mem_fieldNames hd hkept hf))
    · exact .inr (.inr (.inr (.field hd hkept hf)))

/-- **What a part of the contract of the program speaks of.** -/
theorem reads_cases {part : Source.Part} {result : Bool → Prop} {early : Bool} {x : String}
    (hx : (Contract.vocabulary classes a.kept c part (p.params.map (·.name)) result).reads early x) :
    x ∈ a.common ∨ (x ∈ reserved ∨ x = "Int") ∨ (result early ∧ x = "return") ∨
      Loose classes a.kept c part x := by
  have hparams := h.program.params
  simp only [common, mem_cons, mem_append, hparams]
  rcases hx with hx | hx | hx | hx
  · rcases h.known_cases hx part with hx | hx | hx | hx
    · exact .inl (.inl hx)
    · exact .inl (.inr (.inl (.inr hx)))
    · exact .inr (.inl hx)
    · exact .inr (.inr (.inr hx))
  · exact .inl (.inr (.inl (.inl hx)))
  · exact .inr (.inr (.inl hx))
  · exact .inr (.inr (.inr hx))

/-! ## Predicates -/

/-- **The object invariant.** -/
theorem closes_invariantPred (spec : Specification) :
    spec.Closes (a.invariantPred a.owner.side) (Loose classes a.kept c c.invariantPart) := by
  intro f hf x hx
  obtain rfl := mem_singleton.mp hf
  rcases mem_freeNames_withSide h.owner.invariant hx with hx | ⟨hside, _, _, hx | hx | hx | hx | hx⟩
  · exact .inr (.inr (.inl hx))
  · exact absurd hx hside
  · have hparams : (a.invariantPred a.owner.side).params.map (·.name) = "thiz" :: a.fieldNames :=
      congrArg _ a.names_fieldParams
    rw [hparams]
    rcases h.known_cases hx c.invariantPart with hx | hx | hx | hx
    · exact .inl (hx ▸ mem_cons_self)
    · exact .inl (mem_cons_of_mem _ hx)
    · exact .of_reserved hx spec ..
    · exact .inr (.inr (.inr hx))
  · exact absurd hx not_mem_nil
  · exact hx.1.elim
  · exact .inr (.inr (.inr hx))

/-- **The precondition.** -/
theorem closes_prePred (spec : Specification) :
    spec.Closes (a.prePred a.program.side) (Loose classes a.kept c (c.prePart m)) := by
  intro f hf x hx
  have hparams : (a.prePred a.program.side).params.map (·.name) = "throw" :: a.common := a.names_preParams
  rcases mem_freeNames_prePred hf hx with hx | rfl | hx
  · exact .inl hx
  · exact .of_reserved (by decide) spec ..
  rw [hparams]
  rcases mem_freeNames_withSide h.program.requires hx with hx | ⟨hside, _, _, hx | hx | hx⟩
  · exact .inr (.inr (.inl hx))
  · exact .inl (mem_cons_of_mem _ (mem_cons_of_mem _ (mem_append_right _ hx)))
  · exact absurd hx hside
  · rcases h.reads_cases hx with hx | hx | hx | hx
    · exact .inl (mem_cons_of_mem _ hx)
    · exact .of_reserved hx spec ..
    · exact hx.1.elim
    · exact .inr (.inr (.inr hx))

/-- What the postcondition speaks of besides its side variables. -/
theorem ensures_cases {early : Bool} {x : String}
    (hx : (a.program.vocabulary .ensures (Contract.postVocabulary classes a.kept c m p)).reads early x) :
    (∃ n, x = Arithmetic.sideVar n ∧ x ∈ (a.program.side.ofOrigin .ensures).names) ∨ x ∈ a.common ∨
      (x ∈ reserved ∨ x = "Int") ∨ ((early = false ∧ a.program.returns.isSome) ∧ x = "return") ∨
      Loose classes a.kept c (c.postPart m) x := by
  rcases hx with hx | hx | hx
  · exact .inr (.inl (mem_cons_of_mem _ (mem_append_right _ hx)))
  · obtain ⟨n, hn⟩ := h.program.names x hx
    exact .inl ⟨n, hn, hx⟩
  · rw [h.program.returns]
    exact .inr (h.reads_cases hx)

/-- The result is no variable of the contract, unless it is called like a field. -/
theorem primed_return_mem (hx : "return" ∈ a.common) :
    Relational.primed "return" ∈ a.postParams.map (·.name) := by
  simp only [common, mem_cons, mem_append] at hx
  rcases hx with hx | (hx | hx) | hx
  · exact absurd hx (by decide)
  · exact absurd (h.program.params ▸ hx) h.program.unreturned
  · obtain ⟨f, hf, hname⟩ := mem_map.mp hx
    simp only [postParams, map_append, mem_append]
    refine .inl (.inl (.inl (.inr (mem_map.mpr ⟨_, mem_map_of_mem hf, ?_⟩))))
    exact congrArg Relational.primed hname
  · obtain ⟨v, hv, hname⟩ := mem_map.mp hx
    exact absurd hname (h.program.skolems v hv).ne_return

/-- A name in the state after the program. -/
theorem covers_after {early : Bool} {y : String}
    (hy : (a.program.vocabulary .ensures (Contract.postVocabulary classes a.kept c m p)).reads early y)
    (hside : (if y ∈ a.state then Relational.primed y else y) ∉ (a.program.side.ofOrigin .ensures).names)
    (spec : Specification) : spec.Covers (a.postParams.map (·.name))
      (LooseAfter (Loose classes a.kept c (c.postPart m)) (a.preParams.map (·.name))
        (c.postPart m).Binds) (if y ∈ a.state then Relational.primed y else y) := by
  have hread := h.ensures_cases hy
  by_cases hstate : y ∈ a.state
  · rw [if_pos hstate]
    rcases primed_mem_postParams hstate with hparam | rfl
    · exact .inl hparam
    rcases hread with ⟨n, hn, -⟩ | hread | hread | hread | hread
    · exact absurd hn.symm (Arithmetic.sideVar_ne_return n)
    · exact .inl (h.primed_return_mem hread)
    · exact absurd hread (by decide)
    · exact .inl (result_mem_postParams hread.1.2)
    · exact .inr (.inr (.inr (.result hread)))
  · rw [if_neg hstate] at hside ⊢
    rcases hread with ⟨_, -, hread⟩ | hread | hread | hread | hread
    · exact absurd hread hside
    · exact .inl (a.common_subset_postParams hread)
    · exact .of_reserved hread spec ..
    · exact absurd (hread.2 ▸ mem_cons_self) hstate
    · exact .inr (.inr (.inr (.bare (k := 0) hread)))

/-- A name in the state before the program, which has lost primes. -/
theorem covers_stripped {k : Nat} {x : String}
    (hx : (a.program.vocabulary .ensures (Contract.postVocabulary classes a.kept c m p)).reads true
      (Relational.primed^[k] x)) (hside : x ∉ (a.program.side.ofOrigin .ensures).names)
    (spec : Specification) : spec.Covers (a.postParams.map (·.name))
      (LooseAfter (Loose classes a.kept c (c.postPart m)) (a.preParams.map (·.name))
        (c.postPart m).Binds) x := by
  have hprime : ∀ y ∈ "Int" :: reserved, '\'' ∉ y.toList := by decide
  rcases h.ensures_cases hx with ⟨n, hn, hread⟩ | hread | hread | hread | hread
  · rw [hn, ← Relational.eq_of_iterate_primed hn (Arithmetic.prime_not_mem_sideVar n)] at hread
    exact absurd hread hside
  · rcases Nat.eq_zero_or_pos k with rfl | hk
    · exact .inl (a.common_subset_postParams hread)
    · refine .inr (.inr (.inr (.shortened hk (.inl ?_))))
      rw [a.names_preParams]
      exact mem_cons_of_mem _ hread
  · have hmem := mem_cons.mpr hread.symm
    rw [← Relational.eq_of_iterate_primed rfl (hprime _ hmem)] at hread
    exact .of_reserved hread spec ..
  · cases hread.1.1
  · exact .inr (.inr (.inr (.bare hread)))

/-- **The postcondition.** -/
theorem closes_postPred (spec : Specification) :
    spec.Closes (a.postPred a.program.side) (LooseAfter
      (Loose classes a.kept c (c.postPart m)) (a.preParams.map (·.name)) (c.postPart m).Binds) := by
  intro f hf x hx
  rcases mem_freeNames_postPred hf hx with hx | rfl | hx
  · exact .inl hx
  · exact .of_reserved (by decide) spec ..
  rcases mem_freeNames_withSide h.program.ensures hx with hx | ⟨hside, early, ⟨y, hy, rfl⟩ | ⟨k, hk⟩⟩
  · exact .inr (.inr (.inl hx))
  · exact h.covers_after hy hside spec
  · rcases hk with hk | ⟨hpos, hbinds⟩
    · exact h.covers_stripped hk hside spec
    · exact .inr (.inr (.inr (.shortened hpos (.inr hbinds))))

/-- **The body of the program** speaks of its variables, and of what is not declared by it. -/
theorem closedBody (spec : Specification) (hsigs : spec.sigs = a.sigs) :
    ClosedBody a.declared (spec.Covers [] (Loose classes a.kept c m.bodyPart)) a.program.body where
  formulas f hf := by
    refine (h.program.body f hf).mono ⟨fun _ x hx => ?_, fun _ _ => trivial⟩
    simp only [speaking, declared, mem_append, mem_cons]
    rcases hx with hx | hx | hx | hx | hx
    · exact .inl (.inr hx)
    · rcases h.known_cases hx m.bodyPart with hx | hx | hx | hx
      · exact .inl (.inl (.inl (.inl (.inl (.inr (.inl hx))))))
      · exact .inl (.inl (.inl (.inr hx)))
      · exact .inr (.of_reserved hx spec ..)
      · exact .inr (.inr (.inr (.inr hx)))
    · rw [map_append, mem_append] at hx
      rcases hx with hx | hx
      · exact .inl (.inl (.inl (.inl (.inr (h.program.params ▸ hx)))))
      · exact .inl (.inr (map_subset _ h.program.locals hx))
    · obtain ⟨t, ht⟩ := Option.isSome_iff_exists.mp (h.program.returns ▸ hx.1)
      rw [ht]
      exact .inl (.inl (.inr (mem_singleton.mpr hx.2)))
    · exact .inr (.inr (.inr (.inr hx)))
  thrown t ht e he := by
    have hexception : e ∈ a.program.exceptions :=
      mem_eraseDups.mpr (mem_filterMap.mpr ⟨t, ht, he⟩)
    refine .inr (.inl ((perm_declared spec).mem_iff.mpr (mem_append_right _ ?_)))
    rw [hsigs, names_sigs]
    exact mem_append_right _ hexception

/-- **The verification condition** of the program. -/
theorem closes_verificationPred (s : Settings) (moduleSide programSide : Side) :
    (a.specify s moduleSide programSide).Closes (a.verificationPred (a.final s))
      (Loose classes a.kept c m.bodyPart) := by
  intro f hf x hx
  have hbody := h.closedBody (a.specify s moduleSide programSide) rfl
  have hnames : (a.verificationPred (a.final s)).params.map (·.name) = (a.final s).names := map_map ..
  rw [hnames]
  rcases mem_freeNames_verificationPred (closed_final s hbody) hf hx with hx | hx
  · exact .inl hx
  · exact .inr (hx.resolve_left not_mem_nil)

/-- **The specification of the program.** -/
theorem closesFor_specify (s : Settings) :
    (a.specify s a.owner.side a.program.side).ClosesFor (Loose classes a.kept c) c m
      (a.invariantPred a.owner.side) (a.prePred a.program.side) (a.postPred a.program.side)
      (a.verificationPred (a.final s)) where
  invariant := h.closes_invariantPred _
  requires := h.closes_prePred _
  ensures := h.closes_postPred _
  body := h.closes_verificationPred s _ _

end Speaks

end Frame

end Spec

/-! ## Passes -/

/-- The names of the state, from the relational modules. -/
theorem Relational.stateNames_of_ofModules {s : Settings} {ms : List Contract.Module}
    {rs : List Relational.Module} (h : ofModules s ms = .ok rs) :
    stateNames ms = ["return", "throw"] ++ rs.flatMap fun r => r.fields.map (·.name) := by
  have hfields : rs.map (·.fields) = ms.map (·.fields) := by
    refine map_eq_of_forall₂ (forall₂_of_mapM_ok h) fun m r hr => ?_
    obtain ⟨_, _, -, -, rfl⟩ := exists_of_ofModule hr
    rfl
  rw [stateNames, ← flatMap_map (·.fields) (fun vs => vs.map (·.name)) (l := ms), ← hfields,
    flatMap_map]

namespace Run

variable {σ : Type} {w w' : World σ} {s : Settings} {classes : List ClassDecl} {n : Nat}
  {g : Contracted s classes n} {p : Pass}

/-- **The contract modules of a pass are over the vocabulary of their classes.** -/
theorem Contracted.speaks (g : Contracted s classes n)
    (hapart : Contract.Apart (Contract.withQueryMethod s classes)) :
    ∀ m ∈ g.withPragmas, ∃ c ∈ Contract.withQueryMethod s classes,
      m.Speaks (Contract.withQueryMethod s classes) (g.withPragmas.map (·.id)) c := by
  obtain ⟨hspeaks, hrecords⟩ := Contract.ofClasses_speaks g.lowered_ok
  rw [g.lowered_eq] at hrecords
  have hspoken : Contract.Spoken (Contract.withQueryMethod s classes) g.modules :=
    ⟨hapart, Contract.ofClasses_ids g.lowered_ok, hspeaks⟩
  exact Contract.mergePragmas_speaks hspoken (fun c hc => Contract.exists_grows s hc) hrecords g.merged_ok

/-- **The program of a pass is over the vocabulary of its method.** -/
theorem Traced.speaks (h : Traced g p) (hclasses : ∀ c ∈ classes, c.Plain)
    (hapart : Contract.Apart (Contract.withQueryMethod s classes)) {owner program : String} {f : Spec.Frame}
    (hframe : Spec.frame? p.modules owner program = some f) :
    ∃ c ∈ Contract.withQueryMethod s classes, ∃ m k q, (m, k) ∈ Contract.numbered [] c.methods ∧
      owner = c.id ∧ program = Contract.programId c.id m.name k ∧
      f.Speaks (Contract.withQueryMethod s classes) c m q := by
  have hrelational := h.relational_of_plain hclasses
  obtain ⟨hmodules, howner, hid, hprogram, hprogramId⟩ := Spec.Frame.mem_of_frame? hframe
  have hkept : (g.withPragmas.map Contract.Module.asRead).map (·.id) = f.kept := by
    have hids := congrArg (List.map Prod.fst) (Relational.ofModules_ids hrelational)
    rw [map_map, map_map] at hids
    rw [Spec.Frame.kept, hmodules]
    exact hids.symm
  have hstate : Relational.stateNames (g.withPragmas.map Contract.Module.asRead) = f.state := by
    rw [Relational.stateNames_of_ofModules hrelational, Spec.Frame.state, Spec.Frame.fieldNames,
      Spec.Frame.fields, hmodules, map_flatMap]
    simp only [map_map, Function.comp_def]
  have hspeaks := Relational.ofModules_speaks hrelational (forall_mem_map.mpr fun m hm => by
    obtain ⟨c, hc, hspeaks⟩ := g.speaks hapart m hm
    exact ⟨c, hc, hspeaks.asRead⟩)
  rw [map_map] at hkept
  rw [hstate, show g.withPragmas.map (·.id) = f.kept from hkept, ← hmodules] at hspeaks
  obtain ⟨c, hc, hc'⟩ := hspeaks f.owner (hmodules ▸ howner)
  obtain ⟨m, k, q, hm, hq, hq'⟩ := hc'.programs f.program hprogram
  exact ⟨c, hc, m, k, q, hm, hid ▸ hc'.id, hprogramId ▸ hq, hapart.ids, hspeaks, hc', hq'⟩

/-- **What is left over in the specification of a pass** over plain classes with ids of their own: every
predicate is closed up to what is loose in its part of the contract of the method that is asked for. -/
theorem pass_closes {engine : Engine σ} {analyze : Bool}
    (h : (pass engine s classes analyze).run w = (p, w')) {a : Artifact} (ha : p.artifact = some a)
    (hclasses : ∀ c ∈ classes, c.Plain) (hapart : Contract.Apart (Contract.withQueryMethod s classes)) :
    ∃ spec inv pre post program, a = artifactOf s spec ∧ spec.preds = [inv, pre, post, program] ∧
      ∃ c ∈ Contract.withQueryMethod s classes, ∃ m k, (m, k) ∈ Contract.numbered [] c.methods ∧
        p.target = some (c.id, Contract.programId c.id m.name k) ∧
        Spec.assemble s p.modules (.collect p.modules) c.id (Contract.programId c.id m.name k) = .ok spec ∧
        spec.ClosesFor (Loose (Contract.withQueryMethod s classes) (p.modules.map (·.id)) c) c m inv pre post
          program := by
  obtain ⟨g, htraced⟩ := traced_of_artifact h ha
  obtain ⟨spec, rfl, hspec⟩ := htraced.artifact a ha
  obtain ⟨f, moduleSide, programSide, hframe, hmoduleSide, hprogramSide, rfl⟩ :=
    exists_frame_of_assemble hspec
  obtain ⟨hmodules, howner, hid, hprogram, hprogramId⟩ := Spec.Frame.mem_of_frame? hframe
  -- The index has the side variables of the program itself, since the classes are apart.
  have hkeeps := htraced.keepsApart hclasses hapart
  rw [← hid, hkeeps.modules _ howner] at hmoduleSide
  rw [← hprogramId, hkeeps.programs _ howner _ hprogram] at hprogramSide
  cases hmoduleSide
  cases hprogramSide
  obtain ⟨c, hc, m, k, q, hm, htarget, htarget', hspeaks⟩ := htraced.speaks hclasses hapart hframe
  refine ⟨_, _, _, _, _, rfl, rfl, c, hc, m, k, hm, ?_, ?_, ?_⟩
  · rw [htraced.target, ← htarget', ← htarget]
  · rw [← htarget', ← htarget]
    exact hspec
  · rw [← hmodules]
    exact hspeaks.closesFor_specify s

/-! ## A class with a quantified precondition -/

/-- A class whose method requires something of all objects of a type, and counts up a field. -/
def ranging (type : String) : ClassDecl where
  file := "C.java"
  name := "C"
  fields := [⟨.start, "f", some ⟨"int", false⟩⟩]
  methods := [{
    name := "m"
    clauses :=
      [⟨.start, .precondition, .quant .start .all "x" ⟨type, false⟩
          (.binary .start .eq (.ident .start "x") (.ident .start "x"))⟩,
        ⟨.start, .postcondition, .binary .start .eq (.ident .start "f")
          (.binary .start (.arith .add) (.old .start (.ident .start "f")) (.int .start 1))⟩]
    body := some ⟨.start, [.assign .start (.ident .start "f")
      (.binary .start (.arith .add) (.ident .start "f") (.int .start 1))]⟩ }]

theorem plain_ranging {type : String} (h : Formula.isName (ClassName.identifier type) = true) :
    (ranging type).Plain := by
  have hnames : ∀ x ∈ ["C", "f", "m", "x"], Formula.Lexeme.isWord x = true := by decide
  refine ⟨nofun, hnames "C" (by decide), forall_mem_singleton.mpr ⟨hnames "f" (by decide),
    fun t ht => Option.some.inj ht ▸ rfl⟩, rfl, nofun, forall_mem_singleton.mpr
      ⟨hnames "m" (by decide), nofun, nofun, ?_, nofun, fun b hb => Option.some.inj hb ▸ by decide⟩,
    fun _ => ?_⟩
  · simp [Source.Clause.plain, Source.Expr.plain, h, hnames "x" (by decide)]
  · exact Nat.lt_of_le_of_lt countP_le_length (Nat.one_lt_two_pow (by decide))

/-- The field of the object at hand. -/
def counted : Formula := .join (.ident "thiz") (.ident "C_f")

/-- What the method requires of all objects of the class `id`. -/
def allEqual (id : String) : Formula := .quant .all ["x"] (.ident id) (.binary .eq (.ident "x") (.ident "x"))

/-- The relational program of the method. -/
def counting (id : String) : Relational.Program where
  id := "C_m_0"
  owner := "C"
  method := "m"
  overload := 0
  locals := [⟨"t_0", .int⟩]
  pre := allEqual id
  post := .binary .eq (.join (.ident "thiz") (.ident "C_f'")) (.ident "arith_0")
  side := {
    vars := [⟨"arith_0", .ensures⟩]
    defs := [⟨.ensures, .binary .eq (.ident "arith_0") (.call "add" [counted, .int 1])⟩] }
  body := [.assign "t_0" (.call "add" [counted, .int 1]), .update "C_f" (.ident "thiz") (.ident "t_0")]

/-- The relational module of the class. -/
def rangingRelational (id : String) : Relational.Module :=
  { idleRelational [] with fields := [⟨"C_f", .int⟩], programs := [counting id] }

/-- The frame of the method. -/
def rangingFrame (id : String) : Spec.Frame := ⟨[rangingRelational id], rangingRelational id, counting id⟩

/-- The specification of the method. -/
def rangingSpec (id : String) : Spec.Specification :=
  (rangingFrame id).specify (asking "m") {} (counting id).side

/-- The class is the only signature, whatever the quantifier ranges over. -/
theorem names_sigs_rangingSpec (id : String) : (rangingSpec id).sigs.map (·.name) = ["C"] := by
  have hclasses : (rangingFrame id).classes = ["C"] := by
    have hids : (rangingFrame id).modules.map (·.id) = ["C"] := rfl
    have hmentioned : (rangingFrame id).mentioned = [.int, .int] := rfl
    simp [Spec.Frame.classes, Spec.Frame.otherClasses, hids, hmentioned]
  have hsigs : (rangingSpec id).sigs = (rangingFrame id).sigs := rfl
  rw [hsigs, Spec.Frame.names_sigs, hclasses]
  rfl

/-- The stages of a pass over a class whose quantifier ranges over its own objects. -/
def ownStages : Stages (asking "m") [ranging "C"] 0 :=
  .ofPlain _ _ _ ("C", "C_m_0") [rangingRelational "C"] (rangingSpec "C")
    (forall_mem_singleton.mpr (plain_ranging (by decide))) rfl (by decide +kernel) rfl rfl rfl rfl

/-- The stages of a pass over a class whose quantifier ranges over texts. -/
def foreignStages : Stages (asking "m") [ranging "String"] 0 :=
  .ofPlain _ _ _ ("C", "C_m_0")
    [rangingRelational "java_lang_String"] (rangingSpec "java_lang_String")
    (forall_mem_singleton.mpr (plain_ranging (by decide))) rfl (by decide +kernel) rfl rfl rfl rfl

/-- A quantifier over objects of the class itself. -/
theorem pass_closes_own : ∃ p w' spec,
    (pass (noEngine false) (asking "m") [ranging "C"] true).run idleWorld = (p, w') ∧
      p.artifact = some (artifactOf (asking "m") spec) ∧ spec.preds.length = 4 ∧
      ∀ q ∈ spec.preds, spec.Closes q fun _ => False := by
  obtain ⟨p, w', hpass, hrecorded, -⟩ := ownStages.exists_pass rfl stands_holding
  have hapart : Contract.Apart (Contract.withQueryMethod (asking "m") [ranging "C"]) :=
    ⟨by decide, by decide +kernel⟩
  obtain ⟨spec, inv, pre, post, program, hartifact, hpreds, c, hc, m, k, hm, htarget, hspec, hcloses⟩ :=
    pass_closes hpass hrecorded.artifact (List.forall_mem_singleton.mpr (plain_ranging (by decide))) hapart
  obtain rfl : c = ranging "C" := List.mem_singleton.mp hc
  obtain ⟨rfl, rfl⟩ : m = _ ∧ k = _ := Prod.mk.inj (List.mem_singleton.mp hm)
  rw [hrecorded.modules] at hspec hcloses
  obtain rfl : rangingSpec "C" = spec := Except.ok.inj (show Except.ok _ = _ from hspec)
  obtain rfl : _ = pre := (List.cons.inj (List.cons.inj hpreds).2).1
  have howner : "C" ∈ (rangingSpec "C").declared.map (·.name) := by
    rw [(Spec.perm_declared _).mem_iff, names_sigs_rangingSpec]
    decide
  have hissued : ∀ n x, Naming.issued n x ∉ ["f", "f"] := fun n x hname => by
    have hhead : (Naming.issued n x).toList.head? = some 'v' := by simp [Naming.issued]
    rw [(List.mem_pair.mp hname).elim id id] at hhead
    exact absurd hhead (by decide)
  have hkept : ∀ d ∈ Contract.withQueryMethod (asking "m") [ranging "C"], d.id ∈ ["C"] := by decide
  refine ⟨p, w', rangingSpec "C", hpass, hartifact ▸ hrecorded.artifact, rfl, ?_⟩
  rw [hpreds, List.forall_mem_cons, List.forall_mem_cons, List.forall_mem_cons, List.forall_mem_singleton]
  refine ⟨hcloses.invariant.of_declared fun x hx => ?_, hcloses.requires.of_declared fun x hx => ?_,
    hcloses.ensures.of_declared fun x hx => ?_, hcloses.body.of_declared fun x hx => ?_⟩
  · obtain ⟨_, ht, -⟩ := hx.exists_range hkept rfl (fun _ _ => List.not_mem_nil) rfl
    cases ht
  · obtain ⟨t, ht, rfl⟩ := hx.exists_range hkept rfl (fun _ _ => List.not_mem_nil) rfl
    obtain rfl := List.mem_singleton.mp ht
    exact howner
  · cases hx with
    | bare hx =>
      obtain ⟨_, ht, -⟩ := hx.exists_range hkept rfl hissued rfl
      cases ht
    | result hx =>
      obtain ⟨_, ht, -⟩ := hx.exists_range hkept rfl hissued rfl
      cases ht
    | shortened hk hx =>
      rcases hx with hx | ⟨_, hx, -⟩ | ⟨_, ⟨_, hx, -⟩, -⟩
      · have hprime : ∀ y ∈ ["throw", "thiz", "C_f"], '\'' ∉ y.toList := by decide
        exact absurd (Relational.prime_mem_iterate_primed x hk) (hprime _ hx)
      · cases hx
      · cases hx
  · obtain ⟨_, ht, -⟩ := hx.exists_range hkept rfl (fun _ _ => List.not_mem_nil) rfl
    cases ht

/-- **A quantifier over texts**: the class of texts is no parameter, and no signature is declared for it. -/
theorem pass_leaves_range : ∃ p w' spec,
    (pass (noEngine false) (asking "m") [ranging "String"] true).run idleWorld = (p, w') ∧
      p.artifact = some (artifactOf (asking "m") spec) ∧
      ∃ q ∈ spec.preds, ∃ f ∈ q.body.formulas, "java_lang_String" ∈ f.freeNames ∧
        ¬ spec.Covers (q.params.map (·.name)) (fun _ => False) "java_lang_String" := by
  obtain ⟨p, w', hpass, hrecorded, -⟩ := foreignStages.exists_pass rfl stands_holding
  refine ⟨p, w', rangingSpec "java_lang_String", hpass, hrecorded.artifact, _,
    List.mem_cons_of_mem _ List.mem_cons_self, allEqual "java_lang_String", ?_, by decide, ?_⟩
  · exact List.mem_cons_of_mem _ (List.mem_cons_of_mem _ List.mem_cons_self)
  · rintro (hparam | hsig | hint | hleft)
    · exact absurd hparam (by decide)
    · rw [(Spec.perm_declared _).mem_iff, names_sigs_rangingSpec] at hsig
      exact absurd hsig (by decide)
    · exact absurd hint (by decide)
    · exact hleft

end Run

end Relspec
