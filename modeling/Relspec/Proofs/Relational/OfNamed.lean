import Relspec.Proofs.Relational.Named
import Relspec.Proofs.Table

/-!
# Proofs/Relational/OfNamed — the names in relational modules

Lowering makes names out of those of a module and of numbers: primed names, temporaries, variables for
quantified ones, functions and predicates of integers.  So a test on names that such names pass is kept, and
the relational module of a module over identifiers is over identifiers.

* `Keeps` — the names that lowering makes pass a test;
* `passes_preState`, `passes_postState`, `passes_define`, `passes_skolemize` — contracts;
* `Flattens.named`, `Lowers.named` — bodies;
* `ofModules_named` — modules;
* `exists_of_mem_ofModules`, `isSkolem_of_ofProgram` — what a module keeps, and which variables are new.
-/

namespace Relspec

open List

namespace Relational

open Formula

/-- **A test that the names pass which lowering makes** out of names that pass it, and the literal that it
adds. -/
structure Keeps (T : Test) : Prop where
  truth : T.name "TruePred"
  falsity : T.name "FalsePred"
  function : ∀ op : ArithOp, T.name op.function
  predicate : ∀ op : ArithOp, T.name op.predicate
  primed : ∀ x, T.name x → T.name (primed x)
  unprimed : ∀ x, T.name x → T.name (Text.dropEnd x "'")
  skolem : ∀ n x, T.name x → T.name (skolemName n x)
  temp : ∀ n, T.name (tempName n)
  zero : T.literal 0

theorem keeps_isIdentifier : Keeps (.naming IsIdentifier) where
  truth := (by decide : IsIdentifier _)
  falsity := (by decide : IsIdentifier _)
  function op := (by cases op <;> decide : IsIdentifier _)
  predicate op := (by cases op <;> decide : IsIdentifier _)
  primed _ hx := hx.append (by decide)
  unprimed _ hx := hx.dropEnd _
  skolem n _ hx := (((by decide : IsIdentifier "sk_").append (isIdentifier_toString n)).append
    (by decide)).append hx
  temp n := (by decide : IsIdentifier "t_").append (isIdentifier_toString n)
  zero := trivial

section

variable {T : Test} (hT : Keeps T)

include hT

variable {a b f : Formula} {op : ArithOp}

/-! ## Contracts -/

theorem passes_functionCall (op : ArithOp) (ha : a.Passes T) (hb : b.Passes T) :
    (functionCall op a b).Passes T := ⟨hT.function op, ha, hb, trivial⟩

theorem passes_of_operation? (hf : f.Passes T) (h : operation? f = some (op, a, b)) :
    a.Passes T ∧ b.Passes T := by
  unfold operation? at h
  split at h
  · cases h
    exact hf
  · cases h
    exact ⟨hT.zero, hf⟩
  · cases h

theorem passes_inline (h : f.Passes T) : (inline f).Passes T := by
  refine h.rebuild (fun _ n hn => ?_) []
  unfold inlineNode
  split
  · next hop =>
    obtain ⟨ha, hb⟩ := passes_of_operation? hT hn hop
    exact passes_functionCall hT _ ha hb
  · exact hn

theorem passes_unprime (h : f.Passes T) : (unprime f).Passes T := by
  refine h.rebuild (fun _ n hn => ?_) []
  cases n with
  | ident name => exact hT.unprimed name hn
  | _ => exact hn

/-- **A precondition.** -/
theorem passes_preState (h : f.Passes T) : (preState f).Passes T := by
  refine (passes_inline hT h).rebuild (fun _ n hn => ?_) []
  cases n <;> exact hn

/-- **A postcondition.** -/
theorem passes_postState (state : List String) (h : f.Passes T) : (postState state f).Passes T := by
  refine (passes_inline hT h).rebuild (fun bound n hn => ?_) []
  cases n with
  | ident name =>
    dsimp only
    split
    · exact hT.primed name hn
    · exact hn
  | old x => exact passes_unprime hT hn
  | _ => exact hn

theorem passes_definedBy? (hf : f.Passes T) (h : definedBy? f = some (op, a, b)) :
    a.Passes T ∧ b.Passes T := by
  unfold definedBy? at h
  split at h
  · next x =>
    obtain ⟨⟨op', a', b'⟩, hop, heq⟩ := Option.map_eq_some_iff.mp h
    cases heq
    have hparts := passes_of_operation? (f := x) hT hf hop
    exact hparts
  · exact passes_of_operation? hT hf h

theorem passes_applied (native : Bool) (hf : f.Passes T) : (applied native f).Passes T := by
  unfold applied
  split
  · split
    · next op a b hop =>
      obtain ⟨ha, hb⟩ := passes_definedBy? hT hf.2 hop
      cases native with
      | true => exact ⟨hT.predicate op, ha, hb, hf.1, trivial⟩
      | false => exact ⟨hf.1, passes_functionCall hT op ha hb⟩
    · exact hf
  · exact hf

/-- **The definition of a side variable.** -/
theorem passes_define (native : Bool) (state : List String) {d : SideDef} (h : d.formula.Passes T) :
    (define native state d).formula.Passes T := by
  have happlied := passes_applied hT native h
  unfold define
  split
  · exact passes_postState hT state happlied
  · exact passes_preState hT happlied
  · exact passes_preState hT happlied

/-! ## Variables for quantified ones -/

theorem skolemNames_passes : ∀ {vars : List String} (n : Nat), (∀ x ∈ vars, T.name x) →
    ∀ e ∈ skolemNames n vars, T.name e.2
  | [], _, _ => nofun
  | x :: vars, n, h => by
    obtain ⟨hx, hvars⟩ := forall_mem_cons.mp h
    exact forall_mem_cons.mpr ⟨hT.skolem n x hx, skolemNames_passes (n + 1) hvars⟩

omit hT in
theorem skolemType_passes {domain : String} (h : T.name domain) :
    ∀ c, skolemType domain = .ref c → T.name c := by
  rw [skolemType]
  split_ifs
  · exact nofun
  · exact nofun
  · exact fun c hc => ValueType.ref.inj hc ▸ h

/-- Variables whose names and types pass a test. -/
def VarsOver (P : String → Prop) (vs : List Var) : Prop :=
  ∀ v ∈ vs, P v.name ∧ ∀ c, v.type = .ref c → P c

theorem passes_skolemizeConjunct (kind : Formula.Quantifier) (n : Nat) {c : Formula} (hc : c.Passes T) :
    (skolemizeConjunct kind n c).1.Passes T ∧ VarsOver T.name (skolemizeConjunct kind n c).2 := by
  unfold skolemizeConjunct
  split
  · next k vars domain body =>
    obtain ⟨hvars, hdomain, hbody⟩ := hc
    have hnames := skolemNames_passes hT n hvars
    have hranges : ∀ f ∈ (skolemNames n vars).map fun v => Formula.binary .mem (.ident v.2) (.ident domain),
        f.Passes T := forall_mem_map.mpr fun v hv => ⟨hnames v hv, hdomain⟩
    have hrenamed : (body.rename (.ofList (skolemNames n vars))).Passes T :=
      hbody.rename fun x y hy => (Table.Forall.ofList (P := fun _ y => T.name y) hnames).find? hy
    split
    · refine ⟨?_, forall_mem_map.mpr fun v hv => ⟨hnames v hv, skolemType_passes hdomain⟩⟩
      dsimp only
      split
      · exact .all hT.truth hT.falsity
          (forall_mem_append.mpr ⟨hranges, forall_mem_singleton.mpr hrenamed⟩)
      · exact .implies hT.truth (.all hT.truth hT.falsity hranges) hrenamed
    · exact ⟨⟨hvars, hdomain, hbody⟩, nofun⟩
  · exact ⟨hc, nofun⟩

theorem passes_skolemizeAll (kind : Formula.Quantifier) : ∀ {cs : List Formula} (n : Nat),
    (∀ c ∈ cs, c.Passes T) → (∀ c ∈ (skolemizeAll kind n cs).1, c.Passes T) ∧
      VarsOver T.name (skolemizeAll kind n cs).2
  | [], _, _ => ⟨nofun, nofun⟩
  | c :: cs, n, h => by
    obtain ⟨hc, hcs⟩ := forall_mem_cons.mp h
    obtain ⟨hfirst, hvars⟩ := passes_skolemizeConjunct hT kind n hc
    obtain ⟨hrest, hmore⟩ := passes_skolemizeAll kind (n + (skolemizeConjunct kind n c).2.length) hcs
    exact ⟨forall_mem_cons.mpr ⟨hfirst, hrest⟩, forall_mem_append.mpr ⟨hvars, hmore⟩⟩

/-- **A contract whose quantifiers become variables.** -/
theorem passes_skolemize (kind : Formula.Quantifier) (n : Nat) (h : f.Passes T) :
    (skolemize kind n f).1.Passes T ∧ VarsOver T.name (skolemize kind n f).2 := by
  have hcs := conjuncts_induction (P := Passes T) (fun _ _ => id) h
  obtain ⟨hconjuncts, hvars⟩ := passes_skolemizeAll hT kind n hcs
  exact ⟨.all hT.truth hT.falsity hconjuncts, hvars⟩

theorem passes_requiresOf (s : Settings) {p : Contract.Program} (h : p.requires.Passes T) :
    (requiresOf s p).1.Passes T ∧ VarsOver T.name (requiresOf s p).2 := by
  rw [requiresOf]
  split
  · exact passes_skolemize hT _ 0 h
  · exact ⟨h, nofun⟩

theorem passes_ensuresOf (s : Settings) {p : Contract.Program} (h : p.ensures.Passes T) :
    (ensuresOf s p).1.Passes T ∧ VarsOver T.name (ensuresOf s p).2 := by
  rw [ensuresOf]
  split
  · exact passes_skolemize hT _ _ h
  · exact ⟨h, nofun⟩

end

/-! ## Bodies -/

theorem named_inline {f : Formula} (h : f.Named) : (inline f).Named :=
  passes_naming.mp (passes_inline keeps_isIdentifier (passes_naming.mpr h))

theorem named_map_inline {o : Option Formula} (h : ∀ f ∈ o, f.Named) : ∀ f ∈ o.map inline, f.Named := by
  intro f hf
  obtain ⟨g, hg, rfl⟩ := Option.map_eq_some_iff.mp hf
  exact named_inline (h g hg)

theorem named_of_operation? {f a b : Formula} {op : ArithOp} (hf : f.Named)
    (h : operation? f = some (op, a, b)) : a.Named ∧ b.Named :=
  (passes_of_operation? keeps_isIdentifier (passes_naming.mpr hf) h).imp passes_naming.mp passes_naming.mp

theorem Stmt.namedAll_append : ∀ {ss ts : List Stmt}, NamedAll (ss ++ ts) ↔ NamedAll ss ∧ NamedAll ts
  | [], _ => (and_iff_right trivial).symm
  | s :: ss, ts => by rw [cons_append, NamedAll, namedAll_append, NamedAll, and_assoc]

theorem setTemp_named (native : Bool) (op : ArithOp) {a b : Formula} (ha : a.Named) (hb : b.Named) (n : Nat) :
    (setTemp native op a b (tempName n)).Named := by
  have hargs : ∀ f ∈ [a, b], f.Named := forall_mem_cons.mpr ⟨ha, forall_mem_singleton.mpr hb⟩
  cases native with
  | true => exact ⟨keeps_isIdentifier.temp n, keeps_isIdentifier.predicate op, hargs⟩
  | false => exact ⟨keeps_isIdentifier.temp n, named_call.mpr ⟨keeps_isIdentifier.function op, hargs⟩⟩

section

variable {native : Bool} {ss : List Stmt} {n m : Nat}

/-- **Taking the operations out of expressions** over identifiers. -/
theorem Flattens.named {fs gs : List Formula} (h : Flattens native fs gs ss n m) (hfs : ∀ f ∈ fs, f.Named) :
    (∀ g ∈ gs, g.Named) ∧ Stmt.NamedAll ss := by
  induction h with
  | nil => exact ⟨nofun, trivial⟩
  | append _ _ ih ih' =>
    obtain ⟨hfs, hfs'⟩ := forall_mem_append.mp hfs
    exact ⟨forall_mem_append.mpr ⟨(ih hfs).1, (ih' hfs').1⟩,
      Stmt.namedAll_append.mpr ⟨(ih hfs).2, (ih' hfs').2⟩⟩
  | temp hf _ ih =>
    obtain ⟨hgs, hss⟩ := ih (by simpa using named_of_operation? (hfs _ (.head _)) hf)
    have hset := setTemp_named native ‹_› (hgs _ (.head _)) (hgs _ (.tail _ (.head _))) ‹_›
    exact ⟨forall_mem_singleton.mpr (named_ident.mpr (keeps_isIdentifier.temp _)),
      Stmt.namedAll_append.mpr ⟨hss, hset, trivial⟩⟩
  | call _ ih =>
    obtain ⟨hname, hargs⟩ := named_call.mp (hfs _ (.head _))
    exact ⟨forall_mem_singleton.mpr (named_call.mpr ⟨hname, (ih hargs).1⟩), (ih hargs).2⟩
  | binary _ _ ih | unary _ _ ih | join _ ih | ite _ ih => simpa using ih (by simpa using hfs)
  | quant => exact ⟨forall_mem_singleton.mpr (named_inline (hfs _ (.head _))), trivial⟩
  | old | ident | int => exact ⟨hfs, trivial⟩

/-- **The relational statements that stand for statements** over identifiers. -/
theorem Lowers.named {xs : List Contract.Stmt} (h : Lowers native xs ss n m)
    (hxs : Contract.Stmt.NamedAll xs) : Stmt.NamedAll ss := by
  induction h with
  | nil => trivial
  | cons _ _ ih ih' => exact Stmt.namedAll_append.mpr ⟨ih ⟨hxs.1, trivial⟩, ih' hxs.2⟩
  | assign h =>
    obtain ⟨⟨hx, hf⟩, -⟩ := hxs
    obtain ⟨hg, hss⟩ := h.named (forall_mem_singleton.mpr hf)
    exact Stmt.namedAll_append.mpr ⟨hss, ⟨named_ident.mp hx, hg _ (.head _)⟩, trivial⟩
  | update h =>
    obtain ⟨⟨hx, hf⟩, -⟩ := hxs
    obtain ⟨hobject, hfield⟩ := named_join.mp hx
    obtain ⟨hgs, hss⟩ := h.named (by simpa using ⟨hf, hobject⟩)
    exact Stmt.namedAll_append.mpr
      ⟨hss, ⟨named_ident.mp hfield, hgs _ (.tail _ (.head _)), hgs _ (.head _)⟩, trivial⟩
  | branch h _ _ ihthn ihels =>
    obtain ⟨⟨hf, hthn, hels⟩, -⟩ := hxs
    obtain ⟨hg, hss⟩ := h.named (forall_mem_singleton.mpr hf)
    exact Stmt.namedAll_append.mpr ⟨hss, ⟨hg _ (.head _), ihthn hthn, ihels hels⟩, trivial⟩
  | loop h _ ih =>
    obtain ⟨⟨hf, hinvariant, hvariant, hbody⟩, -⟩ := hxs
    obtain ⟨hg, hlead⟩ := h.named (forall_mem_singleton.mpr hf)
    exact ⟨⟨hlead, hg _ (.head _), named_map_inline hinvariant, named_map_inline hvariant, ih hbody⟩, trivial⟩
  | assert h | assume h =>
    obtain ⟨hg, hss⟩ := h.named (forall_mem_singleton.mpr hxs.1)
    exact Stmt.namedAll_append.mpr ⟨hss, hg _ (.head _), trivial⟩
  | ret h =>
    obtain ⟨hg, hss⟩ := h.named (forall_mem_singleton.mpr (hxs.1 _ rfl))
    exact Stmt.namedAll_append.mpr ⟨hss, by simpa [Stmt.Named] using hg, trivial⟩
  | leave | raise => exact hxs

end

/-! ## Programs and modules -/

theorem named_of_varsOver {vs : List Var} (h : VarsOver IsIdentifier vs) : ∀ v ∈ vs, v.Named := fun v hv => by
  obtain ⟨hname, htype⟩ := h v hv
  refine ⟨hname, ?_⟩
  cases href : v.type with
  | ref c => exact htype c href
  | _ => trivial

section

variable {s : Settings} {state : List String}
variable {owner : String} {p : Contract.Program} {q : Program} {m : Contract.Module}
  {ms : List Contract.Module} {rs : List Module}

theorem named_sideOf {mode : Mode} {t t' : Side} (ht : t.Named) (h : sideOf mode state t = .ok t') :
    t'.Named := by
  obtain ⟨defs, hdefs, h⟩ := exists_of_except_ok h
  cases h
  refine ⟨ht.vars, forall_mem_of_forall₂_mem (forall₂_of_mapM_ok hdefs) fun d d' hd hd' => ?_⟩
  obtain ⟨_, -, hd'⟩ := exists_of_except_ok hd'
  cases hd'
  exact passes_naming.mp
    (passes_define keeps_isIdentifier mode.native state (passes_naming.mpr (ht.defs d hd)))

/-- **The relational program of a program over identifiers.** -/
theorem ofProgram_named (hp : p.Named owner) (h : ofProgram s state owner p = .ok q) : q.Named := by
  obtain ⟨side, body, temps, hside, hbody, rfl⟩ := exists_of_ofProgram h
  obtain ⟨hrequires, hskolems⟩ := passes_requiresOf keeps_isIdentifier s (passes_naming.mpr hp.requires)
  obtain ⟨hensures, hmore⟩ := passes_ensuresOf keeps_isIdentifier s (passes_naming.mpr hp.ensures)
  have htemps : ∀ v ∈ (List.range temps).map fun n => (⟨tempName n, .int⟩ : Var), v.Named :=
    forall_mem_map.mpr fun n _ => ⟨keeps_isIdentifier.temp n, trivial⟩
  exact {
    id := hp.id
    method := hp.method
    params := hp.params
    locals := forall_mem_append.mpr ⟨hp.locals, htemps⟩
    returns := hp.returns
    pre := passes_naming.mp (passes_preState keeps_isIdentifier hrequires)
    post := passes_naming.mp (passes_postState keeps_isIdentifier state hensures)
    side := named_sideOf hp.side hside
    skolems := forall_mem_append.mpr ⟨named_of_varsOver hskolems, named_of_varsOver hmore⟩
    body := (ofStmts_lowers hbody).named hp.body }

theorem named_invariantOf (hm : m.Named) :
    IsIdentifier (invariantOf m).name ∧ (invariantOf m).body.Named := by
  rw [invariantOf]
  cases hfind : m.predicate? (m.invariant.getD "") with
  | none =>
    refine ⟨?_, Formula.named_truth⟩
    cases hname : m.invariant with
    | none => exact (by decide : IsIdentifier "")
    | some name => exact hm.invariant name hname
  | some p => exact hm.predicates p (mem_of_find?_eq_some hfind)

theorem ofModule_named {r : Module} (hm : m.Named) (h : ofModule s state m = .ok r) : r.Named := by
  obtain ⟨side, programs, hside, hprograms, rfl⟩ := exists_of_ofModule h
  obtain ⟨hname, hbody⟩ := named_invariantOf hm
  exact {
    id := hm.id
    fields := hm.fields
    invariantName := hname
    invariant := passes_naming.mp (passes_preState keeps_isIdentifier (passes_naming.mpr hbody))
    side := named_sideOf hm.side hside
    programs := forall_mem_of_forall₂_mem hprograms fun p _ hp h => ofProgram_named (hm.programs p hp) h }

/-! ## What lowering keeps -/

/-- A variable that stands for a quantified one. -/
def IsSkolem (v : Var) : Prop := ∃ n x, v.name = skolemName n x

theorem exists_of_mem_skolemNames : ∀ {vars : List String} {n : Nat},
    ∀ e ∈ skolemNames n vars, ∃ k x, e.2 = skolemName k x
  | [], _ => nofun
  | x :: _, n => forall_mem_cons.mpr ⟨⟨n, x, rfl⟩, exists_of_mem_skolemNames⟩

theorem isSkolem_skolemizeConjunct (kind : Formula.Quantifier) (n : Nat) (c : Formula) :
    ∀ v ∈ (skolemizeConjunct kind n c).2, IsSkolem v := by
  unfold skolemizeConjunct
  split
  · split
    · exact forall_mem_map.mpr exists_of_mem_skolemNames
    · exact nofun
  · exact nofun

theorem isSkolem_skolemizeAll (kind : Formula.Quantifier) (cs : List Formula) (n : Nat) :
    ∀ v ∈ (skolemizeAll kind n cs).2, IsSkolem v := by
  induction cs generalizing n with
  | nil => exact forall_mem_nil _
  | cons c cs ih => exact forall_mem_append.mpr ⟨isSkolem_skolemizeConjunct kind n c, ih _⟩

theorem isSkolem_of_ofProgram (h : ofProgram s state owner p = .ok q) : ∀ v ∈ q.skolems, IsSkolem v := by
  obtain ⟨side, body, temps, -, -, rfl⟩ := exists_of_ofProgram h
  have hskolems : ∀ (b : Bool) (kind : Formula.Quantifier) (n : Nat) (f : Formula),
      ∀ v ∈ (if b then skolemize kind n f else (f, [])).2, IsSkolem v := by
    intro b kind n f
    cases b with
    | true => exact isSkolem_skolemizeAll kind f.conjuncts n
    | false => exact nofun
  exact forall_mem_append.mpr ⟨hskolems _ _ _ _, hskolems _ _ _ _⟩

theorem name_invariantOf (m : Contract.Module) : (invariantOf m).name = m.invariant.getD "" := by
  rw [invariantOf]
  cases hfind : m.predicate? (m.invariant.getD "") with
  | none => rfl
  | some p =>
    have hname := List.find?_some (p := fun q : Predicate => q.name == m.invariant.getD "") hfind
    exact beq_iff_eq.mp hname

/-- A relational module keeps the id and the name of the invariant. -/
theorem exists_of_mem_ofModules (h : ofModules s ms = .ok rs) : ∀ r ∈ rs, ∃ m ∈ ms, r.id = m.id ∧
      r.invariant.name = m.invariant.getD "" ∧
      ∀ q ∈ r.programs, ∃ p ∈ m.programs, ofProgram s (stateNames ms) m.id p = .ok q := by
  refine forall_mem_of_forall₂_mem (forall₂_of_mapM_ok h) fun m r hm hr => ?_
  obtain ⟨side, programs, -, hprograms, rfl⟩ := exists_of_ofModule hr
  refine ⟨m, hm, rfl, name_invariantOf m, ?_⟩
  exact forall_mem_of_forall₂_mem hprograms fun p q hp hq => ⟨p, hp, hq⟩

/-- **The relational modules of modules over identifiers are over identifiers.** -/
theorem ofModules_named (hms : ∀ m ∈ ms, m.Named) (h : ofModules s ms = .ok rs) : ∀ r ∈ rs, r.Named :=
  forall_mem_of_forall₂_mem (forall₂_of_mapM_ok h) fun m _ hm h => ofModule_named (hms m hm) h

end

end Relational

end Relspec
