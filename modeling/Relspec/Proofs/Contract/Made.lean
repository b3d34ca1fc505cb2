import Relspec.Proofs.Contract.Issued

/-!
# Proofs/Contract/Made — what programs and modules are made of

The program of a method and the module of a class come of a computation that issues names and may fail.
When it has not failed, its parts have not, and this is what they have given.

* `MadeFrom`, `madeFrom_ofMethod` — the program of a method;
* `exists_of_ofClass` — the module of a class;
* `ofEach_induction` — what holds of the modules and the catalog after each class holds of those of a run.
-/

namespace Relspec.Contract

open Source (ClassDecl Method)
open Source.ClassTable
open Arithmetic (extractPart)

section

variable {α : Type} {a : α} {s s' : Supply}

theorem eq_of_withNames {x : Naming α} (h : (liftM (withNames x) : Lowering α).run.run s = (.ok a, s')) :
    (x.run s.names).1 = a := by
  cases h
  rfl

theorem eq_of_withSides {x : SideNaming α} (h : (liftM (withSides x) : Lowering α).run.run s = (.ok a, s')) :
    (x.run s.sides).1 = a ∧ s'.sides = (x.run s.sides).2 := by
  cases h
  exact ⟨rfl, rfl⟩

theorem eq_of_except {x : Except Fault α} (h : (liftM x : Lowering α).run.run s = (.ok a, s')) :
    x = .ok a := by
  cases x with
  | ok b =>
    cases h
    rfl
  | error f => cases h

/-- The type of a result is that of the source. -/
theorem exists_of_returns {site : Site} {what : String} {pos : Position} {t : Option Source.TypeRef}
    {returns : Option ValueType} (hrun : (t.mapM fun r =>
      (liftM (typeOrFault site r what pos) : Lowering ValueType)).run.run s = (.ok returns, s')) :
    ∀ v ∈ returns, ∃ r ∈ t, typeOrFault site r what pos = .ok v := by
  cases t with
  | none =>
    cases hrun
    exact nofun
  | some r =>
    rw [Option.mapM_some, map_eq_pure_bind] at hrun
    obtain ⟨v, s₁, hv, hrun⟩ := exists_of_bind_ok hrun
    cases hrun
    exact fun w hw => ⟨r, rfl, Option.some.inj hw ▸ eq_of_except hv⟩

end

variable {classes : List ClassDecl} {c : ClassDecl} {s s' : Supply}

/-- **What the program of a method is made of**: its clauses mean `pre` and `post`, once names and side
variables have been issued. -/
structure MadeFrom (classes : List ClassDecl) (c : ClassDecl) (m : Method) (overload : Nat) (p : Program)
    (scope : Source.Scope) (k n n' : Nat) (pre post : Formula) : Prop where
  id_eq : p.id = programId c.id m.name overload
  method_eq : p.method = m.name
  overload_eq : p.overload = overload
  scope_eq : scope = (m.rename.run k).1.params
  params_ok : paramsOf ⟨classes, c, m.signature, none⟩ m scope = .ok p.params
  returns_ok : ∀ v ∈ p.returns, ∃ t ∈ m.returns,
    typeOrFault ⟨classes, c, m.signature, none⟩ t "array return type" m.pos = .ok v
  locals_ok : localsOf ⟨classes, c, m.signature, p.returns⟩ (m.rename.run k).1.declarations = .ok p.locals
  pre_ok : ∃ k', clausesOf ⟨classes, c, m.signature, p.returns⟩ (typing (p.params ++ p.locals))
    (((m.clausesOf .precondition).mapM (Source.Clause.rename scope)).run k').1 = .ok pre
  post_ok : ∃ k', clausesOf ⟨classes, c, m.signature, p.returns⟩ (typing (p.params ++ p.locals))
    (((m.clausesOf .postcondition).mapM (Source.Clause.rename scope)).run k').1 = .ok post
  next_eq : n' = ((extractPart .requires pre).run n).2
  requires_eq : p.requires = ((extractPart .requires pre).run n).1.1
  ensures_eq : p.ensures = ((extractPart .ensures post).run n').1.1
  side_eq : p.side = ((extractPart .requires pre).run n).1.2 ++
    ((extractPart .ensures post).run n').1.2
  body_ok : ofStmts ⟨classes, c, m.signature, p.returns⟩ (typing (p.params ++ p.locals))
    (m.rename.run k).1.body = .ok p.body

theorem madeFrom_ofMethod {m : Method} {overload : Nat} {p : Program} {scope : Source.Scope}
    (hrun : (ofMethod classes c m overload).run.run s = (.ok (p, scope), s')) :
    ∃ k n n' pre post, MadeFrom classes c m overload p scope k n n' pre post ∧
      s'.sides = ((extractPart .ensures post).run n').2 := by
  simp only [ofMethod, run_bind_eq_ok] at hrun
  obtain ⟨renamed, s₁, hrenamed, params, s₂, hparams, returns, s₃, hreturns, locals, s₄, hlocals, requires, s₅,
    hrequires, ensures, s₆, hensures, pre, s₇, hpre, post, s₈, hpost, body, s₉, hbody, ⟨pre', side⟩, s₁₀, hpre',
    ⟨post', side'⟩, s₁₁, hpost', ⟨⟩⟩ := hrun
  obtain rfl := eq_of_withNames hrenamed
  obtain rfl := eq_of_withNames hrequires
  obtain rfl := eq_of_withNames hensures
  obtain ⟨hpre', hnext⟩ := eq_of_withSides hpre'
  obtain ⟨hpost', hnext'⟩ := eq_of_withSides hpost'
  refine ⟨s.names, s₉.sides, s₁₀.sides, pre, post, ?_, hnext'⟩
  exact {
    id_eq := rfl
    method_eq := rfl
    overload_eq := rfl
    scope_eq := rfl
    params_ok := eq_of_except hparams
    returns_ok := exists_of_returns hreturns
    locals_ok := eq_of_except hlocals
    next_eq := hnext
    pre_ok := ⟨_, eq_of_except hpre⟩
    post_ok := ⟨_, eq_of_except hpost⟩
    requires_eq := by rw [hpre']
    ensures_eq := by rw [hpost']
    side_eq := by rw [hpre', hpost']
    body_ok := eq_of_except hbody }

/-- **What a class becomes**: its invariants mean one formula, and each method a program. -/
theorem exists_of_ofClass {l : LoweredClass} (hrun : (ofClass classes c).run.run s = (.ok l, s')) :
    ∃ (k n : Nat) (invariant : Formula) (programs : List (Program × Source.Scope)),
      clausesOf ⟨classes, c, c.name, none⟩ .empty
        ((c.invariants.mapM (Source.Clause.rename .empty)).run k).1 = .ok invariant ∧
      ((extractPart .invariant invariant).run n).2 ≤ s'.sides ∧
      List.Forall₂ (fun q p => ∃ k n n' pre post, MadeFrom classes c q.1 q.2 p.1 p.2 k n n' pre post ∧
        ((extractPart .ensures post).run n').2 ≤ s'.sides) (numbered [] c.methods) programs ∧
      l = {
        body := { id := c.id, className := c.qualifiedName, fields := ownFields classes c,
                  invariant := some (invariantName c.id),
                  predicates := [⟨invariantName c.id, [selfParam c.id],
                    ((extractPart .invariant invariant).run n).1.1⟩],
                  side := ((extractPart .invariant invariant).run n).1.2,
                  programs := programs.map (·.1) }
        programs := .ofList ((c.methods.zip programs).map fun (m, p) =>
          (c.qualifiedName ++ "." ++ m.signature, p.1.id))
        params := .ofList (programs.map fun p => (p.1.id, p.2)) } := by
  simp only [ofClass, run_bind_eq_ok] at hrun
  obtain ⟨_, s₁, -, invariants, s₂, hinvariants, invariant, s₃, hinvariant, ⟨invariant', side⟩, s₄, hpart,
    programs, s₅, hprograms, ⟨⟩⟩ := hrun
  obtain rfl := eq_of_withNames hinvariants
  obtain ⟨hpart, hnext⟩ := eq_of_withSides hpart
  obtain ⟨rfl, rfl⟩ := Prod.mk.inj hpart
  have hle := (closed_lowering.mapM (issuing_numbered classes c) (numbered [] c.methods)).sides_le s₄
  rw [hprograms, hnext] at hle
  refine ⟨_, _, invariant, programs, eq_of_except hinvariant, hle, ?_, rfl⟩
  refine (forall₂_of_mapM_issuing (issuing_numbered classes c) hprograms).imp fun q p ⟨_, _, hp, hle⟩ => ?_
  obtain ⟨k, n, n', pre, post, hmade, hnext⟩ := madeFrom_ofMethod hp
  exact ⟨k, n, n', pre, post, hmade, hnext ▸ hle⟩

/-! ## Classes one by one -/

section Each

variable {s : Settings}

/-- **What holds after each class holds after a run.**  The property may speak of the classes that are
still to come, and of what has been issued; no classes are left when there is a result. -/
theorem ofEach_induction {P : List ClassDecl → List Module → Catalog → Supply → Prop}
    (hadd : ∀ {c cs done catalog n l n'}, s.isRelevant c.qualifiedName = true → P (c :: cs) done catalog n →
      (ofClass classes c).run.run n = (.ok l, n') →
        P cs (done ++ [l.body]) (catalog.add c.qualifiedName l.body l.programs l.params) n')
    (hfail : ∀ {c cs done catalog n place fault n'}, s.isRelevant c.qualifiedName = true →
      P (c :: cs) done catalog n → (ofClass classes c).run.run n = (.error fault, n') →
        P cs done (catalog.fail c.qualifiedName place fault) n')
    (hskip : ∀ {c cs done catalog n}, s.isRelevant c.qualifiedName = false → P (c :: cs) done catalog n →
      P cs done catalog n) :
    ∀ {cs : List ClassDecl} {done : List Module} {catalog : Catalog} (n : Supply), P cs done catalog n →
      ∃ rest modules n', P rest modules ((ofEach s classes done catalog cs).run n).1.catalog n' ∧
        ∀ ms, ((ofEach s classes done catalog cs).run n).1.result = .ok ms →
          rest = [] ∧ ms = modules ∧ n' = ((ofEach s classes done catalog cs).run n).2 := by
  intro cs
  induction cs with
  | nil => exact fun {done} _ n h => ⟨[], done, n, h, fun ms hms => ⟨rfl, (Except.ok.inj hms).symm, rfl⟩⟩
  | cons c cs ih =>
    intro done catalog n h
    rw [ofEach]
    split
    · next hrelevant =>
      rw [StateT.run_bind]
      rcases hrun : (ofClass classes c).run.run n with ⟨r, n'⟩
      cases r with
      | ok l => exact ih n' (hadd hrelevant h hrun)
      | error f =>
        by_cases hchecked : ClassName.same c.qualifiedName s.className = true
        · simp only [hchecked, if_true]
          exact ⟨c :: cs, done, n, h, fun ms hms => by cases hms⟩
        · simp only [hchecked]
          exact ih n' (hfail hrelevant h hrun)
    · next hrelevant => exact ih n (hskip (Bool.eq_false_iff.mpr hrelevant) h)

/-- **What each class of a pass keeps holds after the pass.** -/
theorem ofClasses_induction {P : List Module → Catalog → Prop} (s : Settings) (classes : List ClassDecl)
    (hadd : ∀ {c done catalog n l n'}, c ∈ withQueryMethod s classes → P done catalog →
      (ofClass (withQueryMethod s classes) c).run.run n = (.ok l, n') →
        P (done ++ [l.body]) (catalog.add c.qualifiedName l.body l.programs l.params))
    (hfail : ∀ {name done catalog place fault}, P done catalog → P done (catalog.fail name place fault))
    (n : Supply) (h : P [] {}) :
    ∃ modules, P modules ((ofClasses s classes).run n).1.catalog ∧
      ∀ ms, ((ofClasses s classes).run n).1.result = .ok ms → ms = modules := by
  have heach : ofClasses s classes =
    ofEach s (withQueryMethod s classes) [] {} (withQueryMethod s classes) := rfl
  rw [heach]
  obtain ⟨_, modules, _, ⟨-, hP⟩, hresult⟩ := ofEach_induction (s := s)
    (P := fun rest done catalog _ => (∀ c ∈ rest, c ∈ withQueryMethod s classes) ∧ P done catalog)
    (fun _ ⟨hrest, h⟩ hrun => ⟨(List.forall_mem_cons.mp hrest).2, hadd (hrest _ (.head _)) h hrun⟩)
    (fun _ ⟨hrest, h⟩ _ => ⟨(List.forall_mem_cons.mp hrest).2, hfail h⟩)
    (fun _ ⟨hrest, h⟩ => ⟨(List.forall_mem_cons.mp hrest).2, h⟩) n ⟨fun _ hc => hc, h⟩
  exact ⟨modules, hP, fun ms hms => (hresult ms hms).2.1⟩

end Each

end Relspec.Contract
