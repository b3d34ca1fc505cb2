import Relspec.Contract.Pragmas
import Relspec.Proofs.Arithmetic.Definitions
import Relspec.Proofs.Failing
import Relspec.Proofs.Source.Renaming

/-!
# Proofs/Contract/Issued — the names that a computation issues

Whatever issues names or side variables is put together from the two computations that issue one.  So every
computation on the way to contract modules has a record of what it issues, in order, and no record has a name
twice.

* `Log`, `Issues` — what a computation issues, by how it is put together;
* `Issues.counts` — issued names are numbered in order;
* `issuing_ofMethod`, `issuing_mergeAssertion` — methods and pragmas have a record.
-/

namespace Relspec

open List

namespace Contract

variable {l : Log} {s : Supply} {α : Type} {x : Supplied α}

/-! ## Records -/

/-- Names and side variables, in the order in which they were issued. -/
structure Log where
  names : List String := []
  sides : List String := []

/-- One record after the other. -/
def Log.append (l m : Log) : Log := ⟨l.names ++ m.names, l.sides ++ m.sides⟩

instance : Append Log := ⟨Log.append⟩

/-- **What a computation issues** from a supply on. -/
inductive Issues : {α : Type} → Supplied α → Supply → Log → Prop where
  | pure {α : Type} (a : α) (s : Supply) : Issues (Pure.pure a : Supplied α) s {}
  | name (x : String) (s : Supply) : Issues (withNames (Naming.fresh x)) s
      { names := [((withNames (Naming.fresh x)).run s).1] }
  | side (inOld : Bool) (node : Formula) (s : Supply) : Issues (withSides (Arithmetic.name inOld node)) s
      { sides := ((withSides (Arithmetic.name inOld node)).run s).1.2.map (·.name) }
  | bind {α β : Type} {x : Supplied α} {f : α → Supplied β} {s : Supply} {l m : Log} (hx : Issues x s l)
      (hf : Issues (f (x.run s).1) (x.run s).2 m) : Issues (x >>= f) s (l ++ m)

/-- **What is issued is numbered in order**, and the supply counts it. -/
structure Counts (l : Log) (s s' : Supply) : Prop where
  names_le : s.names ≤ s'.names
  names : Source.IssuedBetween s.names s'.names l.names
  sides_eq : s'.sides = s.sides + l.sides.length
  sides : l.sides = (List.range' s.sides l.sides.length).map Arithmetic.sideVar

theorem Counts.append {m : Log} {s' s'' : Supply} (hl : Counts l s s') (hm : Counts m s' s'') :
    Counts (l ++ m) s s'' where
  names_le := Nat.le_trans hl.names_le hm.names_le
  names := hl.names.append hm.names hl.names_le hm.names_le
  sides_eq := by
    change s''.sides = s.sides + (l.sides ++ m.sides).length
    rw [hm.sides_eq, hl.sides_eq, length_append, Nat.add_assoc]
  sides := by
    change l.sides ++ m.sides = (List.range' s.sides (l.sides ++ m.sides).length).map Arithmetic.sideVar
    have hsides := hm.sides
    rw [hl.sides_eq] at hsides
    rw [length_append, ← List.range'_append_1, map_append, ← hl.sides, ← hsides]

theorem Counts.sides_le {s' : Supply} (h : Counts l s s') : s.sides ≤ s'.sides :=
  h.sides_eq ▸ Nat.le_add_right ..

/-- **The names and side variables that a computation issues are numbered in order.** -/
theorem Issues.counts (h : Issues x s l) : Counts l s (x.run s).2 := by
  induction h with
  | pure a s | side inOld node s => exact ⟨Nat.le_refl _, .nil _ _, rfl, rfl⟩
  | name x s =>
    refine ⟨Nat.le_succ _, ⟨nodup_singleton _, forall_mem_singleton.mpr ?_⟩, rfl, rfl⟩
    exact ⟨s.names + 1, x, Nat.lt_succ_self _, Nat.le_refl _, rfl⟩
  | bind _ _ hx hf => exact hx.append hf

/-! ## Computations with a record -/

/-- A computation that has a record of what it issues, from every supply on. -/
def Issuing (x : Supplied α) : Prop := ∀ s, ∃ l, Issues x s l

theorem closed_issuing : Closed fun α (x : Supplied α) => Issuing x where
  pure a s := ⟨_, .pure a s⟩
  bind hx hf s := by
    obtain ⟨l, hl⟩ := hx s
    obtain ⟨m, hm⟩ := hf _ _
    exact ⟨_, .bind hl hm⟩

/-- Putting computations together that issue names. -/
theorem closed_names : Naming.Hereditary fun α (x : Naming α) => Issuing (withNames x) where
  pure a := closed_issuing.pure a
  bind {_ _ x f} hx hf := by
    change Issuing (withNames x >>= fun a => withNames (f a))
    exact closed_issuing.bind hx hf
  fresh x s := ⟨_, .name x s⟩

/-- Putting computations together that introduce side variables. -/
theorem closed_sides : Closed fun α (x : SideNaming α) => Issuing (withSides x) where
  pure a := closed_issuing.pure a
  bind {_ _ x f} hx hf := by
    change Issuing (withSides x >>= fun a => withSides (f a))
    exact closed_issuing.bind hx hf

/-- Putting computations together that may fail. -/
theorem closed_lowering : Closed fun α (x : Lowering α) => Issuing x.run where
  pure a := closed_issuing.pure (Except.ok a)
  bind {_ _ x f} hx hf := by
    rw [ExceptT.run_bind]
    refine closed_issuing.bind hx fun r => ?_
    cases r with
    | ok a => exact hf a
    | error e => exact closed_issuing.pure _

theorem issuing_lift (h : Issuing x) : Issuing (liftM x : Lowering α).run :=
  closed_issuing.map h Except.ok

theorem issuing_except (x : Except Fault α) : Issuing (liftM x : Lowering α).run := by
  cases x with
  | ok a | error e => exact closed_issuing.pure _

theorem Issuing.sides_le (h : Issuing x) (s : Supply) :
    s.sides ≤ (x.run s).2.sides := by
  obtain ⟨l, hl⟩ := h s
  exact hl.counts.sides_le

theorem le_of_issuing {x : SideNaming α} (h : Issuing (withSides x)) (n : Nat) : n ≤ (x.run n).2 :=
  h.sides_le ⟨0, n⟩

/-- A list of results, one for each element, with side variables of which the last result knows. -/
theorem forall₂_of_mapM_issuing {β : Type} {f : α → Lowering β} (hf : ∀ a, Issuing (f a).run) {l : List α}
    {bs : List β} {s' : Supply} (h : (l.mapM f).run.run s = (.ok bs, s')) :
    List.Forall₂ (fun a b => ∃ t t', (f a).run.run t = (.ok b, t') ∧ t'.sides ≤ s'.sides) l bs :=
  (forall₂_of_mapM_run_ok (P := (·.sides ≤ s'.sides)) (fun a t => Nat.le_trans ((hf a).sides_le t)) h
    (Nat.le_refl _)).2

/-! ## Renaming -/

theorem issuing_rename (scope : Source.Scope) (e : Source.Expr) : Issuing (withNames (e.rename scope)) :=
  Source.hereditary_rename closed_names e scope

theorem issuing_renameClause (scope : Source.Scope) (c : Source.Clause) :
    Issuing (withNames (c.rename scope)) :=
  closed_names.last (issuing_rename scope c.expr)

mutual

theorem issuing_renameStmt (scope : Source.Scope) : ∀ s : Source.Stmt, Issuing (withNames (s.rename scope))
  | .declare _ name _ none => closed_names.last (closed_names.fresh name)
  | .declare _ name _ (some init) => closed_names.bind (issuing_rename scope init) fun _ =>
      closed_names.last (closed_names.fresh name)
  | .assign _ target value => closed_names.bind (issuing_rename scope target) fun _ =>
      closed_names.last (issuing_rename scope value)
  | .block _ body => closed_names.last (issuing_renameStmts scope body)
  | .ifThen _ cond _ thn => closed_names.bind (issuing_rename scope cond) fun _ =>
      closed_names.last (issuing_renameStmts scope thn)
  | .ifElse _ cond _ thn _ els => closed_names.bind (issuing_rename scope cond) fun _ =>
      closed_names.bind (issuing_renameStmts scope thn) fun _ =>
        closed_names.last (issuing_renameStmts scope els)
  | .loop _ cond invariants variant _ body => closed_names.bind (issuing_rename scope cond) fun _ =>
      closed_names.bind (closed_names.mapM (issuing_renameClause scope) invariants) fun _ =>
        closed_names.bind (closed_names.optional (issuing_renameClause scope) variant) fun _ =>
          closed_names.last (issuing_renameStmts scope body)
  | .ret _ value => closed_names.last (closed_names.optional (issuing_rename scope) value)
  | .raise _ e | .assert _ e | .assume _ e | .eval _ e =>
    closed_names.last (issuing_rename scope e)

theorem issuing_renameStmts (scope : Source.Scope) : ∀ ss : List Source.Stmt,
    Issuing (withNames (Source.Stmt.renameAll scope ss))
  | [] => closed_names.pure _
  | s :: ss => closed_names.bind (issuing_renameStmt scope s) fun r =>
      closed_names.last (issuing_renameStmts r.scope ss)

end

theorem issuing_bindParams : ∀ (ps : List Source.Param) (scope : Source.Scope),
    Issuing (withNames (Source.bindParams scope ps))
  | [], _ => closed_names.pure _
  | p :: ps, _ => closed_names.bind (closed_names.binding p.name) fun _ => issuing_bindParams ps _

theorem issuing_renameMethod (m : Source.Method) : Issuing (withNames m.rename) :=
  closed_names.bind (issuing_bindParams m.params .empty) fun params =>
    closed_names.last (issuing_renameStmts params _)

/-! ## Side variables -/

theorem issuing_nameUnless (bound : List String) (inOld : Bool) (node : Formula) :
    Issuing (withSides (Arithmetic.nameUnless bound inOld node)) := by
  rw [Arithmetic.nameUnless]
  split
  · exact closed_sides.pure _
  · exact fun s => ⟨_, .side inOld node s⟩

mutual

theorem issuing_extract (bound : List String) (inOld : Bool) : ∀ f : Formula,
    Issuing (withSides (Arithmetic.extract bound inOld f))
  | .ident _ | .int _ => closed_sides.pure _
  | .binary op x y => by
    rw [Arithmetic.extract]
    refine closed_sides.bind (issuing_extract bound inOld x) fun _ =>
      closed_sides.bind (issuing_extract bound inOld y) fun _ => ?_
    cases op with
    | arith _ => exact closed_sides.last (issuing_nameUnless _ _ _)
    | _ => exact closed_sides.pure _
  | .unary op x => by
    rw [Arithmetic.extract]
    refine closed_sides.bind (issuing_extract bound inOld x) fun _ => ?_
    cases op with
    | neg => exact closed_sides.last (issuing_nameUnless _ _ _)
    | _ => exact closed_sides.pure _
  | .quant _ vars domain body =>
    closed_sides.bind (issuing_extract bound inOld domain) fun _ =>
      closed_sides.last (issuing_extract (bound ++ vars) inOld body)
  | .old x => closed_sides.last (issuing_extract bound true x)
  | .join l r => closed_sides.bind (issuing_extract bound inOld l) fun _ =>
      closed_sides.last (issuing_extract bound inOld r)
  | .call _ args => closed_sides.last (issuing_extractAll bound inOld args)
  | .ite c t e => closed_sides.bind (issuing_extract bound inOld c) fun _ =>
      closed_sides.bind (issuing_extract bound inOld t) fun _ =>
        closed_sides.last (issuing_extract bound inOld e)

theorem issuing_extractAll (bound : List String) (inOld : Bool) : ∀ fs : List Formula,
    Issuing (withSides (Arithmetic.extractAll bound inOld fs))
  | [] => closed_sides.pure _
  | f :: fs => closed_sides.bind (issuing_extract bound inOld f) fun _ =>
      closed_sides.last (issuing_extractAll bound inOld fs)

end

theorem issuing_extractPart (o : Origin) (f : Formula) :
    Issuing (withSides (Arithmetic.extractPart o f)) :=
  closed_sides.last (issuing_extract [] false f)

/-! ## Contract modules -/

theorem issuing_ofMethod (classes : List Source.ClassDecl) (self : Source.ClassDecl) (m : Source.Method)
    (overload : Nat) : Issuing (ofMethod classes self m overload).run :=
  closed_lowering.bind (issuing_lift (issuing_renameMethod m)) fun renamed =>
    closed_lowering.bind (issuing_except _) fun _ =>
    closed_lowering.bind (closed_lowering.optional (fun _ => issuing_except _) _) fun _ =>
    closed_lowering.bind (issuing_except _) fun _ =>
    closed_lowering.bind (issuing_lift (closed_names.mapM (issuing_renameClause renamed.params) _)) fun _ =>
    closed_lowering.bind (issuing_lift (closed_names.mapM (issuing_renameClause renamed.params) _)) fun _ =>
    closed_lowering.bind (issuing_except _) fun _ => closed_lowering.bind (issuing_except _) fun _ =>
    closed_lowering.bind (issuing_except _) fun _ =>
    closed_lowering.bind (issuing_lift (issuing_extractPart _ _)) fun _ =>
    closed_lowering.last (issuing_lift (issuing_extractPart _ _))

/-- A method with a number has a record of what it issues. -/
theorem issuing_numbered (classes : List Source.ClassDecl) (c : Source.ClassDecl) (m : Source.Method × Nat) :
    Issuing (match m with | (m, k) => ofMethod classes c m k).run := issuing_ofMethod classes c m.1 m.2

/-! ## Pragmas -/

theorem issuing_updateFirst (p : α → Bool) {f : α → SideNaming α}
    (hf : ∀ a, Issuing (withSides (f a))) : ∀ l : List α, Issuing (withSides (updateFirst p f l))
  | [] => closed_sides.pure _
  | a :: l => by
    rw [updateFirst]
    split
    · exact closed_sides.last (hf a)
    · exact closed_sides.last (issuing_updateFirst p hf l)

theorem issuing_mergeContract (kind : Source.PragmaKind) (f : Formula) (p : Program) :
    Issuing (withSides (mergeContract kind f p)) := by
  cases kind with
  | requires | ensures => exact closed_sides.last (issuing_extractPart _ _)
  | invariant => exact closed_sides.pure p

theorem issuing_mergeAssertion (r : Resolver) (a : Assertion) (m : Module) :
    Issuing (withSides (mergeAssertion r a m)) := by
  rw [mergeAssertion]
  split
  · split
    · exact closed_sides.bind (issuing_extractPart _ _) fun _ =>
        closed_sides.last (issuing_updateFirst _ (fun _ => closed_sides.pure _) _)
    · exact closed_sides.pure m
  · exact closed_sides.last (issuing_updateFirst _ (issuing_mergeContract _ _) _)

end Contract

end Relspec
