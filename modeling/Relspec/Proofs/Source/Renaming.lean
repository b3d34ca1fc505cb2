import Mathlib.Data.List.Nodup
import Relspec.Proofs.Source.Scoping
import Relspec.Proofs.Table

/-!
# Proofs/Source/Renaming — renaming a method keeps what its identifiers stand for

A renamed method is the method without its declarations: an initial value is assigned to the variable, and
all else is the same up to names.  Every identifier goes by the name of the variable that it stood for.

* `Stmt.uses` — the identifiers of a statement and what they stand for, by lexical scoping;
* `Stmt.shape` — a statement without declarations, up to the names of its variables;
* `Hoists` — what renaming makes of statements, `rename_hoists` — it does;
* `Method.RenamedAs` and `rename_keeps_binders` — what renaming makes of a method.
-/

namespace Relspec.Source

open List

/-! ## Statements -/

/-- A local variable as it is declared. -/
structure LocalVar where
  name : String
  type : TypeRef
  pos : Position
deriving DecidableEq, Repr

/-- The local variable of a declaration. -/
def Declaration.source (d : Declaration) : LocalVar := ⟨d.name, d.type, d.pos⟩

mutual

/-- The local variables that a statement declares, at any depth, in source order. -/
def Stmt.locals : Stmt → List LocalVar
  | .declare p name type _ => [⟨name, type, p⟩]
  | .block _ body => Stmt.localsAll body
  | .ifThen _ _ _ thn => Stmt.localsAll thn
  | .ifElse _ _ _ thn _ els => Stmt.localsAll thn ++ Stmt.localsAll els
  | .loop _ _ _ _ _ body => Stmt.localsAll body
  | .assign .. | .ret .. | .raise .. | .assert .. | .assume .. | .eval .. => []

/-- The local variables that several statements declare. -/
def Stmt.localsAll : List Stmt → List LocalVar
  | [] => []
  | s :: ss => s.locals ++ Stmt.localsAll ss

end

/-- What is in force after a statement: a declaration adds its variable, up to the end of the block. -/
def Stmt.visible (vis : Visible) (n : Nat) : Stmt → Visible
  | .declare _ name _ _ => (name, .declaration n) :: vis
  | _ => vis

mutual

/-- **The uses of names in a statement**, from left to right, where `vis` is in force and `n` declarations
come before.  A declaration with an initial value uses its variable, which is not yet in force in the
value. -/
def Stmt.uses (vis : Visible) (n : Nat) : Stmt → List Use
  | .declare _ _ _ none => []
  | .declare _ name _ (some init) => ⟨name, some (.var (.declaration n))⟩ :: init.uses vis
  | .assign _ target value => target.uses vis ++ value.uses vis
  | .block _ body => Stmt.usesAll vis n body
  | .ifThen _ cond _ thn => cond.uses vis ++ Stmt.usesAll vis n thn
  | .ifElse _ cond _ thn _ els =>
    cond.uses vis ++ (Stmt.usesAll vis n thn ++ Stmt.usesAll vis (n + (Stmt.localsAll thn).length) els)
  | .loop _ cond invariants variant _ body =>
    cond.uses vis ++ (invariants.flatMap (·.expr.uses vis) ++
      (variant.toList.flatMap (·.expr.uses vis) ++ Stmt.usesAll vis n body))
  | .ret _ value => value.toList.flatMap (·.uses vis)
  | .raise _ e | .assert _ e | .assume _ e | .eval _ e => e.uses vis

/-- The uses of names in the statements of a block. -/
def Stmt.usesAll (vis : Visible) (n : Nat) : List Stmt → List Use
  | [] => []
  | s :: ss => s.uses vis n ++ Stmt.usesAll (s.visible vis n) (n + s.locals.length) ss

end

mutual

/-- The identifiers in the expressions of a statement, from left to right. -/
def Stmt.occurrences : Stmt → List Occurrence
  | .declare _ _ _ init => init.toList.flatMap (·.occurrences [])
  | .assign _ target value => target.occurrences [] ++ value.occurrences []
  | .block _ body => Stmt.occurrencesAll body
  | .ifThen _ cond _ thn => cond.occurrences [] ++ Stmt.occurrencesAll thn
  | .ifElse _ cond _ thn _ els =>
    cond.occurrences [] ++ (Stmt.occurrencesAll thn ++ Stmt.occurrencesAll els)
  | .loop _ cond invariants variant _ body =>
    cond.occurrences [] ++ (invariants.flatMap (·.expr.occurrences []) ++
      (variant.toList.flatMap (·.expr.occurrences []) ++ Stmt.occurrencesAll body))
  | .ret _ value => value.toList.flatMap (·.occurrences [])
  | .raise _ e | .assert _ e | .assume _ e | .eval _ e => e.occurrences []

/-- The identifiers in the expressions of several statements. -/
def Stmt.occurrencesAll : List Stmt → List Occurrence
  | [] => []
  | s :: ss => s.occurrences ++ Stmt.occurrencesAll ss

end

/-- A clause up to the names of its variables. -/
def Clause.shape (c : Clause) : Clause := { c with expr := c.expr.shape }

mutual

/-- **A statement without declarations, up to the names of its variables.**  Of a declaration, the
assignment of its initial value is left. -/
def Stmt.shape : Stmt → List Stmt
  | .declare _ _ _ none => []
  | .declare p _ _ (some init) => [.assign p (.ident p "") init.shape]
  | .assign p target value => [.assign p target.shape value.shape]
  | .block p body => [.block p (Stmt.shapeAll body)]
  | .ifThen p cond tp thn => [.ifThen p cond.shape tp (Stmt.shapeAll thn)]
  | .ifElse p cond tp thn ep els =>
    [.ifElse p cond.shape tp (Stmt.shapeAll thn) ep (Stmt.shapeAll els)]
  | .loop p cond invariants variant bp body =>
    [.loop p cond.shape (invariants.map Clause.shape) (variant.map Clause.shape) bp (Stmt.shapeAll body)]
  | .ret p value => [.ret p (value.map Expr.shape)]
  | .raise p e => [.raise p e.shape]
  | .assert p e => [.assert p e.shape]
  | .assume p e => [.assume p e.shape]
  | .eval p e => [.eval p e.shape]

/-- Several statements without declarations. -/
def Stmt.shapeAll : List Stmt → List Stmt
  | [] => []
  | s :: ss => s.shape ++ Stmt.shapeAll ss

end

namespace Stmt

theorem localsAll_append (ss ts : List Stmt) : localsAll (ss ++ ts) = localsAll ss ++ localsAll ts := by
  induction ss with
  | nil => rfl
  | cons s ss ih => rw [cons_append, localsAll, ih, localsAll, append_assoc]

theorem shapeAll_append (ss ts : List Stmt) : shapeAll (ss ++ ts) = shapeAll ss ++ shapeAll ts := by
  induction ss with
  | nil => rfl
  | cons s ss ih => rw [cons_append, shapeAll, ih, shapeAll, append_assoc]

theorem occurrencesAll_append (ss ts : List Stmt) :
    occurrencesAll (ss ++ ts) = occurrencesAll ss ++ occurrencesAll ts := by
  induction ss with
  | nil => rfl
  | cons s ss ih => rw [cons_append, occurrencesAll, ih, occurrencesAll, append_assoc]

end Stmt

open Stmt (localsAll shapeAll occurrencesAll usesAll renameAll)

/-! ## Clauses and optional values -/

variable {scope : Scope} {names : Variable → Option String} {vis : Visible} {k k' m n : Nat}

theorem le_renameClause (scope : Scope) (c : Clause) (k : Nat) : k ≤ ((c.rename scope).run k).2 :=
  le_rename c.expr scope k

theorem shape_renameClause (scope : Scope) (c : Clause) (k : Nat) :
    Clause.shape ((c.rename scope).run k).1 = c.shape :=
  congrArg (fun e : Expr => { c with expr := e }) (shape_rename c.expr scope k)

theorem le_renameClauses (scope : Scope) : ∀ (cs : List Clause) (k : Nat),
    k ≤ ((cs.mapM (Clause.rename scope)).run k).2 :=
  Naming.hereditary_le.mapM (le_renameClause scope)

theorem shape_renameClauses (scope : Scope) : ∀ (cs : List Clause) (k : Nat),
    ((cs.mapM (Clause.rename scope)).run k).1.map Clause.shape = cs.map Clause.shape
  | [], _ => rfl
  | c :: cs, k => by
    rw [mapM_cons]
    exact congrArg₂ List.cons (shape_renameClause scope c k) (shape_renameClauses scope cs _)

theorem uses_carries (e : Expr) (h : scope.Fits names vis [] [] k) :
    List.Forall₂ (Carries names) (e.uses vis) (((e.rename scope).run k).1.occurrences []) :=
  forall₂_map_left_iff.mpr (rename_carries e h)

theorem renameClause_carries (c : Clause) (h : scope.Fits names vis [] [] k) :
    List.Forall₂ (Carries names) (c.expr.uses vis) (((c.rename scope).run k).1.expr.occurrences []) :=
  uses_carries c.expr h

theorem renameClauses_carries : ∀ (cs : List Clause) {k : Nat}, scope.Fits names vis [] [] k →
    List.Forall₂ (Carries names) (cs.flatMap (·.expr.uses vis))
      (((cs.mapM (Clause.rename scope)).run k).1.flatMap (·.expr.occurrences []))
  | [], _, _ => .nil
  | c :: cs, _, h => by
    rw [mapM_cons]
    exact rel_append (renameClause_carries c h)
      (renameClauses_carries cs (h.mono (le_renameClause _ c _)))

section Optional

variable {α β γ : Type} {f : α → Naming β}

theorem le_optional (hf : ∀ a k, k ≤ ((f a).run k).2) (o : Option α) :
    ∀ k : Nat, k ≤ ((o.mapM f).run k).2 := Naming.hereditary_le.optional hf o

theorem map_optional {g : β → γ} {g' : α → γ} (hf : ∀ a k, g ((f a).run k).1 = g' a) :
    ∀ (o : Option α) (k : Nat), ((o.mapM f).run k).1.map g = o.map g'
  | none, _ => rfl
  | some a, k => congrArg some (hf a k)

theorem optional_carries {g : β → List Occurrence} {g' : α → List Use}
    (hf : ∀ a, List.Forall₂ (Carries names) (g' a) (g ((f a).run k).1)) : ∀ o : Option α,
      List.Forall₂ (Carries names) (o.toList.flatMap g') (((o.mapM f).run k).1.toList.flatMap g)
  | none => .nil
  | some a => by
    rw [Option.toList_some, flatMap_singleton]
    exact (flatMap_singleton g _).symm ▸ hf a

end Optional

/-! ## What renaming takes out -/

/-- **Names issued in a row**: all different, with numbers above `k` and up to `k'`. -/
structure IssuedBetween (k k' : Nat) (ys : List String) : Prop where
  nodup : ys.Nodup
  number : ∀ y ∈ ys, ∃ i z, k < i ∧ i ≤ k' ∧ y = Naming.issued i z

namespace IssuedBetween

variable {xs ys : List String}

theorem nil (k k' : Nat) : IssuedBetween k k' [] := ⟨.nil, fun _ h => absurd h not_mem_nil⟩

theorem mono (h : IssuedBetween k k' ys) {l l' : Nat} (hl : l ≤ k) (hl' : k' ≤ l') :
    IssuedBetween l l' ys := by
  refine ⟨h.nodup, fun y hy => ?_⟩
  obtain ⟨i, z, hlt, hle, rfl⟩ := h.number y hy
  exact ⟨i, z, by omega, by omega, rfl⟩

/-- Names that are issued later are others. -/
theorem append (hx : IssuedBetween k m xs) (hy : IssuedBetween m k' ys) (hk : k ≤ m) (hk' : m ≤ k') :
    IssuedBetween k k' (xs ++ ys) := by
  refine ⟨List.Nodup.append hx.nodup hy.nodup fun y hyx hyy => ?_, fun y hmem => ?_⟩
  · obtain ⟨i, z, -, hi, rfl⟩ := hx.number y hyx
    obtain ⟨j, z', hj, -, heq⟩ := hy.number _ hyy
    have hij := Naming.issued_inj heq
    omega
  · rcases mem_append.mp hmem with hmem | hmem
    · exact (hx.mono (Nat.le_refl k) hk').number y hmem
    · exact (hy.mono hk (Nat.le_refl k')).number y hmem

end IssuedBetween

/-- **What renaming makes of statements** with a shape and local variables: statements of the same shape
that declare nothing, and the declarations, with names issued in a row. -/
structure Hoists (shape : List Stmt) (locals : List LocalVar) (stmts : List Stmt) (ds : List Declaration)
    (k k' : Nat) : Prop where
  le : k ≤ k'
  shape_eq : shapeAll stmts = shape
  plain : localsAll stmts = []
  declared : ds.map Declaration.source = locals
  issued : IssuedBetween k k' (ds.map (·.unique))

namespace Hoists

variable {shape shape' : List Stmt} {locals locals' : List LocalVar} {stmts stmts' : List Stmt}
  {ds ds' : List Declaration}

theorem length_eq (h : Hoists shape locals stmts ds k k') : ds.length = locals.length := by
  rw [← h.declared, length_map]

/-- Names issued before the statements. -/
theorem after (h : Hoists shape locals stmts ds m k') (hle : k ≤ m) :
    Hoists shape locals stmts ds k k' :=
  { h with le := Nat.le_trans hle h.le, issued := h.issued.mono hle (Nat.le_refl k') }

/-- Statements one after the other. -/
theorem append (h : Hoists shape locals stmts ds k m) (h' : Hoists shape' locals' stmts' ds' m k') :
    Hoists (shape ++ shape') (locals ++ locals') (stmts ++ stmts') (ds ++ ds') k k' where
  le := Nat.le_trans h.le h'.le
  shape_eq := by rw [Stmt.shapeAll_append, h.shape_eq, h'.shape_eq]
  plain := by rw [Stmt.localsAll_append, h.plain, h'.plain, append_nil]
  declared := by rw [map_append, h.declared, h'.declared]
  issued := by
    rw [map_append]
    exact h.issued.append h'.issued h.le h'.le

/-- A statement without statements in it. -/
theorem simple {s : Stmt} (hle : k ≤ k') (hshape : s.shape = shape) (hplain : s.locals = []) :
    Hoists shape [] [s] [] k k' where
  le := hle
  shape_eq := by rw [shapeAll, shapeAll, append_nil, hshape]
  plain := by rw [localsAll, localsAll, append_nil, hplain]
  declared := rfl
  issued := .nil k k'

/-- A statement around others. -/
theorem around {s : Stmt} (h : Hoists shape locals stmts ds k k') (hshape : s.shape = shape')
    (hplain : s.locals = localsAll stmts) : Hoists shape' locals [s] ds k k' where
  le := h.le
  shape_eq := by rw [shapeAll, shapeAll, append_nil, hshape]
  plain := by rw [localsAll, localsAll, append_nil, hplain, h.plain]
  declared := h.declared
  issued := h.issued

/-- A declaration, with what is left of it. -/
theorem declare {p : Position} {name : String} {type : TypeRef} (hk : k ≤ m)
    (hshape : shapeAll stmts = shape) (hplain : localsAll stmts = []) :
    Hoists shape [⟨name, type, p⟩] stmts [⟨name, Naming.issued (m + 1) name, type, p⟩] k (m + 1) where
  le := Nat.le_succ_of_le hk
  shape_eq := hshape
  plain := hplain
  declared := rfl
  issued := by
    refine ⟨nodup_singleton _, fun y hy => ⟨m + 1, name, Nat.lt_succ_of_le hk, Nat.le_refl _, ?_⟩⟩
    exact mem_singleton.mp hy

end Hoists

mutual

/-- **Renaming takes the declarations out of a statement**, and changes names only. -/
theorem rename_hoists (s : Stmt) (scope : Scope) (k : Nat) :
    Hoists s.shape s.locals ((s.rename scope).run k).1.stmts ((s.rename scope).run k).1.declarations k
      ((s.rename scope).run k).2 :=
  match s with
  | .declare _ _ _ none => .declare (Nat.le_refl k) rfl rfl
  | .declare p _ _ (some init) =>
    .declare (le_rename init scope k)
      (congrArg (fun e => [Stmt.assign p (.ident p "") e]) (shape_rename init scope k)) rfl
  | .assign p target value =>
    .simple (Nat.le_trans (le_rename target scope k) (le_rename value scope _))
      (congrArg₂ (fun t v => [Stmt.assign p t v]) (shape_rename target scope k)
        (shape_rename value scope _)) rfl
  | .block p body => by
    have hbody := renameAll_hoists body scope k
    exact hbody.around (congrArg (fun b => [Stmt.block p b]) hbody.shape_eq) rfl
  | .ifThen p cond tp thn => by
    have hthn := renameAll_hoists thn scope ((cond.rename scope).run k).2
    exact (hthn.after (le_rename cond scope k)).around
      (congrArg₂ (fun c t => [Stmt.ifThen p c tp t]) (shape_rename cond scope k) hthn.shape_eq) rfl
  | .ifElse p cond tp thn ep els => by
    have hthn := renameAll_hoists thn scope ((cond.rename scope).run k).2
    have hels := renameAll_hoists els scope
      ((renameAll scope thn).run ((cond.rename scope).run k).2).2
    exact ((hthn.after (le_rename cond scope k)).append hels).around
      (congrArg₂ (fun c (b : List Stmt × List Stmt) => [Stmt.ifElse p c tp b.1 ep b.2])
        (shape_rename cond scope k) (congrArg₂ Prod.mk hthn.shape_eq hels.shape_eq))
      (Stmt.localsAll_append _ _).symm
  | .loop p cond invariants variant bp body => by
    have hcond := le_rename cond scope k
    have hinvs := le_renameClauses scope invariants ((cond.rename scope).run k).2
    have hvar := le_optional (le_renameClause scope) variant
      ((invariants.mapM (Clause.rename scope)).run ((cond.rename scope).run k).2).2
    have hbody := renameAll_hoists body scope ((variant.mapM (Clause.rename scope)).run
      ((invariants.mapM (Clause.rename scope)).run ((cond.rename scope).run k).2).2).2
    exact (hbody.after (Nat.le_trans hcond (Nat.le_trans hinvs hvar))).around
      (congrArg₂ (fun (c : Expr × List Clause) (b : Option Clause × List Stmt) =>
          [Stmt.loop p c.1 c.2 b.1 bp b.2])
        (congrArg₂ Prod.mk (shape_rename cond scope k) (shape_renameClauses scope invariants _))
        (congrArg₂ Prod.mk (map_optional (shape_renameClause scope) variant _) hbody.shape_eq)) rfl
  | .ret p value =>
    .simple (le_optional (fun e => le_rename e scope) value k)
      (congrArg (fun v => [Stmt.ret p v]) (map_optional (fun e => shape_rename e scope) value k)) rfl
  | .raise _ e | .assert _ e | .assume _ e | .eval _ e => by
    simp only [Stmt.rename, Naming.run_bind, Naming.run_pure]
    exact .simple (le_rename e scope k) (by rw [Stmt.shape, shape_rename, Stmt.shape]) rfl

theorem renameAll_hoists : ∀ (ss : List Stmt) (scope : Scope) (k : Nat),
    Hoists (shapeAll ss) (localsAll ss) ((renameAll scope ss).run k).1.1
      ((renameAll scope ss).run k).1.2 k ((renameAll scope ss).run k).2
  | [], _, k => ⟨Nat.le_refl k, rfl, rfl, rfl, .nil k k⟩
  | s :: ss, scope, k => (rename_hoists s scope k).append (renameAll_hoists ss _ _)

end

/-! ## What identifiers stand for -/

/-- The declarations `ds`, the first of which is the `n`-th, have their names. -/
def Named (names : Variable → Option String) (n : Nat) (ds : List Declaration) : Prop :=
  ∀ i d, ds[i]? = some d → names (.declaration (n + i)) = some d.unique

theorem Named.left {ds es : List Declaration} (h : Named names n (ds ++ es)) : Named names n ds := by
  intro i d hi
  obtain ⟨hlt, -⟩ := List.getElem?_eq_some_iff.mp hi
  exact h i d (by rw [List.getElem?_append_left hlt, hi])

theorem Named.right {ds es : List Declaration} (h : Named names n (ds ++ es)) :
    Named names (n + ds.length) es := by
  intro i d hi
  rw [Nat.add_assoc]
  exact h (ds.length + i) d (by rw [List.getElem?_append_right (Nat.le_add_right _ _),
    Nat.add_sub_cancel_left, hi])

/-- **A local variable comes into force** where its declaration ends. -/
theorem Scope.Fits.declare (h : Scope.Fits scope names vis [] [] k) (name : String)
    (hname : names (.declaration n) = some (Naming.issued (k + 1) name)) :
    Scope.Fits (scope.insert name (Naming.issued (k + 1) name)) names ((name, .declaration n) :: vis) [] []
      (k + 1) where
  carries x := by
    by_cases hx : x = name
    · subst hx
      rw [Scope.rename_insert_self]
      simpa [Carries, Occurrence.use, Occurrence.binder] using hname
    · have hne : (x == name) = false := by simpa using hx
      rw [Scope.rename_insert_of_ne _ hx]
      simpa [Carries, Occurrence.use, Occurrence.binder, lookup_cons, hne] using h.carries x
  called x hbound := by
    by_cases hx : x = name
    · subst hx
      rw [Scope.rename_insert_self]
      exact .issued (k + 1) x (Nat.le_refl _)
    · have hne : (x == name) = false := by simpa using hx
      rw [Scope.rename_insert_of_ne _ hx]
      refine (h.called x ?_).mono (Nat.le_succ k)
      simpa [Occurrence.binder, lookup_cons, hne] using hbound

/-- What is in force after a statement. -/
theorem renameStmt_fits (s : Stmt) (h : Scope.Fits scope names vis [] [] k)
    (hnamed : Named names n ((s.rename scope).run k).1.declarations) :
    Scope.Fits ((s.rename scope).run k).1.scope names (s.visible vis n) [] []
      ((s.rename scope).run k).2 := by
  have hmono := h.mono (rename_hoists s scope k).le
  cases s with
  | declare p name type init =>
    cases init with
    | none => exact h.declare name (hnamed 0 _ rfl)
    | some init => exact (h.mono (le_rename init scope k)).declare name (hnamed 0 _ rfl)
  | _ => exact hmono

theorem carries_singleton {us : List Use} {s : Stmt}
    (h : List.Forall₂ (Carries names) us s.occurrences) :
    List.Forall₂ (Carries names) us (occurrencesAll [s]) := by
  rw [occurrencesAll, occurrencesAll, append_nil]
  exact h

mutual

/-- **Renaming a statement keeps what its identifiers stand for.** -/
theorem renameStmt_carries (s : Stmt) {scope : Scope} {vis : Visible} {n k : Nat}
    (h : scope.Fits names vis [] [] k) (hnamed : Named names n ((s.rename scope).run k).1.declarations) :
    List.Forall₂ (Carries names) (s.uses vis n) (occurrencesAll ((s.rename scope).run k).1.stmts) :=
  match s, hnamed with
  | .declare _ _ _ none, _ => .nil
  | .declare _ _ _ (some init), hnamed =>
    carries_singleton (.cons ⟨hnamed 0 _ rfl, not_mem_nil⟩ (uses_carries init h))
  | .assign _ target value, _ =>
    carries_singleton
      (rel_append (uses_carries target h) (uses_carries value (h.mono (le_rename target _ _))))
  | .block _ body, hnamed => carries_singleton (renameBlock_carries body h hnamed)
  | .ifThen _ cond _ thn, hnamed => by
    have hthn := renameBlock_carries thn (h.mono (le_rename cond _ _)) hnamed
    exact carries_singleton (rel_append (uses_carries cond h) hthn)
  | .ifElse _ cond _ thn _ els, hnamed => by
    have hcond := h.mono (le_rename cond scope k)
    have hhoists := renameAll_hoists thn scope ((cond.rename scope).run k).2
    have hthn := renameBlock_carries thn hcond hnamed.left
    -- The declarations of the second branch are counted after those of the first.
    have hels := renameBlock_carries els (hcond.mono hhoists.le) (hhoists.length_eq ▸ hnamed.right)
    exact carries_singleton (rel_append (uses_carries cond h) (rel_append hthn hels))
  | .loop _ cond invariants variant _ body, hnamed => by
    have hcond := h.mono (le_rename cond scope k)
    have hinvs := hcond.mono (le_renameClauses scope invariants _)
    have hvar := hinvs.mono (le_optional (le_renameClause scope) variant _)
    have hvariant := optional_carries (f := Clause.rename scope) (g := (·.expr.occurrences []))
      (renameClause_carries · hinvs) variant
    exact carries_singleton (rel_append (uses_carries cond h)
      (rel_append (renameClauses_carries invariants hcond)
        (rel_append hvariant (renameBlock_carries body hvar hnamed))))
  | .ret _ value, _ =>
    carries_singleton (optional_carries (fun e => uses_carries e h) value)
  | .raise _ e, _ | .assert _ e, _ | .assume _ e, _
  | .eval _ e, _ => carries_singleton (uses_carries e h)

/-- Renaming the statements of a block does, each in the scope after those before it. -/
theorem renameBlock_carries : ∀ (ss : List Stmt) {scope : Scope} {vis : Visible} {n k : Nat},
    scope.Fits names vis [] [] k → Named names n ((renameAll scope ss).run k).1.2 →
      List.Forall₂ (Carries names) (usesAll vis n ss)
        (occurrencesAll ((renameAll scope ss).run k).1.1)
  | [], _, _, _, _, _, _ => .nil
  | s :: ss, scope, _, _, k, h, hnamed => by
    have hhoists := rename_hoists s scope k
    have hs := renameStmt_carries s h hnamed.left
    have hss := renameBlock_carries ss (renameStmt_fits s h hnamed.left)
      (hhoists.length_eq ▸ hnamed.right)
    have happend : List.Forall₂ (Carries names) (_ ++ _) (_ ++ _) := rel_append hs hss
    rw [← Stmt.occurrencesAll_append] at happend
    exact happend

end

/-! ## Parameters -/

/-- The parameters in force in a method. -/
def visibleParams (ps : List Param) : Visible := ps.map fun p => (p.name, .param p.name)

theorem lookup_visibleParams (x : String) : ∀ ps : List Param,
    (visibleParams ps).lookup x = if x ∈ ps.map (·.name) then some (.param x) else none
  | [] => rfl
  | p :: ps => by
    have ih := lookup_visibleParams x ps
    rw [visibleParams] at ih ⊢
    by_cases hx : x = p.name
    · simp [hx]
    · have hne : (x == p.name) = false := by simpa using hx
      simp [lookup_cons, hne, hx, ih]

/-- **A scope of parameters** once `k` names have been issued: no two of them have one name. -/
structure ParamScope (scope : Scope) (k : Nat) : Prop where
  called : ∀ x y, scope.find? x = some y → Naming.Called k x y
  inj : ∀ x x' y, scope.find? x = some y → scope.find? x' = some y → x = x'

theorem ParamScope.bind (h : ParamScope scope k) (var : String) :
    ParamScope (scope.insert var ((Naming.binding var).run k).1) ((Naming.binding var).run k).2 := by
  have hother : ∀ x y, x ≠ var → (scope.insert var ((Naming.binding var).run k).1).find? x = some y →
      scope.find? x = some y ∧ y ≠ ((Naming.binding var).run k).1 := fun x y hx hy => by
    rw [Table.find?_insert_of_ne _ hx] at hy
    exact ⟨hy, (h.called x y hy).ne_binding hx⟩
  refine ⟨fun x y hy => ?_, fun x x' y hy hy' => ?_⟩
  · by_cases hx : x = var
    · subst hx
      rw [Table.find?_insert_self] at hy
      exact Option.some.inj hy ▸ Naming.called_binding x k
    · exact (h.called x y (hother x y hx hy).1).mono (Naming.le_binding var k)
  · by_cases hx : x = var <;> by_cases hx' : x' = var
    · exact hx.trans hx'.symm
    · rw [hx, Table.find?_insert_self] at hy
      exact absurd (Option.some.inj hy).symm (hother x' y hx' hy').2
    · rw [hx', Table.find?_insert_self] at hy'
      exact absurd (Option.some.inj hy').symm (hother x y hx hy).2
    · exact h.inj x x' y (hother x y hx hy).1 (hother x' y hx' hy').1

theorem bindParams_paramScope : ∀ (ps : List Param) {scope : Scope} {k : Nat}, ParamScope scope k →
    ParamScope ((bindParams scope ps).run k).1 ((bindParams scope ps).run k).2
  | [], _, _, h => h
  | p :: ps, _, _, h => bindParams_paramScope ps (h.bind p.name)

/-- Exactly the parameters are bound. -/
theorem isSome_find?_bindParams (x : String) : ∀ (ps : List Param) (scope : Scope) (k : Nat),
    (((bindParams scope ps).run k).1.find? x).isSome = true ↔
      (scope.find? x).isSome = true ∨ x ∈ ps.map (·.name)
  | [], _, _ => (or_iff_left not_mem_nil).symm
  | p :: ps, scope, k => by
    refine (isSome_find?_bindParams x ps _ _).trans ?_
    by_cases hx : x = p.name
    · simp [hx]
    · rw [Table.find?_insert_of_ne _ hx]
      simp [hx]

theorem mem_params_iff (x : String) (ps : List Param) (k : Nat) :
    x ∈ ps.map (·.name) ↔ ∃ y, ((bindParams .empty ps).run k).1.find? x = some y := by
  rw [← Option.isSome_iff_exists, isSome_find?_bindParams]
  exact (or_iff_right Bool.false_ne_true).symm

theorem nodup_keys_bindParams : ∀ (ps : List Param) {scope : Scope} (k : Nat), scope.keys.Nodup →
    ((bindParams scope ps).run k).1.keys.Nodup
  | [], _, _, h => h
  | _ :: ps, _, _, h => nodup_keys_bindParams ps _ (Table.nodup_keys_insert h)

theorem binder_visibleParams (x : String) (ps : List Param) :
    Occurrence.binder (visibleParams ps) ⟨x, []⟩ =
      if x ∈ ps.map (·.name) then some (.var (.param x)) else none := by
  rw [Occurrence.binder, lookup_visibleParams]
  split_ifs
  · rfl
  · rfl

theorem paramScope_bindParams (ps : List Param) (k : Nat) :
    ParamScope ((bindParams .empty ps).run k).1 ((bindParams .empty ps).run k).2 :=
  bindParams_paramScope ps ⟨fun _ _ h => (nomatch h), fun _ _ _ h => (nomatch h)⟩

/-- The parameters of a method are in force at its start. -/
theorem bindParams_fits (ps : List Param) (k : Nat)
    (hnames : ∀ x, names (.param x) = ((bindParams .empty ps).run k).1.find? x) :
    Scope.Fits ((bindParams .empty ps).run k).1 names (visibleParams ps) [] []
      ((bindParams .empty ps).run k).2 where
  carries x := by
    rw [Carries, Occurrence.use, binder_visibleParams]
    by_cases hx : x ∈ ps.map (·.name)
    · obtain ⟨y, hy⟩ := (mem_params_iff x ps k).mp hx
      rw [if_pos hx, Scope.rename, hy]
      exact ⟨(hnames x).trans hy, not_mem_nil⟩
    · have hnone : ((bindParams .empty ps).run k).1.find? x = none :=
        Option.eq_none_iff_forall_ne_some.mpr fun y hy => hx ((mem_params_iff x ps k).mpr ⟨y, hy⟩)
      rw [if_neg hx, Scope.rename, hnone]
      rfl
  called x hbound := by
    by_cases hx : x ∈ ps.map (·.name)
    · obtain ⟨y, hy⟩ := (mem_params_iff x ps k).mp hx
      rw [Scope.rename, hy]
      exact (paramScope_bindParams ps k).called x y hy
    · rw [binder_visibleParams, if_neg hx] at hbound
      exact absurd rfl hbound

/-! ## Methods -/

/-- The name of a variable in a renamed method. -/
def RenamedMethod.nameOf (r : RenamedMethod) : Variable → Option String
  | .param name => r.params.find? name
  | .declaration n => r.declarations[n]?.map (·.unique)

/-- The statements of a method. -/
def Method.stmts (m : Method) : List Stmt := (m.body.map (·.stmts)).getD []

/-- **What a renamed method is to a method.**  It has the same statements without declarations, up to the
names of variables; the declarations are listed in source order; no two variables have one name; and
every identifier goes by the name of what it stood for. -/
structure Method.RenamedAs (m : Method) (r : RenamedMethod) : Prop where
  shape : Stmt.shapeAll r.body = Stmt.shapeAll m.stmts
  plain : Stmt.localsAll r.body = []
  declared : r.declarations.map Declaration.source = Stmt.localsAll m.stmts
  distinct : ∀ v w y, r.nameOf v = some y → r.nameOf w = some y → v = w
  carries : List.Forall₂ (Carries r.nameOf) (Stmt.usesAll (visibleParams m.params) 0 m.stmts)
    (Stmt.occurrencesAll r.body)

theorem named_nameOf (r : RenamedMethod) : Named r.nameOf 0 r.declarations := by
  intro i d hi
  rw [RenamedMethod.nameOf, Nat.zero_add, hi, Option.map_some]

/-- The variables of a renamed method have different names: those of parameters are issued first. -/
theorem nameOf_inj {r : RenamedMethod} (hparams : ParamScope r.params k)
    (hissued : IssuedBetween k k' (r.declarations.map (·.unique))) {v w : Variable} {y : String}
    (hv : r.nameOf v = some y) (hw : r.nameOf w = some y) : v = w := by
  have hmixed : ∀ x n, r.nameOf (.param x) = some y → r.nameOf (.declaration n) ≠ some y := by
    intro x n hx hn
    rw [RenamedMethod.nameOf, ← List.getElem?_map] at hn
    obtain ⟨i, z, hlt, -, rfl⟩ := hissued.number y (mem_of_getElem? hn)
    exact (hparams.called x _ hx).ne_issued z hlt rfl
  match v, w with
  | .param x, .param x' => rw [hparams.inj x x' y hv hw]
  | .param x, .declaration n => exact absurd hw (hmixed x n hv)
  | .declaration n, .param x => exact absurd hv (hmixed x n hw)
  | .declaration n, .declaration n' =>
    rw [RenamedMethod.nameOf, ← List.getElem?_map] at hv hw
    obtain ⟨hlt, -⟩ := List.getElem?_eq_some_iff.mp hv
    rw [(List.getElem?_inj hlt hissued.nodup).mp (hv.trans hw.symm)]

/-- **Renaming a method keeps what its identifiers stand for**, in its body and in every clause that is
renamed later with the names of its parameters. -/
theorem rename_keeps_binders (m : Method) (k : Nat) :
    m.RenamedAs (m.rename.run k).1 ∧
    ∀ (e : Expr) (k' : Nat), (m.rename.run k).2 ≤ k' →
      ((e.rename (m.rename.run k).1.params).run k').1.shape = e.shape ∧
      List.Forall₂ (Carries (m.rename.run k).1.nameOf) (e.uses (visibleParams m.params))
        (((e.rename (m.rename.run k).1.params).run k').1.occurrences []) := by
  have hfits : Scope.Fits (m.rename.run k).1.params (m.rename.run k).1.nameOf (visibleParams m.params) [] []
      ((bindParams .empty m.params).run k).2 := bindParams_fits m.params k fun _ => rfl
  have hhoists := renameAll_hoists m.stmts (m.rename.run k).1.params
    ((bindParams .empty m.params).run k).2
  refine ⟨⟨hhoists.shape_eq, hhoists.plain, hhoists.declared, fun v w y => ?_, ?_⟩, fun e k' hk' => ?_⟩
  · exact nameOf_inj (paramScope_bindParams m.params k) hhoists.issued
  · exact renameBlock_carries m.stmts hfits (named_nameOf (m.rename.run k).1)
  · exact ⟨shape_rename e _ k', uses_carries e (hfits.mono (Nat.le_trans hhoists.le hk'))⟩

/-- `exists int x; x == in && forall int in; in < x`. -/
def hiddenNames : Expr :=
  let p : Position := .start
  let int : TypeRef := ⟨"int", false⟩
  .quant p .any "x" int (.binary p .and (.binary p .eq (.ident p "x") (.ident p "in"))
    (.quant p .all "in" int (.binary p .lt (.ident p "in") (.ident p "x"))))

/-- A method in which a local variable gets its initial value from the one that it hides:
`void m(int in, int x) { int y = x; while (y < in) { int y = y; x = y; } assert hiddenNames; }`. -/
def shadowing : Method :=
  let p : Position := .start
  let int : TypeRef := ⟨"int", false⟩
  { name := "m", params := [⟨p, "in", int⟩, ⟨p, "x", int⟩]
    clauses := [⟨p, .precondition, hiddenNames⟩]
    body := some ⟨p,
      [.declare p "y" int (some (.ident p "x")),
        .loop p (.binary p .lt (.ident p "y") (.ident p "in")) [] none p
          [.declare p "y" int (some (.ident p "y")), .assign p (.ident p "x") (.ident p "y")],
        .assert p hiddenNames]⟩ }

/-- Names that hide others keep their declarations. -/
theorem rename_keeps_binders_shadowing :
    let r := (shadowing.rename.run 0).1
    let e := ((hiddenNames.rename r.params).run 4).1
    shadowing.RenamedAs r ∧
      List.Forall₂ (Carries r.nameOf) (hiddenNames.uses (visibleParams shadowing.params))
        (e.occurrences []) ∧
      Stmt.occurrencesAll r.body =
        [⟨"var_2_y", []⟩, ⟨"x", []⟩, ⟨"var_2_y", []⟩, ⟨"var_1_in", []⟩, ⟨"var_3_y", []⟩, ⟨"var_2_y", []⟩,
          ⟨"x", []⟩, ⟨"var_3_y", []⟩, ⟨"x", ["x"]⟩, ⟨"var_1_in", ["x"]⟩, ⟨"var_4_in", ["var_4_in", "x"]⟩,
          ⟨"x", ["var_4_in", "x"]⟩] ∧
      e.occurrences [] =
        [⟨"x", ["x"]⟩, ⟨"var_1_in", ["x"]⟩, ⟨"var_5_in", ["var_5_in", "x"]⟩,
          ⟨"x", ["var_5_in", "x"]⟩] := by
  intro r e
  obtain ⟨hbody, hclauses⟩ := rename_keeps_binders shadowing 0
  have hclause := hclauses hiddenNames 4 (by decide)
  refine ⟨hbody, hclause.2, ?_, ?_⟩
  · decide
  · decide

end Relspec.Source
