import Relspec.Proofs.Source.Renaming

/-!
# Proofs/Source/Places — where statements stand, and in which scope

Renaming goes through a body from left to right and from outside to inside, and comes upon every statement
in the scope that is in force there.  What a block declares is in force up to its end.

* `Within` — statements in a row inside of others;
* `Upon` — the scope in which renaming comes upon a statement;
* `Upon.within` — what it makes of the statement stands in what it makes of the whole;
* `Stmt.after` — the scope after statements, `rename_after_eq_iff` — what they have declared;
* `rename_eq_iff` — when two scopes rename an expression alike.
-/

namespace Relspec.Source

open List
open Naming (run_bind run_pure)

/-! ## Statements inside of statements -/

/-- The statements in the body of a statement, or in each of its branches. -/
def Stmt.bodies : Stmt → List (List Stmt)
  | .block _ body => [body]
  | .ifThen _ _ _ thn => [thn]
  | .ifElse _ _ _ thn _ els => [thn, els]
  | .loop _ _ _ _ _ body => [body]
  | .declare .. | .assign .. | .ret .. | .raise .. | .assert .. | .assume .. | .eval .. => []

/-- **Statements in a row inside of others**, at any depth. -/
inductive Within (piece : List Stmt) : List Stmt → Prop where
  | here {ss : List Stmt} (h : piece <:+: ss) : Within piece ss
  | inside {ss body : List Stmt} {s : Stmt} (hs : s ∈ ss) (hbody : body ∈ s.bodies)
      (h : Within piece body) : Within piece ss

namespace Within

variable {piece ss ts : List Stmt}

theorem mono (h : Within piece ss) (hss : ss <:+: ts) : Within piece ts := by
  cases h with
  | here h => exact .here (h.trans hss)
  | inside hs hbody h => exact .inside (hss.subset hs) hbody h

theorem trans (h : Within piece ss) (hss : Within ss ts) : Within piece ts := by
  induction hss with
  | here hss => exact h.mono hss
  | inside hs hbody _ ih => exact .inside hs hbody ih

end Within

/-! ## The scope of a place -/

variable {scope scope' : Scope} {k k' : Nat} {s x : Stmt} {ss ts : List Stmt}

/-- How many names have been issued when renaming comes to the body of a loop. -/
def loopEntry (scope : Scope) (k : Nat) (cond : Expr) (invariants : List Clause) (variant : Option Clause) :
    Nat :=
  ((variant.mapM (Clause.rename scope)).run
    ((invariants.mapM (Clause.rename scope)).run ((cond.rename scope).run k).2).2).2

/-- The bodies of a statement, each with how many names have been issued when renaming comes to it. -/
def Stmt.entries (scope : Scope) (k : Nat) : Stmt → List (List Stmt × Nat)
  | .block _ body => [(body, k)]
  | .ifThen _ cond _ thn => [(thn, ((cond.rename scope).run k).2)]
  | .ifElse _ cond _ thn _ els =>
    [(thn, ((cond.rename scope).run k).2),
      (els, ((Stmt.renameAll scope thn).run ((cond.rename scope).run k).2).2)]
  | .loop _ cond invariants variant _ body => [(body, loopEntry scope k cond invariants variant)]
  | .declare .. | .assign .. | .ret .. | .raise .. | .assert .. | .assume .. | .eval .. => []

/-- **Renaming comes upon a statement** `x` of the statements at hand, in which scope and after how many
names. -/
inductive Upon (x : Stmt) : Scope → Nat → List Stmt → Scope → Nat → Prop where
  | here {scope : Scope} {k : Nat} {ss : List Stmt} : Upon x scope k (x :: ss) scope k
  | inside {scope scope' : Scope} {k k₁ k' : Nat} {s : Stmt} {ss body : List Stmt}
      (hbody : (body, k₁) ∈ s.entries scope k) (h : Upon x scope k₁ body scope' k') :
      Upon x scope k (s :: ss) scope' k'
  | later {scope scope' : Scope} {k k' : Nat} {s : Stmt} {ss : List Stmt}
      (h : Upon x ((s.rename scope).run k).1.scope ((s.rename scope).run k).2 ss scope' k') :
      Upon x scope k (s :: ss) scope' k'

/-- Every body is come to. -/
theorem map_fst_entries (s : Stmt) (scope : Scope) (k : Nat) : (s.entries scope k).map Prod.fst = s.bodies := by
  cases s <;> rfl

/-- A body is renamed in the scope of the statement that it belongs to. -/
theorem exists_of_mem_entries {body : List Stmt} (h : (body, k') ∈ s.entries scope k) :
    ∃ s', ((s.rename scope).run k).1.stmts = [s'] ∧
      ((Stmt.renameAll scope body).run k').1.1 ∈ s'.bodies := by
  cases s with
  | ifElse p cond tp thn ep els =>
    rcases mem_cons.mp h with h | h
    · cases h
      exact ⟨_, rfl, mem_cons_self⟩
    · cases mem_singleton.mp h
      exact ⟨_, rfl, mem_cons_of_mem _ mem_cons_self⟩
  | block | ifThen | loop =>
    cases mem_singleton.mp h
    exact ⟨_, rfl, mem_singleton_self _⟩
  | _ => cases h

namespace Upon

/-- **What renaming makes of a statement** stands in what it makes of the statements around it. -/
theorem within (h : Upon x scope k ss scope' k') :
    Within ((x.rename scope').run k').1.stmts ((Stmt.renameAll scope ss).run k).1.1 := by
  induction h with
  | here => exact .here (prefix_append _ _).isInfix
  | inside hbody _ ih =>
    obtain ⟨s', hs', hmem⟩ := exists_of_mem_entries hbody
    have houter : s' ∈ _ := hs'.symm ▸ mem_singleton_self s'
    exact .inside (mem_append_left _ houter) hmem ih
  | later _ ih => exact ih.mono (suffix_append _ _).isInfix

/-- A place in a body of a statement. -/
theorem enter {y : Stmt} {body : List Stmt} {scope₁ : Scope} {k₁ k₂ : Nat}
    (h : Upon x scope k ss scope₁ k₁) (hbody : (body, k₂) ∈ x.entries scope₁ k₁)
    (hy : Upon y scope₁ k₂ body scope' k') : Upon y scope k ss scope' k' := by
  induction h with
  | here => exact .inside hbody hy
  | inside hinner _ ih => exact .inside hinner (ih hbody hy)
  | later _ ih => exact .later (ih hbody hy)

end Upon

theorem exists_upon_of_mem : ∀ {ss : List Stmt} (scope : Scope) (k : Nat), x ∈ ss →
    ∃ scope' k', Upon x scope k ss scope' k'
  | s :: ss, scope, k, h => by
    rcases mem_cons.mp h with rfl | h
    · exact ⟨scope, k, .here⟩
    · obtain ⟨scope', k', hlater⟩ := exists_upon_of_mem ((s.rename scope).run k).1.scope _ h
      exact ⟨scope', k', .later hlater⟩

/-- **Renaming comes upon every statement.** -/
theorem exists_upon (h : Within [x] ss) (scope : Scope) (k : Nat) :
    ∃ scope' k', Upon x scope k ss scope' k' := by
  induction h generalizing scope k with
  | here h => exact exists_upon_of_mem scope k (h.subset (mem_singleton_self x))
  | @inside _ body s hs hbody _ ih =>
    obtain ⟨scope₁, k₁, houter⟩ := exists_upon_of_mem scope k hs
    rw [← map_fst_entries s scope₁ k₁] at hbody
    obtain ⟨⟨_, k₂⟩, hentry, rfl⟩ := mem_map.mp hbody
    obtain ⟨scope', k', hinner⟩ := ih scope₁ k₂
    exact ⟨scope', k', houter.enter hentry hinner⟩

/-! ## What is in force -/

/-- **A scope once `k` names have been issued**: variables go by names that they may have. -/
def Scope.Settled (scope : Scope) (k : Nat) : Prop :=
  ∀ x y, scope.find? x = some y → Naming.Called k x y

theorem Scope.Settled.mono (h : scope.Settled k) (hle : k ≤ k') : scope.Settled k' :=
  fun x y hy => (h x y hy).mono hle

/-- A statement declares a variable of the block it stands in, or nothing. -/
def Stmt.declares? : Stmt → Option String
  | .declare _ name _ _ => some name
  | _ => none

/-- The variables that statements declare in the block they stand in. -/
def Stmt.declared (ss : List Stmt) : List String := ss.filterMap Stmt.declares?

theorem find?_scope_rename (s : Stmt) (scope : Scope) (k : Nat) (x : String) :
    (s.declares? = some x ∧ ∃ i, k < i ∧ i ≤ ((s.rename scope).run k).2 ∧
        ((s.rename scope).run k).1.scope.find? x = some (Naming.issued i x)) ∨
      (s.declares? ≠ some x ∧ ((s.rename scope).run k).1.scope.find? x = scope.find? x) := by
  cases s with
  | declare p name type init =>
    have hscope : ∃ m, k ≤ m ∧ (((Stmt.declare p name type init).rename scope).run k).2 = m + 1 ∧
        (((Stmt.declare p name type init).rename scope).run k).1.scope =
          scope.insert name (Naming.issued (m + 1) name) := by
      cases init with
      | none => exact ⟨k, Nat.le_refl k, rfl, rfl⟩
      | some init => exact ⟨_, le_rename init scope k, rfl, rfl⟩
    obtain ⟨m, hm, hcount, hscope⟩ := hscope
    rw [hscope, hcount]
    by_cases hx : x = name
    · subst hx
      exact .inl ⟨rfl, m + 1, Nat.lt_succ_of_le hm, Nat.le_refl _, Table.find?_insert_self ..⟩
    · exact .inr ⟨fun h => hx (Option.some.inj h).symm, Table.find?_insert_of_ne _ hx _⟩
  | _ => exact .inr ⟨nofun, rfl⟩

theorem Scope.Settled.rename (h : scope.Settled k) (s : Stmt) :
    Scope.Settled ((s.rename scope).run k).1.scope ((s.rename scope).run k).2 := by
  intro x y hy
  rcases find?_scope_rename s scope k x with ⟨-, i, -, hi, hfind⟩ | ⟨-, hfind⟩
  · rw [hfind] at hy
    exact Option.some.inj hy ▸ .issued i x hi
  · rw [hfind] at hy
    exact (h x y hy).mono (rename_hoists s scope k).le

theorem le_of_mem_entries {body : List Stmt} (h : (body, k') ∈ s.entries scope k) : k ≤ k' := by
  cases s with
  | block p body =>
    cases mem_singleton.mp h
    exact Nat.le_refl k
  | ifThen p cond tp thn =>
    cases mem_singleton.mp h
    exact le_rename cond scope k
  | ifElse p cond tp thn ep els =>
    have hcond := le_rename cond scope k
    rcases mem_cons.mp h with h | h
    · cases h
      exact hcond
    · cases mem_singleton.mp h
      exact Nat.le_trans hcond (renameAll_hoists thn scope _).le
  | loop p cond invariants variant bp body =>
    cases mem_singleton.mp h
    exact Nat.le_trans (le_rename cond scope k) (Nat.le_trans (le_renameClauses scope invariants _)
      (le_optional (le_renameClause scope) variant _))
  | _ => cases h

theorem Upon.settled (h : Upon x scope k ss scope' k') (hscope : scope.Settled k) : scope'.Settled k' := by
  induction h with
  | here => exact hscope
  | inside hbody _ ih => exact ih (hscope.mono (le_of_mem_entries hbody))
  | @later scope _ k _ s _ _ ih => exact ih (hscope.rename s)

/-- **The scope after statements** of one block, and how many names have been issued. -/
def Stmt.after (scope : Scope) (k : Nat) : List Stmt → Scope × Nat
  | [] => (scope, k)
  | s :: ss => Stmt.after ((s.rename scope).run k).1.scope ((s.rename scope).run k).2 ss

theorem renameAll_append : ∀ (ss ts : List Stmt) (scope : Scope) (k : Nat),
    ((Stmt.renameAll scope (ss ++ ts)).run k).1.1 = ((Stmt.renameAll scope ss).run k).1.1 ++
      ((Stmt.renameAll (Stmt.after scope k ss).1 ts).run (Stmt.after scope k ss).2).1.1
  | [], _, _, _ => rfl
  | s :: ss, ts, scope, k => by
    have ih := renameAll_append ss ts ((s.rename scope).run k).1.scope ((s.rename scope).run k).2
    refine (congrArg (((s.rename scope).run k).1.stmts ++ ·) ih).trans ?_
    rw [← append_assoc]
    rfl

theorem Scope.Settled.after : ∀ (ss : List Stmt) {scope : Scope} {k : Nat}, scope.Settled k →
    Scope.Settled (Stmt.after scope k ss).1 (Stmt.after scope k ss).2
  | [], _, _, h => h
  | s :: ss, _, _, h => Scope.Settled.after ss (h.rename s)

/-- A variable that statements declare has a new name after them, and all others have theirs. -/
theorem find?_after (x : String) (ss : List Stmt) (scope : Scope) (k : Nat) :
    (x ∈ Stmt.declared ss ∧ ∃ i, k < i ∧ (Stmt.after scope k ss).1.find? x = some (Naming.issued i x)) ∨
      (x ∉ Stmt.declared ss ∧ (Stmt.after scope k ss).1.find? x = scope.find? x) := by
  induction ss generalizing scope k with
  | nil => exact .inr ⟨not_mem_nil, rfl⟩
  | cons s ss ih =>
    have hle := (rename_hoists s scope k).le
    have hmem : x ∈ Stmt.declared (s :: ss) ↔ s.declares? = some x ∨ x ∈ Stmt.declared ss := by
      simp [Stmt.declared]
    rw [hmem]
    rcases ih ((s.rename scope).run k).1.scope ((s.rename scope).run k).2 with
      ⟨hlater, i, hi, hfind⟩ | ⟨hlater, hfind⟩
    · exact .inl ⟨.inr hlater, i, Nat.lt_of_le_of_lt hle hi, hfind⟩
    · rcases find?_scope_rename s scope k x with ⟨hs, i, hi, -, hnew⟩ | ⟨hs, hold⟩
      · exact .inl ⟨.inl hs, i, hi, hfind.trans hnew⟩
      · exact .inr ⟨not_or.mpr ⟨hs, hlater⟩, hfind.trans hold⟩

/-- **What statements leave as it was**: exactly the names that they do not declare. -/
theorem rename_after_eq_iff (h : scope.Settled k) (ss : List Stmt) (x : String) :
    Scope.rename (Stmt.after scope k ss).1 x = scope.rename x ↔ x ∉ Stmt.declared ss := by
  rcases find?_after x ss scope k with ⟨hmem, i, hi, hfind⟩ | ⟨hmem, hfind⟩
  · refine iff_of_false (fun heq => ?_) (not_not_intro hmem)
    rw [Scope.rename, hfind, Option.getD_some, Scope.rename] at heq
    cases hold : scope.find? x with
    | some y =>
      rw [hold, Option.getD_some] at heq
      exact (h x y hold).ne_issued x hi heq.symm
    | none =>
      rw [hold, Option.getD_none] at heq
      have hlength := congrArg (fun s : String => s.toList.length) heq
      simp [Naming.toList_issued] at hlength
      omega
  · exact iff_of_true (by rw [Scope.rename, hfind, Scope.rename]) hmem

/-! ## Scopes that rename alike -/

mutual

/-- How many names are issued does not depend on the scope. -/
theorem count_rename : ∀ (e : Expr) (scope scope' : Scope) (k : Nat),
    ((e.rename scope).run k).2 = ((e.rename scope').run k).2
  | .ident .. | .int .. | .bool .. | .string .. | .null _ | .self _ | .result _ => fun _ _ _ => rfl
  | .old _ x | .field _ x _ | .unary _ _ x | .quant _ _ _ _ x => fun _ _ _ => count_rename x _ _ _
  | .call _ _ args | .new _ _ args => fun scope scope' k => count_renameAll args scope scope' k
  | .invoke _ receiver _ args => fun scope scope' k =>
    (count_rename receiver scope scope' _).trans
      (congrArg (fun k => ((receiver.rename scope').run k).2) (count_renameAll args scope scope' k))
  | .index _ x y | .binary _ _ x y => fun scope scope' k =>
    (count_rename y scope scope' _).trans
      (congrArg (fun k => ((y.rename scope').run k).2) (count_rename x scope scope' k))
  | .quantOver _ _ _ _ range body => fun _ _ _ =>
    (count_rename range _ _ _).trans (congrArg (fun k => ((range.rename _).run k).2) (count_rename body _ _ _))

theorem count_renameAll : ∀ (es : List Expr) (scope scope' : Scope) (k : Nat),
    ((Expr.renameAll scope es).run k).2 = ((Expr.renameAll scope' es).run k).2
  | [] => fun _ _ _ => rfl
  | e :: es => fun scope scope' k =>
    (count_renameAll es scope scope' _).trans
      (congrArg (fun k => ((Expr.renameAll scope' es).run k).2) (count_rename e scope scope' k))

end

mutual

/-- The quantified variables around an expression are around its identifiers. -/
theorem under_subset : ∀ (e : Expr) {under : List String}, ∀ o ∈ e.occurrences under, under ⊆ o.under
  | .ident .. => fun o h => by
    rw [mem_singleton.mp h]
    exact List.Subset.refl _
  | .int .. | .bool .. | .string .. | .null _ | .self _ | .result _ => fun _ h => nomatch h
  | .old _ x | .field _ x _ | .unary _ _ x => fun o h => under_subset x o h
  | .call _ _ args | .new _ _ args => fun o h => under_subsetAll args o h
  | .invoke _ receiver _ args => fun o h =>
    (mem_append.mp h).elim (under_subset receiver o) (under_subsetAll args o)
  | .index _ x y | .binary _ _ x y => fun o h =>
    (mem_append.mp h).elim (under_subset x o) (under_subset y o)
  | .quant _ _ _ _ body => fun o h _ hx => under_subset body o h (mem_cons_of_mem _ hx)
  | .quantOver _ _ _ _ range body => fun o h _ hx =>
    (mem_append.mp h).elim (under_subset range o) (under_subset body o) (mem_cons_of_mem _ hx)

theorem under_subsetAll : ∀ (es : List Expr) {under : List String},
    ∀ o ∈ Expr.occurrencesAll under es, under ⊆ o.under
  | [] => fun _ h => nomatch h
  | e :: es => fun o h => (mem_append.mp h).elim (under_subset e o) (under_subsetAll es o)

end

/-- **Scopes that agree** about the free names among occurrences. -/
def Scope.Alike (scope scope' : Scope) (os : List Occurrence) : Prop :=
  ∀ o ∈ os, o.name ∉ o.under → scope.rename o.name = scope'.rename o.name

namespace Scope

variable {under : List String} {os os' : List Occurrence}

theorem alike_nil : scope.Alike scope' [] := fun _ h => nomatch h

theorem alike_append :
    scope.Alike scope' (os ++ os') ↔ scope.Alike scope' os ∧ scope.Alike scope' os' :=
  forall_mem_append

theorem alike_singleton (h : ∀ x ∈ under, scope.rename x = scope'.rename x) (name : String) :
    scope.Alike scope' [⟨name, under⟩] ↔ scope.rename name = scope'.rename name := by
  rw [Alike, forall_mem_singleton]
  by_cases hmem : name ∈ under
  · exact iff_of_true (absurd hmem) (h name hmem)
  · exact imp_iff_right hmem

/-- A variable that a quantifier binds is free nowhere under it. -/
theorem alike_insert {var : String} (v : String) (h : ∀ o ∈ os, var ∈ o.under) :
    Scope.Alike (scope.insert var v) (scope'.insert var v) os ↔ scope.Alike scope' os := by
  refine forall₂_congr fun o ho => imp_congr_right fun hfree => ?_
  have hne : o.name ≠ var := fun heq => hfree (heq ▸ h o ho)
  rw [rename_insert_of_ne _ hne, rename_insert_of_ne _ hne]

theorem rename_insert_congr (var v : String)
    (h : ∀ x ∈ under, scope.rename x = scope'.rename x) :
    ∀ x ∈ var :: under, Scope.rename (scope.insert var v) x = Scope.rename (scope'.insert var v) x := by
  intro x hx
  by_cases heq : x = var
  · rw [heq, rename_insert_self, rename_insert_self]
  · rw [rename_insert_of_ne _ heq, rename_insert_of_ne _ heq]
    exact h x ((mem_cons.mp hx).resolve_left heq)

end Scope

mutual

/-- **When two scopes rename an expression alike**: when they agree about its free names. -/
theorem rename_eq_iff : ∀ (e : Expr) {under : List String} (scope scope' : Scope) (k : Nat),
    (∀ x ∈ under, scope.rename x = scope'.rename x) →
      (((e.rename scope).run k).1 = ((e.rename scope').run k).1 ↔ scope.Alike scope' (e.occurrences under))
  | .ident p name => fun _ _ _ h => by
    change Expr.ident p (Scope.rename _ name) = .ident p (Scope.rename _ name) ↔ _
    rw [Expr.ident.injEq, Expr.occurrences, Scope.alike_singleton h, and_iff_right rfl]
  | .int .. | .bool .. | .string .. | .null _ | .self _ | .result _ => fun _ _ _ _ =>
    iff_of_true rfl Scope.alike_nil
  | .old _ x | .field _ x _ | .unary _ _ x => fun _ _ k h => by
    simp only [Expr.rename, run_bind, run_pure, Expr.occurrences, rename_eq_iff x _ _ k h,
      Expr.old.injEq, Expr.field.injEq, Expr.unary.injEq, true_and, and_true]
  | .call _ _ args | .new _ _ args => fun _ _ k h => by
    simp only [Expr.rename, run_bind, run_pure, Expr.occurrences, renameAll_eq_iff args _ _ k h,
      Expr.call.injEq, Expr.new.injEq, true_and]
  | .invoke _ receiver _ args => fun scope scope' k h => by
    simp only [Expr.rename, run_bind, run_pure, Expr.occurrences, Scope.alike_append,
      count_renameAll args scope' scope, renameAll_eq_iff args _ _ k h, rename_eq_iff receiver _ _ _ h,
      Expr.invoke.injEq, true_and]
  | .index _ x y | .binary _ _ x y => fun scope scope' k h => by
    simp only [Expr.rename, run_bind, run_pure, Expr.occurrences, Scope.alike_append,
      count_rename x scope' scope, rename_eq_iff x _ _ k h, rename_eq_iff y _ _ _ h, Expr.index.injEq,
      Expr.binary.injEq, true_and]
  | .quant _ _ var _ body => fun _ _ k h => by
    -- Both scopes give the variable one name, so it counts for nothing that they disagree about it outside.
    have hagree := Scope.rename_insert_congr var ((Naming.binding var).run k).1 h
    simp only [Expr.rename, run_bind, run_pure, Expr.quant.injEq, true_and,
      rename_eq_iff body _ _ _ hagree, Expr.occurrences]
    exact Scope.alike_insert _ fun o ho => under_subset body o ho mem_cons_self
  | .quantOver _ _ var _ range body => fun scope scope' k h => by
    rcases hbinding : (Naming.binding var).run k with ⟨v, m⟩
    have hagree := Scope.rename_insert_congr var v h
    -- The body is renamed before the range.
    simp only [Expr.rename, run_bind, run_pure, hbinding, Expr.quantOver.injEq, true_and,
      count_rename body (scope'.insert var v) (scope.insert var v), rename_eq_iff body _ _ _ hagree,
      rename_eq_iff range _ _ _ hagree, Expr.occurrences, Scope.alike_append]
    exact and_congr (Scope.alike_insert _ fun o ho => under_subset range o ho mem_cons_self)
      (Scope.alike_insert _ fun o ho => under_subset body o ho mem_cons_self)

theorem renameAll_eq_iff : ∀ (es : List Expr) {under : List String} (scope scope' : Scope) (k : Nat),
    (∀ x ∈ under, scope.rename x = scope'.rename x) →
      (((Expr.renameAll scope es).run k).1 = ((Expr.renameAll scope' es).run k).1 ↔
        scope.Alike scope' (Expr.occurrencesAll under es))
  | [] => fun _ _ _ _ => iff_of_true rfl Scope.alike_nil
  | e :: es => fun scope scope' k h => by
    simp only [Expr.renameAll, run_bind, run_pure, List.cons.injEq, count_rename e scope' scope,
      rename_eq_iff e _ _ k h, renameAll_eq_iff es _ _ _ h, Expr.occurrencesAll, Scope.alike_append]

end

/-- The statements that a header may have: declarations, assignments and expressions. -/
def Stmt.isSimple : Stmt → Bool
  | .declare .. | .assign .. | .eval .. => true
  | _ => false

/-- When two scopes rename a simple statement alike. -/
theorem renameStmt_eq_iff (hs : s.isSimple = true) (scope scope' : Scope) (k : Nat) :
    ((s.rename scope).run k).1.stmts = ((s.rename scope').run k).1.stmts ↔
      scope.Alike scope' s.occurrences := by
  have hnone : ∀ x ∈ ([] : List String), scope.rename x = scope'.rename x := fun _ h => nomatch h
  cases s with
  | declare p name type init =>
    cases init with
    | none => exact iff_of_true rfl Scope.alike_nil
    | some init =>
      simp only [Stmt.rename, run_bind, Naming.run_fresh, run_pure, Stmt.occurrences,
        Option.toList_some, flatMap_singleton, count_rename init scope' scope, ← rename_eq_iff init _ _ k hnone]
      simp
  | assign p target value =>
    simp only [Stmt.rename, run_bind, run_pure, Stmt.occurrences, Scope.alike_append,
      count_rename target scope' scope, rename_eq_iff target _ _ k hnone, rename_eq_iff value _ _ _ hnone,
      List.cons.injEq, Stmt.assign.injEq, true_and, and_true]
  | eval p e =>
    simp only [Stmt.rename, run_bind, run_pure, Stmt.occurrences, rename_eq_iff e _ _ k hnone,
      List.cons.injEq, Stmt.eval.injEq, true_and, and_true]
  | _ => cases hs

/-- When two scopes rename a simple statement, if there is one, alike. -/
theorem renameOptional_eq_iff {update : Option Stmt} (hs : ∀ s ∈ update, s.isSimple = true)
    (scope scope' : Scope) (k : Nat) :
    ((Stmt.renameAll scope update.toList).run k).1.1 = ((Stmt.renameAll scope' update.toList).run k).1.1 ↔
      scope.Alike scope' (Stmt.occurrencesAll update.toList) := by
  cases update with
  | none => exact iff_of_true rfl Scope.alike_nil
  | some s =>
    have hone : ∀ scope : Scope, ((Stmt.renameAll scope [s]).run k).1.1 = ((s.rename scope).run k).1.stmts :=
      fun scope => append_nil _
    rw [Option.toList_some, hone, hone, renameStmt_eq_iff (hs s rfl), Stmt.occurrencesAll,
      Stmt.occurrencesAll, append_nil]

/-- **When statements get in the way of what follows them**: a simple statement after them is renamed as
it would be before them exactly when none of its free names is declared by them. -/
theorem rename_after_stmts_eq_iff (h : scope.Settled k) (ss : List Stmt) {update : Option Stmt}
    (hs : ∀ s ∈ update, s.isSimple = true) :
    ((Stmt.renameAll (Stmt.after scope k ss).1 update.toList).run (Stmt.after scope k ss).2).1.1 =
        ((Stmt.renameAll scope update.toList).run (Stmt.after scope k ss).2).1.1 ↔
      ∀ o ∈ Stmt.occurrencesAll update.toList, o.name ∉ o.under → o.name ∉ Stmt.declared ss := by
  rw [renameOptional_eq_iff hs]
  exact forall₂_congr fun o _ => imp_congr_right fun _ => rename_after_eq_iff h ss o.name

end Relspec.Source
