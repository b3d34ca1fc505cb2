import Relspec.Proofs.Source.Places
import Relspec.Source.Reading.Classes

/-!
# Proofs/Source/Counting — counting loops, read and renamed

A counting loop is read as a block with a loop whose body ends with the update, so the update stands in the
block of the body.

* `State.bodies`, `StartsAt`, `Meets` — where the statements of a block start, and those inside of them;
* `exists_within_of_meets` — what a statement reads as stands in what the statement around it reads as;
* `forLoop_update_exact` — the names in an update are those of the header exactly when the body declares
  none of them.
-/

namespace Relspec.Source

open List

namespace Reading

variable {ts : Tokens} {s s' : State ts}

/-! ## Statements inside of statements -/

/-- The condition of the branch at a state. -/
def State.test (s : State ts) : Step Expr s.advance :=
  condition "expected '(' after 'if'" "expected ')' after if condition" s.advance

/-- The header of the counting loop at a state. -/
def State.header (s : State ts) : Step (Option Stmt × Expr × Option Stmt) (s.advance.note .tookLoopClauses) :=
  forHeader s.here (s.advance.note .tookLoopClauses)

/-- **Where the bodies of a statement start.** -/
def State.bodies (s : State ts) : List (State ts) :=
  match s.kind with
  | .leftBrace => [s]
  | .ifWord =>
    match (branch s.test.next).next.accept? .elseWord with
    | some word => [s.test.next, word.next]
    | none => [s.test.next]
  | .whileWord =>
    [(condition "expected '(' after 'while'" "expected ')' after loop condition"
      (s.advance.note .tookLoopClauses)).next]
  | .forWord => [s.header.next]
  | _ => []

/-- Where reading goes on after a statement. -/
def State.resumed (s : State ts) : State ts :=
  if (statement s).next.left < s.left then (statement s).next else (statement s).next.recover.next

/-- **One of the statements** from a state on, up to the end of the block, starts at another. -/
inductive StartsAt : State ts → State ts → Prop where
  | first {s : State ts} (hs : s.kind ≠ .eof) (hk : s.kind ≠ .rightBrace) : StartsAt s s
  | later {s s' : State ts} (hs : s.kind ≠ .eof) (hk : s.kind ≠ .rightBrace) (h : StartsAt s.resumed s') :
      StartsAt s s'

/-- **A statement has a statement in it**, or is it: where the two start. -/
inductive Meets : State ts → State ts → Prop where
  | self (s : State ts) : Meets s s
  | braced {s body s₁ s' : State ts} (hbody : body ∈ s.bodies) (hk : body.kind = .leftBrace)
      (h₁ : StartsAt body.advance s₁) (h : Meets s₁ s') : Meets s s'
  | single {s body s' : State ts} (hbody : body ∈ s.bodies) (hk : body.kind ≠ .leftBrace) (h : Meets body s') :
      Meets s s'

/-- The state after the opening brace of a block. -/
def State.opened (s : State ts) : State ts := (s.expect .leftBrace "expected '\x7b' to start block").next

/-- **A block has a statement in it**, at any depth: where the two start. -/
def Has (s s' : State ts) : Prop := ∃ s₁, StartsAt s.opened s₁ ∧ Meets s₁ s'

/-! ## What they read as -/

theorem branch_brace (hk : s.kind = .leftBrace) :
    (branch s).value.stmts = (statements s.advance).value := by
  have haccept : s.accept? .leftBrace = some (s.take (hk ▸ by decide)) := dif_pos ⟨hk, hk ▸ by decide⟩
  rw [branch, State.accepting, haccept]
  simp only [blockRest]
  rfl

theorem branch_single (hk : s.kind ≠ .leftBrace) : (branch s).value.stmts = (statement s).value.toList := by
  have haccept : s.accept? .leftBrace = none := dif_neg fun h => hk h.1
  rw [branch, State.accepting, haccept]
  rfl

/-- What a branch reads as. -/
theorem statement_if (hk : s.kind = .ifWord) :
    (statement s).value = ((branch s.test.next).andThen fun thn s₁ _ => s₁.accepting .elseWord
      (fun s₂ _ => (branch s₂).map fun els =>
        some (.ifElse s.here s.test.value thn.pos thn.stmts els.pos els.stmts))
      (.here (some (.ifThen s.here s.test.value thn.pos thn.stmts)))).value := by
  rw [statement, dif_neg (hk ▸ by decide)]
  simp only [hk]
  rfl

/-- **What a counting loop reads as.** -/
theorem statement_for (hk : s.kind = .forWord) :
    (statement s).value = some (forLoop s.here s.loopContract s.header.value (branch s.header.next).value) := by
  rw [statement, dif_neg (hk ▸ by decide)]
  simp only [hk]
  rfl

/-- A body stands in what its statement reads as. -/
theorem exists_of_mem_bodies {body : State ts} (h : body ∈ s.bodies) :
    ∃ x, (statement s).value = some x ∧ Within (branch body).value.stmts [x] := by
  have hinside : ∀ {x : Stmt} {b : List Stmt}, b ∈ x.bodies → Within b [x] := fun hb =>
    .inside (mem_singleton_self _) hb (.here (infix_refl _))
  rw [State.bodies] at h
  split at h
  · next hk =>
    obtain rfl := mem_singleton.mp h
    refine ⟨.block body.here (branch body).value.stmts, ?_, hinside (mem_singleton_self _)⟩
    rw [branch_brace hk, statement, dif_neg (hk ▸ by decide)]
    simp only [hk, blockRest]
    rfl
  · next hk =>
    rw [statement_if hk]
    simp only [Step.andThen, State.accepting]
    split at h
    · next word hword =>
      simp only [Step.after, hword]
      refine ⟨_, rfl, hinside ?_⟩
      rcases mem_cons.mp h with rfl | h
      · exact mem_cons_self
      · obtain rfl := mem_singleton.mp h
        exact mem_cons_of_mem _ mem_cons_self
    · next hword =>
      simp only [Step.after, hword]
      obtain rfl := mem_singleton.mp h
      exact ⟨_, rfl, hinside (mem_singleton_self _)⟩
  · next hk =>
    obtain rfl := mem_singleton.mp h
    rw [statement, dif_neg (hk ▸ by decide)]
    simp only [hk]
    exact ⟨_, rfl, hinside (mem_singleton_self _)⟩
  · next hk =>
    obtain rfl := mem_singleton.mp h
    refine ⟨_, statement_for hk, ?_⟩
    refine Within.inside (mem_singleton_self _) (mem_singleton_self _)
      (.inside (mem_append_right _ (mem_singleton_self _)) (mem_singleton_self _) (.here ?_))
    exact (prefix_append _ _).isInfix
  · cases h

/-- A loop that collects puts what its turns give behind what it has. -/
theorem value_iterate_append {α : Type} (turn : (s : State ts) → Turn (List α) s) (items : List α) (s : State ts) :
    (iterate items s fun items s' _ => (turn s').map (items ++ ·)).value =
      items ++ (many s fun s' _ => turn s').value := by
  rw [many, iterate, iterate]
  cases turn s with
  | last r => rfl
  | again r =>
    have hlt := r.lt
    show (iterate (items ++ r.value) r.next fun items s' _ => (turn s').map (items ++ ·)).value =
      items ++ (iterate ([] ++ r.value) r.next fun items s' _ => (turn s').map (items ++ ·)).value
    rw [value_iterate_append turn _ r.next, value_iterate_append turn _ r.next, List.append_assoc]
    rfl
termination_by s.left

/-- What a block reads as: its first statement, if it is one, and the others. -/
theorem statements_eq (hs : s.kind ≠ .eof) (hk : s.kind ≠ .rightBrace) :
    (statements s).value = (statement s).value.toList ++ (statements s.resumed).value := by
  have hturn : ∃ r, statementTurn s = .again r ∧ r.value = (statement s).value.toList ∧ r.next = s.resumed := by
    rw [statementTurn, dif_neg hs, if_neg hk, State.resumed]
    by_cases hlt : (statement s).next.left < s.left
    · rw [if_pos hlt]
      exact ⟨_, dif_pos hlt, rfl, rfl⟩
    · rw [if_neg hlt]
      exact ⟨_, dif_neg hlt, rfl, rfl⟩
  obtain ⟨r, hturn, hvalue, hnext⟩ := hturn
  rw [statements, many, iterate, hturn, ← hnext, ← hvalue, statements]
  exact value_iterate_append statementTurn r.value r.next

/-- A statement is one of those that its block reads as. -/
theorem mem_of_startsAt (h : StartsAt s s') {x : Stmt} (hx : (statement s').value = some x) :
    x ∈ (statements s).value := by
  induction h with
  | first hs hk =>
    rw [statements_eq hs hk, hx]
    exact mem_append_left _ mem_cons_self
  | later hs hk _ ih =>
    rw [statements_eq hs hk]
    exact mem_append_right _ (ih hx)

/-- **What a statement reads as** stands in what the statement around it reads as. -/
theorem exists_within_of_meets (h : Meets s s') {x : Stmt} (hx : (statement s').value = some x) :
    ∃ y, (statement s).value = some y ∧ Within [x] [y] := by
  induction h with
  | self s => exact ⟨x, hx, .here (infix_refl _)⟩
  | braced hbody hk h₁ _ ih =>
    obtain ⟨z, hz, hxz⟩ := ih hx
    obtain ⟨y, hy, hwithin⟩ := exists_of_mem_bodies hbody
    rw [branch_brace hk] at hwithin
    obtain ⟨front, back, hsplit⟩ := append_of_mem (mem_of_startsAt h₁ hz)
    rw [hsplit] at hwithin
    exact ⟨y, hy, (hxz.mono ⟨front, back, by simp⟩).trans hwithin⟩
  | single hbody hk _ ih =>
    obtain ⟨z, hz, hxz⟩ := ih hx
    obtain ⟨y, hy, hwithin⟩ := exists_of_mem_bodies hbody
    rw [branch_single hk, hz] at hwithin
    exact ⟨y, hy, hxz.trans hwithin⟩

/-! ## The parts of a header -/

theorem isSimple_simple (s : State ts) : (simple s).value.isSimple = true := by
  rw [simple]
  split
  · simp only [declaration, Step.andThen, Step.after, State.accepting]
    split
    · rfl
    · rfl
  · simp only [Step.andThen, Step.after]
    rw [afterExpression]
    split
    · rfl
    · split
      · rfl
      · split
        · rfl
        · rfl
        · rfl

/-- The update of a header is a simple statement. -/
theorem isSimple_update (pos : Position) (s : State ts) :
    ∀ u ∈ (forHeader pos s).value.2.2, u.isSimple = true := by
  have hpart : ∀ s : State ts, ∀ u ∈ (headerPart .rightParen none (fun s' => (simple s').map some) s).value,
      u.isSimple = true := by
    intro s u hu
    rw [headerPart] at hu
    split at hu
    · cases hu
    · cases hu
      exact isSimple_simple s
  exact hpart _

/-- What a statement reads as stands in what its block reads as. -/
theorem within_of_has (h : Has s s') {x : Stmt} (hx : (statement s').value = some x) :
    Within [x] (block s).value.stmts := by
  obtain ⟨s₁, hstarts, hmeets⟩ := h
  obtain ⟨y, hy, hwithin⟩ := exists_within_of_meets hmeets hx
  have hblock : (block s).value.stmts = (statements s.opened).value := by
    rw [block, State.opened]
    simp only [blockRest]
    rfl
  obtain ⟨front, back, hsplit⟩ := append_of_mem (mem_of_startsAt hstarts hy)
  rw [hblock, hsplit]
  exact hwithin.mono ⟨front, back, by simp⟩

end Reading

/-! ## Renaming -/

open Reading

/-- **What renaming makes of a counting loop**: the update is renamed in the scope after the body. -/
theorem rename_forLoop (pos : Position) (contract : List Clause × Option Clause)
    (header : Option Stmt × Expr × Option Stmt) (body : Body) (scope : Scope) (n : Nat) :
    let outer := Stmt.after scope n header.1.toList
    let entry := loopEntry outer.1 outer.2 header.2.1 contract.1 contract.2
    let inner := Stmt.after outer.1 entry body.stmts
    ∃ invariants variant, (((forLoop pos contract header body).rename scope).run n).1.stmts =
      [.block pos (((Stmt.renameAll scope header.1.toList).run n).1.1 ++
        [.loop pos ((header.2.1.rename outer.1).run outer.2).1 invariants variant body.pos
          (((Stmt.renameAll outer.1 body.stmts).run entry).1.1 ++
            ((Stmt.renameAll inner.1 header.2.2.toList).run inner.2).1.1)])] := by
  intro outer entry inner
  have hbody := renameAll_append body.stmts header.2.2.toList outer.1 entry
  refine ⟨((contract.1.mapM (Clause.rename outer.1)).run ((header.2.1.rename outer.1).run outer.2).2).1,
    ((contract.2.mapM (Clause.rename outer.1)).run ((contract.1.mapM (Clause.rename outer.1)).run
      ((header.2.1.rename outer.1).run outer.2).2).2).1, ?_⟩
  rw [← hbody]
  have hblock := renameAll_append header.1.toList [.loop pos header.2.1 contract.1 contract.2 body.pos
    (body.stmts ++ header.2.2.toList)] scope n
  exact congrArg (fun stmts => [Stmt.block pos stmts]) hblock

/-- **How the update of a counting loop is renamed**: as its header would be, exactly when the body declares
no variable that is free in the update. -/
theorem forLoop_update_exact {ts : Tokens} {s s' : State ts} (h : Has s s') (hfor : s'.kind = .forWord) (m : Method)
    (hm : m.body = some (block s).value) (k : Nat) :
    let header := s'.header
    let body := (branch header.next).value
    let loop := forLoop s'.here s'.loopContract header.value body
    let params := (bindParams .empty m.params).run k
    (statement s').value = some loop ∧ (∃ scope n, Upon loop params.1 params.2 m.stmts scope n) ∧
      ∀ scope n, Upon loop params.1 params.2 m.stmts scope n →
        let outer := Stmt.after scope n header.value.1.toList
        let entry := loopEntry outer.1 outer.2 header.value.2.1 s'.loopContract.1 s'.loopContract.2
        let inner := Stmt.after outer.1 entry body.stmts
        let update := ((Stmt.renameAll inner.1 header.value.2.2.toList).run inner.2).1.1
        (∃ invariants variant, Within
          [.block s'.here (((Stmt.renameAll scope header.value.1.toList).run n).1.1 ++
            [.loop s'.here ((header.value.2.1.rename outer.1).run outer.2).1 invariants variant body.pos
              (((Stmt.renameAll outer.1 body.stmts).run entry).1.1 ++ update)])] (m.rename.run k).1.body) ∧
          (update = ((Stmt.renameAll outer.1 header.value.2.2.toList).run inner.2).1.1 ↔
            ∀ o ∈ Stmt.occurrencesAll header.value.2.2.toList, o.name ∉ o.under →
              o.name ∉ Stmt.declared body.stmts) := by
  intro header body loop params
  have hloop : (statement s').value = some loop := statement_for hfor
  have hwithin : Within [loop] m.stmts := by
    rw [Method.stmts, hm]
    exact within_of_has h hloop
  refine ⟨hloop, exists_upon hwithin _ _, fun scope n hupon => ?_⟩
  intro outer entry inner update
  have hscope : Scope.Settled scope n := hupon.settled (paramScope_bindParams m.params k).called
  have hentry : outer.2 ≤ entry :=
    Nat.le_trans (le_rename ..) (Nat.le_trans (le_renameClauses ..) (le_optional (le_renameClause _) ..))
  obtain ⟨invariants, variant, hrenamed⟩ := rename_forLoop s'.here s'.loopContract header.value body scope n
  refine ⟨⟨invariants, variant, ?_⟩, ?_⟩
  · rw [← hrenamed]
    exact hupon.within
  · exact rename_after_stmts_eq_iff ((hscope.after _).mono hentry) body.stmts (isSimple_update _ _)

/-- Where a block is read with a counting loop whose body has a variable of its own. -/
def countingStart : State (scan "\x7b for (int i = 0; i < 3; i = i + 1) \x7b int f = i; \x7d \x7d").closed := .start _

/-- The block is the body of a method. -/
def counting : Method where
  name := "m"
  body := some (block countingStart).value

/-- A variable of the body does not get in the way of an update without it. -/
theorem forLoop_update_exact_counting :
    let s := countingStart.opened
    let body := (branch s.header.next).value
    ∃ scope n, Upon (forLoop s.here s.loopContract s.header.value body) .empty 0 counting.stmts scope n ∧
      let outer := Stmt.after scope n s.header.value.1.toList
      let entry := loopEntry outer.1 outer.2 s.header.value.2.1 s.loopContract.1 s.loopContract.2
      let inner := Stmt.after outer.1 entry body.stmts
      ((Stmt.renameAll inner.1 s.header.value.2.2.toList).run inner.2).1.1 =
        ((Stmt.renameAll outer.1 s.header.value.2.2.toList).run inner.2).1.1 := by
  intro s body
  have hfor : s.kind = .forWord := by decide +kernel
  have hhas : Has countingStart s := ⟨s, .first (hfor ▸ by decide) (hfor ▸ by decide), .self s⟩
  obtain ⟨-, ⟨scope, n, hupon⟩, hall⟩ := forLoop_update_exact hhas hfor counting rfl 0
  refine ⟨scope, n, hupon, (hall scope n hupon).2.mpr ?_⟩
  decide +kernel

/-- **The body of a counting loop captures the update**: without an error in the text, the field that the
header counts with becomes a variable of the body. -/
theorem forLoop_update_captured :
    let c := read "C.java" 
      "class C \x7b int f; void m() \x7b for (f = 0; f < 3; f = f + 1) \x7b int f = 7; \x7d \x7d \x7d"
    c.parseErrors = [] ∧ c.scanErrors.length = 0 ∧
      (c.classes.flatMap (·.methods)).map (fun m => (Stmt.occurrencesAll (m.rename.run 0).1.body).map (·.name)) =
        [["f", "f", "var_1_f", "var_1_f", "var_1_f"]] := by
  decide +kernel

end Relspec.Source
