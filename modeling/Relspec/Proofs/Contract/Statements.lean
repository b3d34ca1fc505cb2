import Relspec.Contract.Reader
import Relspec.Proofs.Contract.Spelling
import Relspec.Proofs.Formula.RoundTrip

/-!
# Proofs/Contract/Statements — statements through their texts

A statement is known by its first word, but the target of an assignment may be such a word as well.  What
comes next tells them apart: a target goes on with a mark that no other statement has there.

* `simple_assign` — an assignment, whatever its target starts with;
* `statement?_spelling`, `statements_spelling` — the lexemes of statements read as the statements, by
  induction over them.
-/

namespace Relspec.Contract

open List
open Formula
open Reading (simple branchHead? loopHead? statement? branch? loop? statements alternative)

/-! ## Readers -/

namespace Reader

variable {α β : Type}

@[simp] theorem bind_apply (r : Reader α) (f : α → Reader β) (s : List Lexeme) :
    (r >>= f) s = (r s).bind fun p => f p.1 p.2 := rfl

@[simp] theorem map_apply (f : α → β) (r : Reader α) (s : List Lexeme) :
    (f <$> r) s = (r s).map fun p => (f p.1, p.2) := by
  change ((r s).bind fun p => some (f p.1, p.2)) = _
  cases r s <;> rfl

@[simp] theorem pure_apply (a : α) (s : List Lexeme) : (pure a : Reader α) s = some (a, s) := rfl

@[simp] theorem orElse_apply (r r' : Reader α) (s : List Lexeme) :
    (r <|> r') s = (r s <|> r' s) := rfl

@[simp] theorem word_cons (w : String) (s : List Lexeme) : word (.word w :: s) = some (w, s) := rfl

@[simp] theorem word_mark (m : Mark) (s : List Lexeme) : word (.mark m :: s) = none := rfl

@[simp] theorem keyword_cons (w v : String) (s : List Lexeme) :
    keyword w (.word v :: s) = if v = w then some ((), s) else none := rfl

@[simp] theorem keyword_mark (w : String) (m : Mark) (s : List Lexeme) :
    keyword w (.mark m :: s) = none := rfl

@[simp] theorem mark_cons (m k : Mark) (s : List Lexeme) :
    mark m (.mark k :: s) = if k = m then some ((), s) else none := rfl

/-- A reader that goes on where another has stopped. -/
theorem bind_of {r : Reader α} {f : α → Reader β} {a : α} {s t : List Lexeme}
    (h : r s = some (a, t)) : (r >>= f) s = f a t := by
  rw [bind_apply, h, Option.bind_some]

theorem keyword_self (w : String) (s : List Lexeme) : keyword w (.word w :: s) = some ((), s) :=
  if_pos rfl

theorem mark_self (m : Mark) (s : List Lexeme) : mark m (.mark m :: s) = some ((), s) := if_pos rfl

theorem formula_spelling {f : Formula} (h : f.legible = true) {r : List Lexeme} (hr : Stops 8 r) :
    formula (f.spelling ++ r) = some (f, r) := by
  obtain ⟨hlt, hf⟩ := (operand_of_legible h).iff? h hr
  rw [formula, taking, hf]
  rfl

/-- No formula starts with such a mark. -/
theorem formula_eq_none {m : Mark} (h : m ≠ .leftParen ∧ m ≠ .bang)
    (hu : Formula.Reading.unaryOp? (.mark m) = none) (s : List Lexeme) :
    formula (.mark m :: s) = none := by
  rw [formula, taking, iff?_eq_none h hu]
  rfl

end Reader

open Reader

/-! ## Statements -/

theorem stops_semicolon (r : List Lexeme) : Stops 8 (.mark .semicolon :: r) := .cons (by decide)

/-! ### Targets of assignments

A target may start with a word that starts another statement, but then a mark comes next that no such
statement has there.
-/

/-- The marks that may stand after the first word of a target. -/
def targetMarks : List Mark := [.assign, .dot, .leftBracket]

/-- A target stands at the front. -/
def StartsTarget (s : List Lexeme) : Prop :=
  ∀ w t, s = .word w :: t → ∃ m ∈ targetMarks, ∃ u, t = .mark m :: u

theorem startsTarget_spelling : ∀ (e : Formula) {m : Mark} (u : List Lexeme), m ∈ targetMarks →
    StartsTarget (e.spelling ++ .mark m :: u)
  | .ident name, m, u, hm => by
    rintro w t heq
    obtain ⟨-, rfl⟩ := List.cons.inj heq
    exact ⟨m, hm, u, rfl⟩
  | .int value, m, u, _ => by
    rw [spelling]
    cases value.toInt <;> · rintro w t heq; cases heq
  | .join l r, m, u, _ => by
    rw [spelling, append_assoc, append_assoc]
    exact startsTarget_spelling l _ (by simp [targetMarks])
  | .call name args, m, u, _ => by
    rintro w t heq
    obtain ⟨-, rfl⟩ := List.cons.inj heq
    exact ⟨.leftBracket, by simp [targetMarks], _, rfl⟩
  | .unary _ _, _, _, _ | .binary _ _ _, _, _, _ | .quant _ _ _ _, _, _, _ | .old _, _, _, _
  | .ite _ _ _, _, _, _ => by rintro w t heq; cases heq

/-- A statement that starts with a keyword does not start with a target. -/
theorem keyword_bind_eq_none {α : Type} {s : List Lexeme} (hs : StartsTarget s) (k : String)
    {f : Unit → Reader α} (hf : ∀ m ∈ targetMarks, ∀ u, f () (.mark m :: u) = none) :
    (keyword k >>= f) s = none := by
  rw [bind_apply]
  cases s with
  | nil => rfl
  | cons c t =>
    cases c with
    | word w =>
      obtain ⟨m, hm, u, rfl⟩ := hs w t rfl
      rw [keyword_cons]
      split
      · exact hf m hm u
      · rfl
    | _ => rfl

theorem formula_targetMark {m : Mark} (hm : m ∈ targetMarks) (u : List Lexeme) :
    formula (.mark m :: u) = none := by
  simp only [targetMarks, mem_cons, not_mem_nil, or_false] at hm
  rcases hm with rfl | rfl | rfl <;> exact formula_eq_none ⟨by decide, by decide⟩ rfl u

theorem mark_targetMark {m k : Mark} (hm : m ∈ targetMarks) (hk : k ∉ targetMarks) (u : List Lexeme) :
    mark k (.mark m :: u) = none := by
  have hne : m ≠ k := fun h => hk (h ▸ hm)
  rw [mark_cons, if_neg hne]

theorem simple_assign {f g : Formula} (hf : f.legible = true) (hg : g.legible = true)
    (r : List Lexeme) :
    simple (f.spelling ++ .mark .assign :: (g.spelling ++ .mark .semicolon :: r)) =
      some (.assign f g, r) := by
  have hs := startsTarget_spelling f (g.spelling ++ .mark .semicolon :: r)
    (m := .assign) (by simp [targetMarks])
  have hassert := keyword_bind_eq_none hs "assert" (f := fun _ => do
    let f ← formula; mark .semicolon; pure (Stmt.assert f)) fun m hm u => by
      rw [bind_apply, formula_targetMark hm]; rfl
  have hassume := keyword_bind_eq_none hs "assume" (f := fun _ => do
    let f ← formula; mark .semicolon; pure (Stmt.assume f)) fun m hm u => by
      rw [bind_apply, formula_targetMark hm]; rfl
  have hreturn := keyword_bind_eq_none hs "return" (f := fun _ => do
    let f ← maybe formula; mark .semicolon; pure (Stmt.ret f)) fun m hm u => by
      rw [bind_apply, maybe, formula_targetMark hm]
      change (mark .semicolon >>= fun _ => pure (Stmt.ret none)) (.mark m :: u) = none
      rw [bind_apply, mark_targetMark hm (by decide)]
      rfl
  have hthrow := keyword_bind_eq_none hs "throw" (f := fun _ => do
    let e ← word; mark .semicolon; pure (Stmt.raise e)) fun m hm u => rfl
  have htarget := formula_spelling hf (r := .mark .assign :: (g.spelling ++ .mark .semicolon :: r)) (.cons (by decide))
  rw [simple, orElse_apply, orElse_apply, orElse_apply, orElse_apply, hassert, hassume,
    hreturn, hthrow]
  simp [htarget, formula_spelling hg (stops_semicolon r)]

/-! ### Branches, loops and bodies -/

section

variable {s t u r : List Lexeme} {f : Formula} {x : Stmt} {thn els body xs : List Stmt}
variable {w : String} {o i v : Option Formula}

theorem statement?_of_simple (hbranch : branchHead? s = none)
    (hloop : loopHead? s = none) (h : simple s = some (x, r))
    (hlt : r.length < s.length) : Takes (statement? s) x r := by
  rw [statement?, branch?, hbranch]
  simp only
  rw [loop?, hloop]
  simp only
  rw [Reading.simple?, h]
  simp only [dif_pos hlt]
  exact ⟨_, rfl⟩

theorem branchHead?_if (h : f.legible = true) (t : List Lexeme) :
    Takes (branchHead? (.word "if" :: (f.spelling ++ .mark .leftBrace :: t))) f t := by
  have hf := formula_spelling h (r := .mark .leftBrace :: t) (.cons (by decide))
  have hlt : t.length < (Lexeme.word "if" :: (f.spelling ++ .mark .leftBrace :: t)).length := by
    simp only [length_cons, length_append]
    omega
  have hread : (do keyword "if"; let f ← formula; mark .leftBrace; pure f : Reader Formula)
      (.word "if" :: (f.spelling ++ .mark .leftBrace :: t)) = some (f, t) := by
    simp [hf]
  rw [branchHead?, hread]
  simp only [dif_pos hlt]
  exact ⟨_, rfl⟩

theorem branchHead?_word (h : w ≠ "if") (t : List Lexeme) : branchHead? (.word w :: t) = none := by
  simp [branchHead?, h]

theorem loopHead?_word (h : w ≠ "while") (t : List Lexeme) : loopHead? (.word w :: t) = none := by
  simp [loopHead?, h]

/-- A statement that starts with a word of its own. -/
theorem statement?_of_word (hx : x.spelling = .word w :: u) (hw : w ≠ "if" ∧ w ≠ "while")
    (h : simple (x.spelling ++ r) = some (x, r)) : Takes (statement? (x.spelling ++ r)) x r := by
  refine statement?_of_simple ?_ ?_ h ?_
  · rw [hx]
    exact branchHead?_word hw.1 _
  · rw [hx]
    exact loopHead?_word hw.2 _
  · rw [hx, length_append, length_cons]
    omega

theorem branchHead?_startsTarget (hs : StartsTarget s) : branchHead? s = none := by
  have h := keyword_bind_eq_none hs "if" (f := fun _ => do
    let f ← formula; mark .leftBrace; pure f) fun m hm u => by
      rw [bind_apply, formula_targetMark hm]; rfl
  rw [branchHead?, h]

theorem loopHead?_startsTarget (hs : StartsTarget s) : loopHead? s = none := by
  have h := keyword_bind_eq_none hs "while" (f := fun _ => do
    let f ← formula
    let invariant ← maybe (braced "invariant")
    let variant ← maybe (braced "decreases")
    mark .leftBrace
    pure (f, invariant, variant)) fun m hm u => by rw [bind_apply, formula_targetMark hm]; rfl
  rw [loopHead?, h]

theorem braced_spelling (h : f.legible = true) (t : List Lexeme) :
    braced w (bracedSpelling w f ++ t) = some (f, t) := by
  have hf := formula_spelling h (r := .mark .rightBrace :: t) (.cons (by decide))
  simp [braced, bracedSpelling, hf]

/-- A clause that may be missing, before something that is no such clause. -/
theorem maybe_braced (h : o.all Formula.legible = true) (ht : t.head? ≠ some (.word w)) :
    maybe (braced w) (clauseSpelling w o ++ t) = some (o, t) := by
  cases o with
  | some f => simp [maybe, clauseSpelling, braced_spelling h]
  | none =>
    have hnone : braced w t = none := by
      unfold braced
      rw [bind_apply]
      cases t with
      | nil => rfl
      | cons c t =>
        cases c with
        | word v =>
          have hne : v ≠ w := fun hv => ht (by rw [hv]; rfl)
          rw [keyword_cons, if_neg hne]
          rfl
        | _ => rfl
    simp [maybe, clauseSpelling, hnone]

theorem head?_clause : (clauseSpelling w o ++ t).head? = if o.isSome then some (.word w) else t.head? := by
  cases o <;> rfl

theorem loopHead?_while (h : f.legible = true) (hi : i.all Formula.legible = true)
    (hv : v.all Formula.legible = true) (t : List Lexeme) :
    Takes (loopHead? (.word "while" :: (f.spelling ++ (clauseSpelling "invariant" i ++
      (clauseSpelling "decreases" v ++ .mark .leftBrace :: t))))) (f, i, v) t := by
  have hvariant := maybe_braced (w := "decreases") hv (t := .mark .leftBrace :: t) (by simp)
  have hinvariant := maybe_braced (w := "invariant") hi
    (t := clauseSpelling "decreases" v ++ .mark .leftBrace :: t) (by
      rw [head?_clause]
      split <;> simp)
  have hf := formula_spelling h (r := clauseSpelling "invariant" i ++
    (clauseSpelling "decreases" v ++ .mark .leftBrace :: t)) (by
      intro c hc
      rw [head?_clause, head?_clause] at hc
      split at hc
      · exact Option.some.inj hc ▸ by decide
      · split at hc
        · exact Option.some.inj hc ▸ by decide
        · exact Option.some.inj hc ▸ by decide)
  have hlt : t.length < (Lexeme.word "while" :: (f.spelling ++ (clauseSpelling "invariant" i ++
      (clauseSpelling "decreases" v ++ .mark .leftBrace :: t)))).length := by
    simp only [length_cons, length_append]
    omega
  have hread : (do
      keyword "while"
      let f ← formula
      let invariant ← maybe (braced "invariant")
      let variant ← maybe (braced "decreases")
      mark .leftBrace
      pure (f, invariant, variant) : Reader (Formula × Option Formula × Option Formula))
      (.word "while" :: (f.spelling ++ (clauseSpelling "invariant" i ++
        (clauseSpelling "decreases" v ++ .mark .leftBrace :: t)))) = some ((f, i, v), t) := by
    simp [hf, hinvariant, hvariant]
  rw [loopHead?, hread]
  simp only [dif_pos hlt]
  exact ⟨_, rfl⟩

theorem branch?_of (hcond : Takes (branchHead? s) f t)
    (hthn : Trails (statements t) thn (.mark .rightBrace :: u))
    (hels : Trails (alternative u) els r) :
    Takes (statement? s) (.branch f thn els) r := by
  obtain ⟨hltc, hcond⟩ := hcond
  obtain ⟨hlet, hthn⟩ := hthn
  obtain ⟨hlee, hels⟩ := hels
  rw [statement?, branch?, hcond]
  simp only [hthn, hels]
  exact ⟨_, rfl⟩

theorem alternative_else (h : Trails (statements t) els (.mark .rightBrace :: r)) :
    Trails (alternative (.word "else" :: .mark .leftBrace :: t)) els r := by
  obtain ⟨hle, h⟩ := h
  rw [alternative]
  simp only [if_true, h]
  exact ⟨_, rfl⟩

theorem alternative_none (h : r.head? ≠ some (.word "else")) :
    Trails (alternative r) [] r := by
  unfold alternative
  split
  · rename_i w t
    have hne : w ≠ "else" := fun hw => h (by rw [hw]; rfl)
    rw [if_neg hne]
    exact ⟨_, rfl⟩
  · exact ⟨_, rfl⟩

theorem loop?_of (hbranch : branchHead? s = none) (hhead : Takes (loopHead? s) (f, i, v) t)
    (hbody : Trails (statements t) body (.mark .rightBrace :: r)) :
    Takes (statement? s) (.loop f i v body) r := by
  obtain ⟨hlth, hhead⟩ := hhead
  obtain ⟨hleb, hbody⟩ := hbody
  rw [statement?, branch?, hbranch]
  simp only
  rw [loop?, hhead]
  simp only [hbody]
  exact ⟨_, rfl⟩

theorem statements_cons (hx : Takes (statement? s) x t)
    (hxs : Trails (statements t) xs r) : Trails (statements s) (x :: xs) r := by
  obtain ⟨hlt, hx⟩ := hx
  obtain ⟨hle, hxs⟩ := hxs
  rw [statements, hx]
  simp only [hxs]
  exact ⟨_, rfl⟩

theorem statements_rightBrace (r : List Lexeme) :
    Trails (statements (.mark .rightBrace :: r)) [] (.mark .rightBrace :: r) := by
  have hformula : formula (.mark .rightBrace :: r) = none :=
    formula_eq_none ⟨by decide, by decide⟩ rfl r
  have hsimple : simple (.mark .rightBrace :: r) = none := by
    simp [simple, hformula]
  have hstarts : StartsTarget (.mark .rightBrace :: r) := fun w t heq => by cases heq
  have hstatement : statement? (.mark .rightBrace :: r) = none := by
    rw [statement?, branch?, branchHead?_startsTarget hstarts]
    simp only
    rw [loop?, loopHead?_startsTarget hstarts]
    simp only
    rw [Reading.simple?, hsimple]
  rw [statements, hstatement]
  exact ⟨_, rfl⟩

end

/-! ### Every legible statement -/

theorem takes_congr {α : Type} {f : (s : List Lexeme) → Option (Taken α s)} {s t r : List Lexeme}
    {x : α} (hst : s = t) (h : Takes (f t) x r) : Takes (f s) x r := hst ▸ h

/-- No statement starts like the second half of a branch. -/
theorem head?_spelling {x : Stmt} (h : x.legible = true) (r : List Lexeme) :
    (x.spelling ++ r).head? ≠ some (.word "else") := by
  cases x with
  | assign f g =>
    simp only [Stmt.legible, Bool.and_eq_true] at h
    obtain ⟨c, t, hct, hstarts, -⟩ := exists_spelling_eq_cons h.1
    rw [Stmt.spelling, hct]
    rintro heq
    obtain rfl := Option.some.inj heq
    exact absurd hstarts (by decide)
  | branch f thn els => cases els <;> simp [Stmt.spelling]
  | ret f => cases f <;> simp [Stmt.spelling]
  | _ => simp [Stmt.spelling]

theorem head?_spellingAll {xs : List Stmt} (h : Stmt.legibleAll xs = true) (r : List Lexeme) :
    (Stmt.spellingAll xs ++ .mark .rightBrace :: r).head? ≠ some (.word "else") := by
  cases xs with
  | nil => simp [Stmt.spellingAll]
  | cons x xs =>
    rw [Stmt.legibleAll, Bool.and_eq_true] at h
    rw [Stmt.spellingAll, append_assoc]
    exact head?_spelling h.1 _

mutual

/-- **A legible statement is read back from its lexemes.** -/
theorem statement?_spelling : ∀ {x : Stmt}, x.legible = true → ∀ {r : List Lexeme},
    r.head? ≠ some (.word "else") → Takes (statement? (x.spelling ++ r)) x r
  | .assign f g, h, r, _ => by
    simp only [Stmt.legible, Bool.and_eq_true] at h
    have hs := startsTarget_spelling f (g.spelling ++ .mark .semicolon :: r)
      (m := .assign) (by simp [targetMarks])
    refine takes_congr (f := statement?) (by simp [Stmt.spelling])
      (statement?_of_simple (branchHead?_startsTarget hs) (loopHead?_startsTarget hs)
        (simple_assign h.1 h.2 r) ?_)
    simp only [length_cons, length_append]
    omega
  | .branch f thn els, h, r, hr => by
    simp only [Stmt.legible, Bool.and_eq_true] at h
    cases els with
    | nil =>
      exact takes_congr (f := statement?) (by simp [Stmt.spelling])
        (branch?_of (branchHead?_if h.1.1 _) (statements_spelling h.1.2) (alternative_none hr))
    | cons y ys =>
      have hels := statements_spelling h.2 (r := r)
      exact takes_congr (f := statement?) (by simp [Stmt.spelling, Stmt.spellingAll])
        (branch?_of (branchHead?_if h.1.1 _) (statements_spelling h.1.2) (alternative_else hels))
  | .loop f i v body, h, r, _ => by
    simp only [Stmt.legible, Bool.and_eq_true] at h
    exact takes_congr (f := statement?) (by simp [Stmt.spelling])
      (loop?_of (branchHead?_word (by decide) _) (loopHead?_while h.1.1.1 h.1.1.2 h.1.2 _)
        (statements_spelling h.2))
  | .assert f, h, r, _ | .assume f, h, r, _ =>
    statement?_of_word rfl (by decide) (by simp [Stmt.spelling, simple, formula_spelling h (stops_semicolon r)])
  | .ret none, _, r, _ => by
    have hnone : formula (.mark .semicolon :: r) = none := formula_eq_none ⟨by decide, by decide⟩ rfl r
    exact statement?_of_word rfl (by decide) (by simp [Stmt.spelling, simple, maybe, hnone])
  | .ret (some f), h, r, _ => statement?_of_word rfl (by decide)
    (by simp [Stmt.spelling, simple, maybe, formula_spelling h (stops_semicolon r)])
  | .raise e, _, r, _ => statement?_of_word rfl (by decide) (by simp [Stmt.spelling, simple])

theorem statements_spelling : ∀ {xs : List Stmt}, Stmt.legibleAll xs = true → ∀ {r : List Lexeme},
    Trails (statements (Stmt.spellingAll xs ++ .mark .rightBrace :: r)) xs
      (.mark .rightBrace :: r)
  | [], _, r => statements_rightBrace r
  | x :: xs, h, r => by
    rw [Stmt.legibleAll, Bool.and_eq_true] at h
    have hx := statement?_spelling h.1 (head?_spellingAll h.2 r)
    rw [Stmt.spellingAll, append_assoc]
    exact statements_cons hx (statements_spelling h.2)

end

end Relspec.Contract
