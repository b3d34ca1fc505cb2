import Relspec.Proofs.Formula.Levels
import Relspec.Proofs.Formula.Spelling

/-!
# Proofs/Formula/RoundTrip — formulas through their texts

The text of a formula is an operand of the tightest level that has operators: it is a join of formulas
that stand in parentheses or by themselves, or a literal with a sign.  So reading it comes back to the
formula, whatever stands after it that does not go on the operand.

* `Operand` — what reading the lexemes of a formula gives, at each of the tight levels;
* `operand_of_legible` — by induction over the formula;
* `read_text` — the text of a formula reads as the formula.
-/

namespace Relspec.Formula

open List
open Reading

attribute [local simp] unary? primary?

variable {s r t : List Lexeme} {x e : Formula} {args : List Formula} {m : Mark}

/-! ## Operands -/

/-- What does not start with the arguments of a call. -/
def NoArguments (s : List Lexeme) : Prop := s.head? ≠ some (.mark .leftBracket)

theorem Stops.noArguments (h : Stops 1 s) : NoArguments s := by
  intro hs
  exact h.not_operator 0 hs (by decide) (by decide) rfl

theorem Stops.dotOp? (h : Stops 1 s) : ∀ c ∈ s.head?, dotOp? c = none :=
  fun c hc => if_neg fun hdot => h.not_operator 0 hc (by decide) (by decide) (by rw [hdot]; rfl)

/-- **A formula is an operand** when its lexemes read as it does at the tight levels. -/
structure Operand (e : Formula) : Prop where
  unary : ∀ {r}, Stops 1 r → Takes (unary? (e.spelling ++ r)) e r
  dotted : e.isNegative = false → ∀ {r x u}, NoArguments r → Trails (more (fun _ => .join) dotOp? primary? e r) x u →
    Takes (dotted? (e.spelling ++ r)) x u
  primary : e.isNegative = false → e.isJoin = false → ∀ {r}, NoArguments r →
    Takes (primary? (e.spelling ++ r)) e r

theorem unary?_of_dotted? (h : Takes (dotted? s) x r) (hs : ∀ c ∈ s.head?, unaryOp? c = none) :
    Takes (unary? s) x r := by
  obtain ⟨c, t, rfl⟩ := ne_nil_of_takes h
  rw [unary?, hs c rfl]
  exact h

/-! ## How the text of a formula starts -/

/-- What a formula can start with. -/
def starts : Lexeme → Bool
  | .word w => isName w
  | .number _ | .old | .mark .leftParen | .mark .minus => true
  | .mark _ => false

/-- A formula starts with neither a negation nor a quantifier. -/
theorem plain_of_starts {c : Lexeme} (h : starts c = true) :
    c.spells "not" .bang = false ∧ quantifier? c = none := by
  unfold starts at h
  split at h
  · rename_i w
    have hw : w ∉ keywords := by
      simpa [isName] using (Bool.and_eq_true_iff.mp h).2
    have hne : ∀ k ∈ keywords, w ≠ k := fun k hk hwk => hw (hwk ▸ hk)
    simp only [keywords, forall_mem_cons] at hne
    constructor
    · simp [Lexeme.spells, hne]
    · unfold quantifier? mult?
      split
      · simp_all
      · split <;> simp_all
  all_goals first | exact ⟨rfl, rfl⟩ | cases h

/-- The first lexeme of a formula is an operator only when it is the sign of a literal. -/
theorem exists_spelling_eq_cons {e : Formula} (h : e.legible = true) :
    ∃ c t, e.spelling = c :: t ∧ starts c = true ∧ (e.isNegative = false → unaryOp? c = none) := by
  cases e with
  | ident name => exact ⟨_, _, rfl, h, fun _ => rfl⟩
  | int value =>
    rw [spelling, isNegative]
    cases hvalue : value.toInt with
    | ofNat n => exact ⟨_, _, rfl, rfl, fun _ => rfl⟩
    | negSucc n => exact ⟨_, _, rfl, rfl, fun h => by simp at h⟩
  | join l r =>
    simp only [legible, Bool.and_eq_true, Bool.not_eq_true'] at h
    obtain ⟨c, t, hct, hstarts, hunary⟩ := exists_spelling_eq_cons h.1.1.1.1
    exact ⟨c, t ++ [.mark .dot] ++ r.spelling, by simp [spelling, hct], hstarts,
      fun _ => hunary h.1.1.2⟩
  | call name args =>
    simp only [legible, Bool.and_eq_true] at h
    exact ⟨_, _, rfl, h.1, fun _ => rfl⟩
  | unary op x | binary op x y | quant kind vars domain body | old x | ite c t e =>
    exact ⟨_, _, rfl, rfl, fun _ => rfl⟩

theorem plain_spelling (h : e.legible = true) (r : List Lexeme) : Plain (e.spelling ++ r) := by
  obtain ⟨c, t, hct, hstarts, -⟩ := exists_spelling_eq_cons h
  rw [hct, cons_append]
  exact plain_cons.mpr (plain_of_starts hstarts)

theorem unaryOp?_spelling (h : e.legible = true) (hn : e.isNegative = false) (r : List Lexeme) :
    ∀ c ∈ (e.spelling ++ r).head?, unaryOp? c = none := by
  obtain ⟨c, t, hct, -, hunary⟩ := exists_spelling_eq_cons h
  rw [hct]
  intro d hd
  obtain rfl : c = d := by simpa using hd
  exact hunary hn

/-- A formula that stands in parentheses or by itself is an operand. -/
theorem Operand.of_primary? (h : e.legible = true) (hn : e.isNegative = false)
    (hp : ∀ r, NoArguments r → ∃ s, s = e.spelling ++ r ∧ Takes (primary? s) e r) : Operand e := by
  have hprimary : ∀ {r}, NoArguments r → Takes (primary? (e.spelling ++ r)) e r := by
    intro r hr
    obtain ⟨s, rfl, htakes⟩ := hp r hr
    exact htakes
  refine ⟨fun hr => ?_, fun _ _ _ _ hr hx => chain_dotted.first (hprimary hr) hx,
    fun _ _ _ hr => hprimary hr⟩
  exact unary?_of_dotted?
    (chain_dotted.first (hprimary hr.noArguments) (Chain.stop hr.dotOp?))
    (unaryOp?_spelling h hn _)

theorem Operand.join {l r : Formula} (hl : Operand l) (hr : Operand r)
    (h : (Formula.join l r).legible = true) : Operand (.join l r) := by
  have hlegible := h
  simp only [legible, Bool.and_eq_true, Bool.not_eq_true'] at h
  obtain ⟨⟨⟨-, hln⟩, hrn⟩, hrj⟩ := h
  have hdotted : ∀ {u x v}, NoArguments u → Trails (more (fun _ => .join) dotOp? primary? (.join l r) u) x v →
      Takes (dotted? ((Formula.join l r).spelling ++ u)) x v := by
    intro u x v hu hx
    rw [spelling, append_assoc, append_assoc]
    refine hl.dotted hln (by simp [NoArguments]) ?_
    exact Chain.step rfl (hr.primary hrn hrj hu) hx
  exact ⟨fun hu => unary?_of_dotted? (hdotted hu.noArguments (Chain.stop hu.dotOp?))
      (unaryOp?_spelling hlegible rfl _), fun _ _ _ _ => hdotted, fun _ hj => by cases hj⟩

/-! ## Formulas by themselves -/

theorem primary?_paren (h : Takes (iff? t) x (.mark .rightParen :: r)) :
    Takes (primary? (.mark .leftParen :: t)) x r := by
  obtain ⟨hlt, h⟩ := h
  rw [primary?]
  simp only [h]
  exact ⟨_, rfl⟩

theorem primary?_old (h : Takes (iff? t) x (.mark .rightParen :: r)) :
    Takes (primary? (.old :: .mark .leftParen :: t)) (.old x) r := by
  obtain ⟨hlt, h⟩ := h
  rw [primary?]
  simp only [h]
  exact ⟨_, rfl⟩

theorem primary?_word (name : String) (hr : NoArguments r) :
    Takes (primary? (.word name :: r)) (.ident name) r := by
  rw [primary?]
  · exact ⟨_, rfl⟩
  · rintro t rfl
    exact hr rfl

theorem primary?_number {n : Nat} (h : n < 2 ^ 63) (r : List Lexeme) :
    Takes (primary? (.number n.repr :: r)) (.int (Int64.ofNat n)) r := by
  rw [primary?]
  simp only [Text.Literal.read_repr h]
  exact ⟨_, rfl⟩

theorem primary?_call (name : String) (h : Takes (arguments? t) args r) :
    Takes (primary? (.word name :: .mark .leftBracket :: t)) (.call name args) r := by
  obtain ⟨hlt, h⟩ := h
  rw [primary?]
  simp only [h]
  exact ⟨_, rfl⟩

theorem primary?_eq_none (h : m ≠ .leftParen) (t : List Lexeme) : primary? (.mark m :: t) = none := by
  rw [primary?]
  all_goals simp_all

/-- No formula starts with a mark that is neither a sign, an operator nor a parenthesis. -/
theorem iff?_eq_none (h : m ≠ .leftParen ∧ m ≠ .bang) (hu : unaryOp? (.mark m) = none) (t : List Lexeme) :
    iff? (.mark m :: t) = none := by
  have hspells : (Lexeme.mark m).spells "not" .bang = false := by simp [Lexeme.spells, h.2]
  have hquantifier : quantifier? (.mark m) = none := rfl
  have hmult : mult? (.mark m) = none := rfl
  have hunary : unary? (.mark m :: t) = none := by
    rw [unary?, hu]
    simp only
    exact chain_dotted.absent (primary?_eq_none h.1 t)
  have hcompared : compared? (.mark m :: t) = none := by
    rw [compared?, hmult]
    simp only
    rw [chain_sum.absent (chain_prod.absent hunary)]
  have hnegated : negated? (.mark m :: t) = none := by
    rw [negated?, hspells]
    simp only [Bool.false_eq_true, if_false]
    rw [quantified?, hquantifier, hcompared]
  rw [iff?, implies?, chain_or.absent (chain_and.absent hnegated)]

/-! ## Lists -/

theorem separated_cons {α : Type} (m : Mark) (f : α → List Lexeme) :
    ∀ (x : α) (xs : List α), separated m f (x :: xs) = f x ++ xs.flatMap fun y => .mark m :: f y
  | x, [] => by simp [separated]
  | x, y :: xs => by
    rw [separated, separated_cons m f y xs]
    simp

theorem spellingAll_eq (args : List Formula) : spellingAll args = separated .comma spelling args := by
  induction args with
  | nil => rfl
  | cons x xs ih =>
    cases xs with
    | nil => rfl
    | cons y xs => rw [spellingAll, separated, ih]

theorem Operand.iff? (hx : Operand x) (h : x.legible = true) (hr : Stops 8 r) : Takes (iff? (x.spelling ++ r)) x r :=
  iff?_of_unary? (hx.unary (hr.mono (by decide))) (plain_spelling h r) hr

theorem stops_moreArguments (xs : List Formula) (r : List Lexeme) :
    Stops 8 (xs.flatMap (fun y => .mark .comma :: y.spelling) ++ .mark .rightBracket :: r) := by
  cases xs with
  | nil | cons y ys => exact .cons (by decide)

theorem moreArguments_spelling {r : List Lexeme} : ∀ {xs : List Formula},
    (∀ x ∈ xs, Operand x ∧ x.legible = true) →
    Trails (moreArguments (xs.flatMap (fun y => .mark .comma :: y.spelling) ++
      .mark .rightBracket :: r)) xs (.mark .rightBracket :: r)
  | [], _ => by
    rw [flatMap_nil, nil_append, moreArguments]
    · exact ⟨_, rfl⟩
    · simp
  | x :: xs, h => by
    obtain ⟨hle, hxs⟩ := moreArguments_spelling (r := r) fun y hy => h y (mem_cons_of_mem x hy)
    obtain ⟨hx, hlegible⟩ := h x mem_cons_self
    obtain ⟨hlt, hx⟩ := hx.iff? hlegible (stops_moreArguments xs r)
    rw [flatMap_cons, append_assoc, cons_append, moreArguments]
    simp only [hx, hxs]
    exact ⟨_, rfl⟩

theorem arguments?_spelling (h : ∀ x ∈ args, Operand x ∧ x.legible = true) (r : List Lexeme) :
    Takes (arguments? (spellingAll args ++ .mark .rightBracket :: r)) args r := by
  rw [spellingAll_eq]
  cases args with
  | nil =>
    rw [separated, nil_append, arguments?, iff?_eq_none ⟨by decide, by decide⟩ rfl]
    exact ⟨_, rfl⟩
  | cons x xs =>
    obtain ⟨hle, hxs⟩ := moreArguments_spelling (r := r) fun y hy => h y (mem_cons_of_mem x hy)
    obtain ⟨hx, hlegible⟩ := h x mem_cons_self
    obtain ⟨hlt, hx⟩ := hx.iff? hlegible (stops_moreArguments xs r)
    rw [separated_cons, append_assoc]
    unfold arguments?
    simp only [hx, hxs]
    exact ⟨_, rfl⟩

theorem moreWords_separated (r : List Lexeme) : ∀ vars : List String,
    moreWords (vars.flatMap (fun v => [.mark .comma, .word v]) ++ .mark .colon :: r) =
      (vars, .mark .colon :: r)
  | [] => by
    rw [flatMap_nil, nil_append, moreWords]
    simp
  | v :: vars => by
    rw [flatMap_cons, append_assoc, cons_append, cons_append, nil_append,
      moreWords, moreWords_separated r vars]

theorem variables?_separated {vars : List String} (h : vars.isEmpty = false) (r : List Lexeme) :
    Takes (variables? (separated .comma (fun v => [.word v]) vars ++ .mark .colon :: r)) vars r := by
  cases vars with
  | nil => cases h
  | cons v vars =>
    have hmore := moreWords_separated r vars
    rw [separated_cons, singleton_append, cons_append, variables?]
    split
    · rename_i ws rest h
      obtain ⟨rfl, rfl⟩ : vars = ws ∧ r = rest := by simpa using hmore.symm.trans h
      exact ⟨_, rfl⟩
    · rename_i hne
      exact absurd hmore (hne vars r)

theorem variables?_word (w : String) (h : ∀ c ∈ s.head?, c ≠ .mark .comma ∧ c ≠ .mark .colon) :
    variables? (.word w :: s) = none := by
  have hmore : moreWords s = ([], s) := by
    rw [moreWords]
    rintro w t rfl
    exact (h _ rfl).1 rfl
  rw [variables?]
  split
  · rename_i ws rest heq
    obtain ⟨-, rfl⟩ : [] = ws ∧ s = .mark .colon :: rest := by simpa using hmore.symm.trans heq
    exact absurd rfl (h _ rfl).2
  · rfl

/-- The text of a formula is no list of variables. -/
theorem variables?_spelling : ∀ {e : Formula} {r : List Lexeme},
    (∀ c ∈ r.head?, c ≠ .mark .comma ∧ c ≠ .mark .colon) → variables? (e.spelling ++ r) = none
  | .ident name, _, hr => variables?_word name hr
  | .int value, _, _ => by
    rw [spelling]
    cases value.toInt <;> rfl
  | .join l r, u, _ => by
    rw [spelling, append_assoc, append_assoc]
    exact variables?_spelling (by simp)
  | .call name args, _, _ => variables?_word name (by simp)
  | .unary _ _, _, _ => rfl
  | .binary _ _ _, _, _ => rfl
  | .quant _ _ _ _, _, _ => rfl
  | .old _, _, _ => rfl
  | .ite _ _ _, _, _ => rfl

/-! ## Formulas in parentheses -/

section

variable {x y z : Formula} (r : List Lexeme)

theorem stops_rightParen : Stops 8 (.mark .rightParen :: r) := .cons (by decide)

theorem Operand.negated? (hx : Operand x) (h : x.legible = true) {r : List Lexeme} (hr : Stops 4 r) :
    Takes (negated? (x.spelling ++ r)) x r :=
  negated?_of_unary? (hx.unary (hr.mono (by decide))) (plain_spelling h r) hr

theorem Operand.sum? (hx : Operand x) {r : List Lexeme} (hr : Stops 3 r) :
    Takes (sum? (x.spelling ++ r)) x r :=
  sum?_of_unary? (hx.unary (hr.mono (by decide))) hr

theorem iff?_unary (op : UnaryOp) (hx : Operand x) (h : (Formula.unary op x).legible = true) :
    Takes (iff? (op.lexeme :: (x.spelling ++ .mark .rightParen :: r))) (.unary op x)
      (.mark .rightParen :: r) := by
  simp only [legible, Bool.and_eq_true] at h
  have hr := stops_rightParen r
  have hmark : ∀ {c : Lexeme}, unaryOp? c = some op →
      c.spells "not" .bang = false ∧ quantifier? c = none →
      Takes (iff? (c :: (x.spelling ++ .mark .rightParen :: r))) (.unary op x)
        (.mark .rightParen :: r) := by
    intro c hc hplain
    have happly : applyUnary op x = .unary op x := by
      unfold applyUnary
      split
      · simp [isLiteral] at h
      · rfl
    obtain ⟨hlt, hx⟩ := hx.unary (hr.mono (by decide))
    refine iff?_of_unary? ?_ (plain_cons.mpr hplain) hr
    rw [unary?, hc]
    simp only [hx, happly]
    exact ⟨_, rfl⟩
  cases op with
  | not => exact iff?_of_negated? (negated?_not (hx.negated? h.1 (hr.mono (by decide)))) hr
  | neg | card | star | closure => exact hmark rfl ⟨rfl, rfl⟩
  | mult m =>
    have hm : mult? (UnaryOp.mult m).lexeme = some m := by cases m <;> rfl
    have hvars : variables? (x.spelling ++ .mark .rightParen :: r) = none :=
      variables?_spelling (by simp)
    exact iff?_of_negated? (negated?_mult hm hvars (hx.sum? (hr.mono (by decide)))
      (hr.mono (by decide))) hr

theorem Operand.prod? (hx : Operand x) {r : List Lexeme} (hr : Stops 2 r) :
    Takes (prod? (x.spelling ++ r)) x r := prod?_of_unary? (hx.unary (hr.mono (by decide))) hr

theorem iff?_binary_spelling (op : BinaryOp) (hx : Operand x) (hy : Operand y)
    (h : (Formula.binary op x y).legible = true) :
    Takes (iff? (x.spelling ++ op.lexeme :: (y.spelling ++ .mark .rightParen :: r))) (.binary op x y)
      (.mark .rightParen :: r) := by
  simp only [legible, Bool.and_eq_true] at h
  have hr := stops_rightParen r
  have hplain := plain_spelling h.1
  have hprod : prodOp? op.lexeme = some op → 1 ≤ level op.lexeme → _ := fun hc hlevel =>
    iff?_prod (hx.unary (.cons hlevel)) hc (hy.unary (hr.mono (by decide))) (hplain _) hr
  have hsum : sumOp? op.lexeme = some op → 2 ≤ level op.lexeme → _ := fun hc hlevel =>
    iff?_sum (hx.prod? (.cons hlevel)) hc (hy.prod? (hr.mono (by decide))) (hplain _) hr
  have hcompared : comparison? op.lexeme = some op → 3 ≤ level op.lexeme → _ := fun hc hlevel =>
    iff?_of_negated? (negated?_of_compared? (compared?_binary (hx.sum? (.cons hlevel)) (hplain _) hc
      (hy.sum? (hr.mono (by decide)))) (hplain _)) hr
  cases op with
  | arith op =>
    cases op with
    | add | sub => exact hsum rfl (by decide)
    | mul | div | rem => exact hprod rfl (by decide)
  | override | product => exact hsum rfl (by decide)
  | eq | ne | mem | lt | le | gt | ge => exact hcompared rfl (by decide)
  | and =>
    exact iff?_and (hx.negated? h.1 (.cons (by decide)))
      (hy.negated? h.2 (hr.mono (by decide))) hr
  | or =>
    have hright := and?_of_negated? (hy.negated? h.2 (hr.mono (by decide))) (hr.mono (by decide))
    exact iff?_or (and?_of_negated? (hx.negated? h.1 (.cons (by decide)))
      (.cons (by decide))) hright hr
  | implies =>
    have hright := implies?_of_negated? (hy.negated? h.2 (hr.mono (by decide))) (hr.mono (by decide))
    exact iff?_of_implies? (implies?_binary (or?_of_negated?
      (hx.negated? h.1 (.cons (by decide))) (.cons (by decide))) hright (by simp)) hr
  | iff =>
    have hright := iff?_of_negated? (hy.negated? h.2 (hr.mono (by decide))) hr
    exact iff?_binary (implies?_of_negated? (hx.negated? h.1 (.cons (by decide)))
      (.cons (by decide))) hright

theorem iff?_quant {kind : Quantifier} {vars : List String} (hx : Operand x) (hy : Operand y)
    (h : (Formula.quant kind vars x y).legible = true) :
    Takes (iff? (.word kind.word :: (separated .comma (fun v => [.word v]) vars ++ .mark .colon ::
      (x.spelling ++ .mark .bar :: (y.spelling ++ .mark .rightParen :: r))))) (.quant kind vars x y)
      (.mark .rightParen :: r) := by
  simp only [legible, Bool.and_eq_true, Bool.not_eq_true'] at h
  obtain ⟨⟨⟨hvars, -⟩, -⟩, hbody⟩ := h
  have hkind : quantifier? (.word kind.word) = some kind := by
    cases kind with
    | all => rfl
    | mult m => cases m <;> rfl
  have hquant := quantified?_quant hkind (variables?_separated hvars _)
    (hx.sum? (.cons (by decide))) (hy.iff? hbody (stops_rightParen r))
  exact iff?_of_negated? (negated?_of_quantified? hkind hquant) (stops_rightParen r)

theorem iff?_ite (hx : Operand x) (hy : Operand y) (hz : Operand z)
    (h : (Formula.ite x y z).legible = true) :
    Takes (iff? (x.spelling ++ .word "implies" :: (y.spelling ++ .word "else" ::
      (z.spelling ++ .mark .rightParen :: r)))) (.ite x y z) (.mark .rightParen :: r) := by
  simp only [legible, Bool.and_eq_true] at h
  have hr := stops_rightParen r
  have hite := implies?_ite
    (or?_of_negated? (hx.negated? h.1.1 (.cons (by decide))) (.cons (by decide)))
    (implies?_of_negated? (hy.negated? h.1.2 (.cons (by decide))) (.cons (by decide)))
    (implies?_of_negated? (hz.negated? h.2 (hr.mono (by decide))) (hr.mono (by decide)))
  exact iff?_of_implies? hite hr

end

/-! ## Every legible formula is an operand -/

theorem operand_int {value : Int64} (h : (Formula.int value).legible = true) :
    Operand (.int value) := by
  have hvalue := Int64.ofInt_toInt value
  have hlt := value.toInt_lt
  have hgt : -2 ^ 63 < value.toInt := of_decide_eq_true h
  cases hint : value.toInt with
  | ofNat n =>
    rw [hint] at hlt hvalue
    have hn : n < 2 ^ 63 := by simpa using Int.ofNat_lt.mp hlt
    have hliteral : Int64.ofNat n = value := hvalue
    refine .of_primary? h (by simp [isNegative, hint]) fun r _ => ⟨.number n.repr :: r, ?_, ?_⟩
    · rw [spelling, hint, integerSpelling, singleton_append]
    · rw [← hliteral]
      exact primary?_number hn r
  | negSucc n =>
    rw [hint] at hgt hvalue
    have hn : n + 1 < 2 ^ 63 := by omega
    have hliteral : -Int64.ofNat (n + 1) = value := by
      rw [← hvalue]
      exact (Int64.ofInt_neg (n + 1 : Nat)).symm
    have hsign : (Formula.int value).isNegative = true := by simp [isNegative, hint]
    refine ⟨fun {r} hr => ?_, fun hn => absurd (hsign.symm.trans hn) (by decide),
      fun hn => absurd (hsign.symm.trans hn) (by decide)⟩
    have hnumber := chain_dotted.first (primary?_number hn r) (Chain.stop hr.dotOp?)
    obtain ⟨hlt, hnumber⟩ := unary?_of_dotted? hnumber (by simp [unaryOp?])
    rw [spelling, hint, integerSpelling, cons_append, singleton_append, unary?]
    simp only [unaryOp?, hnumber, applyUnary, hliteral]
    exact ⟨_, rfl⟩

mutual

/-- **Every legible formula is an operand.** -/
theorem operand_of_legible : ∀ {e : Formula}, e.legible = true → Operand e
  | .ident name, h => .of_primary? h rfl fun _ hr => ⟨_, rfl, primary?_word name hr⟩
  | .int value, h => operand_int h
  | .join l r, h => by
    have hparts := h
    simp only [legible, Bool.and_eq_true] at hparts
    exact (operand_of_legible hparts.1.1.1.1).join (operand_of_legible hparts.1.1.1.2) h
  | .call name args, h => by
    obtain ⟨-, hargs⟩ := Bool.and_eq_true_iff.mp h
    have hcall r := primary?_call name (arguments?_spelling (operands_of_legible hargs) r)
    exact .of_primary? h rfl fun r _ => ⟨_, by simp [spelling], hcall r⟩
  | .unary op x, h => by
    obtain ⟨hx, -⟩ := Bool.and_eq_true_iff.mp h
    have hparen r := primary?_paren (iff?_unary r op (operand_of_legible hx) h)
    exact .of_primary? h rfl fun r _ => ⟨_, by simp [spelling], hparen r⟩
  | .binary op x y, h => by
    obtain ⟨hx, hy⟩ := Bool.and_eq_true_iff.mp h
    have hparen r := primary?_paren (iff?_binary_spelling r op (operand_of_legible hx)
      (operand_of_legible hy) h)
    exact .of_primary? h rfl fun r _ => ⟨_, by simp [spelling], hparen r⟩
  | .quant kind vars domain body, h => by
    have hparts := h
    simp only [legible, Bool.and_eq_true] at hparts
    have hparen r := primary?_paren (iff?_quant r (operand_of_legible hparts.1.2)
      (operand_of_legible hparts.2) h)
    exact .of_primary? h rfl fun r _ => ⟨_, by simp [spelling], hparen r⟩
  | .old x, h => by
    have hx : x.legible = true := h
    have hold r := primary?_old ((operand_of_legible hx).iff? hx (stops_rightParen r))
    exact .of_primary? h rfl fun r _ => ⟨_, by simp [spelling], hold r⟩
  | .ite c t e, h => by
    have hparts := h
    simp only [legible, Bool.and_eq_true] at hparts
    have hparen r := primary?_paren (iff?_ite r (operand_of_legible hparts.1.1)
      (operand_of_legible hparts.1.2) (operand_of_legible hparts.2) h)
    exact .of_primary? h rfl fun r _ => ⟨_, by simp [spelling], hparen r⟩

theorem operands_of_legible : ∀ {args : List Formula}, legibleAll args = true →
    ∀ x ∈ args, Operand x ∧ x.legible = true
  | [], _ => fun _ hx => absurd hx not_mem_nil
  | y :: ys, h => by
    rw [legibleAll, Bool.and_eq_true] at h
    exact forall_mem_cons.mpr ⟨⟨operand_of_legible h.1, h.1⟩, operands_of_legible h.2⟩

end

/-! ## Reading the text of a formula -/

theorem Spells.lexed {text : String} {ls : List Lexeme} (h : Spells text ls) :
    lexed text = .ok ls := by
  have hlexemes := h [] fun _ hc => by cases hc
  rw [append_nil] at hlexemes
  have hall : before ls (lexemes []) = .ok ls := by simp [before, lexemes, Except.map]
  rw [Formula.lexed, hlexemes, hall]
  rfl

/-- **The text of a formula reads as the formula.** -/
theorem read_text {e : Formula} (h : e.legible = true) : read e.text = .ok e := by
  have hstop : Stops 8 [] := fun _ hc => by cases hc
  have hiff := (operand_of_legible h).iff? h hstop
  rw [List.append_nil] at hiff
  obtain ⟨hlt, hiff⟩ := hiff
  rw [read, (spells_text h).lexed]
  simp only [bind, Except.bind, hiff]

/-- `(all n', m: thiz.head.*(next + prev) | (some n' implies (#-3 < (-n'.value)) else \old(f[n',0])))`,
up to the parentheses of the printer. -/
def sample : Formula :=
  .quant .all ["n'", "m"]
    (.join (.join (.ident "thiz") (.ident "head"))
      (.unary .star (.binary (.arith .add) (.ident "next") (.ident "prev"))))
    (.ite (.unary (.mult .some) (.ident "n'"))
      (.binary .lt (.unary .card (.int (-3))) (.unary .neg (.join (.ident "n'") (.ident "value"))))
      (.old (.call "f" [.ident "n'", .int 0])))

/-- A formula with most operators reads as itself. -/
theorem read_text_sample : sample.legible = true ∧ read sample.text = .ok sample :=
  ⟨by decide, read_text (by decide)⟩

end Relspec.Formula
