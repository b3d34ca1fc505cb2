import Relspec.Formula.Reader

/-!
# Proofs/Formula/Levels — reading at the levels of the grammar

Each level of the grammar reads operands of the level below with its own operators between them.  An
operand that is followed by no operator of its level or of a tighter one passes through the level as it
is; between two operands an operator of the level joins them.

* `Takes` — what a reader takes from the front;
* `level`, `Stops` — the level of an operator, and what ends an operand there;
* `iff?_of_unary?` — an operand passes through all levels.
-/

namespace Relspec.Formula

open Reading

/-! ## What readers take -/

/-- **A reader takes `x`** and leaves `rest`. -/
def Takes {α : Type} {s : List Lexeme} (r : Option (Taken α s)) (x : α) (rest : List Lexeme) : Prop :=
  ∃ h, r = some ⟨x, rest, h⟩

/-- A reader that may take nothing gives `x` and leaves `rest`. -/
def Trails {α : Type} {s : List Lexeme} (r : Trailing α s) (x : α) (rest : List Lexeme) : Prop :=
  ∃ h, r = ⟨x, rest, h⟩

/-! ## Chains

A chain is read from the left: an operand, then operators of one level, each with an operand after it.
-/

/-- **A reader of chains** that `make` makes of the operators `op?` between operands that `item?` reads. -/
def Chain {ω : Type} (make : ω → Formula → Formula → Formula) (op? : Lexeme → Option ω)
    (item? chain? : (s : List Lexeme) → Option (Taken Formula s)) : Prop :=
  ∀ s, chain? s = chain make op? s fun t _ => item? t

/-- What a chain has after its first operand. -/
def more {ω : Type} (make : ω → Formula → Formula → Formula) (op? : Lexeme → Option ω)
    (item? : (s : List Lexeme) → Option (Taken Formula s)) (x : Formula) (s : List Lexeme) :
    Trailing Formula s := moreChain make op? x s fun t _ => item? t

namespace Chain

variable {ω : Type} {make : ω → Formula → Formula → Formula} {op? : Lexeme → Option ω}
  {item? chain? : (s : List Lexeme) → Option (Taken Formula s)}
  {s t r u : List Lexeme} {c : Lexeme} {op : ω} {x y z : Formula}

theorem first (h : Chain make op? item? chain?) (hx : Takes (item? s) x r)
    (hz : Trails (more make op? item? x r) z u) : Takes (chain? s) z u := by
  obtain ⟨_, hx⟩ := hx
  obtain ⟨_, hz⟩ := hz
  rw [more] at hz
  rw [h s, chain, hx]
  simp only [hz]
  exact ⟨_, rfl⟩

theorem absent (h : Chain make op? item? chain?) (hs : item? s = none) : chain? s = none := by
  rw [h s, chain, hs]

theorem stop (hr : ∀ c ∈ r.head?, op? c = none) : Trails (more make op? item? x r) x r := by
  rw [more, moreChain.eq_def]
  cases r with
  | nil => exact ⟨_, rfl⟩
  | cons c t =>
    simp only [hr c rfl]
    exact ⟨_, rfl⟩

theorem step (hc : op? c = some op) (hy : Takes (item? t) y r)
    (hz : Trails (more make op? item? (make op x y) r) z u) : Trails (more make op? item? x (c :: t)) z u := by
  obtain ⟨_, hy⟩ := hy
  obtain ⟨_, hz⟩ := hz
  rw [more] at hz
  rw [more, moreChain]
  simp only [hc, hy, hz]
  exact ⟨_, rfl⟩

theorem stuck (hc : op? c = some op) (ht : item? t = none) :
    Trails (more make op? item? x (c :: t)) x (c :: t) := by
  rw [more, moreChain]
  simp only [hc, ht]
  exact ⟨_, rfl⟩

/-- An operand without an operator after it is a chain. -/
theorem of_item (h : Chain make op? item? chain?) (hx : Takes (item? s) x r)
    (hr : ∀ c ∈ r.head?, op? c = none) : Takes (chain? s) x r :=
  h.first hx (stop hr)

/-- Two operands with an operator between them are a chain. -/
theorem binary (h : Chain make op? item? chain?) (hx : Takes (item? s) x (c :: t))
    (hc : op? c = some op) (hy : Takes (item? t) y r) (hr : ∀ c ∈ r.head?, op? c = none) :
    Takes (chain? s) (make op x y) r :=
  h.first hx (step hc hy (stop hr))

end Chain

variable {n : Nat} {s u : List Lexeme} {m : Multiplicity} {k : Quantifier}

theorem chain_dotted : Chain (fun _ => .join) dotOp? primary? dotted? := fun s => by rw [dotted?]

theorem chain_prod : Chain .binary prodOp? unary? prod? := fun s => by rw [prod?]

theorem chain_sum : Chain .binary sumOp? prod? sum? := fun s => by rw [sum?]

theorem chain_and : Chain .binary andOp? negated? and? := fun s => by rw [and?]

theorem chain_or : Chain .binary orOp? and? or? := fun s => by rw [or?]

/-! ## Levels -/

/-- The operators after an operand, the tightest level first. -/
def operators : List (Lexeme → Bool) :=
  [fun c => c = .mark .leftBracket || c = .mark .dot, fun c => (prodOp? c).isSome,
    fun c => (sumOp? c).isSome, fun c => (comparison? c).isSome, fun c => (andOp? c).isSome,
    fun c => (orOp? c).isSome, Lexeme.spells "implies" .implies, Lexeme.spells "iff" .iff]

/-- **The level of an operator** after an operand; what is no operator is looser than all. -/
def level (c : Lexeme) : Nat := operators.findIdx (· c)

/-- **What ends an operand** of the levels below `n`. -/
def Stops (n : Nat) (s : List Lexeme) : Prop := ∀ c ∈ s.head?, n ≤ level c

theorem Stops.cons {c : Lexeme} {t : List Lexeme} (h : n ≤ level c) : Stops n (c :: t) := by
  simpa [Stops] using h

theorem Stops.mono {m : Nat} (h : Stops n s) (hmn : m ≤ n) : Stops m s :=
  fun c hc => Nat.le_trans hmn (h c hc)

/-- What ends an operand is no operator of a level below. -/
theorem Stops.not_operator (h : Stops n s) (i : Nat) (hc : c ∈ s.head?)
    (hi : i < operators.length) (hin : i < n) : ¬ operators[i] c = true := by
  have hlt : i < operators.findIdx (· c) := Nat.lt_of_lt_of_le hin (h c hc)
  simpa using List.not_of_lt_findIdx hlt

theorem eq_none_of_not_isSome {op? : Lexeme → Option BinaryOp} (h : ∀ c ∈ s.head?, ¬ (op? c).isSome = true) :
    ∀ c ∈ s.head?, op? c = none :=
  fun c hc => Option.not_isSome_iff_eq_none.mp (h c hc)

variable {s t r : List Lexeme} {c : Lexeme} {x y z : Formula}

theorem Stops.prodOp? (h : Stops 2 s) : ∀ c ∈ s.head?, prodOp? c = none :=
  eq_none_of_not_isSome fun _ hc => h.not_operator 1 hc (by decide) (by decide)

theorem Stops.sumOp? (h : Stops 3 s) : ∀ c ∈ s.head?, sumOp? c = none :=
  eq_none_of_not_isSome fun _ hc => h.not_operator 2 hc (by decide) (by decide)

theorem Stops.comparison? (h : Stops 4 s) : ∀ c ∈ s.head?, comparison? c = none :=
  eq_none_of_not_isSome fun _ hc => h.not_operator 3 hc (by decide) (by decide)

theorem Stops.andOp? (h : Stops 5 s) : ∀ c ∈ s.head?, andOp? c = none :=
  eq_none_of_not_isSome fun _ hc => h.not_operator 4 hc (by decide) (by decide)

theorem Stops.orOp? (h : Stops 6 s) : ∀ c ∈ s.head?, orOp? c = none :=
  eq_none_of_not_isSome fun _ hc => h.not_operator 5 hc (by decide) (by decide)

/-! ## Comparisons -/

theorem moreCompared_of_stops (x : Formula) (hr : Stops 4 r) : Trails (moreCompared x r) x r := by
  unfold moreCompared
  split
  · exact ⟨_, rfl⟩
  · rename_i c t
    rw [hr.comparison? c rfl]
    exact ⟨_, rfl⟩

/-- What starts with neither a negation nor a quantifier. -/
def Plain (s : List Lexeme) : Prop :=
  ∀ c ∈ s.head?, c.spells "not" .bang = false ∧ quantifier? c = none

theorem plain_cons :
    Plain (c :: t) ↔ c.spells "not" .bang = false ∧ quantifier? c = none := by
  simp [Plain]

theorem Plain.mult?_eq_none (h : Plain (c :: t)) : mult? c = none := by
  have hq := (plain_cons.mp h).2
  unfold quantifier? at hq
  split at hq
  · cases hq
  · exact Option.map_eq_none_iff.mp hq

theorem ne_nil_of_takes {α : Type} {q : Option (Taken α s)} {x : α} (h : Takes q x r) :
    ∃ c t, s = c :: t := by
  obtain ⟨hlt, -⟩ := h
  exact List.exists_cons_of_length_pos (Nat.zero_lt_of_lt hlt)

theorem compared?_of_sum? (h : Takes (sum? s) x r) (hs : Plain s) (hr : Stops 4 r) :
    Takes (compared? s) x r := by
  obtain ⟨c, t, rfl⟩ := ne_nil_of_takes h
  obtain ⟨hlt, h⟩ := h
  obtain ⟨hle, hmore⟩ := moreCompared_of_stops x hr
  rw [compared?, hs.mult?_eq_none]
  simp only [h, hmore]
  exact ⟨_, rfl⟩

theorem compared?_binary {op : BinaryOp} (hx : Takes (sum? s) x (c :: t)) (hs : Plain s)
    (hc : comparison? c = some op) (hy : Takes (sum? t) y r) :
    Takes (compared? s) (.binary op x y) r := by
  obtain ⟨d, u, rfl⟩ := ne_nil_of_takes hx
  obtain ⟨hltx, hx⟩ := hx
  obtain ⟨hlty, hy⟩ := hy
  rw [compared?, hs.mult?_eq_none]
  simp only [hx]
  rw [moreCompared]
  simp only [hc, hy]
  exact ⟨_, rfl⟩

theorem compared?_mult (hc : mult? c = some m) (hx : Takes (sum? t) x r) (hr : Stops 4 r) :
    Takes (compared? (c :: t)) (.unary (.mult m) x) r := by
  obtain ⟨hlt, hx⟩ := hx
  obtain ⟨hle, hmore⟩ := moreCompared_of_stops (.unary (.mult m) x) hr
  rw [compared?, hc]
  simp only [hx, hmore]
  exact ⟨_, rfl⟩

/-! ## Negations and quantifiers -/

theorem negated?_of_compared? (h : Takes (compared? s) x r) (hs : Plain s) :
    Takes (negated? s) x r := by
  obtain ⟨c, t, rfl⟩ := ne_nil_of_takes h
  obtain ⟨hlt, h⟩ := h
  obtain ⟨hnot, hquant⟩ := plain_cons.mp hs
  have hquantified : quantified? (c :: t) = none := by
    rw [quantified?, hquant]
  rw [negated?, hnot]
  simp only [Bool.false_eq_true, if_false, hquantified, h]
  exact ⟨_, rfl⟩

theorem negated?_not (hx : Takes (negated? t) x r) :
    Takes (negated? (.word "not" :: t)) (.unary .not x) r := by
  obtain ⟨hlt, hx⟩ := hx
  rw [negated?]
  simp only [Lexeme.spells, beq_self_eq_true, Bool.true_or, if_true, hx]
  exact ⟨_, rfl⟩

theorem spells_not_eq_false (h : quantifier? c = some k) : c.spells "not" .bang = false := by
  cases hspells : c.spells "not" .bang with
  | false => rfl
  | true =>
    rcases (by simpa [Lexeme.spells] using hspells : c = .word "not" ∨ c = .mark .bang) with rfl | rfl
    · simp [quantifier?, mult?] at h
    · simp [quantifier?, mult?] at h

theorem negated?_of_quantified? (hc : quantifier? c = some k) (h : Takes (quantified? (c :: t)) x r) :
    Takes (negated? (c :: t)) x r := by
  obtain ⟨hlt, h⟩ := h
  rw [negated?, spells_not_eq_false hc]
  simp only [Bool.false_eq_true, if_false, h]
  exact ⟨_, rfl⟩

/-- A multiplicity before a term is no quantifier without variables after it. -/
theorem negated?_mult (hc : mult? c = some m) (ht : variables? t = none) (hx : Takes (sum? t) x r)
    (hr : Stops 4 r) : Takes (negated? (c :: t)) (.unary (.mult m) x) r := by
  obtain ⟨hlt, h⟩ := compared?_mult hc hx hr
  have hkind : ∃ k, quantifier? c = some k := by
    unfold quantifier?
    split
    · exact ⟨_, rfl⟩
    · exact ⟨.mult m, by rw [hc]; rfl⟩
  obtain ⟨k, hk⟩ := hkind
  have hquantified : quantified? (c :: t) = none := by
    rw [quantified?, hk]
    simp only [ht]
  rw [negated?, spells_not_eq_false hk]
  simp only [Bool.false_eq_true, if_false, hquantified, h]
  exact ⟨_, rfl⟩

theorem quantified?_quant {vars : List String} {w : List Lexeme} (hc : quantifier? c = some k)
    (hvars : Takes (variables? t) vars u) (hdomain : Takes (sum? u) x (.mark .bar :: w))
    (hbody : Takes (iff? w) y r) : Takes (quantified? (c :: t)) (.quant k vars x y) r := by
  obtain ⟨hltv, hvars⟩ := hvars
  obtain ⟨hltd, hdomain⟩ := hdomain
  obtain ⟨hltb, hbody⟩ := hbody
  rw [quantified?, hc]
  simp only [hvars, hdomain, hbody]
  exact ⟨_, rfl⟩

/-! ## Connectives -/

theorem implies?_of_or? (h : Takes (or? s) x r) (hr : Stops 7 r) : Takes (implies? s) x r := by
  obtain ⟨hlt, h⟩ := h
  rw [implies?, h]
  cases r with
  | nil => exact ⟨_, rfl⟩
  | cons c t =>
    have hc : ¬ c.spells "implies" .implies = true :=
      hr.not_operator 6 rfl (by decide) (by decide)
    simp only
    rw [if_neg hc]
    exact ⟨_, rfl⟩

theorem implies?_binary (hx : Takes (or? s) x (.word "implies" :: t)) (hy : Takes (implies? t) y r)
    (hr : r.head? ≠ some (.word "else")) : Takes (implies? s) (.binary .implies x y) r := by
  obtain ⟨hltx, hx⟩ := hx
  obtain ⟨hlty, hy⟩ := hy
  rw [implies?, hx]
  simp only [Lexeme.spells, beq_self_eq_true, Bool.true_or, if_true, hy]
  cases r with
  | nil => exact ⟨_, rfl⟩
  | cons d v =>
    have hd : d ≠ .word "else" := fun h => hr (congrArg some h)
    simp only [if_neg hd]
    exact ⟨_, rfl⟩

theorem implies?_ite (hx : Takes (or? s) x (.word "implies" :: t))
    (hy : Takes (implies? t) y (.word "else" :: u)) (hz : Takes (implies? u) z r) :
    Takes (implies? s) (.ite x y z) r := by
  obtain ⟨hltx, hx⟩ := hx
  obtain ⟨hlty, hy⟩ := hy
  obtain ⟨hltz, hz⟩ := hz
  rw [implies?, hx]
  simp only [Lexeme.spells, beq_self_eq_true, Bool.true_or, if_true, hy, hz]
  exact ⟨_, rfl⟩

theorem iff?_of_implies? (h : Takes (implies? s) x r) (hr : Stops 8 r) : Takes (iff? s) x r := by
  obtain ⟨hlt, h⟩ := h
  rw [iff?, h]
  cases r with
  | nil => exact ⟨_, rfl⟩
  | cons c t =>
    have hc : ¬ c.spells "iff" .iff = true := hr.not_operator 7 rfl (by decide) (by decide)
    simp only
    rw [if_neg hc]
    exact ⟨_, rfl⟩

theorem iff?_binary (hx : Takes (implies? s) x (.word "iff" :: t)) (hy : Takes (iff? t) y r) :
    Takes (iff? s) (.binary .iff x y) r := by
  obtain ⟨hltx, hx⟩ := hx
  obtain ⟨hlty, hy⟩ := hy
  rw [iff?, hx]
  simp only [Lexeme.spells, beq_self_eq_true, Bool.true_or, if_true, hy]
  exact ⟨_, rfl⟩

/-! ## Through all levels -/

theorem prod?_of_unary? (h : Takes (unary? s) x r) (hr : Stops 2 r) : Takes (prod? s) x r :=
  chain_prod.of_item h hr.prodOp?

theorem sum?_of_unary? (h : Takes (unary? s) x r) (hr : Stops 3 r) : Takes (sum? s) x r :=
  chain_sum.of_item (prod?_of_unary? h (hr.mono (by decide))) hr.sumOp?

theorem negated?_of_sum? (h : Takes (sum? s) x r) (hs : Plain s) (hr : Stops 4 r) :
    Takes (negated? s) x r :=
  negated?_of_compared? (compared?_of_sum? h hs hr) hs

theorem and?_of_negated? (h : Takes (negated? s) x r) (hr : Stops 5 r) : Takes (and? s) x r :=
  chain_and.of_item h hr.andOp?

theorem or?_of_negated? (h : Takes (negated? s) x r) (hr : Stops 6 r) : Takes (or? s) x r :=
  chain_or.of_item (and?_of_negated? h (hr.mono (by decide))) hr.orOp?

theorem implies?_of_negated? (h : Takes (negated? s) x r) (hr : Stops 7 r) :
    Takes (implies? s) x r :=
  implies?_of_or? (or?_of_negated? h (hr.mono (by decide))) hr

theorem iff?_of_negated? (h : Takes (negated? s) x r) (hr : Stops 8 r) : Takes (iff? s) x r :=
  iff?_of_implies? (implies?_of_negated? h (hr.mono (by decide))) hr

theorem negated?_of_unary? (h : Takes (unary? s) x r) (hs : Plain s) (hr : Stops 4 r) :
    Takes (negated? s) x r :=
  negated?_of_sum? (sum?_of_unary? h (hr.mono (by decide))) hs hr

/-- **An operand passes through all levels** when no operator stands after it. -/
theorem iff?_of_unary? (h : Takes (unary? s) x r) (hs : Plain s) (hr : Stops 8 r) :
    Takes (iff? s) x r :=
  iff?_of_negated? (negated?_of_unary? h hs (hr.mono (by decide))) hr

/-! ## One operator between two operands -/

section

variable {op : BinaryOp}

theorem iff?_prod (hx : Takes (unary? s) x (c :: t)) (hc : prodOp? c = some op)
    (hy : Takes (unary? t) y r) (hs : Plain s) (hr : Stops 8 r) :
    Takes (iff? s) (.binary op x y) r := by
  have hprod := chain_prod.binary hx hc hy (hr.mono (by decide)).prodOp?
  have hsum := chain_sum.of_item hprod (hr.mono (by decide)).sumOp?
  exact iff?_of_negated? (negated?_of_sum? hsum hs (hr.mono (by decide))) hr

theorem iff?_sum (hx : Takes (prod? s) x (c :: t)) (hc : sumOp? c = some op)
    (hy : Takes (prod? t) y r) (hs : Plain s) (hr : Stops 8 r) :
    Takes (iff? s) (.binary op x y) r := by
  have hsum := chain_sum.binary hx hc hy (hr.mono (by decide)).sumOp?
  exact iff?_of_negated? (negated?_of_sum? hsum hs (hr.mono (by decide))) hr

theorem iff?_and (hx : Takes (negated? s) x (.word "and" :: t)) (hy : Takes (negated? t) y r)
    (hr : Stops 8 r) : Takes (iff? s) (.binary .and x y) r := by
  have hand := chain_and.binary hx rfl hy (hr.mono (by decide)).andOp?
  have hor := chain_or.of_item hand (hr.mono (by decide)).orOp?
  exact iff?_of_implies? (implies?_of_or? hor (hr.mono (by decide))) hr

theorem iff?_or (hx : Takes (and? s) x (.word "or" :: t)) (hy : Takes (and? t) y r)
    (hr : Stops 8 r) : Takes (iff? s) (.binary .or x y) r := by
  have hor := chain_or.binary hx rfl hy (hr.mono (by decide)).orOp?
  exact iff?_of_implies? (implies?_of_or? hor (hr.mono (by decide))) hr

end

end Relspec.Formula
