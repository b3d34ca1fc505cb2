import Relspec.Source.Reading.Expressions

/-!
# Proofs/Source/Climbing — what precedence climbing builds

Climbing reads operands with operators between them, and builds one tree on top of the operands.  Its shape is
given by the precedences of the operators next to each other in the tree, and no other tree has them.

* `OpTree` — trees of operators over operands, `first` and `more` what they read from left to right;
* `OpTree.Graded` — the precedences of an operator and of those right below it, `eq_of_graded` — one tree at
  most has them;
* `Alternates` — operators with operands behind them, from one state to another;
* `climb_graded` — climbing reads them all and builds the tree.
-/

namespace Relspec.Source

/-- The least precedence of an operator that may stand in the left operand without parentheses: the operator's
own, and one more for the implication. -/
def BinaryOp.leftLevel (op : BinaryOp) : Nat :=
  match op with
  | .implies => op.precedence + 1
  | _ => op.precedence

/-- A tree of operators on top of operands. -/
inductive OpTree where
  | leaf (e : Expr)
  | node (op : BinaryOp) (left right : OpTree)

namespace OpTree

/-- The expression of a tree; every operator is at the place of its left side. -/
def expr : OpTree → Expr
  | .leaf e => e
  | .node op l r => .binary l.expr.pos op l.expr r.expr

/-- The leftmost operand. -/
def first : OpTree → Expr
  | .leaf e => e
  | .node _ l _ => l.first

/-- The operators from left to right, each with the operand behind it. -/
def more : OpTree → List (BinaryOp × Expr)
  | .leaf _ => []
  | .node op l r => l.more ++ (op, r.first) :: r.more

/-- Whether the operator at the root has at least a precedence. -/
def Above (n : Nat) : OpTree → Prop
  | .leaf _ => True
  | .node op _ _ => n ≤ op.precedence

/-- **The precedences in a tree**: of an operator and of those right below it. -/
def Graded : OpTree → Prop
  | .leaf _ => True
  | .node op l r => l.Above op.leftLevel ∧ r.Above op.rightLevel ∧ l.Graded ∧ r.Graded

variable {n m : Nat} {t t' : OpTree}

theorem Above.mono (h : t.Above m) (hle : n ≤ m) : t.Above n := by
  cases t with
  | leaf e => exact trivial
  | node op l r => exact Nat.le_trans hle h

theorem le_of_mem_more (h : t.Graded) (hn : t.Above n) {p : BinaryOp × Expr} (hp : p ∈ t.more) :
    n ≤ p.1.precedence := by
  induction t with
  | leaf e => cases hp
  | node op l r ihl ihr =>
    obtain ⟨hl, hr, hlGraded, hrGraded⟩ := h
    have hlevels : op.precedence ≤ op.leftLevel ∧ op.precedence ≤ op.rightLevel := by
      cases op <;> exact ⟨by simp [BinaryOp.leftLevel], by simp [BinaryOp.rightLevel]⟩
    rw [more, List.mem_append, List.mem_cons] at hp
    obtain hp | rfl | hp := hp
    · exact ihl hlGraded (hl.mono (Nat.le_trans hn hlevels.1)) hp
    · exact hn
    · exact ihr hrGraded (hr.mono (Nat.le_trans hn hlevels.2)) hp

/-- An operator may stand on the left below another exactly when that one may not stand on the right below it:
the implication has a precedence of its own. -/
theorem leftLevel_le_iff {op op' : BinaryOp} : op'.leftLevel ≤ op.precedence ↔ op'.precedence < op.rightLevel := by
  have htwo : ∀ op : BinaryOp, op ≠ .implies → op.precedence ≠ 2 := by
    intro op h
    cases op with
    | arith op => cases op <;> decide
    | _ => first | decide | exact absurd rfl h
  have hp : BinaryOp.precedence .implies = 2 := rfl
  unfold BinaryOp.leftLevel BinaryOp.rightLevel
  split
  · split
    · omega
    · next h => have := htwo op h; omega
  · next h =>
    have := htwo op' h
    split <;> omega

/-- Neither root of two trees can have the other one on its right and stand on the left below it. -/
theorem length_le_of_levels {a b a' b' : List (BinaryOp × Expr)} {p p' : BinaryOp × Expr}
    (h : a ++ p :: b = a' ++ p' :: b') (hright : ∀ q ∈ b, p.1.rightLevel ≤ q.1.precedence)
    (hleft : ∀ q ∈ a', p'.1.leftLevel ≤ q.1.precedence) : a'.length ≤ a.length := by
  obtain ⟨mid, rfl, htail⟩ | ⟨mid, rfl, htail⟩ := List.append_eq_append_iff.mp h
  · cases mid with
    | nil => simp
    | cons q mid =>
      obtain ⟨rfl, rfl⟩ := List.cons.inj htail
      have hlt := leftLevel_le_iff.mp (hleft p (by simp))
      exact absurd (hright p' (by simp)) (Nat.not_le.mpr hlt)
  · simp

/-- **One tree at most** reads as given and has its operators by precedence. -/
theorem eq_of_graded (h : t.Graded) (h' : t'.Graded) (hfirst : t.first = t'.first) (hmore : t.more = t'.more) :
    t = t' := by
  induction t generalizing t' with
  | leaf e =>
    cases t' with
    | leaf e' => exact congrArg _ hfirst
    | node op' l' r' => exact absurd hmore (by simp [more])
  | node op l r ihl ihr =>
    cases t' with
    | leaf e' => exact absurd hmore (by simp [more])
    | node op' l' r' =>
      obtain ⟨hl, hr, hlGraded, hrGraded⟩ := h
      obtain ⟨hl', hr', hlGraded', hrGraded'⟩ := h'
      have hlen : l.more.length = l'.more.length := Nat.le_antisymm
        (length_le_of_levels hmore.symm (fun _ => le_of_mem_more hrGraded' hr') fun _ => le_of_mem_more hlGraded hl)
        (length_le_of_levels hmore (fun _ => le_of_mem_more hrGraded hr) fun _ => le_of_mem_more hlGraded' hl')
      obtain ⟨hlmore, htail⟩ := List.append_inj hmore hlen
      obtain ⟨hroot, hrmore⟩ := List.cons.inj htail
      obtain ⟨rfl, hrfirst⟩ := Prod.mk.inj hroot
      rw [ihl hlGraded hlGraded' hfirst hlmore, ihr hrGraded hrGraded' hrfirst hrmore]

end OpTree

namespace Reading

variable {ts : Tokens} {s s₁ s₂ : State ts} {e e' : Expr} {op : BinaryOp} {level : Nat}

/-- What a reader yields and the state that it leaves. -/
structure Step.Gives {α : Type} (r : Step α s) (a : α) (s' : State ts) : Prop where
  value : r.value = a
  next : r.next = s'

/-- **Operators with operands behind them**, from one state to another. -/
inductive Alternates : State ts → List (BinaryOp × Expr) → State ts → Prop where
  | done (s : State ts) : Alternates s [] s
  | next {s s₁ s₂ : State ts} {op : BinaryOp} {e : Expr} {more : List (BinaryOp × Expr)}
      (hop : BinaryOp.ofKind? s.kind = some op) (hrun : (operand s.advance).Gives e s₁)
      (h : Alternates s₁ more s₂) : Alternates s ((op, e) :: more) s₂

theorem operators_stop (h : ∀ op ∈ BinaryOp.ofKind? s.kind, op.precedence < level) (e : Expr) :
    (operators level e s).Gives e s := by
  have hturn : operatorTurn level e s = .last (.here e) := by
    rw [operatorTurn]
    split
    · rfl
    · next op hop => rw [if_pos (h op hop)]
  rw [operators, iterate, hturn]
  exact ⟨rfl, rfl⟩

theorem operators_go {left right : Expr} (hop : BinaryOp.ofKind? s.kind = some op) (hlevel : level ≤ op.precedence)
    (hright : (climb op.rightLevel s.advance).Gives right s₁)
    (h : (operators level (.binary left.pos op left right) s₁).Gives e s₂) : (operators level left s).Gives e s₂ := by
  have hturn : operatorTurn level left s = .again ((s.take (ne_eof_of_binary hop)).andThen fun _ s₁ _ =>
      (climb op.rightLevel s₁).map fun right => .binary left.pos op left right) := by
    rw [operatorTurn]
    split
    · next hnone => cases hop.symm.trans hnone
    · next op' hop' =>
      cases hop.symm.trans hop'
      rw [if_neg (Nat.not_lt.mpr hlevel)]
  rw [← hright.value, ← hright.next, operators] at h
  rw [operators, iterate, hturn]
  exact ⟨h.value, h.next⟩

theorem climb_go (h : (operand s).Gives e s₁) (h' : (operators level e s₁).Gives e' s₂) :
    (climb level s).Gives e' s₂ := by
  rw [← h.value, ← h.next] at h'
  rw [climb]
  exact ⟨h'.value, h'.next⟩

/-- Going on with operators builds on top of the operands read so far, as far as the level allows. -/
theorem operators_graded (hk : BinaryOp.ofKind? s₂.kind = none) {more : List (BinaryOp × Expr)}
    (h : Alternates s more s₂) (left : OpTree) (hleft : left.Graded) (hlevel : left.Above level)
    (hnext : ∀ p ∈ more.head?, left.Above p.1.leftLevel) :
    ∃ (t : OpTree) (s₁ : State ts) (taken rest : List (BinaryOp × Expr)), Alternates s₁ rest s₂ ∧
      more = taken ++ rest ∧ (operators level left.expr s).Gives t.expr s₁ ∧ t.Graded ∧
      t.Above level ∧ t.first = left.first ∧ t.more = left.more ++ taken ∧
      ∀ p ∈ rest.head?, p.1.precedence < level := by
  -- by the number of operators: the right side of one takes some of those behind it, the loop the others
  induction hn : more.length using Nat.strongRecOn generalizing level s more left with | _ n ih =>
  by_cases hstop : ∀ p ∈ more.head?, p.1.precedence < level
  · have hlt : ∀ op ∈ BinaryOp.ofKind? s.kind, op.precedence < level := by
      cases h with
      | done => exact fun op hop => absurd hop (by simp [hk])
      | next hop hrun h =>
        intro o ho
        rw [hop] at ho
        cases ho
        exact hstop _ rfl
    exact ⟨left, s, [], more, h, rfl, operators_stop hlt left.expr, hleft, hlevel, rfl,
      (List.append_nil _).symm, hstop⟩
  · cases h with
    | done => exact absurd (by simp) hstop
    | @next _ s' _ op e more hop hrun h =>
      have hge : level ≤ op.precedence := by simpa using hstop
      obtain ⟨r, s₃, taken, rest, h₁, rfl, hr, hrGraded, hrAbove, hrFirst, hrMore, hrNext⟩ :=
        ih more.length (by simp [← hn]) h (.leaf e) trivial trivial (fun _ _ => trivial) rfl
      obtain ⟨u, s₄, taken', rest', h₂, rfl, hu, huGraded, huAbove, huFirst, huMore, huNext⟩ :=
        ih rest.length (by simp only [← hn, List.length_cons, List.length_append]; omega) h₁ (.node op left r)
          ⟨hnext _ rfl, hrAbove, hleft, hrGraded⟩ hge (fun p hp => OpTree.leftLevel_le_iff.mpr (hrNext p hp)) rfl
      refine ⟨u, s₄, (op, e) :: (taken ++ taken'), rest', h₂, by simp,
        operators_go hop hge (climb_go hrun hr) hu, huGraded, huAbove, huFirst, ?_, huNext⟩
      simp [huMore, OpTree.more, hrFirst, hrMore, OpTree.first]

/-- **Climbing builds the tree of the precedences**: it reads operands with operators between them to their
end, and of the trees that read like them builds the only one that has its operators by precedence. -/
theorem climb_graded {more : List (BinaryOp × Expr)} (hfirst : (operand s).Gives e s₁)
    (hmore : Alternates s₁ more s₂) (hk : s₂.kind ∈ [.eof, .rightParen, .rightBracket, .semicolon, .comma]) :
    ∃ t : OpTree, (climb 0 s).Gives t.expr s₂ ∧ t.first = e ∧ t.more = more ∧ t.Graded ∧
      ∀ t' : OpTree, t'.first = e → t'.more = more → t'.Graded → t' = t := by
  have hkinds : ∀ k ∈ [Kind.eof, .rightParen, .rightBracket, .semicolon, .comma], BinaryOp.ofKind? k = none := by
    decide
  obtain ⟨t, s', taken, rest, hrest, rfl, hgives, hGraded, -, htfirst, htmore, hlevel⟩ :=
    operators_graded (hkinds _ hk) hmore (.leaf e) trivial trivial (fun _ _ => trivial)
  cases hrest with
  | next => exact absurd (hlevel _ rfl) (Nat.not_lt_zero _)
  | done =>
    rw [List.append_nil]
    refine ⟨t, climb_go hfirst hgives, htfirst, htmore, hGraded, fun t' hfirst' hmore' h' => ?_⟩
    exact OpTree.eq_of_graded h' hGraded (hfirst'.trans htfirst.symm) (hmore'.trans htmore.symm)

theorem accept?_of_ne {k : Kind} (h : s.kind ≠ k) : s.accept? k = none := dif_neg fun hk => h hk.1

theorem selectors_stop (hdot : s.kind ≠ .dot) (hbracket : s.kind ≠ .leftBracket) (e : Expr) :
    (selectors e s).Gives e s := by
  have hturn : selectorTurn e s = .last (.here e) := by
    rw [selectorTurn, accept?_of_ne hdot, accept?_of_ne hbracket]
  rw [selectors, iterate, hturn]
  exact ⟨rfl, rfl⟩

theorem operand_go (hk : UnaryOp.ofKind? s.kind = none) (h : (primary s).Gives e s₁)
    (h' : (selectors e s₁).Gives e' s₂) : (operand s).Gives e' s₂ := by
  rw [← h.value, ← h.next] at h'
  rw [operand]
  split
  · next hop => cases hk.symm.trans hop
  · exact ⟨h'.value, h'.next⟩

/-- The tokens of a chain of implications over a sum with a product, in parentheses that are still open. -/
def implications : Tokens :=
  .of ([.thisWord, .implies, .nullWord, .implies, .resultWord, .plus, .thisWord, .star, .nullWord,
    .rightParen].map fun kind => ⟨kind, "", .start⟩) .start

/-- The chain is read up to the parenthesis. -/
theorem climb_graded_implications :
    let at' (n : Fin 11) : State implications := { current := n, inside := n.2 }
    let more : List (BinaryOp × Expr) :=
      [(.implies, .null .start), (.implies, .result .start), (.arith .add, .self .start), (.arith .mul, .null .start)]
    (operand (at' 0)).Gives (.self .start) (at' 1) ∧ Alternates (at' 1) more (at' 9) ∧
      ∃ u : OpTree, (climb 0 (at' 0)).Gives u.expr (at' 9) ∧ u.first = .self .start ∧ u.more = more ∧ u.Graded ∧
        ∀ u' : OpTree, u'.first = .self .start → u'.more = more → u'.Graded → u' = u := by
  intro at' more
  have hgives : ∀ {n : Fin 11} {e : Expr}, UnaryOp.ofKind? (at' n).kind = none →
      (primary (at' n)).Gives e (at' (n + 1)) → (at' (n + 1)).kind ≠ .dot → (at' (n + 1)).kind ≠ .leftBracket →
      (operand (at' n)).Gives e (at' (n + 1)) :=
    fun hk h hdot hbracket => operand_go hk h (selectors_stop hdot hbracket _)
  have hself : (operand (at' 0)).Gives (.self .start) (at' 1) :=
    hgives rfl (by rw [primary]; exact ⟨rfl, rfl⟩) (by decide) (by decide)
  have hmore : Alternates (at' 1) more (at' 9) :=
    .next rfl (hgives (n := 2) rfl (by rw [primary]; exact ⟨rfl, rfl⟩) (by decide) (by decide))
      (.next rfl (hgives (n := 4) rfl (by rw [primary]; exact ⟨rfl, rfl⟩) (by decide) (by decide))
        (.next rfl (hgives (n := 6) rfl (by rw [primary]; exact ⟨rfl, rfl⟩) (by decide) (by decide))
          (.next rfl (hgives (n := 8) rfl (by rw [primary]; exact ⟨rfl, rfl⟩) (by decide) (by decide)) (.done _))))
  exact ⟨hself, hmore, climb_graded hself hmore (by decide)⟩

end Reading

end Relspec.Source
