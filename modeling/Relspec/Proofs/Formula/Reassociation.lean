import Relspec.Proofs.Formula.RoundTrip
import Relspec.Proofs.Formula.Words

/-!
# Proofs/Formula/Reassociation — what the text of a formula reads as

Joins are written without parentheses and read from the left.  So a formula with a join on the right of a
join does not read as itself, but as the formula with the same joins nested to the left.

* `plain` — formulas over names without misplaced signs, however their joins are nested;
* `asRead` — the formula with its joins nested to the left: it has the same text, and is legible;
* `asRead_eq_self_iff` — a plain formula reads as itself exactly when no join has a join on its right;
* `Replaces` — a formula in the place of another; `plain_all`, `plain_rename` — plain formulas from plain
  formulas.
-/

namespace Relspec.Formula

mutual

/-- **Plain formulas**: every name is a word that stands for no operator, and no sign stands before a
literal that has none of its own, or before an operand of a join. -/
def plain : Formula → Bool
  | .ident name => isName name
  | .int value => decide (-2 ^ 63 < value.toInt)
  | .join l r => l.plain && r.plain && !l.isNegative && !r.isNegative
  | .call name args => isName name && plainAll args
  | .unary op x => x.plain && !(op = .neg && x.isLiteral)
  | .binary _ x y => x.plain && y.plain
  | .quant _ vars domain body => !vars.isEmpty && vars.all isName && domain.plain && body.plain
  | .old x => x.plain
  | .ite c t e => c.plain && t.plain && e.plain

/-- Whether several formulas are plain. -/
def plainAll : List Formula → Bool
  | [] => true
  | x :: xs => x.plain && plainAll xs

end

mutual

/-- Whether no join has a join on its right. -/
def leftNested : Formula → Bool
  | .ident _ | .int _ => true
  | .join l r => l.leftNested && r.leftNested && !r.isJoin
  | .call _ args => leftNestedAll args
  | .unary _ x => x.leftNested
  | .binary _ x y => x.leftNested && y.leftNested
  | .quant _ _ domain body => domain.leftNested && body.leftNested
  | .old x => x.leftNested
  | .ite c t e => c.leftNested && t.leftNested && e.leftNested

/-- Whether no join of several formulas has a join on its right. -/
def leftNestedAll : List Formula → Bool
  | [] => true
  | x :: xs => x.leftNested && leftNestedAll xs

end

/-- A join whose right operand may be a join itself, nested to the left. -/
def joinLeft (x : Formula) : Formula → Formula
  | .join l r => .join (x.joinLeft l) r
  | y => .join x y

mutual

/-- **The formula with its joins nested to the left.** -/
def asRead : Formula → Formula
  | .ident name => .ident name
  | .int value => .int value
  | .join l r => l.asRead.joinLeft r.asRead
  | .call name args => .call name (asReadAll args)
  | .unary op x => .unary op x.asRead
  | .binary op x y => .binary op x.asRead y.asRead
  | .quant kind vars domain body => .quant kind vars domain.asRead body.asRead
  | .old x => .old x.asRead
  | .ite c t e => .ite c.asRead t.asRead e.asRead

/-- Several formulas with their joins nested to the left. -/
def asReadAll : List Formula → List Formula
  | [] => []
  | x :: xs => x.asRead :: asReadAll xs

end

attribute [local simp] plain leftNested asRead legible

theorem asReadAll_eq_map : ∀ fs, asReadAll fs = fs.map asRead
  | [] => rfl
  | f :: fs => by rw [asReadAll, List.map_cons, asReadAll_eq_map fs]

theorem plainAll_iff : ∀ {fs : List Formula}, plainAll fs = true ↔ ∀ f ∈ fs, f.plain = true
  | [] => iff_of_true rfl nofun
  | f :: fs => by rw [plainAll, Bool.and_eq_true, plainAll_iff, List.forall_mem_cons]

/-! ## Legible formulas -/

theorem leftNestedAll_iff : ∀ {fs : List Formula}, leftNestedAll fs = true ↔ ∀ f ∈ fs, f.leftNested = true
  | [] => iff_of_true rfl nofun
  | f :: fs => by rw [leftNestedAll, Bool.and_eq_true, leftNestedAll_iff, List.forall_mem_cons]

theorem legibleAll_iff : ∀ {fs : List Formula}, legibleAll fs = true ↔ ∀ f ∈ fs, f.legible = true
  | [] => iff_of_true rfl nofun
  | f :: fs => by rw [legibleAll, Bool.and_eq_true, legibleAll_iff, List.forall_mem_cons]

/-- **A formula is legible** when it is plain and its joins are nested to the left. -/
theorem legible_iff {f : Formula} : f.legible = true ↔ f.plain = true ∧ f.leftNested = true := by
  induction f with
  | call name args ih =>
    simp only [legible, plain, leftNested, Bool.and_eq_true, legibleAll_iff, plainAll_iff, leftNestedAll_iff,
      and_assoc, ← forall_and]
    exact and_congr_right' (forall₂_congr ih)
  | _ => simp only [legible, plain, leftNested, Bool.and_eq_true, *] <;> tauto

/-! ## The formula that a text reads as -/

theorem joinLeft_of_isJoin_eq_false {x : Formula} : ∀ {y : Formula}, y.isJoin = false →
    x.joinLeft y = .join x y
  | .join _ _, h => nomatch h
  | .ident _, _ | .int _, _ | .call _ _, _ | .unary _ _, _ | .binary _ _ _, _ | .quant _ _ _ _, _
  | .old _, _ | .ite _ _ _, _ => rfl

theorem text_joinLeft (x : Formula) : ∀ y : Formula, (x.joinLeft y).text = x.text ++ "." ++ y.text
  | .join l r => by
    rw [joinLeft, text, text_joinLeft x l, text]
    simp only [String.append_assoc]
  | .ident _ | .int _ | .call _ _ | .unary _ _ | .binary _ _ _ | .quant _ _ _ _ | .old _ | .ite _ _ _ =>
    rfl

theorem isNegative_joinLeft (x : Formula) : ∀ y : Formula, (x.joinLeft y).isNegative = false
  | .join _ _ | .ident _ | .int _ | .call _ _ | .unary _ _ | .binary _ _ _ | .quant _ _ _ _ | .old _
  | .ite _ _ _ => rfl

theorem isLiteral_joinLeft (x : Formula) : ∀ y : Formula, (x.joinLeft y).isLiteral = false
  | .join _ _ | .ident _ | .int _ | .call _ _ | .unary _ _ | .binary _ _ _ | .quant _ _ _ _ | .old _
  | .ite _ _ _ => rfl

theorem legible_joinLeft {x : Formula} (hx : x.legible = true) (hsign : x.isNegative = false) :
    ∀ {y : Formula}, y.legible = true → y.isNegative = false → (x.joinLeft y).legible = true
  | .join l r, hy, _ => by
    simp only [legible, Bool.and_eq_true, Bool.not_eq_true'] at hy
    obtain ⟨⟨⟨⟨hl, hr⟩, hlsign⟩, hrsign⟩, hrjoin⟩ := hy
    have hleft := legible_joinLeft hx hsign hl hlsign
    simp [joinLeft, legible, hleft, hr, isNegative_joinLeft, hrsign, hrjoin]
  | .ident _, hy, hysign | .int _, hy, hysign | .call _ _, hy, hysign | .unary _ _, hy, hysign
  | .binary _ _ _, hy, hysign | .quant _ _ _ _, hy, hysign | .old _, hy, hysign
  | .ite _ _ _, hy, hysign => by
    rw [joinLeft_of_isJoin_eq_false rfl, legible, hx, hy, hsign, hysign]
    rfl

theorem isNegative_asRead : ∀ f : Formula, f.asRead.isNegative = f.isNegative
  | .join l r => isNegative_joinLeft l.asRead r.asRead
  | .ident _ | .int _ | .call _ _ | .unary _ _ | .binary _ _ _ | .quant _ _ _ _ | .old _
  | .ite _ _ _ => by simp only [asRead, isNegative]

theorem isLiteral_asRead : ∀ f : Formula, f.asRead.isLiteral = f.isLiteral
  | .join l r => isLiteral_joinLeft l.asRead r.asRead
  | .ident _ | .int _ | .call _ _ | .unary _ _ | .binary _ _ _ | .quant _ _ _ _ | .old _
  | .ite _ _ _ => by simp only [asRead, isLiteral]

theorem argsText_map {g : Formula → Formula} : ∀ {fs : List Formula}, (∀ f ∈ fs, (g f).text = f.text) →
    argsText (fs.map g) = argsText fs
  | [], _ => rfl
  | [x], h => h x (.head _)
  | x :: y :: fs, h => by
    obtain ⟨hx, hfs⟩ := List.forall_mem_cons.mp h
    have ih := argsText_map hfs
    rw [List.map_cons] at ih
    rw [List.map_cons, List.map_cons, argsText, ih, hx, argsText]

/-- **A formula has the text of the one with its joins nested to the left.** -/
theorem text_asRead (f : Formula) : f.asRead.text = f.text := by
  induction f with
  | join l r ihl ihr => rw [asRead, text_joinLeft, ihl, ihr, text]
  | call name args ih => rw [asRead, text, asReadAll_eq_map, argsText_map ih, text]
  | _ => simp only [asRead, text, *]

/-- **A plain formula with its joins nested to the left is legible.** -/
theorem legible_asRead {f : Formula} (h : f.plain = true) : f.asRead.legible = true := by
  induction f with
  | ident | int => rwa [asRead, legible]
  | join l r ihl ihr =>
    simp only [plain, Bool.and_eq_true, Bool.not_eq_true'] at h
    obtain ⟨⟨⟨hl, hr⟩, hlsign⟩, hrsign⟩ := h
    rw [asRead]
    exact legible_joinLeft (ihl hl) ((isNegative_asRead l).trans hlsign) (ihr hr)
      ((isNegative_asRead r).trans hrsign)
  | call name args ih =>
    simp only [plain, Bool.and_eq_true, plainAll_iff] at h
    simp only [asRead, legible, Bool.and_eq_true, asReadAll_eq_map, legibleAll_iff, List.forall_mem_map]
    exact ⟨h.1, fun a ha => ih a ha (h.2 a ha)⟩
  | _ => simp_all [plain, asRead, legible, isLiteral_asRead]

theorem asRead_of_leftNested {f : Formula} (h : f.leftNested = true) : f.asRead = f := by
  induction f with
  | call name args ih =>
    rw [leftNested, leftNestedAll_iff] at h
    rw [asRead, asReadAll_eq_map, List.map_congr_left fun a ha => ih a ha (h a ha), List.map_id']
  | _ => simp_all [leftNested, asRead, joinLeft_of_isJoin_eq_false]

/-- **A plain formula reads as itself** exactly when no join has a join on its right. -/
theorem asRead_eq_self_iff {f : Formula} (h : f.plain = true) : f.asRead = f ↔ f.leftNested = true := by
  refine ⟨fun heq => ?_, asRead_of_leftNested⟩
  have hlegible := legible_asRead h
  rw [heq] at hlegible
  exact (legible_iff.mp hlegible).2

/-! ## Plain formulas from plain formulas -/

theorem plain_binary {op : BinaryOp} {x y : Formula} (hx : x.plain = true) (hy : y.plain = true) :
    (binary op x y).plain = true := by rw [plain, hx, hy]; rfl

theorem plain_all {fs : List Formula} (h : ∀ f ∈ fs, f.plain = true) : (all fs).plain = true :=
  all_induction (P := fun f => f.plain = true) rfl rfl (fun _ _ => plain_binary) h

/-- **A formula in the place of another**: plain if that was, and a literal only as the same literal. -/
structure Replaces (f g : Formula) : Prop where
  plain : f.plain = true → g.plain = true
  literal : g.isLiteral = true → g = f

namespace Replaces

variable {f g x x' y y' c c' : Formula}

theorem refl (f : Formula) : Replaces f f := ⟨id, fun _ => rfl⟩

/-- A plain formula that is no literal goes in any place. -/
theorem put (hplain : g.plain = true) (hliteral : g.isLiteral = false) : Replaces f g :=
  ⟨fun _ => hplain, fun h => nomatch hliteral.symm.trans h⟩

theorem isNegative (h : Replaces f g) (hf : f.isNegative = false) : g.isNegative = false := by
  cases g with
  | int value => rw [h.literal rfl, hf]
  | _ => rfl

theorem join (hx : Replaces x x') (hy : Replaces y y') : Replaces (.join x y) (.join x' y') where
  plain h := by
    simp only [Formula.plain, Bool.and_eq_true, Bool.not_eq_true'] at h ⊢
    exact ⟨⟨⟨hx.plain h.1.1.1, hy.plain h.1.1.2⟩, hx.isNegative h.1.2⟩, hy.isNegative h.2⟩
  literal h := nomatch h

theorem call {args args' : List Formula} (h : plainAll args = true → plainAll args' = true)
    (name : String) : Replaces (.call name args) (.call name args') where
  plain hplain := by
    simp only [Formula.plain, Bool.and_eq_true] at hplain ⊢
    exact ⟨hplain.1, h hplain.2⟩
  literal h := nomatch h

theorem unary (h : Replaces x x') (op : UnaryOp) : Replaces (.unary op x) (.unary op x') where
  plain hplain := by
    simp only [Formula.plain, Bool.and_eq_true, Bool.not_eq_true', Bool.and_eq_false_iff] at hplain ⊢
    refine ⟨h.plain hplain.1, hplain.2.imp_right fun hx => ?_⟩
    cases hliteral : x'.isLiteral with
    | false => rfl
    | true => rw [← hx, ← h.literal hliteral, hliteral]
  literal h := nomatch h

theorem binary (hx : Replaces x x') (hy : Replaces y y') (op : BinaryOp) :
    Replaces (.binary op x y) (.binary op x' y') where
  plain h := by
    simp only [Formula.plain, Bool.and_eq_true] at h ⊢
    exact ⟨hx.plain h.1, hy.plain h.2⟩
  literal h := nomatch h

theorem quant (hx : Replaces x x') (hy : Replaces y y') (kind : Quantifier) (vars : List String) :
    Replaces (.quant kind vars x y) (.quant kind vars x' y') where
  plain h := by
    simp only [Formula.plain, Bool.and_eq_true] at h ⊢
    exact ⟨⟨h.1.1, hx.plain h.1.2⟩, hy.plain h.2⟩
  literal h := nomatch h

theorem old (h : Replaces x x') : Replaces (.old x) (.old x') := ⟨h.plain, nofun⟩

theorem ite (hc : Replaces c c') (hx : Replaces x x') (hy : Replaces y y') :
    Replaces (.ite c x y) (.ite c' x' y') where
  plain h := by
    simp only [Formula.plain, Bool.and_eq_true] at h ⊢
    exact ⟨⟨hc.plain h.1.1, hx.plain h.1.2⟩, hy.plain h.2⟩
  literal h := nomatch h

end Replaces

theorem replaces_substitute {σ : Table Formula}
    (hσ : ∀ x f, σ.find? x = some f → f.plain = true ∧ f.isLiteral = false) (bound : List String) (f : Formula) :
    Replaces f (f.rebuild (substituteNode σ) bound) := by
  induction f generalizing bound with
  | ident name =>
    rw [rebuild, substituteNode]
    split
    · exact .refl _
    · cases hfind : σ.find? name with
      | none => exact .refl _
      | some f => exact .put (hσ name f hfind).1 (hσ name f hfind).2
  | int value => exact .refl (.int value)
  | call name args ih =>
    refine .call (fun h => ?_) name
    rw [plainAll_iff] at h
    rw [rebuildAll_eq_map, plainAll_iff]
    exact List.forall_mem_map.mpr fun a ha => (ih a ha bound).plain (h a ha)
  | unary op _ ih => exact (ih bound).unary op
  | old _ ih => exact (ih bound).old
  | join _ _ ihl ihr => exact (ihl bound).join (ihr bound)
  | binary op _ _ ihl ihr => exact (ihl bound).binary (ihr bound) op
  | quant kind vars _ _ ihd ihb => exact (ihd bound).quant (ihb (bound ++ vars)) kind vars
  | ite _ _ _ ihc iht ihe => exact (ihc bound).ite (iht bound) (ihe bound)

/-- **Putting names for names** keeps a formula plain. -/
theorem plain_rename {f : Formula} (hf : f.plain = true) {names : Table String}
    (hnames : ∀ x y, names.find? x = some y → isName y = true) : (f.rename names).plain = true := by
  refine (replaces_substitute (fun x g hg => ?_) [] f).plain hf
  rw [Table.find?_map] at hg
  obtain ⟨y, hy, rfl⟩ := Option.map_eq_some_iff.mp hg
  exact ⟨hnames x y hy, rfl⟩

end Relspec.Formula
