import Relspec.Proofs.Formula.Spelling
import Relspec.Proofs.Text.Search

/-!
# Proofs/Formula/Words — the names in a formula

* `isName_joined` — words that stand for no operator;
* `Passes` — every name and every literal in a formula passes a test, `Named` — every name is an identifier;
* `Passes.rebuild`, `Passes.rename` — rewriting node by node, and putting names for names;
* `leftBrace_not_mem_text` — the text of such a formula has no brace.
-/

namespace Relspec

open List

/-- **An identifier** is made of letters, digits, `_`, `$` and `'`. -/
def IsIdentifier (x : String) : Prop := ∀ c ∈ x.toList, Formula.Lexeme.isWordPart c = true

instance : DecidablePred IsIdentifier := fun _ => decidable_of_iff _ all_eq_true

theorem IsIdentifier.append {x y : String} (hx : IsIdentifier x) (hy : IsIdentifier y) :
    IsIdentifier (x ++ y) := by
  intro c hc
  rw [String.toList_append, mem_append] at hc
  exact hc.elim (hx c) (hy c)

theorem isIdentifier_toString (n : Nat) : IsIdentifier (toString n) := by
  intro c hc
  have hdigit : c.isDigit = true := Text.isDigit_of_mem_toDigits (n := n) (Nat.toList_repr ▸ hc)
  simp [Formula.Lexeme.isWordPart, Char.isAlphanum, hdigit]

/-- A character that is no part of identifiers. -/
theorem IsIdentifier.not_mem {x : String} (hx : IsIdentifier x) {c : Char}
    (hc : Formula.Lexeme.isWordPart c = false) : c ∉ x.toList := fun h => by
  rw [hx c h] at hc
  cases hc

theorem IsIdentifier.dropStart {x : String} (hx : IsIdentifier x) (start : String) :
    IsIdentifier (Text.dropStart x start) := by
  rw [Text.dropStart]
  split
  · next rest hrest =>
    intro c hc
    rw [String.toList_ofList] at hc
    exact hx c (Text.eq_append_of_after? hrest ▸ mem_append_right _ hc)
  · exact hx

theorem IsIdentifier.dropEnd {x : String} (hx : IsIdentifier x) (ending : String) :
    IsIdentifier (Text.dropEnd x ending) := by
  rw [Text.dropEnd]
  split
  · next rest hrest =>
    intro c hc
    rw [String.toList_ofList, mem_reverse] at hc
    exact hx c (mem_reverse.mp (Text.eq_append_of_after? hrest ▸ mem_append_right _ hc))
  · exact hx

theorem IsIdentifier.cutLast? {x y z : String} {c : Char} (hx : IsIdentifier x)
    (h : Text.cutLast? c x = some (y, z)) : IsIdentifier y := by
  rw [Text.cutLast?] at h
  split at h
  · next b a hcut =>
    cases h
    intro d hd
    rw [String.toList_ofList, mem_reverse] at hd
    exact hx d (mem_reverse.mp (Text.eq_append_of_cut? hcut ▸ mem_append_right _ hd))
  · cases h

namespace Formula

/-! ## Words -/

theorem isWord_append {w v : String} (hw : Lexeme.isWord w = true) (hv : IsIdentifier v) :
    Lexeme.isWord (w ++ v) = true := by
  unfold Lexeme.isWord at hw ⊢
  rw [String.toList_append]
  split at hw
  · cases hw
  · next c s hcs =>
    rw [hcs, cons_append]
    simp only [Bool.and_eq_true, all_append] at hw ⊢
    exact ⟨hw.1, hw.2, all_eq_true.mpr hv⟩

theorem isIdentifier_of_isWord {w : String} (h : Lexeme.isWord w = true) : IsIdentifier w := by
  unfold Lexeme.isWord at h
  split at h
  · cases h
  · next c s hcs =>
    obtain ⟨hc, hs⟩ := Bool.and_eq_true_iff.mp h
    rw [IsIdentifier, hcs, forall_mem_cons]
    exact ⟨isWordPart_of_isWordStart hc, all_eq_true.mp hs⟩

/-- A word with a character of no operator. -/
theorem isName_of_mem {w : String} (hw : Lexeme.isWord w = true) (h : '_' ∈ w.toList) : isName w = true := by
  have hwords : ∀ k ∈ keywords, '_' ∉ k.toList := by decide
  rw [isName, hw, Bool.true_and, Bool.not_eq_true', ← Bool.not_eq_true, contains_iff_mem]
  exact fun hmem => hwords w hmem h

/-- A word and something after a mark. -/
theorem isName_joined {w v : String} (hw : Lexeme.isWord w = true) (hv : IsIdentifier v) :
    isName (w ++ "_" ++ v) = true :=
  isName_of_mem (isWord_append (isWord_append hw (by decide)) hv) (by simp)

/-! ## The names in a formula -/

mutual

/-- **The names in a formula**: of variables and relations, of what is called, and of bound variables. -/
def words : Formula → List String
  | .ident name => [name]
  | .int _ => []
  | .join l r => l.words ++ r.words
  | .call name args => name :: wordsAll args
  | .unary _ x => x.words
  | .binary _ x y => x.words ++ y.words
  | .quant _ vars domain body => vars ++ (domain.words ++ body.words)
  | .old x => x.words
  | .ite c t e => c.words ++ (t.words ++ e.words)

/-- The names in several formulas. -/
def wordsAll : List Formula → List String
  | [] => []
  | x :: xs => x.words ++ wordsAll xs

end

theorem forall_mem_wordsAll {P : String → Prop} : ∀ {fs : List Formula},
    (∀ x ∈ wordsAll fs, P x) ↔ ∀ f ∈ fs, ∀ x ∈ f.words, P x
  | [] => iff_of_true nofun nofun
  | f :: fs => by rw [wordsAll, forall_mem_append, forall_mem_wordsAll, forall_mem_cons]

/-- A test on names and literals. -/
structure Test where
  name : String → Prop
  literal : Int64 → Prop

/-- A test on names only. -/
def Test.naming (P : String → Prop) : Test := ⟨P, fun _ => True⟩

/-- A test on literals only. -/
def Test.valued (L : Int64 → Prop) : Test := ⟨fun _ => True, L⟩

mutual

/-- **Every name and every literal in a formula passes a test.** -/
def Passes (T : Test) : Formula → Prop
  | .ident name => T.name name
  | .int value => T.literal value
  | .join l r => l.Passes T ∧ r.Passes T
  | .call name args => T.name name ∧ PassesAll T args
  | .unary _ x => x.Passes T
  | .binary _ x y => x.Passes T ∧ y.Passes T
  | .quant _ vars domain body => (∀ x ∈ vars, T.name x) ∧ domain.Passes T ∧ body.Passes T
  | .old x => x.Passes T
  | .ite c t e => c.Passes T ∧ t.Passes T ∧ e.Passes T

def PassesAll (T : Test) : List Formula → Prop
  | [] => True
  | x :: xs => x.Passes T ∧ PassesAll T xs

end

section

variable {T : Test} {f : Formula}

theorem passesAll_iff : ∀ {fs : List Formula}, PassesAll T fs ↔ ∀ f ∈ fs, f.Passes T
  | [] => iff_of_true trivial nofun
  | f :: fs => by rw [PassesAll, passesAll_iff, forall_mem_cons]

theorem literalsAll_eq_flatMap : ∀ fs : List Formula, literalsAll fs = fs.flatMap literals
  | [] => rfl
  | f :: fs => by rw [literalsAll, literalsAll_eq_flatMap fs, flatMap_cons]

theorem passes_iff : f.Passes T ↔ (∀ x ∈ f.words, T.name x) ∧ ∀ v ∈ f.literals, T.literal v := by
  induction f with
  | ident | int | unary | old => simp_all [Passes, words, literals]
  | call name args ih =>
    simp only [Passes, passesAll_iff, words, literals, forall_mem_cons, forall_mem_wordsAll,
      literalsAll_eq_flatMap, forall_mem_flatMap, and_assoc, ← forall_and]
    exact and_congr_right' (forall₂_congr ih)
  | join _ _ ihl ihr | binary _ _ _ ihl ihr =>
    simp only [Passes, words, literals, forall_mem_append, ihl, ihr]
    exact and_and_and_comm
  | quant | ite =>
    simp only [Passes, words, literals, forall_mem_append, *]
    tauto

theorem passes_naming {P : String → Prop} : f.Passes (.naming P) ↔ ∀ x ∈ f.words, P x :=
  passes_iff.trans (and_iff_left fun _ _ => trivial)

theorem passes_valued {L : Int64 → Prop} : f.Passes (.valued L) ↔ ∀ v ∈ f.literals, L v :=
  passes_iff.trans (and_iff_right fun _ _ => trivial)

variable (htruth : T.name "TruePred")

include htruth

theorem Passes.all (hfalsity : T.name "FalsePred") {fs : List Formula} (h : ∀ f ∈ fs, f.Passes T) :
    (Formula.all fs).Passes T :=
  all_induction ⟨htruth, trivial⟩ ⟨hfalsity, trivial⟩ (fun _ _ hx hy => ⟨hx, hy⟩) h

theorem Passes.implies {g : Formula} (hg : g.Passes T) (hf : f.Passes T) : (Formula.implies g f).Passes T :=
  implies_induction ⟨htruth, trivial⟩ (fun _ _ hx hy => ⟨hx, hy⟩) hg hf

end

/-- **A formula over identifiers.** -/
def Named (f : Formula) : Prop := ∀ x ∈ f.words, IsIdentifier x

instance : DecidablePred Named := fun f =>
  inferInstanceAs (Decidable (∀ x ∈ f.words, IsIdentifier x))

@[simp] theorem named_ident {name : String} : Named (.ident name) ↔ IsIdentifier name := forall_mem_singleton

@[simp] theorem named_int (value : Int64) : Named (.int value) := forall_mem_nil _

@[simp] theorem named_join {l r : Formula} : Named (.join l r) ↔ l.Named ∧ r.Named :=
  forall_mem_append

@[simp] theorem named_unary {op : UnaryOp} {x : Formula} : Named (.unary op x) ↔ x.Named := Iff.rfl

@[simp] theorem named_binary {op : BinaryOp} {x y : Formula} :
    Named (.binary op x y) ↔ x.Named ∧ y.Named := forall_mem_append

@[simp] theorem named_old {x : Formula} : Named (.old x) ↔ x.Named := Iff.rfl

@[simp] theorem named_ite {c t e : Formula} : Named (.ite c t e) ↔ c.Named ∧ t.Named ∧ e.Named :=
  forall_mem_append.trans (and_congr_right' forall_mem_append)

@[simp] theorem named_call {name : String} {args : List Formula} :
    Named (.call name args) ↔ IsIdentifier name ∧ ∀ a ∈ args, a.Named :=
  forall_mem_cons.trans (and_congr_right' forall_mem_wordsAll)

@[simp] theorem named_quant {kind : Quantifier} {vars : List String} {domain body : Formula} :
    Named (.quant kind vars domain body) ↔
      (∀ x ∈ vars, IsIdentifier x) ∧ domain.Named ∧ body.Named :=
  forall_mem_append.trans (and_congr_right' forall_mem_append)

theorem named_truth : Named truth := by decide

theorem named_falsity : Named falsity := by decide

theorem Named.all {fs : List Formula} (h : ∀ f ∈ fs, f.Named) : (Formula.all fs).Named :=
  all_induction named_truth named_falsity (fun _ _ hx hy => named_binary.mpr ⟨hx, hy⟩) h

/-! ## Rewriting -/

section

variable {T : Test} {g : List String → Formula → Formula}

/-- **Rewriting that keeps a test at each node** keeps it. -/
theorem Passes.rebuild (hg : ∀ bound n, n.Passes T → (g bound n).Passes T) {f : Formula}
    (bound : List String) (h : f.Passes T) : (f.rebuild g bound).Passes T := by
  induction f generalizing bound with
  | ident | int => exact hg bound _ h
  | call _ args ih =>
    refine hg bound _ ⟨h.1, passesAll_iff.mpr ?_⟩
    rw [rebuildAll_eq_map]
    exact forall_mem_map.mpr fun a ha => ih a ha bound (passesAll_iff.mp h.2 a ha)
  | unary _ _ ih | old _ ih => exact hg bound _ (ih bound h)
  | join _ _ ihl ihr | binary _ _ _ ihl ihr => exact hg bound _ ⟨ihl bound h.1, ihr bound h.2⟩
  | quant _ vars _ _ ihd ihb => exact hg bound _ ⟨h.1, ihd bound h.2.1, ihb (bound ++ vars) h.2.2⟩
  | ite _ _ _ ihc iht ihe => exact hg bound _ ⟨ihc bound h.1, iht bound h.2.1, ihe bound h.2.2⟩

/-- **Putting names for names.** -/
theorem Passes.rename {f : Formula} (hf : f.Passes T) {names : Table String}
    (hnames : ∀ x y, names.find? x = some y → T.name y) : (f.rename names).Passes T := by
  refine hf.rebuild (fun bound n hn => ?_) []
  cases n with
  | ident name =>
    rw [substituteNode]
    split
    · exact hn
    · rw [Table.find?_map]
      cases hfind : names.find? name with
      | none => exact hn
      | some y => exact hnames name y hfind
  | _ => exact hn

end

/-! ## The text of a formula -/

theorem leftBrace_not_mem_argsText : ∀ {fs : List Formula}, (∀ f ∈ fs, '\x7b' ∉ f.text.toList) →
    '\x7b' ∉ (argsText fs).toList
  | [], _ => by simp [argsText]
  | [f], h => by simpa [argsText] using h
  | f :: g :: fs, h => by
    obtain ⟨hf, hfs⟩ := forall_mem_cons.mp h
    simp [argsText, hf, leftBrace_not_mem_argsText hfs]

/-- **The text of a formula over identifiers has no brace.** -/
theorem leftBrace_not_mem_text {f : Formula} (h : f.Named) : '\x7b' ∉ f.text.toList := by
  induction f with
  | ident name => exact (named_ident.mp h).not_mem rfl
  | int value => exact Text.not_mem_toString rfl (by decide) value.toInt
  | call name args ih =>
    obtain ⟨hname, hargs⟩ := named_call.mp h
    have hname : '\x7b' ∉ name.toList := hname.not_mem rfl
    simp [text, hname, leftBrace_not_mem_argsText fun a ha => ih a ha (hargs a ha)]
  | unary op x ih =>
    have hop : '\x7b' ∉ op.symbol.toList := by
      cases op with
      | mult m => cases m <;> decide
      | _ => decide
    cases hword : op.isWord <;> simp [text, ih h, hop, hword]
  | binary op x y =>
    have hop : '\x7b' ∉ op.symbol.toList := by
      cases op with
      | arith op => cases op <;> decide
      | _ => decide
    simp_all [text]
  | quant kind vars domain body ihd ihb =>
    obtain ⟨hvars, hdomain, hbody⟩ := named_quant.mp h
    have hkind : '\x7b' ∉ kind.word.toList := by
      cases kind with
      | all => decide
      | mult m => cases m <;> decide
    have hvars : '\x7b' ∉ ", ".toList.intercalate (vars.map String.toList) :=
      Text.not_mem_intercalate (by decide)
        (forall_mem_map.mpr fun x hx => (hvars x hx).not_mem rfl)
    simp only [text, String.toList_append, String.toList_intercalate, mem_append, not_or]
    exact ⟨⟨⟨⟨⟨⟨⟨⟨by decide, hkind⟩, by decide⟩, hvars⟩, by decide⟩, ihd hdomain⟩, by decide⟩, ihb hbody⟩,
      by decide⟩
  | _ => simp_all [text]

end Formula

end Relspec
