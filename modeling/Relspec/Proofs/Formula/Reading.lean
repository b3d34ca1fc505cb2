import Relspec.Proofs.Failing
import Relspec.Proofs.Formula.Levels
import Relspec.Proofs.Formula.Words

/-!
# Proofs/Formula/Reading — what formulas are read from

A lexeme that is a word is an identifier, and readers make names out of nothing else.  One invariant goes
through all levels of the grammar: what was read is over identifiers, and so are the lexemes that are left.

* `worded_lexed` — the words of a text;
* `ReadsOver`, `Chain.readsOver` — the invariant, and how it goes from a level to the next looser one;
* `named_of_iff?` — formulas.
-/

namespace Relspec.Formula

open List

variable {w : String} {s ls : List Lexeme}

/-! ## Lexemes -/

/-- **Lexemes whose words are words.** -/
def Worded (s : List Lexeme) : Prop := ∀ w, Lexeme.word w ∈ s → Lexeme.isWord w = true

theorem Worded.nil : Worded [] := nofun

theorem Worded.isIdentifier (h : Worded s) (hw : .word w ∈ s) :
    IsIdentifier w := isIdentifier_of_isWord (h w hw)

theorem Worded.head (h : Worded (.word w :: s)) : IsIdentifier w :=
  h.isIdentifier mem_cons_self

theorem Worded.tail {l : Lexeme} (h : Worded (l :: s)) : Worded s :=
  fun w hw => h w (mem_cons_of_mem l hw)

theorem isWord_of_first? {c : Char} {s rest : List Char}
    (h : Lexeme.first? c s = some (some (.word w), rest)) : Lexeme.isWord w = true := by
  unfold Lexeme.first? at h
  split at h
  · cases h
  · split at h
    · cases h
    · split at h
      · next hstart =>
        cases h
        unfold Lexeme.isWord
        rw [String.toList_ofList]
        exact Bool.and_eq_true_iff.mpr ⟨hstart, all_takeWhile⟩
      · split at h
        · cases h
        · split at h
          · cases h
          · split at h <;> cases h

/-- **The words of a text are words.** -/
theorem worded_lexemes {s : List Char} (h : lexemes s = .ok ls) : Worded ls := by
  fun_induction lexemes s generalizing ls with
  | case1 => cases h; exact .nil
  | case2 => cases h
  | case3 c s rest hfirst ih => exact ih h
  | case4 c s l rest hfirst ih =>
    obtain ⟨ls, hls, rfl⟩ := exists_of_except_map_ok h
    intro w hw
    rcases mem_cons.mp hw with rfl | hw
    · exact isWord_of_first? hfirst
    · exact ih hls w hw

theorem lexemes_of_lexed {s : String} (h : lexed s = .ok ls) : lexemes s.toList = .ok ls := by
  rw [lexed] at h
  cases hls : lexemes s.toList with
  | error rest =>
    rw [hls] at h
    cases h
  | ok ls' =>
    rw [hls] at h
    cases h
    rfl

theorem worded_lexed {s : String} (h : lexed s = .ok ls) : Worded ls :=
  worded_lexemes (lexemes_of_lexed h)

open Reading

/-! ## Pieces of formulas -/

theorem named_applyUnary {op : UnaryOp} {f : Formula} : (applyUnary op f).Named ↔ f.Named := by
  unfold applyUnary
  split <;> rfl

theorem worded_moreWords (hs : Worded s) :
    (∀ w ∈ (moreWords s).1, IsIdentifier w) ∧ Worded (moreWords s).2 := by
  fun_induction moreWords s with
  | case1 w s ws rest h ih =>
    rw [h] at ih
    obtain ⟨hws, hrest⟩ := ih hs.tail.tail
    exact ⟨forall_mem_cons.mpr ⟨hs.tail.head, hws⟩, hrest⟩
  | case2 s => exact ⟨forall_mem_nil _, hs⟩

theorem worded_variables? (hs : Worded s) {t : Taken (List String) s} (h : variables? s = some t) :
    (∀ w ∈ t.value, IsIdentifier w) ∧ Worded t.rest := by
  unfold variables? at h
  split at h
  · next w s =>
    have hmore := worded_moreWords hs.tail
    split at h
    · next ws rest heq =>
      cases h
      rw [heq] at hmore
      exact ⟨forall_mem_cons.mpr ⟨hs.head, hmore.1⟩, hmore.2.tail⟩
    · cases h
  · cases h

/-! ## Levels -/

/-- Induction on the number of lexemes. -/
theorem length_induction {P : List Lexeme → Prop}
    (h : ∀ s, (∀ t : List Lexeme, t.length < s.length → P t) → P s) (s : List Lexeme) : P s :=
  (measure List.length).wf.induction s h

/-- **A reader makes formulas over identifiers**, of fewer than `n` lexemes, and leaves such lexemes. -/
def ReadsOver (n : Nat) (read? : (s : List Lexeme) → Option (Taken Formula s)) : Prop :=
  ∀ s, s.length < n → Worded s → ∀ t, read? s = some t → t.value.Named ∧ Worded t.rest

section

variable {n : Nat}

/-! ### Operands -/

theorem worded_moreArguments (hiff : ReadsOver n iff?) : ∀ s : List Lexeme, s.length ≤ n → Worded s →
    (∀ f ∈ (moreArguments s).value, f.Named) ∧ Worded (moreArguments s).rest := by
  intro s
  induction s using length_induction with
  | _ s ih =>
    intro hn hs
    rw [moreArguments.eq_def]
    split
    · next t =>
      split
      · exact ⟨forall_mem_nil _, hs⟩
      · next x r hr hx =>
        simp only [length_cons] at hn ih
        obtain ⟨hx, hr⟩ := hiff t (by omega) hs.tail _ hx
        obtain ⟨hxs, hrest⟩ := ih r (by omega) (by omega) hr
        exact ⟨forall_mem_cons.mpr ⟨hx, hxs⟩, hrest⟩
    · exact ⟨forall_mem_nil _, hs⟩

theorem worded_arguments? (hiff : ReadsOver n iff?) (hn : s.length < n) (hs : Worded s)
    {t : Taken (List Formula) s} (h : arguments? s = some t) :
    (∀ f ∈ t.value, f.Named) ∧ Worded t.rest := by
  rw [arguments?.eq_def] at h
  split at h
  · split at h
    · cases h
      exact ⟨forall_mem_nil _, hs.tail⟩
    · cases h
  · next x r hr hx =>
    obtain ⟨hx, hr'⟩ := hiff s hn hs _ hx
    have hmore := worded_moreArguments hiff r (by omega) hr'
    split at h
    · next xs rest hlt heq =>
      cases h
      rw [heq] at hmore
      exact ⟨forall_mem_cons.mpr ⟨hx, hmore.1⟩, hmore.2.tail⟩
    · cases h

theorem readsOver_primary? (hiff : ReadsOver n iff?) : ReadsOver (n + 1) primary? := by
  intro s hn hs t h
  rw [primary?.eq_def] at h
  split at h
  · next u =>
    split at h
    · next x rest hlt hx =>
      cases h
      obtain ⟨hx, hrest⟩ := hiff u (Nat.lt_of_succ_lt_succ hn) hs.tail _ hx
      exact ⟨hx, hrest.tail⟩
    · cases h
  · next u =>
    split at h
    · next x rest hlt hx =>
      cases h
      obtain ⟨hx, hrest⟩ := hiff u (Nat.lt_of_succ_lt (Nat.lt_of_succ_lt_succ hn)) hs.tail.tail _ hx
      exact ⟨hx, hrest.tail⟩
    · cases h
  · split at h
    · cases h
      exact ⟨named_int _, hs.tail⟩
    · cases h
  · next name u =>
    split at h
    · next args rest hlt hargs =>
      cases h
      obtain ⟨hargs, hrest⟩ :=
        worded_arguments? hiff (Nat.lt_of_succ_lt (Nat.lt_of_succ_lt_succ hn)) hs.tail.tail hargs
      exact ⟨named_call.mpr ⟨hs.head, hargs⟩, hrest⟩
    · cases h
      exact ⟨named_ident.mpr hs.head, hs.tail⟩
  · cases h
    exact ⟨named_ident.mpr hs.head, hs.tail⟩
  · cases h

theorem readsOver_unary? (hdotted : ReadsOver n dotted?) : ReadsOver n unary? := by
  intro s
  induction s with
  | nil =>
    intro _ _ t h
    rw [unary?.eq_def] at h
    cases h
  | cons c u ih =>
    intro hn hs t h
    rw [unary?] at h
    split at h
    · next op hop =>
      split at h
      · next x rest hlt hx =>
        cases h
        rw [named_applyUnary]
        exact ih (Nat.lt_of_succ_lt hn) hs.tail _ hx
      · cases h
    · exact hdotted _ hn hs t h

/-! ### Chains -/

section

variable {ω : Type} {make : ω → Formula → Formula → Formula} {op? : Lexeme → Option ω}
  {item? chain? : (s : List Lexeme) → Option (Taken Formula s)}
  (hmake : ∀ op x y, (make op x y).Named ↔ x.Named ∧ y.Named) (hitem : ReadsOver n item?)
include hmake hitem

theorem named_more : ∀ (s : List Lexeme) (x : Formula), s.length < n → Worded s → x.Named →
    (more make op? item? x s).value.Named ∧ Worded (more make op? item? x s).rest := by
  intro s
  induction s using length_induction with
  | _ s ih =>
    intro x hn hs hx
    have hstop : Trails (more make op? item? x s) x s →
        (more make op? item? x s).value.Named ∧ Worded (more make op? item? x s).rest := by
      rintro ⟨_, heq⟩
      rw [heq]
      exact ⟨hx, hs⟩
    cases s with
    | nil => exact hstop (Chain.stop nofun)
    | cons c t =>
      cases hop : op? c with
      | none =>
        refine hstop (Chain.stop fun d hd => ?_)
        obtain rfl : c = d := by simpa using hd
        exact hop
      | some op =>
        cases hy : item? t with
        | none => exact hstop (Chain.stuck hop hy)
        | some y =>
          have hlt := y.lt
          simp only [length_cons] at hn ih
          obtain ⟨hy', hrest⟩ := hitem t (by omega) hs.tail y hy
          obtain ⟨_, heq⟩ :=
            Chain.step (x := x) hop ⟨y.lt, hy⟩ ⟨(more make op? item? (make op x y.value) y.rest).le, rfl⟩
          rw [heq]
          exact ih y.rest (by omega) _ (by omega) hrest ((hmake op x y.value).mpr ⟨hx, hy'⟩)

/-- **Chains of operands** are over identifiers when their operands are. -/
theorem Chain.readsOver (h : Chain make op? item? chain?) : ReadsOver n chain? := by
  intro s hn hs t ht
  cases hx : item? s with
  | none =>
    rw [h.absent hx] at ht
    cases ht
  | some x =>
    obtain ⟨hnamed, hrest⟩ := hitem s hn hs x hx
    have hlt := x.lt
    obtain ⟨_, heq⟩ := h.first ⟨x.lt, hx⟩ ⟨(more make op? item? x.value x.rest).le, rfl⟩
    rw [heq] at ht
    cases ht
    exact named_more hmake hitem x.rest x.value (by omega) hrest hnamed

end

/-! ### Formulas -/

theorem named_moreCompared (hsum : ReadsOver n sum?) {x : Formula} (hn : s.length < n) (hs : Worded s)
    (hx : x.Named) : (moreCompared x s).value.Named ∧ Worded (moreCompared x s).rest := by
  rw [moreCompared.eq_def]
  split
  · exact ⟨hx, hs⟩
  · next c t =>
    split
    · exact ⟨hx, hs⟩
    · next op hop =>
      split
      · exact ⟨hx, hs⟩
      · next y rest hlt hy =>
        obtain ⟨hy, hrest⟩ := hsum t (Nat.lt_of_succ_lt hn) hs.tail _ hy
        exact ⟨named_binary.mpr ⟨hx, hy⟩, hrest⟩

theorem readsOver_compared? (hsum : ReadsOver n sum?) : ReadsOver n compared? := by
  intro s hn hs t h
  rw [compared?.eq_def] at h
  split at h
  · cases h
  · next c u =>
    rw [length_cons] at hn
    split at h
    · next m hm =>
      split at h
      · cases h
      · next x r hr hx =>
        cases h
        obtain ⟨hx, hr'⟩ := hsum u (by omega) hs.tail _ hx
        exact named_moreCompared hsum (by omega) hr' (named_unary.mpr hx)
    · split at h
      · cases h
      · next x r hr hx =>
        cases h
        rw [length_cons] at hr
        obtain ⟨hx, hr'⟩ := hsum (c :: u) hn hs _ hx
        exact named_moreCompared hsum (by omega) hr' hx

theorem readsOver_quantified? (hiff : ReadsOver n iff?) (hsum : ReadsOver (n + 1) sum?) :
    ReadsOver (n + 1) quantified? := by
  intro s hn hs t h
  rw [quantified?.eq_def] at h
  split at h
  · cases h
  · next c u =>
    rw [length_cons] at hn
    split at h
    · cases h
    · next kind hkind =>
      split at h
      · cases h
      · next vars u' hu hvars =>
        obtain ⟨hvars, hu'⟩ := worded_variables? hs.tail hvars
        split at h
        · cases h
        · next domain v hv hread =>
          obtain ⟨hdomain, hv'⟩ := hsum u' (by omega) hu' _ hread
          split at h
          · next w hlt =>
            split at h
            · next body rest hlt' hbody =>
              cases h
              rw [length_cons] at hlt
              obtain ⟨hbody, hrest⟩ := hiff w (by omega) hv'.tail _ hbody
              exact ⟨named_quant.mpr ⟨hvars, hdomain, hbody⟩, hrest⟩
            · cases h
          · cases h

theorem readsOver_negated? (hquantified : ReadsOver n quantified?) (hcompared : ReadsOver n compared?) :
    ReadsOver n negated? := by
  intro s
  induction s with
  | nil =>
    intro _ _ t h
    rw [negated?.eq_def] at h
    cases h
  | cons c u ih =>
    intro hn hs t h
    rw [negated?] at h
    split at h
    · next x rest hlt hx =>
      cases h
      split_ifs at hx with hspells
      exact ih (Nat.lt_of_succ_lt hn) hs.tail _ hx
    · split at h
      · next hq =>
        cases h
        exact hquantified _ hn hs t hq
      · exact hcompared _ hn hs t h

theorem readsOver_implies? (hor : ReadsOver n or?) : ReadsOver n implies? := by
  intro s
  induction s using length_induction with
  | _ s ih =>
    intro hn hs t h
    rw [implies?] at h
    split at h
    · cases h
    · next x r hr hread =>
      obtain ⟨hx, hr'⟩ := hor s hn hs _ hread
      split at h
      · cases h
        exact ⟨hx, hr'⟩
      · next c u hlt =>
        rw [length_cons] at hlt
        split_ifs at h with hspells
        · split at h
          · cases h
            exact ⟨hx, hr'⟩
          · next y v hv hread' =>
            obtain ⟨hy, hv'⟩ := ih u (by omega) (by omega) hr'.tail _ hread'
            have hxy : (binary .implies x y).Named := named_binary.mpr ⟨hx, hy⟩
            split at h
            · cases h
              exact ⟨hxy, hv'⟩
            · next d w hlt' =>
              rw [length_cons] at hlt'
              split_ifs at h with helse
              · split at h
                · next z rest _ hz =>
                  cases h
                  obtain ⟨hz, hrest⟩ := ih w (by omega) (by omega) hv'.tail _ hz
                  exact ⟨named_ite.mpr ⟨hx, hy, hz⟩, hrest⟩
                · cases h
                  exact ⟨hxy, hv'⟩
              · cases h
                exact ⟨hxy, hv'⟩
        · cases h
          exact ⟨hx, hr'⟩

theorem readsOver_iff?_of_implies? (himplies : ReadsOver n implies?) : ReadsOver n iff? := by
  intro s
  induction s using length_induction with
  | _ s ih =>
    intro hn hs t h
    rw [iff?] at h
    split at h
    · cases h
    · next x r hr hread =>
      obtain ⟨hx, hr'⟩ := himplies s hn hs _ hread
      split at h
      · cases h
        exact ⟨hx, hr'⟩
      · next c u hlt =>
        rw [length_cons] at hlt
        split_ifs at h with hspells
        · split at h
          · next y rest _ hy =>
            cases h
            obtain ⟨hy, hrest⟩ := ih u (by omega) (by omega) hr'.tail _ hy
            exact ⟨named_binary.mpr ⟨hx, hy⟩, hrest⟩
          · cases h
            exact ⟨hx, hr'⟩
        · cases h
          exact ⟨hx, hr'⟩

end

/-- **Formulas are read over identifiers**, by induction on the number of lexemes: parentheses, calls and
quantifiers are read with fewer. -/
theorem readsOver_iff? : ∀ n, ReadsOver n iff?
  | 0 => fun _ hn => absurd hn (Nat.not_lt_zero _)
  | n + 1 => by
    have hiff := readsOver_iff? n
    have hdotted := chain_dotted.readsOver (fun _ _ _ => named_join) (readsOver_primary? hiff)
    have hprod := chain_prod.readsOver (fun _ _ _ => named_binary) (readsOver_unary? hdotted)
    have hsum := chain_sum.readsOver (fun _ _ _ => named_binary) hprod
    have hnegated := readsOver_negated? (readsOver_quantified? hiff hsum) (readsOver_compared? hsum)
    have hand := chain_and.readsOver (fun _ _ _ => named_binary) hnegated
    exact readsOver_iff?_of_implies? (readsOver_implies? (chain_or.readsOver (fun _ _ _ => named_binary) hand))

theorem named_of_iff? {t : Taken Formula s} (hs : Worded s) (h : iff? s = some t) :
    t.value.Named ∧ Worded t.rest := readsOver_iff? _ s (Nat.lt_succ_self _) hs t h

end Relspec.Formula
