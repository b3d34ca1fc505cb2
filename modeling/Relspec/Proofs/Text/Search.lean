import Mathlib.Data.List.Infix
import Relspec.Text.Blank
import Relspec.Text.Search

/-!
# Proofs/Text/Search — where a pattern first occurs

The first occurrence of a pattern is found by what stands before it.  An occurrence lies within one line
when the pattern has no line break, and after its last mark when the pattern ends in one.

* `cut?_parted` — the first occurrence is the one at hand, if none lies before it or starts there;
* `replaceFrom_of_cut?` — replacing goes on after the first occurrence;
* `LinesLack` — whole lines without an occurrence, put together line by line;
* `startsWith_iff`, `dropStart_append`, `dropEnd_append`, `trimChars_of_not_mem` — the ends of a text.
-/

namespace Relspec.Text

open List

/-! ## Cuts -/

theorem after?_eq_none_iff : ∀ {p s : List Char}, after? p s = none ↔ ¬ p <+: s
  | [], s => by simp [after?]
  | c :: p, [] => by simp [after?]
  | c :: p, d :: s => by
    rw [after?, cons_prefix_cons]
    split
    · next h => rw [after?_eq_none_iff, and_iff_right h]
    · next h => simp [h]

theorem cut?_eq_none_iff {p : List Char} : ∀ {s : List Char}, cut? p s = none ↔ ¬ p <:+: s
  | [] => by cases p <;> simp [cut?]
  | c :: s => by
    rw [infix_cons_iff, not_or, ← after?_eq_none_iff, ← cut?_eq_none_iff, cut?]
    split
    · next h => simp [h]
    · next h => simp [h]

theorem cut?_self {p : List Char} (hp : p ≠ []) (b : List Char) : cut? p (p ++ b) = some ([], b) := by
  obtain ⟨c, q, rfl⟩ := exists_cons_of_ne_nil hp
  have hafter := after?_append (c :: q) b
  rw [cons_append] at hafter ⊢
  rw [cut?, hafter]

/-- **The first occurrence of a pattern**, whose beginning `u` goes on with the rest `v`, is after `a`
when `a` has no such beginning and ends in no character of it. -/
theorem cut?_parted {u v : List Char} (hu : u ≠ []) (b : List Char) : ∀ {a : List Char},
    ¬ u ++ v.take 1 <:+: a → (∀ c ∈ a.getLast?, c ∉ u) →
      cut? (u ++ v) (a ++ (u ++ v ++ b)) = some (a, b)
  | [], _, _ => cut?_self (by simp [hu]) b
  | c :: a, hlacks, hlast => by
    have hnone : after? (u ++ v) (c :: (a ++ (u ++ v ++ b))) = none := by
      rw [after?_eq_none_iff, ← cons_append]
      intro h
      have hwhole : (c :: a) <+: (c :: a) ++ (u ++ v ++ b) := prefix_append _ _
      rcases Nat.lt_or_ge u.length (c :: a).length with hlt | hge
      · -- The beginning of the pattern, with one more character, is still within `c :: a`.
        have hstart : u ++ v.take 1 <+: u ++ v := (prefix_append_right_inj u).mpr (v.take_prefix 1)
        refine hlacks (prefix_of_prefix_length_le (hstart.trans h) hwhole ?_).isInfix
        simp only [length_append, length_take]
        omega
      · -- It reaches beyond `c :: a`, whose last character is then one of its own.
        have hin : (c :: a) <+: u :=
          prefix_of_prefix_length_le hwhole ((prefix_append u v).trans h) hge
        exact hlast _ (List.getLast?_eq_some_getLast (cons_ne_nil c a))
          (hin.subset (getLast_mem _))
    have ih := cut?_parted hu b (a := a) (fun h => hlacks (h.trans (suffix_cons c a).isInfix))
      fun d hd => hlast d (by cases a <;> simp_all)
    rw [cons_append, cut?, hnone, ih]
    rfl

/-- A pattern with one more character first occurs where the pattern does, if it occurs there. -/
theorem cut?_concat {p : List Char} {c : Char} : ∀ {s a b : List Char},
    cut? p s = some (a, c :: b) → cut? (p ++ [c]) s = some (a, b)
  | [], a, b, h => by cases p <;> simp [cut?] at h
  | d :: s, a, b, h => by
    rw [cut?] at h
    cases hafter : after? p (d :: s) with
    | some rest =>
      rw [hafter] at h
      obtain ⟨rfl, rfl⟩ := Prod.mk.inj (Option.some.inj h)
      rw [eq_append_of_after? hafter, append_cons p c b]
      exact cut?_self (append_ne_nil_of_right_ne_nil p (cons_ne_nil c [])) b
    | none =>
      rw [hafter] at h
      obtain ⟨⟨a', b'⟩, hcut, hab⟩ := Option.map_eq_some_iff.mp h
      obtain ⟨rfl, rfl⟩ := Prod.mk.inj hab
      have hnone : after? (p ++ [c]) (d :: s) = none := by
        rw [after?_eq_none_iff] at hafter ⊢
        exact fun h => hafter ((prefix_append p [c]).trans h)
      rw [cut?, hnone, cut?_concat hcut]
      rfl

/-! ## Replacing -/

theorem replaceFrom_skip (p r : List Char) : ∀ x s : List Char,
    replaceFrom p r x.length (x ++ s) = replaceFrom p r 0 s
  | [], _ => rfl
  | _ :: x, s => by rw [length_cons, cons_append, replaceFrom, replaceFrom_skip p r x s]

theorem replaceFrom_of_not_infix {p : List Char} (r : List Char) : ∀ {s : List Char}, ¬ p <:+: s →
    replaceFrom p r 0 s = s
  | [], _ => by rw [replaceFrom]
  | c :: s, h => by
    rw [infix_cons_iff, not_or, ← after?_eq_none_iff] at h
    rw [replaceFrom, h.1, replaceFrom_of_not_infix r h.2]

/-- **Replacing goes on after the first occurrence.** -/
theorem replaceFrom_of_cut? {p : List Char} (hp : p ≠ []) (r : List Char) : ∀ {s a b : List Char},
    cut? p s = some (a, b) → replaceFrom p r 0 s = a ++ r ++ replaceFrom p r 0 b
  | [], a, b, h => by cases p <;> simp_all [cut?]
  | c :: s, a, b, h => by
    rw [cut?] at h
    rw [replaceFrom]
    cases hafter : after? p (c :: s) with
    | some rest =>
      rw [hafter] at h
      obtain ⟨rfl, rfl⟩ := Prod.mk.inj (Option.some.inj h)
      obtain ⟨d, q, rfl⟩ := exists_cons_of_ne_nil hp
      have hs : s = q ++ rest := (List.cons.inj (eq_append_of_after? hafter)).2
      rw [hs, nil_append, length_cons, Nat.add_sub_cancel, replaceFrom_skip]
    | none =>
      rw [hafter] at h
      obtain ⟨⟨a', b'⟩, hcut, hab⟩ := Option.map_eq_some_iff.mp h
      obtain ⟨rfl, rfl⟩ := Prod.mk.inj hab
      rw [replaceFrom_of_cut? hp r hcut]
      rfl

/-! ## Patterns, marks and lines -/

/-- An occurrence of a pattern without the character `c` lies on one side of it. -/
theorem infix_of_infix_append_cons {p a b : List Char} {c : Char} (hp : c ∉ p)
    (h : p <:+: a ++ c :: b) : p <:+: a ∨ p <:+: b := by
  induction a with
  | nil =>
    rcases infix_cons_iff.mp h with h | h
    · cases p with
      | nil => exact .inl infix_rfl
      | cons d p =>
        rw [cons_prefix_cons] at h
        exact absurd (h.1 ▸ mem_cons_self) hp
    · exact .inr h
  | cons d a ih =>
    rcases infix_cons_iff.mp h with h | h
    · left
      refine (prefix_of_prefix_length_le h (prefix_append (d :: a) (c :: b)) ?_).isInfix
      by_contra hlength
      -- A longer pattern would hold the character itself.
      have hstart : (d :: a) ++ [c] <+: (d :: a) ++ c :: b :=
        (prefix_append_right_inj _).mpr (prefix_append [c] b)
      have hin := prefix_of_prefix_length_le hstart h (by
        rw [length_append, length_singleton]
        omega)
      exact hp (hin.subset (by simp))
    · exact (ih h).imp_left fun h => h.trans (suffix_cons d a).isInfix

/-- A pattern that ends in a mark occurs at the first mark or after it. -/
theorem infix_of_infix_mark {q x y : List Char} {c : Char} (hx : c ∉ x) (hq : c ∉ q)
    (h : q ++ [c] <:+: x ++ c :: y) : q <:+ x ∨ q ++ [c] <:+: y := by
  obtain ⟨s, t, hst⟩ := h
  have heq : x ++ c :: y = (s ++ q) ++ c :: t := by simpa using hst.symm
  rcases append_eq_append_iff.mp heq with ⟨z, hz, hy⟩ | ⟨z, hz, ht⟩
  · cases z with
    | nil => exact .inl ⟨s, by simpa using hz⟩
    | cons d z =>
      obtain ⟨rfl, rfl⟩ := List.cons.inj hy
      -- The mark before `z` is not in `q`, which is therefore at the end of `z`.
      have hmark : c :: z <:+ s ++ q := ⟨x, hz.symm⟩
      have hlength : q.length ≤ z.length := by
        by_contra hlt
        have hin := suffix_of_suffix_length_le hmark (suffix_append s q) (by simp; omega)
        exact hq (hin.subset mem_cons_self)
      obtain ⟨w, hw⟩ := suffix_of_suffix_length_le (suffix_append s q)
        ((suffix_cons c z).trans hmark) hlength
      exact .inr ⟨w, t, by rw [← hw]; simp⟩
  · cases z with
    | nil => exact .inl ⟨s, by simpa using hz.symm⟩
    | cons d z =>
      obtain ⟨rfl, -⟩ := List.cons.inj ht
      exact absurd (by rw [hz]; simp) hx

theorem not_mem_intercalate {c : Char} {sep : List Char} (hsep : c ∉ sep) :
    ∀ {xs : List (List Char)}, (∀ x ∈ xs, c ∉ x) → c ∉ sep.intercalate xs
  | [], _ => by simp
  | [x], h => by simpa using h
  | x :: y :: xs, h => by
    obtain ⟨hx, hxs⟩ := forall_mem_cons.mp h
    rw [intercalate_cons_cons, mem_append, mem_append, not_or, not_or]
    exact ⟨⟨hx, hsep⟩, not_mem_intercalate hsep hxs⟩

/-- **Whole lines without an occurrence** of `p`. -/
structure LinesLack (p s : List Char) : Prop where
  mark : '\n' ∉ p
  whole : s = [] ∨ ∃ t, s = t ++ ['\n']
  lacks : ¬ p <:+: s

namespace LinesLack

variable {p s t : List Char}

theorem line (hp : '\n' ∉ p) (hne : p ≠ []) (h : ¬ p <:+: s) : LinesLack p (s ++ ['\n']) where
  mark := hp
  whole := .inr ⟨s, rfl⟩
  lacks hin := by
    rcases infix_of_infix_append_cons hp hin with hin | hin
    · exact h hin
    · exact hne (infix_nil.mp hin)

theorem nil (hp : '\n' ∉ p) (hne : p ≠ []) : LinesLack p [] := ⟨hp, .inl rfl, fun h => hne (infix_nil.mp h)⟩

theorem eq_newline (h : LinesLack p s) {c : Char} (hc : c ∈ s.getLast?) : c = '\n' := by
  rcases h.whole with rfl | ⟨t, rfl⟩
  · cases hc
  · rw [List.getLast?_concat] at hc
    exact (Option.some.inj hc).symm

/-- Whole lines go before any text. -/
theorem not_infix_append (h : LinesLack p s) (ht : ¬ p <:+: t) : ¬ p <:+: s ++ t := by
  rcases h.whole with rfl | ⟨s', rfl⟩
  · exact ht
  · intro hin
    rw [append_assoc] at hin
    rcases infix_of_infix_append_cons h.mark hin with hin | hin
    · exact h.lacks (hin.trans (prefix_append _ _).isInfix)
    · exact ht hin

theorem append (h : LinesLack p s) (h' : LinesLack p t) : LinesLack p (s ++ t) where
  mark := h.mark
  whole := by
    rcases h'.whole with rfl | ⟨t', rfl⟩
    · simpa using h.whole
    · exact .inr ⟨s ++ t', by simp⟩
  lacks := h.not_infix_append h'.lacks

theorem flatMap {α : Type} {f : α → List Char} (hp : '\n' ∉ p) (hne : p ≠ []) : ∀ {xs : List α},
    (∀ x ∈ xs, LinesLack p (f x)) → LinesLack p (xs.flatMap f)
  | [], _ => nil hp hne
  | x :: xs, h => by
    obtain ⟨hx, hxs⟩ := forall_mem_cons.mp h
    exact hx.append (flatMap hp hne hxs)

end LinesLack

/-! ## The ends of a text -/

theorem startsWith_append (p s : String) : startsWith (p ++ s) p = true := by
  rw [startsWith, String.toList_append, after?_append]
  rfl

theorem startsWith_iff {s p : String} : startsWith s p = true ↔ p.toList <+: s.toList := by
  rw [startsWith, Option.isSome_iff_ne_none, ne_eq, after?_eq_none_iff, not_not]

theorem endsWith_append (s p : String) : endsWith (s ++ p) p = true := by
  rw [endsWith, String.toList_append, reverse_append, after?_append]
  rfl

theorem dropStart_append (p s : String) : dropStart (p ++ s) p = s := by
  rw [dropStart, String.toList_append, after?_append]
  exact String.ofList_toList

theorem dropEnd_append (s p : String) : dropEnd (s ++ p) p = s := by
  rw [dropEnd, String.toList_append, reverse_append, after?_append]
  exact (congrArg String.ofList (reverse_reverse _)).trans String.ofList_toList

/-- A text is without its end, or had none. -/
theorem dropEnd_cases (s p : String) : dropEnd s p = s ∨ s = dropEnd s p ++ p := by
  rw [dropEnd]
  split
  · next rest h =>
    refine .inr (String.toList_inj.mp ?_)
    have hrev := eq_append_of_after? h
    rw [String.toList_append, String.toList_ofList, ← reverse_inj, hrev, reverse_append,
      reverse_reverse]
  · exact .inl rfl

section

variable {s : List Char} (h : ∀ c ∈ s, c ∉ blanks.flatten)
include h

theorem find?_blanks_eq_none {f : List Char → List Char} (hf : ∀ b, (f b).Perm b) :
    blanks.find? (fun b => (f b).isPrefixOf s) = none := by
  refine List.find?_eq_none.mpr fun b hb hstarts => ?_
  have hne : ∀ b ∈ blanks, b ≠ [] := by decide
  obtain ⟨c, hc⟩ := exists_mem_of_ne_nil b (hne b hb)
  have hsub := ( isPrefixOf_iff_prefix.mp hstarts).subset
  exact h c (hsub ((hf b).mem_iff.mpr hc)) (mem_flatten.mpr ⟨b, hb, hc⟩)

theorem blankLength_eq_zero : blankLength s = 0 := by
  rw [blankLength, find?_blanks_eq_none h fun b => .refl b]

theorem blankLengthRev_eq_zero : blankLengthRev s = 0 := by
  rw [blankLengthRev, find?_blanks_eq_none h reverse_perm]

/-- A text without white space has none at its ends. -/
theorem trimChars_of_not_mem : trimChars s = s := by
  have hfront : dropBlanks 0 s = s := by
    cases s with
    | nil => rfl
    | cons c s => rw [dropBlanks, blankLength_eq_zero h]
  have hback : dropBlanksRev 0 s.reverse = s.reverse := by
    have hrev : blankLengthRev s.reverse = 0 :=
      blankLengthRev_eq_zero fun c hc => h c (mem_reverse.mp hc)
    cases hs : s.reverse with
    | nil => rfl
    | cons c t =>
      rw [hs] at hrev
      rw [dropBlanksRev, hrev]
  rw [trimChars, hfront, hback, reverse_reverse]

end

end Relspec.Text
