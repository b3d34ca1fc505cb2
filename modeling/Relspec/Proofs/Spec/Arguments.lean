import Mathlib.Data.List.Basic
import Mathlib.Data.List.Sublists
import Relspec.Proofs.Text.Search
import Relspec.Spec.Query

/-!
# Proofs/Spec/Arguments — argument lists taken apart and put together

An argument list is parted at the commas outside of brackets.  Every argument but the last therefore closes
the brackets that it opens, so that each argument starts at depth zero: leaving some out joins no two of the
others and parts none.

* `Lacks` — a text without a comma outside of brackets, `exists_outer_comma` — the first such comma;
* `Parted`, `pieces_parted`, `pieces_intercalate` — the pieces of a list, and lists that are their own pieces;
* `splitArgs_lossless` — splitting, leaving out and joining.
-/

namespace Relspec.Spec

open List

/-! ## Commas outside of brackets -/

/-- **The bracket depth at the end of a text**: the brackets that open, less those that close. -/
def depth (s : List Char) : Int :=
  (s.countP fun c => c == '[' || c == '(') - (s.countP fun c => c == ']' || c == ')')

/-- A text that starts at a depth has no comma at depth zero. -/
def Lacks (d : Int) (s : List Char) : Prop := ∀ l r, s = l ++ ',' :: r → d + depth l ≠ 0

variable {d : Int} {c : Char} {p s t : List Char} {ps qs : List (List Char)}

theorem depth_cons (d : Int) (c : Char) (s : List Char) : d + depth (c :: s) = deepen d c + depth s := by
  grind [depth, deepen]

theorem lacks_cons_iff : Lacks d (c :: s) ↔ ¬ (c = ',' ∧ d = 0) ∧ Lacks (deepen d c) s := by
  constructor
  · intro h
    refine ⟨fun ⟨hc, hd⟩ => h [] s (by rw [hc]; rfl) (by rw [hd]; rfl), fun l r hs => ?_⟩
    rw [← depth_cons]
    exact h (c :: l) r (by rw [hs]; rfl)
  · rintro ⟨hne, h⟩ (_ | ⟨x, l⟩) r hs
    · obtain ⟨rfl, rfl⟩ := List.cons.inj hs
      exact fun hd => hne ⟨rfl, by simpa [depth] using hd⟩
    · obtain ⟨rfl, rfl⟩ := List.cons.inj hs
      rw [depth_cons]
      exact h l r rfl

/-- **The first comma outside of brackets**, if there is one. -/
theorem exists_outer_comma : ∀ (d : Int) (s : List Char),
    Lacks d s ∨ ∃ p t, s = p ++ ',' :: t ∧ Lacks d p ∧ d + depth p = 0
  | _, [] => .inl fun l r h => absurd h (by simp)
  | d, c :: s => by
    by_cases hcomma : c = ',' ∧ d = 0
    · exact .inr ⟨[], s, by rw [hcomma.1]; rfl, fun l r h => absurd h (by simp), by rw [hcomma.2]; rfl⟩
    · rcases exists_outer_comma (deepen d c) s with h | ⟨p, t, rfl, hp, hdepth⟩
      · exact .inl (lacks_cons_iff.mpr ⟨hcomma, h⟩)
      · exact .inr ⟨c :: p, t, rfl, lacks_cons_iff.mpr ⟨hcomma, hp⟩, (depth_cons d c p).trans hdepth⟩

/-! ## Pieces -/

theorem pieces_of_lacks (h : Lacks d s) : pieces d s = [s] := by
  induction s generalizing d with
  | nil => rfl
  | cons c s ih =>
    obtain ⟨hcomma, hs⟩ := lacks_cons_iff.mp h
    rw [pieces, if_neg hcomma, ih hs]

theorem pieces_append (h : Lacks d p) (hdepth : d + depth p = 0) (t : List Char) :
    pieces d (p ++ ',' :: t) = p :: pieces 0 t := by
  induction p generalizing d with
  | nil =>
    have hd : d = 0 := by simpa [depth] using hdepth
    rw [nil_append, pieces, if_pos ⟨rfl, hd⟩, hd]
  | cons c p ih =>
    obtain ⟨hcomma, hp⟩ := lacks_cons_iff.mp h
    rw [depth_cons] at hdepth
    rw [cons_append, pieces, if_neg hcomma, ih hp hdepth]

/-- **Pieces of an argument list**: no piece has a comma outside of its brackets, and every piece but the
last closes the brackets that it opens. -/
structure Parted (ps : List (List Char)) : Prop where
  lacks : ∀ p ∈ ps, Lacks 0 p
  closed : ∀ p ∈ ps.dropLast, depth p = 0

theorem Parted.sublist (h : Parted ps) (hsub : qs.Sublist ps) : Parted qs where
  lacks p hp := h.lacks p (hsub.subset hp)
  closed p hp := by
    have hlast := hsub.reverse.tail
    rw [tail_reverse, tail_reverse] at hlast
    exact h.closed p (mem_reverse.mp (hlast.subset (mem_reverse.mpr hp)))

/-- Pieces, joined with commas, come apart again. -/
theorem pieces_intercalate : ∀ {ps : List (List Char)}, Parted ps → ps ≠ [] →
    pieces 0 ([','].intercalate ps) = ps
  | [], _, hne => absurd rfl hne
  | [p], h, _ => by
    rw [intercalate_singleton]
    exact pieces_of_lacks (h.lacks p mem_cons_self)
  | p :: q :: ps, h, _ => by
    have hp : 0 + depth p = 0 := by rw [h.closed p mem_cons_self, Int.add_zero]
    rw [intercalate_cons_cons, append_assoc, singleton_append, pieces_append (h.lacks p mem_cons_self) hp,
      pieces_intercalate (h.sublist (sublist_cons_self p _)) (cons_ne_nil q ps)]

/-- **The pieces of an argument list**, which they make up again. -/
theorem pieces_parted (s : List Char) :
    Parted (pieces 0 s) ∧ pieces 0 s ≠ [] ∧ [','].intercalate (pieces 0 s) = s := by
  rcases exists_outer_comma 0 s with h | ⟨p, t, rfl, hp, hdepth⟩
  · rw [pieces_of_lacks h]
    exact ⟨⟨forall_mem_singleton.mpr h, nofun⟩, cons_ne_nil s [], intercalate_singleton ..⟩
  · obtain ⟨hparted, hne, hjoin⟩ := pieces_parted t
    rw [pieces_append hp hdepth]
    refine ⟨⟨forall_mem_cons.mpr ⟨hp, hparted.lacks⟩, ?_⟩, cons_ne_nil p _, ?_⟩
    · rw [dropLast_cons_of_ne_nil hne]
      exact forall_mem_cons.mpr ⟨by simpa using hdepth, hparted.closed⟩
    · obtain ⟨q, qs, hpieces⟩ := exists_cons_of_ne_nil hne
      rw [hpieces, intercalate_cons_cons, ← hpieces, hjoin, append_assoc, singleton_append]
termination_by s.length

/-! ## Arguments -/

/-- A list that is not blank has its pieces as arguments. -/
theorem splitArgs_of_not_blank (h : isBlankPiece s = false) : splitArgs s = pieces 0 s := by
  obtain ⟨-, -, hjoin⟩ := pieces_parted s
  unfold splitArgs
  split
  · next p hp =>
    rw [hp, intercalate_singleton] at hjoin
    rw [hp, hjoin, h, if_neg Bool.false_ne_true]
  · rfl

theorem splitArgs_parted (s : List Char) : Parted (splitArgs s) := by
  refine (pieces_parted s).1.sublist ?_
  unfold splitArgs
  split
  · next p hp =>
    rw [hp]
    split
    · exact nil_sublist [p]
    · exact Sublist.refl [p]
  · exact Sublist.refl _

/-- **Pieces that are not blank are the arguments of the list that they make up.** -/
theorem splitArgs_intercalate (h : Parted ps) (hblank : ∀ p ∈ ps, isBlankPiece p = false) :
    splitArgs ([','].intercalate ps) = ps := by
  by_cases hne : ps = []
  · rw [hne]
    rfl
  · rw [splitArgs, pieces_intercalate h hne]
    split
    · next p => rw [hblank p mem_cons_self, if_neg Bool.false_ne_true]
    · rfl

theorem keeps_iff (p : List Char) : (!isThrow p && !isBlankPiece p) = true ↔
    Text.trimChars p ≠ [] ∧ ¬ "QF.throw_".toList <+: (Text.trimChars p).dropWhile (· == '(') := by
  have hname : held "throw_" = "QF.throw_" := rfl
  rw [Bool.and_eq_true, Bool.not_eq_true', Bool.not_eq_true', isThrow, isBlankPiece, hname, and_comm,
    Option.isSome_eq_false_iff, Option.isNone_iff_eq_none, Text.after?_eq_none_iff, isEmpty_eq_false_iff]

/-- **Splitting an argument list loses nothing.**  The arguments of a list that is not blank make it up
again; none has a comma at depth zero, and all but the last end at depth zero.  The arguments that are
kept are those that are neither blank nor a version of the exception, in their order, and they are the
arguments of the list that they make up. -/
theorem splitArgs_lossless (s : List Char) :
    (Text.trimChars s ≠ [] → [','].intercalate (splitArgs s) = s ∧
      (∀ p ∈ splitArgs s, ∀ l r, p = l ++ ',' :: r → depth l ≠ 0) ∧
      ∀ p ∈ (splitArgs s).dropLast, depth p = 0) ∧
    splitArgs ([','].intercalate (withoutThrows (splitArgs s))) = withoutThrows (splitArgs s) ∧
    ∃ keep : List Char → Bool, withoutThrows (splitArgs s) = (splitArgs s).filter keep ∧
      ∀ p, keep p = true ↔ Text.trimChars p ≠ [] ∧
        ¬ "QF.throw_".toList <+: (Text.trimChars p).dropWhile (· == '(') := by
  have hparted := splitArgs_parted s
  refine ⟨fun hs => ⟨?_, fun p hp l r hl => ?_, hparted.closed⟩, ?_, _, rfl, keeps_iff⟩
  · rw [splitArgs_of_not_blank (isEmpty_eq_false_iff.mpr hs)]
    exact (pieces_parted s).2.2
  · rw [← Int.zero_add (depth l)]
    exact hparted.lacks p hp l r hl
  · refine splitArgs_intercalate (hparted.sublist filter_sublist) fun p hp => ?_
    have hkeep := (keeps_iff p).mp (mem_filter.mp hp).2
    exact isEmpty_eq_false_iff.mpr hkeep.1

/-- Brackets that do not match lose nothing. -/
theorem splitArgs_lossless_unbalanced :
    Text.trimChars "QF.f[a,b],((QF.throw_0, ,)x],QF.y(".toList ≠ [] ∧
      [','].intercalate (splitArgs "QF.f[a,b],((QF.throw_0, ,)x],QF.y(".toList) =
        "QF.f[a,b],((QF.throw_0, ,)x],QF.y(".toList :=
  ⟨by decide, ((splitArgs_lossless _).1 (by decide)).1⟩

end Relspec.Spec
