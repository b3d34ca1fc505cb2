import Mathlib.Algebra.Group.Int.Defs
import Mathlib.Algebra.Group.Nat.Defs
import Relspec.Text.Number
import Relspec.Text.Search

/-!
# Proofs/Text/Number — numbers through their decimal digits

* `natural_toDigits` — the digits of a number read as the number;
* `Literal.read_repr`, `integer?_repr` — so do the texts of literals and of plain integers;
* `cutLast?_numbered` — the number at the end of a text.
-/

namespace Relspec.Text

open List

variable {c : Char} {n m : Nat}

/-! ## Digits -/

theorem digit?_of_isDigit (h : c.isDigit = true) :
    digit? c = some (c.toNat - '0'.toNat) ∧ c.toNat - '0'.toNat < 10 := by
  have hc : '0' ≤ c ∧ c ≤ '9' := by
    simpa [Char.isDigit, Char.le_def, UInt32.le_iff_toNat_le] using h
  have hle : c.toNat ≤ '9'.toNat := hc.2
  rw [digit?, if_pos hc]
  exact ⟨rfl, Nat.lt_of_le_of_lt (Nat.sub_le_sub_right hle _) (by decide)⟩

/-- Digits only add to what has been read. -/
theorem le_ofDigitChars : ∀ (cs : List Char) (acc : Nat), acc ≤ Nat.ofDigitChars 10 cs acc
  | [], acc => Nat.le_refl acc
  | c :: cs, acc => by
    have h := le_ofDigitChars cs (10 * acc + (c.toNat - '0'.toNat))
    rw [Nat.ofDigitChars_cons]
    omega

/-- **Digits read as their number**, as long as it fits. -/
theorem natural_of_isDigit : ∀ (cs : List Char) (acc : Nat), (∀ c ∈ cs, c.isDigit = true) →
    Nat.ofDigitChars 10 cs acc < 2 ^ 64 → natural 10 acc cs = .ok (Nat.ofDigitChars 10 cs acc)
  | [], acc, _, _ => rfl
  | c :: cs, acc, hd, hn => by
    obtain ⟨hdigit, hlt⟩ := digit?_of_isDigit (hd c mem_cons_self)
    rw [Nat.ofDigitChars_cons] at hn ⊢
    have hle := le_ofDigitChars cs (10 * acc + (c.toNat - '0'.toNat))
    rw [natural, hdigit]
    simp only
    rw [if_neg (by omega), if_neg (by rw [Nat.pow_eq]; omega), Nat.mul_comm acc 10]
    exact natural_of_isDigit cs _ (fun c' h => hd c' (mem_cons_of_mem _ h)) hn

/-- Digits whose number does not fit. -/
theorem natural_of_not_fits : ∀ (cs : List Char) (acc : Nat), (∀ c ∈ cs, c.isDigit = true) →
    acc < 2 ^ 64 → 2 ^ 64 ≤ Nat.ofDigitChars 10 cs acc → natural 10 acc cs = .error .outOfRange
  | [], acc, _, hacc, hn => absurd hacc (Nat.not_lt.mpr hn)
  | c :: cs, acc, hd, hacc, hn => by
    obtain ⟨hdigit, hlt⟩ := digit?_of_isDigit (hd c mem_cons_self)
    rw [Nat.ofDigitChars_cons, Nat.mul_comm] at hn
    rw [natural, hdigit]
    simp only
    rw [if_neg (by omega)]
    split
    · rfl
    · next hfits =>
      rw [Nat.pow_eq, Nat.not_le] at hfits
      exact natural_of_not_fits cs _ (fun c' h => hd c' (mem_cons_of_mem _ h)) hfits hn

theorem isDigit_of_mem_toDigits (h : c ∈ Nat.toDigits 10 n) : c.isDigit = true :=
  Nat.isDigit_of_mem_toDigits (by decide) (by decide) h

/-- Numbers with the same digits are equal. -/
theorem toDigits_inj (h : Nat.toDigits 10 n = Nat.toDigits 10 m) : n = m := by
  rw [← @Nat.ofDigitChars_ten_toDigits n, h, Nat.ofDigitChars_ten_toDigits]

/-- A stem and a number show the number. -/
theorem append_toString_inj (stem : String) (h : stem ++ toString n = stem ++ toString m) : n = m :=
  toDigits_inj (by simpa [Nat.toString_eq_repr] using congrArg String.toList h)

/-- A number ends where a mark follows. -/
theorem toDigits_mark_inj {a b : List Char}
    (h : Nat.toDigits 10 n ++ '_' :: a = Nat.toDigits 10 m ++ '_' :: b) : n = m ∧ a = b := by
  have hdigits : ∀ k r, (Nat.toDigits 10 k ++ '_' :: r).takeWhile Char.isDigit = Nat.toDigits 10 k :=
    fun k r => by
      rw [takeWhile_append_of_pos fun c => isDigit_of_mem_toDigits,
        takeWhile_cons_of_neg (by decide), append_nil]
  have hsame := congrArg (List.takeWhile Char.isDigit) h
  rw [hdigits, hdigits] at hsame
  obtain rfl := toDigits_inj hsame
  exact ⟨rfl, (List.cons.inj (append_cancel_left h)).2⟩

/-- **The digits of a number read as the number.** -/
theorem natural_toDigits (h : n < 2 ^ 64) : natural 10 0 (Nat.toDigits 10 n) = .ok n := by
  have hn : Nat.ofDigitChars 10 (Nat.toDigits 10 n) 0 = n := Nat.ofDigitChars_ten_toDigits
  rw [natural_of_isDigit _ 0 (fun c => isDigit_of_mem_toDigits) (by rwa [hn]), hn]

/-- The first digit of a number is no zero, unless the number is. -/
theorem exists_toDigits_eq_cons (n : Nat) :
    ∃ c cs, Nat.toDigits 10 n = c :: cs ∧ c.isDigit = true ∧ (0 < n → c ≠ '0') := by
  obtain ⟨c, cs, h⟩ := exists_cons_of_ne_nil (@Nat.toDigits_ne_nil n 10)
  refine ⟨c, cs, h, isDigit_of_mem_toDigits (h ▸ mem_cons_self), ?_⟩
  induction n using Nat.strongRecOn generalizing c cs with
  | ind n ih =>
    intro hpos
    rw [Nat.toDigits_eq_if (by decide)] at h
    split at h
    · obtain ⟨rfl, -⟩ := List.cons.inj h
      exact fun hzero => absurd (Nat.digitChar_eq_zero.mp hzero) (by omega)
    · obtain ⟨d, ds, hd⟩ := exists_cons_of_ne_nil (@Nat.toDigits_ne_nil (n / 10) 10)
      rw [hd, cons_append] at h
      obtain ⟨rfl, -⟩ := List.cons.inj h
      exact ih (n / 10) (by omega) d ds hd (by omega)

/-! ## Numbers as texts -/

/-- The text of a number is made of digits, and of a minus sign. -/
theorem not_mem_toString (hdigit : c.isDigit = false) (hminus : c ≠ '-') (i : Int) :
    c ∉ (toString i).toList := by
  have hnatural : ∀ n : Nat, c ∉ (toString n).toList := by
    intro n hc
    cases (isDigit_of_mem_toDigits (n := n) (Nat.toList_repr ▸ hc)).symm.trans hdigit
  cases i with
  | ofNat n => exact hnatural n
  | negSucc n =>
    have htext : (toString (Int.negSucc n)).toList = '-' :: (toString (n + 1)).toList :=
      String.toList_append
    rw [htext, mem_cons, not_or]
    exact ⟨hminus, hnatural (n + 1)⟩

/-- **The text of a number reads as the literal.** -/
theorem Literal.read_repr (h : n < 2 ^ 63) : Literal.read (Nat.repr n) = .exact (Int64.ofNat n) := by
  obtain ⟨c, cs, hcs, -, hzero⟩ := exists_toDigits_eq_cons n
  rw [read, Nat.toList_repr]
  rcases Nat.eq_zero_or_pos n with rfl | hpos
  · rw [Nat.toDigits_zero]
    rfl
  · have hbase : baseOf (Nat.toDigits 10 n) = (10, Nat.toDigits 10 n) := by
      rw [hcs]
      unfold baseOf
      split
      · rename_i heq
        exact absurd (List.cons.inj heq).1 (hzero hpos)
      · rename_i heq
        exact absurd (List.cons.inj heq).1 (hzero hpos)
      · rfl
    split
    · rename_i hnil
      exact absurd hnil Nat.toDigits_ne_nil
    · rw [hbase]
      simp only
      rw [natural_toDigits (by omega)]
      exact if_pos h

/-- The digits of a number have no sign before them. -/
theorem signOf_toDigits (n : Nat) : signOf (Nat.toDigits 10 n) = (false, Nat.toDigits 10 n) := by
  obtain ⟨c, cs, hcs, hdigit, -⟩ := exists_toDigits_eq_cons n
  rw [hcs]
  unfold signOf
  split
  · rename_i heq
    obtain ⟨rfl, -⟩ := List.cons.inj heq
    exact absurd hdigit (by decide)
  · rename_i heq
    obtain ⟨rfl, -⟩ := List.cons.inj heq
    exact absurd hdigit (by decide)
  · rfl

theorem integer?_repr_eq (n : Nat) : integer? (Nat.repr n) =
    ((natural 10 0 (Nat.toDigits 10 n)).bind (signed false)).toOption := by
  obtain ⟨c, cs, hcs, -⟩ := exists_toDigits_eq_cons n
  rw [integer?, Nat.toList_repr, signOf_toDigits, hcs]

/-- **The text of a number reads as the integer.** -/
theorem integer?_repr (h : n < 2 ^ 63) : integer? (Nat.repr n) = some (n : Int) := by
  have hsigned : signed false n = .ok n := by
    rw [signed, if_neg Bool.false_ne_true]
    exact if_pos h
  rw [integer?_repr_eq, natural_toDigits (by omega)]
  simp only [Except.bind, hsigned, Except.toOption]

/-- The text of a number of more than 63 bits reads as no integer. -/
theorem integer?_repr_of_le (h : 2 ^ 63 ≤ n) : integer? (Nat.repr n) = none := by
  rw [integer?_repr_eq]
  rcases Nat.lt_or_ge n (2 ^ 64) with hlt | hge
  · have hsigned : signed false n = .error .outOfRange := by
      rw [signed, if_neg Bool.false_ne_true]
      exact if_neg (Nat.not_lt.mpr h)
    rw [natural_toDigits hlt]
    simp only [Except.bind, hsigned, Except.toOption]
  · rw [natural_of_not_fits _ 0 (fun c => isDigit_of_mem_toDigits) (by decide)
      (by rwa [Nat.ofDigitChars_ten_toDigits])]
    rfl

/-- **The number at the end of a text** is what stands after the last underscore. -/
theorem cutLast?_numbered (base : String) (n : Nat) :
    cutLast? '_' (base ++ "_" ++ Nat.repr n) = some (base, Nat.repr n) := by
  have hreverse : (base ++ "_" ++ Nat.repr n).toList.reverse =
      (Nat.repr n).toList.reverse ++ '_' :: base.toList.reverse := by simp
  have hdigits : '_' ∉ (Nat.repr n).toList.reverse := by
    rw [mem_reverse, Nat.toList_repr]
    exact Nat.underscore_not_in_toDigits
  rw [cutLast?, hreverse, cut?_append _ hdigits]
  simp only [reverse_reverse, String.ofList_toList]

end Relspec.Text
