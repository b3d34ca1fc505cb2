import Mathlib.Data.List.Infix
import Mathlib.Order.Bounds.Basic
import Relspec.Diagnostic.EditDistance

/-!
# Proofs/Diagnostic/EditDistance — the rows compute the least number of edits

`distance` follows one alignment of two texts from the front, and a row lists it over the beginnings of a
text, read backwards.  A script of edits may touch any place in any order, so it may be read backwards too, and
the lower bound asks how far one edit can move `distance`, wherever it is made.

* `distances_eq` — the rows hold `distance`;
* `edits_distance` — there are that many edits from one text to the other;
* `distance_le_of_edit`, `distance_le_of_edits` — and no script has fewer.
-/

namespace Relspec.Diagnostic

open List

/-! ## Scripts of edits -/

/-- **One edit of a text**: a character is put in, left out or replaced.  The characters that are put are
those of `A`. -/
inductive Edit (A : Char → Prop) : List Char → List Char → Prop
  | insert (front back : List Char) {c : Char} (hc : A c) : Edit A (front ++ back) (front ++ c :: back)
  | remove (front back : List Char) (c : Char) : Edit A (front ++ c :: back) (front ++ back)
  | replace (front back : List Char) (c : Char) {d : Char} (hd : A d) :
    Edit A (front ++ c :: back) (front ++ d :: back)

/-- **A script of `n` edits**, one after the other. -/
inductive Edits (A : Char → Prop) : Nat → List Char → List Char → Prop
  | done (a : List Char) : Edits A 0 a a
  | step {n : Nat} {a b c : List Char} (first : Edit A a b) (rest : Edits A n b c) : Edits A (n + 1) a c

variable {A : Char → Prop} {a b c : List Char} {m n : Nat}

theorem Edit.cons (x : Char) : Edit A a b → Edit A (x :: a) (x :: b)
  | .insert front back hc => .insert (x :: front) back hc
  | .remove front back c => .remove (x :: front) back c
  | .replace front back c hd => .replace (x :: front) back c hd

theorem Edits.cons (x : Char) (h : Edits A n a b) : Edits A n (x :: a) (x :: b) := by
  induction h with
  | done a => exact .done (x :: a)
  | step first _ ih => exact .step (first.cons x) ih

theorem Edits.eq_of_zero (h : Edits A 0 a b) : a = b := by
  cases h
  rfl

theorem Edits.trans (h : Edits A m a b) (h' : Edits A n b c) : Edits A (m + n) a c := by
  induction h with
  | done a => exact (Nat.zero_add n).symm ▸ h'
  | @step m _ _ _ first _ ih => exact Nat.succ_add m n ▸ .step first (ih h')

/-- A script of edits, read backwards. -/
theorem Edits.reverse (h : Edits A n a b) : Edits A n a.reverse b.reverse := by
  have hedit : ∀ {a b : List Char}, Edit A a b → Edit A a.reverse b.reverse := fun h => by
    cases h with
    | insert front back hc => simpa using Edit.insert back.reverse front.reverse hc
    | remove front back c => simpa using Edit.remove back.reverse front.reverse c
    | replace front back c hd => simpa using Edit.replace back.reverse front.reverse c hd
  induction h with
  | done a => exact .done a.reverse
  | step first _ ih => exact .step (hedit first) ih

/-! ## The distance of two texts -/

/-- The distance of two texts by their first characters: one is left out, the other is put in, or one is
put for the other. -/
def distance : List Char → List Char → Nat
  | [], b => b.length
  | c :: a, [] => (c :: a).length
  | c :: a, d :: b =>
    min (min (distance a (d :: b) + 1) (distance (c :: a) b + 1)) (distance a b + if c = d then 0 else 1)
termination_by a b => a.length + b.length

@[simp] theorem distance_nil_left (b : List Char) : distance [] b = b.length := by rw [distance]

@[simp] theorem distance_nil_right (a : List Char) : distance a [] = a.length := by
  cases a with
  | nil => rw [distance]
  | cons c a => rw [distance]

theorem distance_cons_cons (c d : Char) (a b : List Char) :
    distance (c :: a) (d :: b) = min (min (distance a (d :: b) + 1) (distance (c :: a) b + 1))
      (distance a b + if c = d then 0 else 1) := by rw [distance]

/-- The distances of `a` to `u` and to what it becomes with the characters of a text put before it. -/
def row (a u : List Char) : List Char → List Nat
  | [] => [distance a u]
  | d :: b => distance a u :: row a (d :: u) b

theorem row_eq_cons (a u b : List Char) : row a u b = distance a u :: (row a u b).tail := by
  cases b <;> rfl

theorem restOfRow_eq (c : Char) (a u b : List Char) :
    restOfRow c (distance (c :: a) u) (distance a u) b (row a u b).tail = (row (c :: a) u b).tail := by
  induction b generalizing u with
  | nil => rfl
  | cons d b ih =>
    rw [row, row, tail_cons, tail_cons, row_eq_cons, restOfRow, ← distance_cons_cons, ih, ← row_eq_cons]

theorem range'_length (u b : List Char) : range' u.length (b.length + 1) = row [] u b := by
  induction b generalizing u with
  | nil => simp [row]
  | cons d b ih => rw [row, ← ih, distance_nil_left, length_cons, length_cons, range'_succ]

theorem getLast?_row (a u b : List Char) : (row a u b).getLast? = some (distance a (b.reverse ++ u)) := by
  induction b generalizing u with
  | nil => rfl
  | cons d b ih => simp [row, List.getLast?_cons, ih]

/-- **The rows hold the distances** to the beginnings of a text, read backwards. -/
theorem distances_eq (a b : List Char) : distances a b = row a.reverse [] b := by
  induction a using List.reverseRecOn with
  | nil => rw [distances, foldl_nil, range_eq_range', reverse_nil, ← range'_length, length_nil]
  | append_singleton a c ih =>
    have hnext : distances (a ++ [c]) b = nextRow b (distances a b) c := foldl_concat ..
    rw [hnext, ih, reverse_concat, row_eq_cons a.reverse, row_eq_cons (c :: a.reverse), nextRow, ← restOfRow_eq]
    simp

theorem editDistance_eq (a b : String) : editDistance a b = distance a.toList.reverse b.toList.reverse := by
  rw [editDistance, distances_eq, getLast?_row, append_nil, Option.getD_some]

/-! ## There are as many edits -/

theorem edits_of_length (hb : ∀ c ∈ b, A c) : Edits A b.length [] b := by
  induction b with
  | nil => exact .done []
  | cons d b ih =>
    obtain ⟨hd, hb⟩ := forall_mem_cons.mp hb
    exact .step (.insert [] [] hd) ((ih hb).cons d)

theorem edits_to_nil : ∀ a : List Char, Edits A a.length a []
  | [] => .done []
  | c :: a => .step (.remove [] a c) (edits_to_nil a)

/-- **As many edits as the distance lead from one text to the other**, and they put characters of the
second text only. -/
theorem edits_distance (hb : ∀ c ∈ b, A c) : Edits A (distance a b) a b := by
  fun_induction distance a b with
  | case1 b => exact edits_of_length hb
  | case2 c a => exact edits_to_nil (c :: a)
  | case3 c a d b ihremove ihinsert ihkeep =>
    obtain ⟨hd, htail⟩ := forall_mem_cons.mp hb
    refine min_rec' (Edits A · _ _) (min_rec' (Edits A · _ _) ?_ ?_) ?_
    · exact .step (.remove [] a c) (ihremove hb)
    · exact .step (.insert [] (c :: a) hd) ((ihinsert htail).cons d)
    · split
      · next heq => exact heq ▸ (ihkeep htail).cons c
      · exact .step (.replace [] a c hd) ((ihkeep htail).cons d)

/-! ## No script is shorter -/

theorem distance_cons_left_le (c : Char) (a b : List Char) : distance (c :: a) b ≤ distance a b + 1 := by
  cases b with
  | nil => simp
  | cons d b => grind [distance_cons_cons]

theorem distance_cons_right_le (d : Char) (a b : List Char) : distance a (d :: b) ≤ distance a b + 1 := by
  cases a with
  | nil => simp
  | cons c a => grind [distance_cons_cons]

theorem distance_le_cons_left (c : Char) (a b : List Char) : distance a b ≤ distance (c :: a) b + 1 := by
  induction b with
  | nil => simp [Nat.le_succ_of_le]
  | cons d b ih =>
    have hput := distance_cons_right_le d a b
    rw [distance_cons_cons]
    omega

theorem distance_replace_le (c d : Char) (a b : List Char) :
    distance (c :: a) b ≤ distance (d :: a) b + 1 := by
  induction b with
  | nil => simp
  | cons e b ih =>
    rw [distance_cons_cons c, distance_cons_cons d]
    split <;> omega

/-- The same first character of two texts leaves them as close as they were. -/
theorem distance_cons_le_of_le (x : Char) (h : ∀ c, distance a c ≤ distance b c + 1) (c : List Char) :
    distance (x :: a) c ≤ distance (x :: b) c + 1 := by
  induction c with
  | nil => simpa using h []
  | cons d c ih =>
    have hcons := h (d :: c)
    have htail := h c
    rw [distance_cons_cons, distance_cons_cons]
    omega

/-- **One edit moves the distance by one at most**, wherever it is made. -/
theorem distance_le_of_edit (h : Edit A a b) (c : List Char) : distance a c ≤ distance b c + 1 := by
  cases h with
  | insert front back =>
    induction front generalizing c with
    | nil => exact distance_le_cons_left ..
    | cons x front ih => exact distance_cons_le_of_le x ih c
  | remove front back =>
    induction front generalizing c with
    | nil => exact distance_cons_left_le ..
    | cons x front ih => exact distance_cons_le_of_le x ih c
  | replace front back =>
    induction front generalizing c with
    | nil => exact distance_replace_le ..
    | cons x front ih => exact distance_cons_le_of_le x ih c

theorem distance_self (a : List Char) : distance a a = 0 := by
  induction a with
  | nil => simp
  | cons c a ih => simp [distance_cons_cons, ih]

/-- **No script of edits is shorter than the distance.** -/
theorem distance_le_of_edits (h : Edits A n a b) : distance a b ≤ n := by
  induction h with
  | done a => exact (distance_self a).le
  | step first _ ih => exact (distance_le_of_edit first _).trans (Nat.succ_le_succ ih)

theorem distance_comm (a b : List Char) : distance a b = distance b a := by
  fun_induction distance a b with
  | case1 b => exact (distance_nil_right b).symm
  | case2 c a => exact (distance_nil_left _).symm
  | case3 c a d b ihremove ihinsert ihkeep =>
    rw [distance_cons_cons d c, ihremove, ihinsert, ihkeep, min_comm (distance (d :: b) a + 1)]
    simp only [eq_comm]

/-- **The edit distance is the least number of edits** from one text to the other, whatever characters may
be put besides those of the second text.  So it is a metric. -/
theorem editDistance_isLeast (a b : String) :
    (∀ A : Char → Prop, (∀ c ∈ b.toList, A c) →
      IsLeast {n | Edits A n a.toList b.toList} (editDistance a b)) ∧
    editDistance a b = editDistance b a ∧ (editDistance a b = 0 ↔ a = b) ∧
    ∀ c, editDistance a c ≤ editDistance a b + editDistance b c := by
  have hscript : ∀ {A : Char → Prop} (a b : String), (∀ c ∈ b.toList, A c) →
      Edits A (editDistance a b) a.toList b.toList := fun a b hb => by
    rw [editDistance_eq]
    simpa using (edits_distance (a := a.toList.reverse) (b := b.toList.reverse) (by simpa using hb)).reverse
  have hleast : ∀ {A : Char → Prop} {n : Nat} {a b : String}, Edits A n a.toList b.toList →
      editDistance a b ≤ n := fun h => editDistance_eq _ _ ▸ distance_le_of_edits h.reverse
  refine ⟨fun A hA => ⟨?_, fun n hn => ?_⟩, ?_, ⟨fun h => ?_, ?_⟩, fun c => ?_⟩
  · exact hscript a b hA
  · exact hleast hn
  · rw [editDistance_eq, editDistance_eq, distance_comm]
  · have hzero := hscript (A := fun _ => True) a b fun _ _ => trivial
    rw [h] at hzero
    exact String.toList_inj.mp hzero.eq_of_zero
  · rintro rfl
    rw [editDistance_eq, distance_self]
  · exact hleast (A := fun _ => True)
      ((hscript a b fun _ _ => trivial).trans (hscript b c fun _ _ => trivial))

/-- Three edits, and no fewer. -/
theorem editDistance_isLeast_kitten :
    IsLeast {n | Edits (·.toNat < 256) n "kitten".toList "sitting".toList} 3 :=
  (editDistance_isLeast "kitten" "sitting").1 (·.toNat < 256) (by simp)

end Relspec.Diagnostic
