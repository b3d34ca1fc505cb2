/-!
# Text/Search — occurrences in a text

Plain operations on texts as lists of characters: cutting at the first occurrence of a pattern,
replacing occurrences, splitting at a character.
-/

namespace Relspec.Text

/-- What follows `p` in `s`, when `s` starts with `p`. -/
def after? : List Char → List Char → Option (List Char)
  | [], s => some s
  | _ :: _, [] => none
  | p :: ps, c :: s => if p = c then after? ps s else none

/-- Whether `s` starts with `p`. -/
def startsWith (s p : String) : Bool := (after? p.toList s.toList).isSome

/-- Whether `s` ends with `p`. -/
def endsWith (s p : String) : Bool := (after? p.toList.reverse s.toList.reverse).isSome

/-- `s` without the leading `p`, or `s` itself when it does not start with `p`. -/
def dropStart (s p : String) : String :=
  match after? p.toList s.toList with
  | some rest => String.ofList rest
  | none => s

/-- `s` without the trailing `p`, or `s` itself when it does not end with `p`. -/
def dropEnd (s p : String) : String :=
  match after? p.toList.reverse s.toList.reverse with
  | some rest => String.ofList rest.reverse
  | none => s

/-- **The text before and after the first occurrence** of `p`. -/
def cut? (p : List Char) : List Char → Option (List Char × List Char)
  | [] => if p.isEmpty then some ([], []) else none
  | c :: s =>
    match after? p (c :: s) with
    | some rest => some ([], rest)
    | none => (cut? p s).map fun (a, b) => (c :: a, b)

theorem eq_append_of_after? : ∀ {p s rest : List Char}, after? p s = some rest → s = p ++ rest
  | [], s, rest, h => by simp [after?] at h; simp [h]
  | _ :: _, [], _, h => by simp [after?] at h
  | p :: ps, c :: s, rest, h => by
    by_cases hpc : p = c
    · simp [after?, hpc] at h
      simp [hpc, eq_append_of_after? h]
    · simp [after?, hpc] at h

theorem after?_append : ∀ p s : List Char, after? p (p ++ s) = some s
  | [], s => rfl
  | c :: p, s => by rw [List.cons_append, after?, if_pos rfl, after?_append p s]

theorem length_after? {p s rest : List Char} (h : after? p s = some rest) :
    rest.length + p.length = s.length := by
  simp [eq_append_of_after? h, Nat.add_comm]

theorem eq_append_of_cut? {p : List Char} : ∀ {s a b : List Char}, cut? p s = some (a, b) →
    s = a ++ p ++ b
  | [], a, b, h => by
    cases p <;> simp [cut?] at h
    simp [h]
  | c :: s, a, b, h => by
    unfold cut? at h
    split at h
    · rename_i rest hrest
      obtain ⟨rfl, rfl⟩ := Prod.mk.injEq .. ▸ Option.some.inj h
      simpa using eq_append_of_after? hrest
    · obtain ⟨⟨a', b'⟩, hcut, hab⟩ := Option.map_eq_some_iff.1 h
      obtain ⟨rfl, rfl⟩ := Prod.mk.injEq .. ▸ hab
      simp [eq_append_of_cut? hcut]

/-- The first occurrence of a character is after what does not hold it. -/
theorem cut?_append {c : Char} (b : List Char) : ∀ {a : List Char}, c ∉ a →
    cut? [c] (a ++ c :: b) = some (a, b)
  | [], _ => by simp [cut?, after?]
  | d :: a, h => by
    rw [List.mem_cons, not_or] at h
    rw [List.cons_append, cut?, after?, if_neg h.1, cut?_append b h.2]
    rfl

/-- The text before and after the last occurrence of the character `c`. -/
def cutLast? (c : Char) (s : String) : Option (String × String) :=
  match cut? [c] s.toList.reverse with
  | some (b, a) => some (String.ofList a.reverse, String.ofList b.reverse)
  | none => none

/-- Replaces occurrences of `p` by `r`, left to right; the first number counts the characters of an
occurrence still to be dropped. -/
def replaceFrom (p r : List Char) : Nat → List Char → List Char
  | _, [] => []
  | k + 1, _ :: s => replaceFrom p r k s
  | 0, c :: s =>
    match after? p (c :: s) with
    | some _ => r ++ replaceFrom p r (p.length - 1) s
    | none => c :: replaceFrom p r 0 s

/-- The pieces of a text between the occurrences of the character `c`. -/
def splitChars (c : Char) : List Char → List (List Char)
  | [] => [[]]
  | d :: s =>
    if d = c then [] :: splitChars c s
    else
      match splitChars c s with
      | [] => [[d]]
      | piece :: pieces => (d :: piece) :: pieces

/-- The pieces of a text between the occurrences of the character `c`. -/
def split (s : String) (c : Char) : List String := (splitChars c s.toList).map String.ofList

/-- The texts `parts` with `sep` between them. -/
def join (sep : String) (parts : List String) : String := sep.intercalate parts

/-- The text with every line but the first moved right by two blanks. -/
def nest (s : String) : String :=
  String.ofList (s.toList.flatMap fun c => if c = '\n' then ['\n', ' ', ' '] else [c])

end Relspec.Text
