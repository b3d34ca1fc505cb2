/-!
# Text/Bytes — byte text and Unicode text

Every text the library reads or writes is *byte text*: a `String` each of whose characters is a byte,
that is a character below U+0100.  Sources need not be well-formed UTF-8, and lengths, columns and
offsets all count bytes; keeping one character per byte makes both plain.

* `utf8` spreads a Unicode string over its bytes;
* `point?` reads one well-formed code point off the front of byte text;
* `unicode?` reads whole byte text back, and fails exactly when it is not well-formed.
-/

namespace Relspec.Text

/-- The byte `n`, as a character. -/
def byte (n : Nat) : Char := Char.ofNat n

/-- The bytes of the code point `n`. -/
def units (n : Nat) : List Char :=
  if n < 0x80 then [byte n]
  else if n < 0x800 then [byte (0xC0 + n / 0x40), byte (0x80 + n % 0x40)]
  else if n < 0x10000 then
    [byte (0xE0 + n / 0x1000), byte (0x80 + n / 0x40 % 0x40), byte (0x80 + n % 0x40)]
  else
    [byte (0xF0 + n / 0x40000), byte (0x80 + n / 0x1000 % 0x40), byte (0x80 + n / 0x40 % 0x40),
      byte (0x80 + n % 0x40)]

def utf8 (s : String) : String := String.ofList (s.toList.flatMap fun c => units c.toNat)

/-- The six bits of a continuation byte that lies between `lo` and `hi`. -/
def continuation? (lo hi : Nat) (c : Char) : Option Nat :=
  if lo ≤ c.toNat ∧ c.toNat ≤ hi then some (c.toNat - 0x80) else none

/-- **The code point at the front of byte text**, with the text after it.  Overlong forms, surrogates
and values above U+10FFFF are refused, so the second byte of some leads has a narrower range. -/
def point? : List Char → Option (Nat × List Char)
  | [] => none
  | a :: s =>
    let n := a.toNat
    if n < 0x80 then some (n, s)
    else if 0xC2 ≤ n ∧ n ≤ 0xDF then
      match s with
      | b :: s => do
        let x ← continuation? 0x80 0xBF b
        return ((n - 0xC0) * 0x40 + x, s)
      | _ => none
    else if 0xE0 ≤ n ∧ n ≤ 0xEF then
      match s with
      | b :: c :: s => do
        let x ← continuation? (if n = 0xE0 then 0xA0 else 0x80) (if n = 0xED then 0x9F else 0xBF) b
        let y ← continuation? 0x80 0xBF c
        return ((n - 0xE0) * 0x1000 + x * 0x40 + y, s)
      | _ => none
    else if 0xF0 ≤ n ∧ n ≤ 0xF4 then
      match s with
      | b :: c :: d :: s => do
        let x ← continuation? (if n = 0xF0 then 0x90 else 0x80) (if n = 0xF4 then 0x8F else 0xBF) b
        let y ← continuation? 0x80 0xBF c
        let z ← continuation? 0x80 0xBF d
        return ((n - 0xF0) * 0x40000 + x * 0x1000 + y * 0x40 + z, s)
      | _ => none
    else none

/-- Reading a code point consumes at least one byte. -/
theorem length_of_point? {s rest : List Char} {n : Nat} (h : point? s = some (n, rest)) :
    rest.length < s.length := by
  unfold point? at h
  split at h
  · simp at h
  · next a s =>
    simp only at h
    split at h
    · cases h; simp
    · split at h
      · split at h
        · simp only [Option.bind_eq_bind, Option.bind_eq_some_iff, Option.pure_def,
            Option.some.injEq, Prod.mk.injEq] at h
          obtain ⟨_, _, _, rfl⟩ := h; simp only [List.length_cons]; omega
        · simp at h
      · split at h
        · split at h
          · simp only [Option.bind_eq_bind, Option.bind_eq_some_iff, Option.pure_def,
              Option.some.injEq, Prod.mk.injEq] at h
            obtain ⟨_, _, _, _, _, rfl⟩ := h; simp only [List.length_cons]; omega
          · simp at h
        · split at h
          · split at h
            · simp only [Option.bind_eq_bind, Option.bind_eq_some_iff, Option.pure_def,
                Option.some.injEq, Prod.mk.injEq] at h
              obtain ⟨_, _, _, _, _, _, _, rfl⟩ := h; simp only [List.length_cons]; omega
            · simp at h
          · simp at h

/-- The code points of byte text; `none` when it is not well-formed. -/
def points? (s : List Char) : Option (List Nat) :=
  match s with
  | [] => some []
  | c :: s' =>
    match _h : point? (c :: s') with
    | none => none
    | some (n, rest) => (points? rest).map (n :: ·)
termination_by s.length
decreasing_by exact length_of_point? _h

/-- The Unicode string whose bytes the text holds; `none` when it is not well-formed. -/
def unicode? (s : String) : Option String :=
  (points? s.toList).map fun ns => String.ofList (ns.map Char.ofNat)

end Relspec.Text
