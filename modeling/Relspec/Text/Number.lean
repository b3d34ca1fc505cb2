/-!
# Text/Number — integers as text

* `Literal.read` reads an integer literal of 64 bits, whose leading zero or `0x` chooses the base;
* `integer?` reads a plain decimal integer with an optional sign;
* `flexible?` reads an integer with sign, base mark and digit separators, as options take it.
-/

namespace Relspec.Text

/-- The value of a digit: decimal digits, then letters in either case. -/
def digit? (c : Char) : Option Nat :=
  if '0' ≤ c ∧ c ≤ '9' then some (c.toNat - '0'.toNat)
  else if 'a' ≤ c ∧ c ≤ 'z' then some (c.toNat - 'a'.toNat + 10)
  else if 'A' ≤ c ∧ c ≤ 'Z' then some (c.toNat - 'A'.toNat + 10)
  else none

/-- Why a text is no integer. -/
inductive NumberFault where
  | malformed
  | outOfRange
deriving DecidableEq, Repr

/-- Reads digits of a base from left to right below 2^64.  The first fault met decides, so digits
after an overflow are not looked at. -/
def natural (base : Nat) : Nat → List Char → Except NumberFault Nat
  | acc, [] => .ok acc
  | acc, c :: s =>
    match digit? c with
    | none => .error .malformed
    | some d =>
      if base ≤ d then .error .malformed
      else if Nat.pow 2 64 ≤ acc * base + d then .error .outOfRange
      else natural base (acc * base + d) s

/-- The base a literal announces and the digits after the announcement. -/
def baseOf : List Char → Nat × List Char
  | '0' :: x :: d :: s =>
    if x = 'x' ∨ x = 'X' then (16, d :: s)
    else if x = 'o' ∨ x = 'O' then (8, d :: s)
    else if x = 'b' ∨ x = 'B' then (2, d :: s)
    else (8, x :: d :: s)
  | '0' :: s => (8, s)
  | s => (10, s)

/-- The result of reading an integer literal. -/
inductive Literal where
  | exact (value : Int64)
  | malformed
  | tooLarge
deriving DecidableEq, Repr

namespace Literal

/-- **An unsigned integer literal of 64 bits.**  A leading zero means octal, `0x` hexadecimal. -/
def read (s : String) : Literal :=
  match s.toList with
  | [] => .malformed
  | cs =>
    let (base, digits) := baseOf cs
    match natural base 0 digits with
    | .error .malformed => .malformed
    | .error .outOfRange => .tooLarge
    | .ok n => if n < Nat.pow 2 63 then .exact (Int64.ofNat n) else .tooLarge

/-- The value used in place of a literal: zero for a malformed one, the largest integer for one that
is too large. -/
def value : Literal → Int64
  | .exact v => v
  | .malformed => 0
  | .tooLarge => Int64.maxValue

end Literal

/-- Applies a sign to a magnitude read below 2^64 and checks the range of 64-bit integers. -/
def signed (negative : Bool) (n : Nat) : Except NumberFault Int :=
  if negative then
    if n ≤ Nat.pow 2 63 then .ok (-(n : Int)) else .error .outOfRange
  else if n < Nat.pow 2 63 then .ok n else .error .outOfRange

def signOf : List Char → Bool × List Char
  | '-' :: s => (true, s)
  | '+' :: s => (false, s)
  | s => (false, s)

/-- A decimal integer of 64 bits with an optional sign. -/
def integer? (s : String) : Option Int :=
  match signOf s.toList with
  | (_, []) => none
  | (negative, digits) => ((natural 10 0 digits).bind (signed negative)).toOption

/-- Whether the separators of a number stand between digits only; a base mark counts as a digit. -/
def separatorsFit : Char → List Char → Bool
  | prev, [] => prev != '_'
  | prev, c :: s =>
    if c = '_' then prev == '0' && separatorsFit '_' s
    else if (digit? c).isSome then separatorsFit '0' s
    else prev != '_' && separatorsFit '!' s

/-- An integer of 64 bits with optional sign, base mark (`0x`, `0o`, `0b`, leading `0`) and separators
`_` between digits. -/
def flexible? (s : String) : Except NumberFault Int :=
  match signOf s.toList with
  | (_, []) => .error .malformed
  | (negative, cs) =>
    let (base, digits) := baseOf cs
    let marked := cs.head? == some '0' && digits.length + 1 < cs.length
    let separated := digits.contains '_'
    let fits := separatorsFit (if marked || base != 10 then '0' else '^') digits
    let plain := digits.filter (· != '_')
    if separated && !fits then .error .malformed
    else (natural base 0 plain).bind (signed negative)

end Relspec.Text
