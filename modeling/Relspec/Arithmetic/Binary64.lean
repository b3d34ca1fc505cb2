/-!
# Arithmetic/Binary64 — quotients as binary fractions of 53 bits

A measured quantity is a quotient rounded to the nearest fraction with 53 significant bits; a value half
way between two goes to the even one.  Written with a fixed number of places it is rounded once more, by
the same rule.
-/

namespace Relspec.Binary64

/-- A non-negative fraction. -/
structure Fraction where
  num : Nat
  den : Nat
deriving Repr

/-- The integer nearest to `n / d`; a half goes to the even neighbour. -/
def roundDiv (n d : Nat) : Nat :=
  let q := n / d
  let r := n % d
  if 2 * r < d then q else if d < 2 * r then q + 1 else if q % 2 = 0 then q else q + 1

/-- `n / d` times `2 ^ k`, as a fraction. -/
def scaled (n d : Nat) : Int → Fraction
  | .ofNat k => ⟨n * Nat.pow 2 k, d⟩
  | .negSucc k => ⟨n, d * Nat.pow 2 (k + 1)⟩

/-- The power of two that brings `n / d` between `2 ^ 52` and `2 ^ 53`. -/
def exponent (n d : Nat) : Int :=
  let k : Int := 52 - (Nat.log2 n : Int) + (Nat.log2 d : Int)
  let s := scaled n d k
  if s.num < s.den * Nat.pow 2 52 then k + 1 else k

/-- **The fraction of 53 bits nearest to `n / d`.** -/
def nearest (n d : Nat) : Fraction :=
  if n = 0 then ⟨0, 1⟩
  else
    let k := exponent n d
    let s := scaled n d k
    scaled (roundDiv s.num s.den) 1 (-k)

/-- The fraction of 53 bits nearest to the sum of two. -/
def add (x y : Fraction) : Fraction := nearest (x.num * y.den + y.num * x.den) (x.den * y.den)

def floor (x : Fraction) : Nat := x.num / x.den

/-- A number of digits, with zeros in front. -/
def padded (width n : Nat) : String :=
  let ds := Nat.toDigits 10 n
  String.ofList (List.replicate (width - ds.length) '0' ++ ds)

/-- **A fraction with a fixed number of decimal places.** -/
def fixed (places : Nat) (x : Fraction) : String :=
  let n := roundDiv (x.num * Nat.pow 10 places) x.den
  toString (n / Nat.pow 10 places) ++ "." ++ padded places (n % Nat.pow 10 places)

end Relspec.Binary64
