import Relspec.Arithmetic.Binary64
import Relspec.Text.Bytes

/-!
# Arithmetic/Duration — elapsed time as text

A time in nanoseconds is written in the largest unit that it reaches: minutes and seconds with two
places, milliseconds and microseconds with one.
-/

namespace Relspec.Duration

/-- A time in a unit of so many nanoseconds, the whole part and the rest rounded one after the other. -/
def inUnit (ns unit : Nat) : Binary64.Fraction :=
  Binary64.add (Binary64.nearest (ns / unit) 1) (Binary64.nearest (ns % unit) unit)

/-- A time in a unit of so many nanoseconds, rounded at once. -/
def quotient (ns unit : Nat) : Binary64.Fraction :=
  let n := Binary64.nearest ns 1
  Binary64.nearest n.num (n.den * unit)

/-- **A time in nanoseconds as text.** -/
def text (ns : Int) : String :=
  let n := ns.toNat
  if 60000000000 ≤ ns then Binary64.fixed 2 (inUnit n 60000000000) ++ "min"
  else if 1000000000 ≤ ns then Binary64.fixed 2 (inUnit n 1000000000) ++ "s"
  else if 1000000 ≤ ns then Binary64.fixed 1 (quotient n 1000000) ++ "ms"
  else if 1000 ≤ ns then Binary64.fixed 1 (quotient n 1000) ++ Text.utf8 "μs"
  else toString ns ++ "ns"

end Relspec.Duration
