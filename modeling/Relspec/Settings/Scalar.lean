import Relspec.Arithmetic.Binary64
import Relspec.Text.Number
import Relspec.Text.Search

/-!
# Settings/Scalar — what a plain scalar means

A plain scalar of a document can mean nothing, a truth value, an integer, a fraction or a date; otherwise
it is a text.  Where an integer is due, a fraction is cut off.
-/

namespace Relspec.Document

def isNull (s : String) : Bool := ["", "~", "null", "Null", "NULL"].contains s

def truth? (s : String) : Option Bool :=
  if ["true", "True", "TRUE"].contains s then some true
  else if ["false", "False", "FALSE"].contains s then some false
  else none

/-- The truth value of a scalar where one is due: also `yes`, `on` and their like. -/
def switch? (s : String) : Option Bool :=
  if ["y", "Y", "yes", "Yes", "YES", "on", "On", "ON"].contains s then some true
  else if ["n", "N", "no", "No", "NO", "off", "Off", "OFF"].contains s then some false
  else none

/-- A decimal fraction: a sign, a whole number of units, and the power of ten that one unit is. -/
structure Decimal where
  negative : Bool
  units : Nat
  exponent : Int

def digitsValue (ds : List Char) : Nat := ds.foldl (fun n d => 10 * n + (d.toNat - '0'.toNat)) 0

def exponent? : List Char → Option Int
  | [] => some 0
  | e :: s =>
    if e == 'e' || e == 'E' then
      let (negative, ds) := Text.signOf s
      if !ds.isEmpty && ds.all Char.isDigit then
        some (if negative then -(digitsValue ds : Int) else digitsValue ds)
      else none
    else none

/-- A decimal fraction: digits with an optional sign, point and exponent. -/
def decimal? (s : String) : Option Decimal :=
  let (negative, cs) := Text.signOf s.toList
  let whole := cs.takeWhile Char.isDigit
  match cs.dropWhile Char.isDigit with
  | '.' :: rest =>
    let places := rest.takeWhile Char.isDigit
    if whole.isEmpty && places.isEmpty then none
    else
      (exponent? (rest.dropWhile Char.isDigit)).map fun e =>
        ⟨negative, digitsValue (whole ++ places), e - places.length⟩
  | rest =>
    if whole.isEmpty then none
    else (exponent? rest).map fun e => ⟨negative, digitsValue whole, e⟩

/-- The integer part of a decimal fraction, read with 53 significant bits.  What lies below the range of
64 bits becomes its least value; there is no result above it. -/
def Decimal.integer? (d : Decimal) : Option Int :=
  if 400 < d.exponent then if d.units = 0 then some 0 else none
  else if d.exponent < -5000 then some 0
  else
    let f := match d.exponent with
      | .ofNat k => Binary64.nearest (d.units * Nat.pow 10 k) 1
      | .negSucc k => Binary64.nearest d.units (Nat.pow 10 (k + 1))
    let n := Binary64.floor f
    if Nat.pow 2 1024 ≤ n then none
    else if d.negative then some (-(min n (Nat.pow 2 63) : Nat))
    else if n < Nat.pow 2 63 then some n
    else if n = Nat.pow 2 63 then some (-(Nat.pow 2 63 : Nat))
    else none

def startsNumber (s : String) : Bool :=
  match s.toList with
  | c :: _ => c == '+' || c == '-' || c.isDigit
  | [] => false

def unseparated (s : String) : String := String.ofList (s.toList.filter (· != '_'))

/-- **The integer of a plain scalar** where one is due. -/
def integer? (s : String) : Option Int :=
  if startsNumber s then
    let plain := unseparated s
    match Text.flexible? plain with
    | .ok n => some n
    | .error .outOfRange =>
      if (Text.signOf plain.toList).1 then (decimal? plain).bind Decimal.integer?
      else if plain.toList.head? == some '+' then (decimal? plain).bind Decimal.integer?
      else if (Text.natural (Text.baseOf plain.toList).1 0 (Text.baseOf plain.toList).2).toBool then none
      else (decimal? plain).bind Decimal.integer?
    | .error .malformed => (decimal? plain).bind Decimal.integer?
  else if s.toList.head? == some '.' then (decimal? s).bind Decimal.integer?
  else none

/-- Whether a text is a date: a year of four digits, a month and a day. -/
def isDate (s : String) : Bool :=
  match Text.split s '-' with
  | [y, m, d] =>
    let number (t : String) := if t.toList.all Char.isDigit then digitsValue t.toList else 0
    y.length == 4 && y.toList.all Char.isDigit && (m.length == 1 || m.length == 2) &&
      (d.length == 1 || d.length == 2) && 1 ≤ number m && number m ≤ 12 && 1 ≤ number d && number d ≤ 31
  | _ => false

/-- Whether a plain scalar means something other than its text. -/
def isSpecial (s : String) : Bool :=
  isNull s || (truth? s).isSome || s == "<<" ||
    [".nan", ".NaN", ".NAN", ".inf", ".Inf", ".INF", "+.inf", "+.Inf", "+.INF", "-.inf", "-.Inf",
      "-.INF"].contains s ||
    (if startsNumber s then
      isDate s ||
        (match Text.flexible? (unseparated s) with
          | .ok _ => true
          | .error .outOfRange => (s.toList.head?.any Char.isDigit) || (decimal? (unseparated s)).isSome
          | .error .malformed => (decimal? (unseparated s)).isSome)
    else s.toList.head? == some '.' && (decimal? s).isSome)

/-- Whether a text is a number to base sixty, as older readers took it. -/
def isSexagesimal (s : String) : Bool :=
  let (_, cs) := Text.signOf s.toList
  match Text.splitChars ':' cs with
  | first :: second :: more =>
    let parts := second :: more
    let last := (parts.getLast?.getD []).takeWhile (· != '.')
    let places := (parts.getLast?.getD []).dropWhile (· != '.')
    let sixties := parts.dropLast ++ [last]
    (first.head?.any Char.isDigit) && first.all (fun c => c.isDigit || c == '_') &&
      sixties.all (fun p =>
        (p.length == 1 && p.all Char.isDigit) ||
          (p.length == 2 && p.all Char.isDigit && p.head?.any fun c => c ≤ '5')) &&
      places.tail.all fun c => c.isDigit || c == '_'
  | _ => false

end Relspec.Document
