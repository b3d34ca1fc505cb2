import Relspec.Text.Bytes
import Relspec.Text.Printable

/-!
# Text/Quoted — quoted texts

Texts inside messages and annotations are shown in double quotes, single characters in single quotes.
Printable code points stand for themselves; the quote and the backslash take a backslash; the usual
control characters have letters; every other code point is written by its number, and a byte that is
part of no code point as `\x` and two digits.

* `quote` quotes byte text;
* `quoteChar` quotes one code point.
-/

namespace Relspec.Text

/-- The lower-case hexadecimal digits of `n`, padded with zeros to `width`. -/
def hex (width n : Nat) : List Char :=
  let digits := Nat.toDigits 16 n
  List.replicate (width - digits.length) '0' ++ digits

def controlLetter? (n : Nat) : Option Char :=
  match n with
  | 7 => some 'a'
  | 8 => some 'b'
  | 12 => some 'f'
  | 10 => some 'n'
  | 13 => some 'r'
  | 9 => some 't'
  | 11 => some 'v'
  | _ => none

/-- **A code point between quotes** `q`, as bytes. -/
def escape (q : Char) (n : Nat) : List Char :=
  if n = q.toNat ∨ n = '\\'.toNat then ['\\', Char.ofNat n]
  else if isPrintable n then units n
  else
    match controlLetter? n with
    | some c => ['\\', c]
    | none =>
      if n < 0x20 ∨ n = 0x7F then '\\' :: 'x' :: hex 2 n
      else if n < 0x10000 then '\\' :: 'u' :: hex 4 n
      else '\\' :: 'U' :: hex 8 n

/-- The characters of byte text between double quotes. -/
def quoteBody (s : List Char) : List Char :=
  match s with
  | [] => []
  | c :: s' =>
    match _h : point? (c :: s') with
    | some (n, rest) => escape '"' n ++ quoteBody rest
    | none => '\\' :: 'x' :: hex 2 c.toNat ++ quoteBody s'
termination_by s.length
decreasing_by
  · exact length_of_point? _h
  · simp

def quote (s : String) : String := String.ofList ('"' :: quoteBody s.toList ++ ['"'])

def quoteChar (c : Char) : String := String.ofList ('\x27' :: escape '\x27' c.toNat ++ ['\x27'])

end Relspec.Text
