/-!
# Text/Blank — white space in byte text

White space is the Unicode property *White_Space*, spelled here as the byte sequences of its members.
No member's bytes occur inside another code point, so scanning for the sequences is scanning for the
characters.

* `trim` drops white space at both ends;
* `squeeze` drops it everywhere;
* `isBlank` says that nothing else is there.
-/

namespace Relspec.Text

/-- The white-space characters, each as its bytes. -/
def blanks : List (List Char) :=
  [['\t'], ['\n'], ['\x0b'], ['\x0c'], ['\r'], [' '], ['\xc2', '\x85'], ['\xc2', '\xa0'],
    ['\xe1', '\x9a', '\x80'], ['\xe2', '\x80', '\x80'], ['\xe2', '\x80', '\x81'],
    ['\xe2', '\x80', '\x82'], ['\xe2', '\x80', '\x83'], ['\xe2', '\x80', '\x84'],
    ['\xe2', '\x80', '\x85'], ['\xe2', '\x80', '\x86'], ['\xe2', '\x80', '\x87'],
    ['\xe2', '\x80', '\x88'], ['\xe2', '\x80', '\x89'], ['\xe2', '\x80', '\x8a'],
    ['\xe2', '\x80', '\xa8'], ['\xe2', '\x80', '\xa9'], ['\xe2', '\x80', '\xaf'],
    ['\xe2', '\x81', '\x9f'], ['\xe3', '\x80', '\x80']]

/-- The number of bytes of the white-space character at the front of `s`, zero when there is none. -/
def blankLength (s : List Char) : Nat :=
  match blanks.find? (·.isPrefixOf s) with
  | some b => b.length
  | none => 0

/-- Drops leading white space; the first argument counts bytes of a character already recognised. -/
def dropBlanks : Nat → List Char → List Char
  | _, [] => []
  | k + 1, _ :: s => dropBlanks k s
  | 0, c :: s =>
    match blankLength (c :: s) with
    | 0 => c :: s
    | k + 1 => dropBlanks k s

/-- The number of bytes of the white-space character at the end of the text whose reverse is `s`. -/
def blankLengthRev (s : List Char) : Nat :=
  match blanks.find? (·.reverse.isPrefixOf s) with
  | some b => b.length
  | none => 0

/-- Drops leading white space of a reversed text. -/
def dropBlanksRev : Nat → List Char → List Char
  | _, [] => []
  | k + 1, _ :: s => dropBlanksRev k s
  | 0, c :: s =>
    match blankLengthRev (c :: s) with
    | 0 => c :: s
    | k + 1 => dropBlanksRev k s

def trimChars (s : List Char) : List Char := (dropBlanksRev 0 (dropBlanks 0 s).reverse).reverse

def trim (s : String) : String := String.ofList (trimChars s.toList)

/-- Whether the text is nothing but white space. -/
def isBlank (s : String) : Bool := (trimChars s.toList).isEmpty

/-- Drops all white space; the first argument counts bytes of a character already recognised. -/
def squeezeChars : Nat → List Char → List Char
  | _, [] => []
  | k + 1, _ :: s => squeezeChars k s
  | 0, c :: s =>
    match blankLength (c :: s) with
    | 0 => c :: squeezeChars 0 s
    | k + 1 => squeezeChars k s

def squeeze (s : String) : String := String.ofList (squeezeChars 0 s.toList)

end Relspec.Text
