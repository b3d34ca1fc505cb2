import Relspec.Text.Bytes
import Relspec.Text.Number
import Relspec.Text.Search

/-!
# Settings/Document — the text form of settings

A settings file is a YAML document with one mapping at the top: keys with scalars or lists of scalars.
Scalars are plain or quoted; lists are written on lines of their own or between brackets.  Other nodes
are recognised as far as it takes to refuse them where a scalar or a list is due.

* `Document.read` reads the entries of a document.
-/

namespace Relspec.Document

/-- A value of a document. -/
inductive Node where
  /-- A scalar, written plain or between quotes. -/
  | scalar (text : String) (plain : Bool)
  | list (items : List Node)
  | mapping
deriving Repr

def Node.missing : Node := .scalar "" true

/-! ## Lines -/

/-- A line: its leading blanks and the rest. -/
structure Line where
  indent : Nat
  content : List Char
deriving Repr

def isGap (c : Char) : Bool := c == ' ' || c == '\t'

def trimRight (s : List Char) : List Char := (s.reverse.dropWhile isGap).reverse

def isEmptyRest (s : List Char) : Bool :=
  match s.dropWhile isGap with
  | [] => true
  | c :: _ => c == '#'

/-- Whether a text, after something else, is blank or a comment set off by a blank. -/
def endsHere : List Char → Bool
  | [] => true
  | c :: s => isGap c && isEmptyRest s

def Line.of (s : List Char) : Line :=
  let s := if s.getLast? == some '\r' then s.dropLast else s
  ⟨(s.takeWhile (· == ' ')).length, trimRight (s.dropWhile (· == ' '))⟩

def Line.isItem (l : Line) : Bool :=
  match l.content with
  | ['-'] => true
  | '-' :: c :: _ => isGap c
  | _ => false

/-- Whether a code point may stand in a document. -/
def allowed (n : Nat) : Bool :=
  n == 0x09 || n == 0x0A || n == 0x0D || (0x20 ≤ n && n ≤ 0x7E) || n == 0x85 ||
    (0xA0 ≤ n && n ≤ 0xD7FF) || (0xE000 ≤ n && n ≤ 0xFFFD && n != 0xFEFF) || 0x10000 ≤ n

/-- The lines of a document that say something, or none when a character is not allowed. -/
def linesOf (s : String) : Option (List Line) :=
  match Text.unicode? s with
  | none => none
  | some u =>
    if u.toList.all fun c => allowed c.toNat then
      let lines := ((Text.splitChars '\n' s.toList).map Line.of).filter fun l => !isEmptyRest l.content
      let lines :=
        match lines with
        | l :: rest => if l.indent == 0 && l.content == ['-', '-', '-'] then rest else l :: rest
        | [] => []
      some (lines.takeWhile fun l => !(l.indent == 0 && l.content == ['.', '.', '.']))
    else none

/-! ## Scalars -/

/-- A text between single quotes, after the first quote, and what follows it. -/
def singleQuoted : List Char → Option (List Char × List Char)
  | '\'' :: '\'' :: s => (singleQuoted s).map fun (t, rest) => ('\'' :: t, rest)
  | '\'' :: s => some ([], s)
  | c :: s => (singleQuoted s).map fun (t, rest) => (c :: t, rest)
  | [] => none

def hexValue (ds : List Char) : Option Nat :=
  ds.foldlM (fun n d => (Text.digit? d).bind fun v => if v < 16 then some (16 * n + v) else none) 0

/-- The character that an escape without digits stands for. -/
def simpleEscape? : Char → Option Char
  | '0' => some (Char.ofNat 0)
  | 'a' => some (Char.ofNat 7)
  | 'b' => some (Char.ofNat 8)
  | 't' => some '\t'
  | '\t' => some '\t'
  | 'n' => some '\n'
  | 'v' => some (Char.ofNat 11)
  | 'f' => some (Char.ofNat 12)
  | 'r' => some '\r'
  | 'e' => some (Char.ofNat 27)
  | ' ' => some ' '
  | '"' => some '"'
  | '/' => some '/'
  | '\\' => some '\\'
  | 'N' => some (Char.ofNat 0x85)
  | '_' => some (Char.ofNat 0xA0)
  | 'L' => some (Char.ofNat 0x2028)
  | 'P' => some (Char.ofNat 0x2029)
  | _ => none

def escapeDigits? : Char → Option Nat
  | 'x' => some 2
  | 'u' => some 4
  | 'U' => some 8
  | _ => none

def charText (c : Char) : List Char := (Text.utf8 (String.ofList [c])).toList

/-- A text between double quotes, after the first quote, and what follows it.  The number counts
characters of an escape that has been read already. -/
def doubleQuoted : Nat → List Char → Option (List Char × List Char)
  | k + 1, _ :: s => doubleQuoted k s
  | 0, '"' :: s => some ([], s)
  | 0, '\\' :: c :: s =>
    match escapeDigits? c with
    | some n =>
      match hexValue (s.take n) with
      | some v =>
        if s.length < n || 0x10FFFF < v || (0xD800 ≤ v && v ≤ 0xDFFF) then none
        else (doubleQuoted n s).map fun (t, rest) => (charText (Char.ofNat v) ++ t, rest)
      | none => none
    | none =>
      match simpleEscape? c with
      | some e => (doubleQuoted 0 s).map fun (t, rest) => (charText e ++ t, rest)
      | none => none
  | 0, c :: s => (doubleQuoted 0 s).map fun (t, rest) => (c :: t, rest)
  | _, [] => none

/-- A quoted scalar and what follows it, when the text starts with a quote. -/
def quoted? : List Char → Option (Option (String × List Char))
  | '\'' :: s => some ((singleQuoted s).map fun (t, rest) => (String.ofList t, rest))
  | '"' :: s => some ((doubleQuoted 0 s).map fun (t, rest) => (String.ofList t, rest))
  | _ => none

def marks : List Char :=
  ['[', ']', Char.ofNat 0x7B, Char.ofNat 0x7D, ',', '#', '&', '*', '!', '|', '>', '%', '@', Char.ofNat 0x60]

/-- Whether a plain scalar can start with `c` before `next`. -/
def startsPlain (c : Char) (next : Option Char) : Bool :=
  if c == '-' || c == '?' || c == ':' then next.any fun d => !isGap d
  else !marks.contains c

/-- A plain scalar up to a comment, and the rest; `prev` is the character before.  A colon that ends a
word ends the scalar. -/
def plainChars (flow : Bool) : Char → List Char → List Char × List Char
  | _, [] => ([], [])
  | prev, c :: s =>
    let ends :=
      (c == '#' && isGap prev) ||
      (c == ':' && (s.head?.all fun d => isGap d ||
        (flow && [',', '[', ']', Char.ofNat 0x7B, Char.ofNat 0x7D].contains d))) ||
      (flow && [',', '[', ']', Char.ofNat 0x7B, Char.ofNat 0x7D].contains c)
    if ends then ([], c :: s)
    else
      let (t, rest) := plainChars flow c s
      (c :: t, rest)

/-! ## Lists between brackets -/

/-- How reading a bracketed list goes on: an item or the end is due, or a comma or the end. -/
inductive Due where
  | item
  | comma
deriving DecidableEq

/-- The items of a list after its opening bracket, and what follows the list.  Nested lists and mappings
are recognised by their opening bracket alone. -/
def flowItems : Nat → Due → List Char → Option (List Node × List Char)
  | 0, _, _ => none
  | fuel + 1, due, s =>
    match s.dropWhile isGap with
    | [] => none
    | ']' :: rest => some ([], rest)
    | ',' :: rest => if due = .comma then flowItems fuel .item rest else none
    | c :: rest =>
      if due = .comma then none
      else
        match quoted? (c :: rest) with
        | some none => none
        | some (some (t, rest)) =>
          (flowItems fuel .comma rest).map fun (ns, r) => (.scalar t false :: ns, r)
        | none =>
          if startsPlain c rest.head? then
            let (t, rest) := plainChars true ' ' (c :: rest)
            match rest with
            | ':' :: _ => none
            | _ =>
              (flowItems fuel .comma rest).map fun (ns, r) =>
                (.scalar (String.ofList (trimRight t)) true :: ns, r)
          else none

/-! ## Values -/

/-- The pieces of a plain scalar that goes on over lines, joined by blanks. -/
def plainLines : List (List Char) → Option (List (List Char))
  | [] => some []
  | l :: ls =>
    match plainChars false ' ' l with
    | (t, []) => (plainLines ls).map (trimRight t :: ·)
    | (t, '#' :: _) => if ls.isEmpty then some [trimRight t] else none
    | _ => none

/-- The value that starts with `text` and goes on over the lines `more`. -/
def value (text : List Char) (more : List (List Char)) : Option Node :=
  match text with
  | [] => some .missing
  | '[' :: s =>
    let all := (s :: more).foldr (fun l acc => l ++ ' ' :: acc) []
    match flowItems (all.length + 1) .item all with
    | some (items, rest) => if endsHere rest then some (.list items) else none
    | none => none
  | c :: s =>
    if c == Char.ofNat 0x7B then some .mapping
    else
      match quoted? (c :: s) with
      | some none => none
      | some (some (t, rest)) => if endsHere rest && more.isEmpty then some (.scalar t false) else none
      | none =>
        if startsPlain c s.head? then
          (plainLines ((c :: s) :: more)).map fun ts =>
            .scalar (Text.join " " ((ts.filter (!·.isEmpty)).map String.ofList)) true
        else none

def keyed? (s : List Char) : Option (Node × List Char) :=
  match quoted? s with
  | some none => none
  | some (some (k, rest)) =>
    match rest.dropWhile isGap with
    | ':' :: rest => if rest.head?.all isGap then some (.scalar k false, rest) else none
    | _ => none
  | none =>
    match s with
    | [] => none
    | c :: t =>
      if startsPlain c t.head? then
        match plainChars false ' ' (c :: t) with
        | (k, ':' :: rest) => some (.scalar (String.ofList (trimRight k)) true, rest)
        | _ => none
      else none

/-- A text without leading gaps, empty when it is a comment. -/
def opening (s : List Char) : List Char :=
  if isEmptyRest s then [] else s.dropWhile isGap

/-- Groups lines under those that stand at an indent and pass a test; the lines in front of the first
such line are left over. -/
def grouped (isHead : Line → Bool) : List Line → List Line × List (Line × List Line)
  | [] => ([], [])
  | l :: ls =>
    let (pending, groups) := grouped isHead ls
    if isHead l then ([], (l, pending) :: groups) else (l :: pending, groups)

/-- The value of a list item and the lines below it. -/
def itemValue (head : Line) (below : List Line) : Option Node :=
  match opening head.content.tail, below with
  | [], l :: ls => value l.content (ls.map (·.content))
  | t, ls =>
    if (Line.mk 0 t).isItem then some (.list [])
    else if (keyed? t).isSome then some .mapping
    else value t (ls.map (·.content))

/-- The items of a list written on lines of their own. -/
def blockItems (first : Line) (rest : List Line) : Option (List Node) :=
  let (lead, items) := grouped (fun l => l.isItem && l.indent == first.indent) (first :: rest)
  if !lead.isEmpty || items.any (fun item => item.2.any (·.indent ≤ first.indent)) then none
  else items.mapM fun item => itemValue item.1 item.2

/-- The value of an entry from the text after its colon and the lines below it. -/
def entryValue (text : List Char) (below : List Line) : Option Node :=
  match opening text, below with
  | [], [] => some .missing
  | [], first :: rest =>
    if first.isItem then (blockItems first rest).map .list
    else if (keyed? first.content).isSome then some .mapping
    else value first.content (rest.map (·.content))
  | t, below => value t (below.map (·.content))

/-- The entry of a line and the lines below it. -/
def entry (head : Line) (below : List Line) : Option (Node × Node) :=
  match keyed? head.content with
  | none => none
  | some (key, text) => (entryValue text below).map (key, ·)

/-- **The entries of a document**, in order; none when the document does not read or is no mapping. -/
def read (s : String) : Option (List (Node × Node)) :=
  match linesOf s with
  | none => none
  | some [] => some []
  | some (first :: rest) =>
    let (lead, groups) := grouped (fun l => l.indent == first.indent && !l.isItem) (first :: rest)
    if !lead.isEmpty || (first :: rest).any (fun l => l.indent < first.indent || l.content.head? == some '\t')
    then none
    else
      match groups with
      | [(l, [])] =>
        if ["~", "null", "Null", "NULL"].contains (String.ofList l.content) then some []
        else (entry l []).map ([·])
      | groups => groups.mapM fun (l, below) => entry l below

end Relspec.Document
