import Relspec.Spec.Basic

/-!
# Proofs/Spec/Text — the characters of a specification

A text is put together from many pieces, and what is done with it later is done character by character.
Here its characters are those of the pieces, in order.

* `Library.chars`, `Specification.chars` — the characters of a text, piece by piece;
* `Specification.toList_text` — they are its characters.
-/

namespace Relspec.Spec

/-! ## The library -/

/-- The characters of a signature. -/
def Sig.chars (s : Sig) : List Char :=
  (if s.isAbstract then "abstract ".toList else []) ++ (if s.one then "one ".toList else []) ++
    "sig ".toList ++ s.name.toList ++ s.parent.toList.flatMap (fun p => " extends ".toList ++ p.toList) ++
    " \x7b\x7d".toList

theorem Sig.toList_text (s : Sig) : s.text.toList = s.chars := by
  unfold text chars
  cases s.parent with
  | none =>
    simp only [String.toList_append, apply_ite String.toList, String.toList_empty, Option.map_none,
      Option.getD_none, Option.toList_none, List.flatMap_nil]
  | some p =>
    simp only [String.toList_append, apply_ite String.toList, String.toList_empty, Option.map_some,
      Option.getD_some, Option.toList_some, List.flatMap_singleton]

/-- The characters of parts with a separator between them. -/
theorem toList_join_map {α : Type} (sep : String) (f : α → String) (xs : List α) :
    (Text.join sep (xs.map f)).toList = sep.toList.intercalate (xs.map fun x => (f x).toList) :=
  String.toList_intercalate.trans (congrArg _ List.map_map)

/-- The characters of a predicate of the library. -/
def LibraryPred.chars (p : LibraryPred) : List Char :=
  "pred ".toList ++ p.name.toList ++ "[".toList ++
    ", ".toList.intercalate (p.params.map fun x => x.toList ++ ": Int".toList) ++ "] ".toList ++
    if p.body = "" then "\x7b\x7d".toList else "\x7b\n  ".toList ++ p.body.toList ++ "\n\x7d".toList

theorem LibraryPred.toList_text (p : LibraryPred) : p.text.toList = p.chars := by
  unfold text chars
  split
  · simp only [String.toList_append, toList_join_map]
  · simp only [String.toList_append, toList_join_map]

/-- The characters of a library module. -/
def Library.chars (l : Library) : List Char :=
  "// ".toList ++ l.name.toList ++ "\n".toList ++ l.sigs.flatMap (fun s => s.chars ++ "\n".toList) ++
    l.preds.flatMap (fun p => p.chars ++ "\n".toList) ++ "\n".toList

theorem Library.toList_text (l : Library) : l.text.toList = l.chars := by
  unfold text chars
  simp only [String.toList_append, String.toList_join, List.flatMap_map,
    Sig.toList_text, LibraryPred.toList_text]

/-! ## Specifications -/

/-- The characters of lines that are moved right and ended. -/
def indentedChars (blanks : String) (ls : List String) : List Char :=
  ls.flatMap fun l => blanks.toList ++ l.toList ++ "\n".toList

theorem toList_indented (blanks : String) (ls : List String) :
    (indented blanks ls).toList = indentedChars blanks ls := by
  simp only [indented, indentedChars, String.toList_join, List.flatMap_map, String.toList_append]

/-- The characters of the body of a predicate. -/
def Body.chars : Body → List Char
  | .conjuncts goals => indentedChars "  " (conjunctLines goals)
  | .follows hypotheses goals =>
    "  (\n".toList ++ indentedChars "    " (conjunctLines hypotheses) ++ "  ) implies (\n".toList ++
      indentedChars "    " (conjunctLines goals) ++ "  )\n".toList

theorem Body.toList_text (b : Body) : b.text.toList = b.chars := by
  cases b with
  | conjuncts goals => exact toList_indented "  " (conjunctLines goals)
  | follows hypotheses goals =>
    delta text chars
    simp only [String.toList_append, toList_indented]

/-- The characters of a predicate. -/
def Pred.chars (p : Pred) : List Char :=
  "pred ".toList ++ p.name.toList ++ "[".toList ++
    ", ".toList.intercalate (p.params.map fun x => x.text.toList) ++ "] \x7b\n".toList ++ p.body.chars ++
    "\x7d\n\n".toList

theorem Pred.toList_text (p : Pred) : p.text.toList = p.chars := by
  unfold text chars
  simp only [String.toList_append, toList_join_map, Body.toList_text]

/-- The characters of a call. -/
def Call.chars (c : Call) : List Char :=
  c.name.toList ++ "[".toList ++ ",".toList.intercalate (c.args.map fun x => (held x).toList) ++
    "]".toList

theorem Call.toList_text (c : Call) : c.text.toList = c.chars := by
  unfold text chars
  simp only [String.toList_append, toList_join_map]

end Relspec.Spec
