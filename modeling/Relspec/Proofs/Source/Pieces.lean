import Mathlib.Data.List.DropRight
import Relspec.Source.Scan

/-!
# Proofs/Source/Pieces — the pieces of a source

Cutting a source loses nothing: the pieces stand one behind the other, each with at least one character,
and what a piece yields carries the place where the piece starts.

* `Position.after`, `across_start` — places, by counting lines and columns;
* `Token.Spells`, `spells_first` — the spelling of a token against the text of its piece;
* `scan_partitions` — tokens and errors of a source, piece by piece.
-/

namespace Relspec

open List

/-- **The place after a text**, by counting: its lines, the characters since its last line break, and all of
its characters. -/
def Position.after (s : List Char) : Position :=
  ⟨1 + s.count '\n', 1 + (s.rtakeWhile (· != '\n')).length, s.length⟩

theorem Position.across_start (s : List Char) : start.across s = .after s := by
  induction s using List.reverseRecOn with
  | nil => rfl
  | append_singleton s c ih =>
    have hstep : start.across (s ++ [c]) = (start.across s).step c := foldl_concat ..
    rw [hstep, ih, after, after, step]
    by_cases hc : c = '\n'
    · rw [if_pos hc, rtakeWhile_concat_neg (h := by simp [hc])]
      simp [hc, Nat.add_assoc]
    · rw [if_neg hc, rtakeWhile_concat_pos (h := by simpa using hc)]
      simp [hc, Nat.add_assoc]

theorem Position.offset_across (pos : Position) (s : List Char) :
    (pos.across s).offset = pos.offset + s.length := by
  induction s generalizing pos with
  | nil => rfl
  | cons c s ih =>
    have hstep : (pos.step c).offset = pos.offset + 1 := by
      rw [step]
      split <;> rfl
    have hacross : pos.across (c :: s) = (pos.step c).across s := rfl
    rw [hacross, ih, hstep, length_cons, Nat.add_assoc, Nat.add_comm 1]

namespace Source

/-- **How a token spells the text it was read from**: as it is, but for the escapes of a string and the suffix
of a number. -/
structure Token.Spells (t : Token) (text : List Char) : Prop where
  kind : t.kind ≠ .eof
  number : t.kind = .number → (∀ c ∈ t.lexeme.toList, isDigit c = true) ∧
    ∃ suffix ∈ [[], ['l'], ['L']], text = t.lexeme.toList ++ suffix
  other : t.kind ≠ .string → t.kind ≠ .number → t.lexeme = String.ofList text

section

variable {c : Char} {rest : List Char} {kind : Kind} {lexeme : String} {pos : Position}

theorem Token.Spells.of_table {table : List (String × Kind)}
    (htable : ∀ e ∈ table, e.2 ≠ .eof ∧ e.2 ≠ .number) (h : (lexeme, kind) ∈ table) {text : List Char}
    (htext : lexeme = String.ofList text) : Token.Spells ⟨kind, lexeme, pos⟩ text :=
  ⟨(htable _ h).1, fun hnumber => absurd hnumber (htable _ h).2, fun _ _ => htext⟩

theorem mem_of_lookup {word : String} {table : List (String × Kind)} (h : table.lookup word = some kind) :
    (word, kind) ∈ table := by
  obtain ⟨l, r, rfl, -⟩ := lookup_eq_some_iff.mp h
  exact mem_append_right l mem_cons_self

/-- The text of a mark is the mark. -/
theorem cons_take_of_symbol {mark : String} (h : (mark, kind) ∈ symbols)
    (hafter : (Text.after? mark.toList (c :: rest)).isSome) : mark = String.ofList (c :: rest.take (mark.length - 1)) := by
  have hpos : ∀ e ∈ symbols, 1 ≤ e.1.length := by decide
  obtain ⟨t, ht⟩ := Option.isSome_iff_exists.mp hafter
  have htake : (c :: rest).take mark.toList.length = mark.toList := by
    rw [Text.eq_append_of_after? ht, take_left]
  rw [String.length_toList, ← Nat.succ_pred_eq_of_pos (hpos _ h), Nat.succ_eq_add_one, take_succ_cons] at htake
  rw [← Nat.pred_eq_sub_one, htake, String.ofList_toList]

theorem spells_decimal (hc : isDigit c = true) (rest : List Char) (suffix : Nat)
    (hsuffix : (rest.drop (runLength isDigit rest)).take suffix ∈ [[], ['l'], ['L']]) :
    Token.Spells ⟨.number, String.ofList (c :: rest.take (runLength isDigit rest)), pos⟩
      (c :: rest.take (runLength isDigit rest + suffix)) := by
  have hdigits : rest.take (runLength isDigit rest) = rest.takeWhile isDigit :=
    (prefix_iff_eq_take.mp <| takeWhile_prefix _).symm
  refine ⟨nofun, fun _ => ⟨?_, _, hsuffix, ?_⟩, fun _ h => absurd rfl h⟩
  · rw [String.toList_ofList, hdigits]
    exact forall_mem_cons.mpr ⟨hc, fun d hd => mem_takeWhile_imp hd⟩
  · rw [String.toList_ofList, cons_append, take_add]

theorem spells_number (hc : isDigit c = true) (h : (numberPiece c rest).2 = .token kind lexeme) :
    Token.Spells ⟨kind, lexeme, pos⟩ (c :: rest.take (numberPiece c rest).1) := by
  unfold numberPiece at h ⊢
  split at h
  · next x digits =>
    split_ifs at h ⊢ with hx
    · dsimp only
      split at h
      · cases h
      · cases h
        exact ⟨by simp, by simp, fun _ _ => rfl⟩
    · cases h
      exact spells_decimal hc _ _ (by split <;> simp_all)
  · cases h
    exact spells_decimal hc _ _ (by split <;> simp_all)

/-- **What a piece yields spells its text.** -/
theorem spells_first (h : (Piece.first c rest).2 = .token kind lexeme) :
    Token.Spells ⟨kind, lexeme, pos⟩ (c :: rest.take (Piece.first c rest).1) := by
  have hcontract : ∀ e ∈ contractWords, e.2 ≠ .eof ∧ e.2 ≠ .number := by decide
  have hkeyword : ∀ e ∈ keywords, e.2 ≠ .eof ∧ e.2 ≠ .number := by decide
  have hsymbol : ∀ e ∈ symbols, e.2 ≠ .eof ∧ e.2 ≠ .number := by decide
  rw [Piece.first] at h ⊢
  split_ifs at h ⊢ with _ _ _ _ _ hdigit
  · split at h <;> cases h
  · split at h
    · cases h
      exact ⟨nofun, nofun, fun h _ => absurd rfl h⟩
    · cases h
  · simp only [spelled] at h
    split at h
    · next hlookup =>
      cases h
      exact .of_table hcontract (mem_of_lookup hlookup) rfl
    · cases h
  · exact spells_number hdigit h
  · cases h
    cases hlookup : keywords.lookup _ with
    | none => exact ⟨nofun, nofun, fun _ _ => rfl⟩
    | some k => exact .of_table hkeyword (mem_of_lookup hlookup) rfl
  · split at h
    · next hfind =>
      cases h
      have hmem := mem_of_find?_eq_some hfind
      have hafter := List.find?_some hfind
      exact .of_table hsymbol hmem (cons_take_of_symbol hmem hafter)
    · cases h

end

/-- Where the pieces of a text stand: each behind those before it, and the last one at the end of the text. -/
theorem pieces_stand (pos : Position) (s : List Char) :
    (pieces pos s).flatMap (·.text) = s ∧
      ((pieces pos s).getLast?.map Piece.finish).getD pos = pos.across s ∧
      ∀ before p after, pieces pos s = before ++ p :: after →
        p.pos = pos.across (before.flatMap (·.text)) ∧ p.finish = p.pos.across p.text ∧
          ∃ c rest, p.text = c :: rest.take (Piece.first c rest).1 ∧ p.yields = (Piece.first c rest).2 := by
  fun_induction pieces pos s with
  | case1 pos => exact ⟨rfl, rfl, fun before p after h => absurd h (by simp)⟩
  | case2 pos c rest n text finish ih =>
    obtain ⟨hflat, hfinish, hstand⟩ := ih
    have hwhole : text ++ rest.drop n = c :: rest := congrArg (c :: ·) (take_append_drop n rest)
    refine ⟨?_, ?_, fun before p after h => ?_⟩
    · rw [flatMap_cons, hflat, hwhole]
    · rw [List.getLast?_cons, Option.map_some, Option.getD_some, ← Option.getD_map Piece.finish, hfinish,
        ← hwhole]
      exact (foldl_append ..).symm
    · cases before with
      | nil =>
        obtain ⟨rfl, -⟩ := List.cons.inj h
        exact ⟨rfl, rfl, c, rest, rfl, rfl⟩
      | cons q before =>
        obtain ⟨rfl, htail⟩ := List.cons.inj h
        obtain ⟨hpos, hfirst⟩ := hstand before p after htail
        refine ⟨?_, hfirst⟩
        rw [hpos, flatMap_cons]
        exact (foldl_append ..).symm

/-- **Tokens and errors of a source, piece by piece**: the pieces stand one behind the other and are the whole
source, a piece yields at most one token or error, with the place where the piece starts, and the end of the
source is the only token of its kind. -/
theorem scan_partitions (source : String) :
    let ps := pieces .start source.toList
    ps.flatMap (·.text) = source.toList ∧
      (∀ before p after, ps = before ++ p :: after → p.text ≠ [] ∧ (p.token? = none ∨ p.error? = none) ∧
        (∀ t ∈ p.token?, t.pos = .after (before.flatMap (·.text)) ∧ t.Spells p.text) ∧
        ∀ e ∈ p.error?, e.pos = .after (before.flatMap (·.text)) ∧ e.length = p.text.length) ∧
      (scan source).errors = ps.filterMap Piece.error? ∧
      (scan source).withEnd = ps.filterMap Piece.token? ++ [⟨.eof, "", .after source.toList⟩] := by
  intro ps
  obtain ⟨hflat, hfinish, hstand⟩ := pieces_stand .start source.toList
  refine ⟨hflat, fun before p after h => ?_, rfl, ?_⟩
  · obtain ⟨hpos, hend, c, rest, htext, hyields⟩ := hstand before p after h
    rw [Position.across_start] at hpos
    refine ⟨htext ▸ List.cons_ne_nil _ _, ?_, fun t ht => ?_, fun e he => ?_⟩
    · rw [Piece.token?, Piece.error?]
      cases p.yields <;> simp
    · rw [Piece.token?] at ht
      split at ht
      · next kind lexeme hyield =>
        cases ht
        refine ⟨hpos, ?_⟩
        rw [htext]
        exact spells_first (hyields.symm.trans hyield)
      · cases ht
    · rw [Piece.error?] at he
      split at he
      · cases he
        refine ⟨hpos, ?_⟩
        rw [hend, Position.offset_across, Nat.add_sub_cancel_left]
      · cases he
  · rw [Scanned.withEnd, scan, hfinish, Position.across_start]

end Source

end Relspec
