import Relspec.Proofs.Contract.Target

/-!
# Proofs/Settings/Scopes — bounds of classes do not hang on their order

The bounds in a text are put into a table one after the other, and a class is looked up among the names in
sorted order.  With one bound for each name, neither what the table holds nor the least name that means a
class depends on the order of the entries.

* `entries`, `entryName`, `entryBound?` — the entries of a text, and what each of them says;
* `parseScopes_eq_ok_iff` — a text reads when each of its entries does, and the table holds what they say;
* `find?_mergeSort_congr`, `find?_tableOf_iff` — look-ups that see no order;
* `scopeOf_exact` — the bound of a class.
-/

namespace Relspec

open List
open ClassName (identifier simple same)

namespace Text

/-- The first occurrence of a character parts a text. -/
theorem cut?_of_mem {c : Char} {s : List Char} (h : c ∈ s) :
    cut? [c] s = some (s.takeWhile (· != c), (s.dropWhile (· != c)).tail) := by
  obtain ⟨front, back, rfl, hfront⟩ := eq_append_cons_of_mem h
  have hother : ∀ x ∈ front, (x != c) = true := fun x hx =>
    bne_iff_ne.mpr (ne_of_mem_of_not_mem hx hfront)
  rw [cut?_append back hfront, takeWhile_append_of_pos hother, dropWhile_append_of_pos hother]
  simp

theorem isBlank_iff {s : String} : isBlank s = true ↔ trim s = "" := by
  rw [isBlank, List.isEmpty_iff, trim, ← String.toList_inj, String.toList_ofList]
  rfl

end Text

namespace Settings

/-! ## Entries -/

/-- **The entries of a text**, parted by commas; a blank text has none. -/
def entries (spec : String) : List String := if Text.isBlank spec then [] else Text.split spec ','

/-- The name in an entry: what stands before the first colon. -/
def entryName (entry : String) : String :=
  Text.trim (String.ofList ((Text.trim entry).toList.takeWhile (· != ':')))

/-- The bound in an entry: the number after the first colon. -/
def entryBound? (entry : String) : Option Int :=
  Text.integer? (Text.trim (String.ofList ((Text.trim entry).toList.dropWhile (· != ':')).tail))

/-- The bound in an entry that reads. -/
def entryBound (entry : String) : Nat := ((entryBound? entry).getD 0).toNat

/-- An entry that reads: it has a name and a bound. -/
structure IsEntry (entry : String) : Prop where
  name : entryName entry ≠ ""
  bound : entryBound? entry = some (entryBound entry : Int)

/-- The table of entries. -/
def tableOf (es : List String) : Table Nat := es.foldl (fun t e => t.insert (entryName e) (entryBound e)) .empty

variable {t t' : Table Nat} {e n spec type : String} {es es' : List String} {s : Settings}

/-- Adding an entry succeeds when the entry reads. -/
theorem addScope_eq_ok_iff :
    addScope t e = .ok t' ↔ IsEntry e ∧ t' = t.insert (entryName e) (entryBound e) := by
  unfold addScope
  by_cases hcolon : ':' ∈ (Text.trim e).toList
  · rw [Text.cut?_of_mem hcolon]
    dsimp only
    split
    · next hblank => exact iff_of_false nofun fun h => h.1.name (Text.isBlank_iff.mp hblank)
    · next hblank =>
      split
      · next n hn =>
        have hbound : entryBound? e = some (n : Int) := hn
        have hn : entryBound e = n := by rw [entryBound, hbound]; rfl
        rw [hn]
        exact ⟨fun h => ⟨⟨mt Text.isBlank_iff.mpr hblank, by rw [hn, hbound]⟩, (Except.ok.inj h).symm⟩,
          fun h => congrArg Except.ok h.2.symm⟩
      · next hnone => exact iff_of_false nofun fun h => hnone _ h.1.bound
  · have hnone : Text.cut? [':'] (Text.trim e).toList = none :=
      Text.cut?_eq_none_iff.mpr fun h => hcolon (h.subset mem_cons_self)
    have hbound : entryBound? e = none := by
      rw [entryBound?, dropWhile_eq_nil_iff.mpr fun c hc => bne_iff_ne.mpr (ne_of_mem_of_not_mem hc hcolon)]
      rfl
    rw [hnone]
    exact iff_of_false nofun fun h => nomatch hbound.symm.trans h.1.bound

theorem foldlM_addScope_eq_ok_iff : ∀ {es : List String} {t : Table Nat}, es.foldlM addScope t = .ok t' ↔
    (∀ e ∈ es, IsEntry e) ∧ t' = es.foldl (fun t e => t.insert (entryName e) (entryBound e)) t
  | [], t => ⟨fun h => ⟨nofun, (Except.ok.inj h).symm⟩, fun h => congrArg Except.ok h.2.symm⟩
  | e :: es, t => by
    rw [foldlM_cons, forall_mem_cons, foldl_cons]
    constructor
    · intro h
      obtain ⟨t₁, ht₁, h⟩ := exists_of_except_ok h
      obtain ⟨he, rfl⟩ := addScope_eq_ok_iff.mp ht₁
      obtain ⟨hes, h⟩ := foldlM_addScope_eq_ok_iff.mp h
      exact ⟨⟨he, hes⟩, h⟩
    · rintro ⟨⟨he, hes⟩, h⟩
      rw [addScope_eq_ok_iff.mpr ⟨he, rfl⟩]
      exact foldlM_addScope_eq_ok_iff.mpr ⟨hes, h⟩

/-- **A text of bounds reads when each entry does**, and gives the table of the entries. -/
theorem parseScopes_eq_ok_iff :
    parseScopes spec = .ok t ↔ (∀ e ∈ entries spec, IsEntry e) ∧ t = tableOf (entries spec) := by
  rw [parseScopes, entries]
  split
  · exact ⟨fun h => ⟨nofun, (Except.ok.inj h).symm⟩, fun h => congrArg Except.ok h.2.symm⟩
  · exact foldlM_addScope_eq_ok_iff

/-! ## Look-ups without an order -/

/-- The least name that passes a test is the same in all orders. -/
theorem find?_mergeSort_congr {l l' : List String} (h : ∀ n, n ∈ l ↔ n ∈ l') (p : String → Bool) :
    l.mergeSort.find? p = l'.mergeSort.find? p := by
  have hnone : ∀ {l l' : List String}, (∀ n, n ∈ l ↔ n ∈ l') → l.mergeSort.find? p = none →
      l'.mergeSort.find? p = none := by
    intro l l' h hnone
    rw [List.find?_eq_none] at hnone ⊢
    simpa only [mem_mergeSort, h] using hnone
  cases hl : l.mergeSort.find? p with
  | none => exact (hnone h hl).symm
  | some q =>
    cases hl' : l'.mergeSort.find? p with
    | none => exact hl.symm.trans (hnone (fun n => (h n).symm) hl')
    | some q' =>
      obtain ⟨hq, hpass, hleast⟩ := Contract.find?_mergeSort hl
      obtain ⟨hq', hpass', hleast'⟩ := Contract.find?_mergeSort hl'
      exact congrArg some (String.le_antisymm (hleast q' ((h q').mpr hq') hpass') (hleast' q ((h q).mp hq) hpass))

theorem mem_keys_tableOf : n ∈ (tableOf es).keys ↔ n ∈ es.map entryName := by
  rw [Table.mem_keys_iff, tableOf, Table.contains_foldl_insert]
  exact or_iff_right Bool.false_ne_true

/-- **With one entry for each name, the table holds what the entries say.** -/
theorem find?_tableOf_iff (h : (es.map entryName).Nodup) {b : Nat} :
    (tableOf es).find? n = some b ↔ ∃ e ∈ es, entryName e = n ∧ entryBound e = b := by
  have hheld : ∀ {b}, (tableOf es).find? n = some b → ∃ e ∈ es, entryName e = n ∧ entryBound e = b :=
    fun hb => (Table.find?_foldl_insert hb).resolve_left nofun
  refine ⟨hheld, ?_⟩
  rintro ⟨e, he, rfl, rfl⟩
  obtain ⟨b, hb⟩ := Option.isSome_iff_exists.mp
    (Table.mem_keys_iff.mp (mem_keys_tableOf.mpr (mem_map_of_mem he)))
  obtain ⟨e', he', hname, rfl⟩ := hheld hb
  obtain rfl := inj_on_of_nodup_map h he' he hname
  exact hb

/-- A name that does not spell a class in full means it as its simple name. -/
theorem same_iff_of_not_full (hfull : identifier n ≠ identifier type) :
    same type n = true ↔ n = simple type := by
  rw [ClassName.same_iff, eq_comm (a := n)]
  refine ⟨fun h => (h.resolve_left fun htype => hfull (htype ▸ rfl)).resolve_left fun hid => hfull ?_,
    fun h => .inr (.inr h)⟩
  rw [← hid, ClassName.identifier_of_not_mem (ClassName.dot_not_mem_identifier type)]

section

variable (hread : parseScopes s.typeScopes = .ok t)
include hread

theorem scopes_eq : s.scopes = tableOf (entries s.typeScopes) := by
  rw [scopes, hread]
  exact (parseScopes_eq_ok_iff.mp hread).2

/-- What is found by a test is the name of an entry. -/
theorem find?_scopedTypes_cases (p : String → Bool) :
    s.scopedTypes.find? p = none ∧ (∀ e ∈ entries s.typeScopes, ¬ p (entryName e) = true) ∨
      ∃ e ∈ entries s.typeScopes, s.scopedTypes.find? p = some (entryName e) ∧ p (entryName e) = true := by
  have hmem : ∀ n, n ∈ s.scopedTypes ↔ n ∈ (entries s.typeScopes).map entryName := fun n => by
    rw [scopedTypes, mem_mergeSort, scopes_eq hread, mem_keys_tableOf]
  cases hfound : s.scopedTypes.find? p with
  | none =>
    exact .inl ⟨rfl, fun e he => List.find?_eq_none.mp hfound _ ((hmem _).mpr (mem_map_of_mem he))⟩
  | some n =>
    obtain ⟨e, he, rfl⟩ := mem_map.mp ((hmem n).mp (mem_of_find?_eq_some hfound))
    exact .inr ⟨e, he, rfl, List.find?_some hfound⟩

/-- A name that is found has the bound of its entry. -/
theorem entryBound?_of_found (hnames : ((entries s.typeScopes).map entryName).Nodup)
    (hfound : ((s.scopedTypes.find? fun n => identifier n == identifier type) <|>
      s.scopedTypes.find? (same type)) = some (entryName e)) (he : e ∈ entries s.typeScopes) :
    entryBound? e = some (s.scopeOf type) := by
  have hfind := (find?_tableOf_iff hnames).mpr ⟨e, he, rfl, rfl⟩
  rw [((parseScopes_eq_ok_iff.mp hread).1 e he).bound, scopeOf, hfound, Option.bind_some, scopes_eq hread, hfind]

end

/-- **The bound of a class does not hang on the order of the entries.**  An entry that spells the class in
full goes first; then comes the one of its simple name, which has no dot; all other classes have the bound
of objects. -/
theorem scopeOf_exact (s : Settings) (type : String) {t : Table Nat}
    (hread : parseScopes s.typeScopes = .ok t)
    (hnames : ((entries s.typeScopes).map entryName).Nodup) :
    (∀ text, (entries text).Perm (entries s.typeScopes) →
      ({ s with typeScopes := text } : Settings).scopeOf type = s.scopeOf type) ∧
    ((∃ e ∈ entries s.typeScopes, identifier (entryName e) = identifier type) →
      ∃ e ∈ entries s.typeScopes, identifier (entryName e) = identifier type ∧
        entryBound? e = some (s.scopeOf type)) ∧
    ((∀ e ∈ entries s.typeScopes, identifier (entryName e) ≠ identifier type) →
      (∀ e ∈ entries s.typeScopes, entryName e = simple type → entryBound? e = some (s.scopeOf type)) ∧
      ((∀ e ∈ entries s.typeScopes, entryName e ≠ simple type) → s.scopeOf type = s.objectScope)) := by
  have hcases := find?_scopedTypes_cases hread
  refine ⟨fun text hperm => ?_, fun ⟨e, he, hid⟩ => ?_, fun hfull => ?_⟩
  · have hread' : parseScopes text = .ok (tableOf (entries text)) := parseScopes_eq_ok_iff.mpr
      ⟨fun e he => (parseScopes_eq_ok_iff.mp hread).1 e (hperm.subset he), rfl⟩
    have hfind : (tableOf (entries text)).find? = (tableOf (entries s.typeScopes)).find? := by
      refine funext fun n => Option.ext fun b => ?_
      rw [find?_tableOf_iff hnames, find?_tableOf_iff ((hperm.map entryName).nodup_iff.mpr hnames)]
      exact exists_congr fun e => and_congr_left fun _ => hperm.mem_iff
    have hkeys : ∀ n, n ∈ (tableOf (entries text)).keys ↔ n ∈ (tableOf (entries s.typeScopes)).keys :=
      fun n => by rw [mem_keys_tableOf, mem_keys_tableOf, (hperm.map entryName).mem_iff]
    have hscopes := scopes_eq (s := { s with typeScopes := text }) hread'
    simp only [scopeOf, scopedTypes, scopes_eq hread, hscopes, hfind, find?_mergeSort_congr hkeys]
  · rcases hcases fun n => identifier n == identifier type with ⟨-, hnone⟩ | ⟨e', he', hfound, hspelt⟩
    · exact absurd (beq_iff_eq.mpr hid) (hnone e he)
    · exact ⟨e', he', beq_iff_eq.mp hspelt, entryBound?_of_found hread hnames (by rw [hfound]; rfl) he'⟩
  · have hnone : (s.scopedTypes.find? fun n => identifier n == identifier type) = none := by
      rcases hcases fun n => identifier n == identifier type with h | ⟨e, he, -, hspelt⟩
      · exact h.1
      · exact absurd (beq_iff_eq.mp hspelt) (hfull e he)
    rcases hcases (same type) with ⟨hfound, hother⟩ | ⟨e', he', hfound, hsame⟩
    · refine ⟨fun e he hsimple => ?_, fun _ => ?_⟩
      · exact absurd ((same_iff_of_not_full (hfull e he)).mpr hsimple) (hother e he)
      · rw [scopeOf, hnone, hfound]
        rfl
    · have hsimple := (same_iff_of_not_full (hfull e' he')).mp hsame
      refine ⟨fun e he hname => ?_, fun hother => absurd hsimple (hother e' he')⟩
      refine entryBound?_of_found hread hnames ?_ he
      rw [hnone, hfound, hsimple, hname]
      rfl

/-- A bound by the whole name, one by the simple name, and none. -/
theorem scopeOf_exact_qualified :
    let s : Settings := { typeScopes := "b_T:2, T : 5,a.T:1" }
    s.scopeOf "b.T" = 2 ∧ s.scopeOf "c.T" = 5 ∧ s.scopeOf "U" = 3 := by
  have hperm : (entries "b_T:2, T : 5,a.T:1").Perm (entries "a.T:1, T : 5,b_T:2") := by decide
  have hexact := fun type => scopeOf_exact { typeScopes := "a.T:1, T : 5,b_T:2" } type rfl (by decide)
  have hfull : ∀ e ∈ ["a.T:1", " T : 5", "b_T:2"],
      identifier (entryName e) = identifier "b.T" → entryBound? e = some 2 := by decide
  simp only [fun type => (hexact type).1 _ hperm]
  refine ⟨?_, ?_, ((hexact "U").2.2 (by decide)).2 (by decide)⟩
  · obtain ⟨e, he, hid, hbound⟩ := (hexact "b.T").2.1 ⟨"b_T:2", by decide, by decide⟩
    exact Option.some.inj (hbound.symm.trans (hfull e he hid))
  · have hbound := ((hexact "c.T").2.2 (by decide)).1 " T : 5" (by decide) (by decide)
    exact Option.some.inj (hbound.symm.trans (by decide))

end Settings

end Relspec
