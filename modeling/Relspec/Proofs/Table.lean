import Mathlib.Data.List.Basic
import Relspec.Table

/-!
# Proofs/Table — what tables hold

* `Table.Forall` — a property of every entry, kept by what is done to a table;
* `find?_foldl_insert`, `contains_foldl_insert` — entries put into a table one after the other;
* `mem_keys_iff`, `nodup_keys_insert` — the keys of a table are those that have a value, each once;
* `keys_insert_of_not_mem`, `keys_erase` — the keys with one more, and with one less;
* `mem_keys_ofList`, `mem_keys_union`, `find?_filterKeys` — whole tables, joined and cut down.
-/

namespace Relspec.Table

open List

variable {α β : Type}
variable {t : Table α} {key x : String} {value : α}

/-- Entries put into a table one after the other. -/
theorem find?_foldl_insert {key : β → String} {value : β → α} {a : α} :
    ∀ {bs : List β} {t : Table α},
      (bs.foldl (fun t b => t.insert (key b) (value b)) t).find? x = some a →
        t.find? x = some a ∨ ∃ b ∈ bs, key b = x ∧ value b = a
  | [], _, h => .inl h
  | b :: bs, t, h => by
    rw [foldl_cons] at h
    rcases find?_foldl_insert h with h | ⟨c, hc, hca⟩
    · by_cases hx : x = key b
      · rw [hx, find?_insert_self] at h
        exact .inr ⟨b, mem_cons_self, hx.symm, Option.some.inj h⟩
      · rw [find?_insert_of_ne t hx] at h
        exact .inl h
    · exact .inr ⟨c, mem_cons_of_mem b hc, hca⟩

theorem contains_foldl_insert {key : β → String} {value : β → α} :
    ∀ {bs : List β} {t : Table α},
      (bs.foldl (fun t b => t.insert (key b) (value b)) t).contains x = true ↔
        t.contains x = true ∨ x ∈ bs.map key
  | [], t => by simp
  | b :: bs, t => by
    rw [foldl_cons, contains_foldl_insert, contains_insert, map_cons, mem_cons, or_assoc]

theorem find?_insertNew_of_some {a : α} (h : t.find? x = some a) :
    (t.insertNew key value).find? x = some a := by
  rw [insertNew]
  split
  · exact h
  · next hnew =>
    rw [find?_insert_of_ne, h]
    rintro rfl
    exact hnew (by rw [contains, h]; rfl)

theorem contains_insertNew : (t.insertNew key value).contains x = true ↔ t.contains x = true ∨ x = key := by
  rw [insertNew]
  split
  · next hold => exact (or_iff_left_of_imp fun h => h ▸ hold).symm
  · exact contains_insert ..

theorem contains_foldl_insertNew {key : β → String} {value : β → α} :
    ∀ {bs : List β} {t : Table α},
      (bs.foldl (fun t b => t.insertNew (key b) (value b)) t).contains x = true ↔
        t.contains x = true ∨ x ∈ bs.map key
  | [], t => by simp
  | b :: bs, t => by
    rw [foldl_cons, contains_foldl_insertNew, contains_insertNew, map_cons, mem_cons, or_assoc]

theorem mem_keys_iff : key ∈ t.keys ↔ t.contains key = true := by
  rw [contains, find?, lookup_isSome_iff, keys, mem_map]
  refine exists_congr fun e => and_congr_right fun _ => ?_
  rw [beq_iff_eq, eq_comm]

theorem not_mem_keys (h : t.find? key = none) : key ∉ t.keys := by
  rw [mem_keys_iff, contains, h]
  exact Bool.false_ne_true

theorem mem_keys_insert : x ∈ (t.insert key value).keys ↔ x ∈ t.keys ∨ x = key := by
  rw [mem_keys_iff, mem_keys_iff, contains_insert]

theorem mem_keys_ofList {entries : List (String × α)} :
    x ∈ (ofList entries).keys ↔ x ∈ entries.map (·.1) := by
  have hempty : (empty : Table α).contains x = false := rfl
  rw [mem_keys_iff, ofList, contains_foldl_insert, hempty]
  exact or_iff_right Bool.false_ne_true

theorem mem_keys_union {u : Table α} : x ∈ (t.union u).keys ↔ x ∈ t.keys ∨ x ∈ u.keys := by
  rw [mem_keys_iff, union, contains_foldl_insert, ← mem_keys_iff]
  rfl

theorem find?_filterKeys (t : Table α) (keep : String → Bool) (key : String) :
    (t.filterKeys keep).find? key = if keep key then t.find? key else none := by
  split
  · next h => exact lookup_filter_of_keep keep h t.entries
  · next h => exact lookup_filter_of_drop keep (Bool.eq_false_iff.mpr h) t.entries

theorem keys_insert_of_not_mem : ∀ {entries : List (String × α)},
    key ∉ keys ⟨entries⟩ → (Table.insert ⟨entries⟩ key value).keys = keys ⟨entries⟩ ++ [key]
  | [], _ => rfl
  | (k, v) :: rest, h => by
    obtain ⟨hne, hrest⟩ := not_or.mp (mt mem_cons.mpr h)
    rw [insert, put, if_neg hne]
    exact congrArg (k :: ·) (keys_insert_of_not_mem hrest)

theorem map_insert (f : α → β) (t : Table α) (key : String) (value : α) :
    (t.insert key value).map f = (t.map f).insert key (f value) := by
  have hput : ∀ l : List (String × α),
      (put key value l).map (fun e => (e.1, f e.2)) = put key (f value) (l.map fun e => (e.1, f e.2)) := by
    intro l
    induction l with
    | nil => rfl
    | cons e rest ih =>
      rw [put, map_cons, put]
      split <;> simp [ih]
  exact congrArg Table.mk (hput t.entries)

theorem keys_erase (t : Table α) (key : String) : (t.erase key).keys = t.keys.filter (· != key) := by
  rw [erase, keys, keys, filter_map]
  rfl

theorem nodup_keys_insert : ∀ {entries : List (String × α)},
    (keys ⟨entries⟩).Nodup → (Table.insert ⟨entries⟩ key value).keys.Nodup
  | [], _ => nodup_cons.mpr ⟨not_mem_nil, nodup_nil⟩
  | (k, v) :: rest, h => by
    obtain ⟨hk, hrest⟩ := nodup_cons.mp h
    rw [insert, put]
    split
    · next heq => exact heq ▸ h
    · next hne =>
      refine nodup_cons.mpr ⟨fun hmem => ?_, nodup_keys_insert hrest⟩
      rcases (mem_keys_insert (t := ⟨rest⟩)).mp hmem with hmem | heq
      · exact hk hmem
      · exact hne heq.symm

theorem find?_of_mem (h : t.keys.Nodup) {e : String × α} (he : e ∈ t.entries) : t.find? e.1 = some e.2 := by
  obtain ⟨front, back, hentries⟩ := append_of_mem he
  refine lookup_eq_some_iff.mpr ⟨front, back, hentries, fun p hp => ?_⟩
  rw [keys, hentries, map_append, nodup_append] at h
  rw [bne_iff_ne]
  exact (h.2.2 p.1 (mem_map_of_mem hp) e.1 (mem_map_of_mem mem_cons_self)).symm

/-! ## Properties of all entries -/

/-- **Every entry of a table has a property.** -/
def Forall (P : String → α → Prop) (t : Table α) : Prop := ∀ e ∈ t.entries, P e.1 e.2

namespace Forall

variable {P : String → α → Prop} {t u : Table α} {key : String} {value : α}

theorem empty : (Table.empty : Table α).Forall P := nofun

theorem imp {Q : String → α → Prop} (h : t.Forall P) (hPQ : ∀ key value, P key value → Q key value) :
    t.Forall Q := fun e he => hPQ e.1 e.2 (h e he)

theorem find? (h : t.Forall P) (hfind : t.find? key = some value) : P key value := by
  rw [Table.find?, lookup_eq_some_iff] at hfind
  obtain ⟨front, back, hentries, -⟩ := hfind
  exact h (key, value) (by rw [hentries]; simp)

theorem put (hvalue : P key value) : ∀ {l : List (String × α)}, (∀ e ∈ l, P e.1 e.2) →
    ∀ e ∈ Table.put key value l, P e.1 e.2
  | [], _ => forall_mem_singleton.mpr hvalue
  | (k, v) :: rest, h => by
    obtain ⟨hfirst, hrest⟩ := forall_mem_cons.mp h
    rw [Table.put]
    split
    · exact forall_mem_cons.mpr ⟨hvalue, hrest⟩
    · exact forall_mem_cons.mpr ⟨hfirst, put hvalue hrest⟩

theorem insert (h : t.Forall P) (hvalue : P key value) : (t.insert key value).Forall P := put hvalue h

theorem insertNew (h : t.Forall P) (hvalue : P key value) : (t.insertNew key value).Forall P := by
  rw [Table.insertNew]
  split
  · exact h
  · exact h.insert hvalue

theorem foldl_insert : ∀ {entries : List (String × α)} {t : Table α}, t.Forall P →
    (∀ e ∈ entries, P e.1 e.2) → (entries.foldl (fun t e => t.insert e.1 e.2) t).Forall P
  | [], _, h, _ => h
  | e :: entries, _, h, hentries => by
    obtain ⟨hfirst, hrest⟩ := forall_mem_cons.mp hentries
    rw [foldl_cons]
    exact foldl_insert (h.insert hfirst) hrest

theorem ofList {entries : List (String × α)} (h : ∀ e ∈ entries, P e.1 e.2) :
    (Table.ofList entries).Forall P := foldl_insert .empty h

theorem union (h : t.Forall P) (hu : u.Forall P) : (t.union u).Forall P := foldl_insert h hu

theorem filter (h : t.Forall P) (keep : String × α → Bool) : Forall P ⟨t.entries.filter keep⟩ :=
  fun e he => h e (mem_filter.mp he).1

end Forall

end Relspec.Table
