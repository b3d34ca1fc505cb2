/-!
# Table — finite maps from names

A table is an association list that insertion keeps free of repeated keys.  Keys stay in the order of
their first insertion, so a table also remembers that order.

* `find?_insert_self`, `find?_insert_of_ne`, `contains_insert` — what a look-up sees after an insertion;
* `find?_erase_self`, `find?_erase_of_ne` — and after a removal;
* `lookup_map_entries`, `find?_map` — and after the values are changed.
-/

namespace Relspec

/-- A finite map from names to values. -/
structure Table (α : Type) where
  entries : List (String × α)
deriving Repr

namespace Table

variable {α β : Type}

def empty : Table α := ⟨[]⟩

def find? (t : Table α) (key : String) : Option α := t.entries.lookup key

def contains (t : Table α) (key : String) : Bool := (t.find? key).isSome

/-- Sets the value at a key of an association list, in place when the key is there already. -/
def put (key : String) (value : α) : List (String × α) → List (String × α)
  | [] => [(key, value)]
  | (k, v) :: rest => if key = k then (key, value) :: rest else (k, v) :: put key value rest

def insert (t : Table α) (key : String) (value : α) : Table α := ⟨put key value t.entries⟩

def insertNew (t : Table α) (key : String) (value : α) : Table α :=
  if t.contains key then t else t.insert key value

def erase (t : Table α) (key : String) : Table α := ⟨t.entries.filter fun e => e.1 != key⟩

def filterKeys (t : Table α) (keep : String → Bool) : Table α :=
  ⟨t.entries.filter fun e => keep e.1⟩

/-- The table of an association list; the last of several values of one key counts. -/
def ofList (entries : List (String × α)) : Table α :=
  entries.foldl (fun t e => t.insert e.1 e.2) empty

/-- Adds every entry of the second table to the first. -/
def union (t u : Table α) : Table α := u.entries.foldl (fun t e => t.insert e.1 e.2) t

/-- The keys in the order of their first insertion. -/
def keys (t : Table α) : List String := t.entries.map (·.1)

def size (t : Table α) : Nat := t.entries.length

def map (f : α → β) (t : Table α) : Table β := ⟨t.entries.map fun e => (e.1, f e.2)⟩

theorem lookup_put_self (key : String) (value : α) (l : List (String × α)) :
    (put key value l).lookup key = some value := by
  induction l with
  | nil => simp [put]
  | cons e rest ih =>
    obtain ⟨k, v⟩ := e
    by_cases h : key = k
    · simp [put, h]
    · have hk : (key == k) = false := by simpa using h
      simp [put, h, List.lookup_cons, hk, ih]

theorem lookup_put_of_ne {key other : String} (h : other ≠ key) (value : α)
    (l : List (String × α)) : (put key value l).lookup other = l.lookup other := by
  have hok : (other == key) = false := by simpa using h
  induction l with
  | nil => simp [put, List.lookup_cons, hok]
  | cons e rest ih =>
    obtain ⟨k, v⟩ := e
    by_cases hk : key = k
    · subst hk; simp [put, List.lookup_cons, hok]
    · simp [put, hk, List.lookup_cons, ih]

@[simp] theorem find?_insert_self (t : Table α) (key : String) (value : α) :
    (t.insert key value).find? key = some value := lookup_put_self key value t.entries

theorem find?_insert_of_ne (t : Table α) {key other : String} (h : other ≠ key) (value : α) :
    (t.insert key value).find? other = t.find? other := lookup_put_of_ne h value t.entries

theorem contains_insert (t : Table α) (key x : String) (value : α) :
    (t.insert key value).contains x = true ↔ t.contains x = true ∨ x = key := by
  by_cases h : x = key
  · simp [contains, h]
  · simp [contains, find?_insert_of_ne t h, h]

theorem lookup_filter_of_keep (keep : String → Bool) {key : String} (h : keep key = true)
    (l : List (String × α)) : (l.filter fun e => keep e.1).lookup key = l.lookup key := by
  induction l with
  | nil => rfl
  | cons e rest ih =>
    obtain ⟨k, v⟩ := e
    by_cases hk : key = k
    · subst hk; simp [h]
    · have hkey : (key == k) = false := by simpa using hk
      cases hkeep : keep k <;> simp [hkeep, List.lookup_cons, hkey, ih]

theorem lookup_filter_of_drop (keep : String → Bool) {key : String} (h : keep key = false)
    (l : List (String × α)) : (l.filter fun e => keep e.1).lookup key = none := by
  induction l with
  | nil => rfl
  | cons e rest ih =>
    obtain ⟨k, v⟩ := e
    cases hkeep : keep k with
    | false => simp [hkeep, ih]
    | true =>
      have hne : key ≠ k := by rintro rfl; simp [h] at hkeep
      have hkey : (key == k) = false := by simpa using hne
      simp [hkeep, List.lookup_cons, hkey, ih]

@[simp] theorem find?_erase_self (t : Table α) (key : String) : (t.erase key).find? key = none :=
  lookup_filter_of_drop (fun k => k != key) (by simp) t.entries

theorem find?_erase_of_ne (t : Table α) {key other : String} (h : other ≠ key) :
    (t.erase key).find? other = t.find? other := by
  have hk : (other != key) = true := by simpa using h
  exact lookup_filter_of_keep (fun k => k != key) hk t.entries

theorem lookup_map_entries (f : String → α → β) (key : String) (l : List (String × α)) :
    (l.map fun e => (e.1, f e.1 e.2)).lookup key = (l.lookup key).map (f key) := by
  induction l with
  | nil => rfl
  | cons e rest ih =>
    obtain ⟨k, v⟩ := e
    by_cases h : key = k
    · simp [h]
    · have hk : (key == k) = false := by simpa using h
      simp [List.lookup_cons, hk, ih]

theorem find?_map (f : α → β) (t : Table α) (key : String) :
    (t.map f).find? key = (t.find? key).map f := lookup_map_entries (fun _ => f) key t.entries

end Table

end Relspec
