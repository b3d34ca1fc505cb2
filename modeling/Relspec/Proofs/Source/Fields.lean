import Mathlib.Data.List.Chain
import Mathlib.Data.List.Nodup
import Mathlib.Data.List.Perm.Subperm
import Relspec.Proofs.Table
import Relspec.Source.ClassTable

/-!
# Proofs/Source/Fields — inherited fields are those of the nearest declaration

The fields of a class are collected along its superclasses, at most as often as there are classes and once
more.  This bound never cuts a chain of distinct classes, and a chain that runs in a circle brings nothing
new after its first round.

* `Chain`, `exists_chain_of` — the chain of a class: its superclasses up to a missing or a repeated one;
* `find?_collect` — the fields collected along the classes that are looked at;
* `fieldsOf_nearest` — the fields of a class.
-/

namespace Relspec

open List

namespace Table

variable {α β : Type} {x : String}

theorem find?_insertNew {t : Table α} {key : String} {value : α} :
    (t.insertNew key value).find? x = (t.find? x).or (if key = x then some value else none) := by
  rw [insertNew, contains]
  by_cases hx : key = x
  · subst hx
    cases h : t.find? key <;> simp [h]
  · split_ifs with hold
    · simp
    · simp [find?_insert_of_ne t (Ne.symm hx)]

/-- Of entries put into a table one after the other, each if its key is new, the first with a key counts. -/
theorem find?_foldl_insertNew {key : β → String} {value : β → α} : ∀ {bs : List β} {t : Table α},
    (bs.foldl (fun t b => t.insertNew (key b) (value b)) t).find? x =
      (t.find? x).or ((bs.find? (key · = x)).map value)
  | [], _ => by simp
  | b :: bs, t => by
    rw [foldl_cons, find?_foldl_insertNew, find?_insertNew, List.find?_cons, Option.or_assoc]
    by_cases hb : key b = x <;> simp [hb]

end Table

namespace Source.ClassTable

variable {classes l : List ClassDecl} {c d s : ClassDecl} {x : String}

/-- The superclass of a class, if it is a class of the run. -/
def superclass? (classes : List ClassDecl) (c : ClassDecl) : Option ClassDecl :=
  c.superclass.bind (lookup? classes)

/-- **The chain of a class**: the class, its superclass and so on, each once, up to a superclass that is
missing or in the chain already. -/
structure Chain (classes : List ClassDecl) (c : ClassDecl) (l : List ClassDecl) : Prop where
  starts : l.head? = some c
  next : l.IsChain fun d s => superclass? classes d = some s
  distinct : l.Nodup
  ends : ∀ d ∈ l, ∀ s, superclass? classes d = some s → s ∈ l

/-- The relation of the first field with a name that a class declares. -/
def declared? (classes : List ClassDecl) (x : String) (d : ClassDecl) : Option Var :=
  (d.fields.find? (·.name = x)).map fun f => ⟨d.id ++ "_" ++ x, (typeOf? classes f.type).getD .int⟩

/-! ## The classes that are looked at -/

/-- The classes that `collect` looks at. -/
def looked (classes : List ClassDecl) : Nat → ClassDecl → List ClassDecl
  | 0, _ => []
  | n + 1, c => c :: (superclass? classes c).toList.flatMap (looked classes n)

theorem find?_addFields {found : Table Var} :
    (addFields classes c found).find? x = (found.find? x).or (declared? classes x c) := by
  rw [addFields, Table.find?_foldl_insertNew, declared?]
  cases hf : c.fields.find? (·.name = x) with
  | none => rfl
  | some f =>
    have hname : f.name = x := by simpa using List.find?_some hf
    simp [relation, hname]

/-- **What is collected** is what the nearest of the classes that are looked at declares. -/
theorem find?_collect : ∀ {n : Nat} {c : ClassDecl} {found : Table Var},
    (collect classes n c found).find? x =
      (found.find? x).or ((looked classes n c).findSome? (declared? classes x))
  | 0, _, found => by simp [collect, looked]
  | n + 1, c, found => by
    rw [collect, looked, superclass?, List.findSome?_cons]
    cases c.superclass.bind (lookup? classes) with
    | none => simp [find?_addFields]; cases declared? classes x c <;> rfl
    | some s =>
      simp only [find?_collect, find?_addFields, Option.or_assoc, Option.toList_some, flatMap_cons,
        flatMap_nil, append_nil]
      cases declared? classes x c <;> rfl

/-- A chain that is not longer than the bound is looked at, and what is looked at after it is in it. -/
theorem looked_of_isChain : ∀ {l : List ClassDecl} {c : ClassDecl} {n : Nat},
    (c :: l).IsChain (fun d s => superclass? classes d = some s) → l.length < n →
      ∃ rest, looked classes n c = c :: l ++ rest
  | [], c, n + 1, _, _ => ⟨_, rfl⟩
  | s :: l, c, n + 1, h, hn => by
    obtain ⟨hs, h⟩ := isChain_cons_cons.mp h
    obtain ⟨rest, hrest⟩ := looked_of_isChain h (Nat.lt_of_succ_lt_succ hn)
    exact ⟨rest, by simp [looked, hs, hrest]⟩

theorem looked_subset (hends : ∀ d ∈ l, ∀ s, superclass? classes d = some s → s ∈ l) :
    ∀ {n : Nat} {d : ClassDecl}, d ∈ l → looked classes n d ⊆ l
  | 0, _, _ => nil_subset l
  | n + 1, d, hd => by
    rw [looked, cons_subset]
    refine ⟨hd, fun e he => ?_⟩
    obtain ⟨s, hs, he⟩ := mem_flatMap.mp he
    exact looked_subset hends (hends d hd s (Option.mem_toList.mp hs)) he

/-! ## Chains -/

theorem mem_of_superclass? (h : superclass? classes d = some s) : s ∈ classes := by
  obtain ⟨name, -, hs⟩ := Option.bind_eq_some_iff.mp h
  exact mem_of_find?_eq_some hs

theorem subset_of_isChain : ∀ {l : List ClassDecl} {c : ClassDecl},
    (c :: l).IsChain (fun d s => superclass? classes d = some s) → c ∈ classes → c :: l ⊆ classes
  | [], _, _, hc => by simpa using hc
  | _ :: _, _, h, hc => by
    obtain ⟨hs, h⟩ := isChain_cons_cons.mp h
    exact cons_subset.mpr ⟨hc, subset_of_isChain h (mem_of_superclass? hs)⟩

/-- The superclass of a class on the way is the next class. -/
theorem superclass?_of_isChain : ∀ {l : List ClassDecl},
    l.IsChain (fun d s => superclass? classes d = some s) → d ∈ l → superclass? classes d = some s →
      s ∈ l ∨ l.getLast? = some d
  | [d'], _, hd, _ => .inr (by simpa [eq_comm] using hd)
  | d' :: s' :: l, h, hd, hs => by
    obtain ⟨hs', h⟩ := isChain_cons_cons.mp h
    rcases mem_cons.mp hd with rfl | hd
    · obtain rfl := Option.some.inj (hs'.symm.trans hs)
      exact .inl (by simp)
    · refine (superclass?_of_isChain h hd hs).imp (mem_cons_of_mem d') fun hlast => ?_
      rwa [List.getLast?_cons_cons]

theorem length_le (hdistinct : l.Nodup) (hsub : l ⊆ classes) : l.length ≤ classes.length :=
  (subperm_of_subset hdistinct hsub).length_le

/-- **Every class has a chain.**  As long as the last superclass is a new class the chain gets longer, and
it is no longer than there are classes. -/
theorem exists_chain_of (l : List ClassDecl) (hstarts : l.head? = some c)
    (hnext : l.IsChain fun d s => superclass? classes d = some s) (hdistinct : l.Nodup)
    (hsub : l ⊆ classes) : ∃ l, Chain classes c l := by
  by_cases hends : ∀ d ∈ l, ∀ s, superclass? classes d = some s → s ∈ l
  · exact ⟨l, hstarts, hnext, hdistinct, hends⟩
  · push Not at hends
    obtain ⟨d, hd, s, hs, hnew⟩ := hends
    have hlast := (superclass?_of_isChain hnext hd hs).resolve_left hnew
    have hlonger : (l ++ [s]).Nodup :=
      hdistinct.append (nodup_singleton s) (disjoint_singleton.mpr hnew)
    have hsub' : l ++ [s] ⊆ classes :=
      append_subset.mpr ⟨hsub, by simpa using mem_of_superclass? hs⟩
    have hlength := length_le hlonger hsub'
    refine exists_chain_of (l ++ [s]) ?_ (hnext.append (isChain_singleton s) ?_) hlonger hsub'
    · rw [List.head?_append, hstarts]
      rfl
    · rintro d' hd' s' hs'
      obtain rfl := Option.some.inj (hlast.symm.trans hd')
      obtain rfl : s = s' := by simpa using hs'
      exact hs
termination_by classes.length - l.length
decreasing_by
  rw [length_append, length_singleton] at hlength ⊢
  omega

/-- **Inherited fields resolve to the nearest declaration.**  Every class has a chain, and the field with a
name is the first that the nearest class on its chain with such a field declares. -/
theorem fieldsOf_nearest (classes : List ClassDecl) {c : ClassDecl} (hc : c ∈ classes) :
    (∃ l, Chain classes c l) ∧ ∀ l, Chain classes c l → ∀ x,
      ((fieldsOf classes c).contains x = true ↔ ∃ d ∈ l, ∃ f ∈ d.fields, f.name = x) ∧
      (fieldsOf classes c).find? x = l.findSome? (declared? classes x) := by
  refine ⟨exists_chain_of [c] rfl (List.isChain_singleton c) (List.nodup_singleton c) (by simpa using hc),
    fun l h x => ?_⟩
  obtain ⟨l, rfl⟩ := List.head?_eq_some_iff.mp h.starts
  have hlength := length_le h.distinct (subset_of_isChain h.next hc)
  obtain ⟨rest, hrest⟩ := looked_of_isChain (n := classes.length + 1) h.next (by simp at hlength; omega)
  have hback : rest ⊆ c :: l := fun d hd =>
    looked_subset h.ends List.mem_cons_self (hrest ▸ List.mem_append_right _ hd)
  have hfind : (fieldsOf classes c).find? x = (c :: l).findSome? (declared? classes x) := by
    rw [fieldsOf, find?_collect, hrest, List.findSome?_append]
    cases hnear : (c :: l).findSome? (declared? classes x) with
    | some v => rfl
    | none =>
      rw [List.findSome?_eq_none_iff] at hnear
      exact List.findSome?_eq_none_iff.mpr fun d hd => hnear d (hback hd)
  refine ⟨?_, hfind⟩
  rw [Table.contains, hfind, List.isSome_findSome?, List.any_eq_true]
  simp [declared?]

/-- A class without methods. -/
def recordClass (name superclass : String) (fields : List (String × String)) : ClassDecl :=
  { file := "", name, superclass, fields := fields.map fun f => ⟨.start, f.1, some ⟨f.2, false⟩⟩ }

/-- A class that declares a field twice, and extends a class that extends it. -/
def node : ClassDecl := recordClass "Node" "Base" [("size", "int"), ("size", "boolean")]

def base : ClassDecl := recordClass "Base" "Node" [("size", "boolean"), ("next", "Node")]

/-- Two classes that extend each other. -/
theorem fieldsOf_nearest_circle : Chain [node, base] node [node, base] ∧
    (fieldsOf [node, base] node).find? "size" = some ⟨"Node_size", .int⟩ ∧
    (fieldsOf [node, base] node).find? "next" = some ⟨"Base_next", .ref "Node"⟩ ∧
    (fieldsOf [node, base] node).find? "last" = none := by
  have hnode : superclass? [node, base] node = some base := rfl
  have hbase : superclass? [node, base] base = some node := rfl
  have hchain : Chain [node, base] node [node, base] := by
    refine ⟨rfl, by simp [hnode], ?_, by simp [hnode, hbase]⟩
    have hne : node ≠ base := fun h => absurd (congrArg ClassDecl.name h) (by decide)
    simp [hne]
  have h := (fieldsOf_nearest [node, base] (c := node) (by simp)).2 _ hchain
  exact ⟨hchain, (h "size").2, (h "next").2, (h "last").2⟩

end Source.ClassTable

end Relspec
