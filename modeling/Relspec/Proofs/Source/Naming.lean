import Relspec.Proofs.Text.Number
import Relspec.Source.Naming

/-!
# Proofs/Source/Naming — issued names and names that are kept

A name that is issued is told from another by its number, and from a name that is kept by its stem.  So
what a variable is newly called is the name of no other variable.

* `Closed` — tests on computations that hold of what is put together from such computations;
* `Called k x y` — a variable `x` may be called `y` once `k` names have been issued;
* `Called.ne_binding` — a newly bound variable is called differently.
-/

namespace Relspec

/-! ## Tests on computations -/

/-- **A test on computations that is kept by putting them together.** -/
structure Closed {M : Type → Type} [Monad M] (C : (α : Type) → M α → Prop) : Prop where
  pure : ∀ {α : Type} (a : α), C α (Pure.pure a)
  bind : ∀ {α β : Type} {x : M α} {f : α → M β}, C α x → (∀ a, C β (f a)) → C β (x >>= f)

namespace Closed

variable {M : Type → Type} [Monad M] {C : (α : Type) → M α → Prop} {α β : Type}

theorem last (h : Closed C) {x : M α} (hx : C α x) {f : α → β} : C β (x >>= fun a => Pure.pure (f a)) :=
  h.bind hx fun a => h.pure (f a)

theorem map [LawfulMonad M] (h : Closed C) {x : M α} (hx : C α x) (f : α → β) : C β (f <$> x) := by
  rw [map_eq_pure_bind]
  exact h.last hx

theorem mapM [LawfulMonad M] (h : Closed C) {f : α → M β} (hf : ∀ a, C β (f a)) :
    ∀ l : List α, C (List β) (l.mapM f)
  | [] => by
    rw [List.mapM_nil]
    exact h.pure []
  | a :: l => by
    rw [List.mapM_cons]
    exact h.bind (hf a) fun b => h.bind (h.mapM hf l) fun bs => h.pure (b :: bs)

theorem optional [LawfulMonad M] (h : Closed C) {f : α → M β} (hf : ∀ a, C β (f a)) :
    ∀ o : Option α, C (Option β) (o.mapM f)
  | none => h.pure none
  | some a => by
    rw [Option.mapM_some]
    exact h.map (hf a) some

theorem foldlM (h : Closed C) {f : β → α → M β} (hf : ∀ b a, C β (f b a)) :
    ∀ (l : List α) (b : β), C β (l.foldlM f b)
  | [], b => h.pure b
  | a :: l, b => by
    rw [List.foldlM_cons]
    exact h.bind (hf b a) fun c => h.foldlM hf l c

end Closed

namespace Naming

theorem run_bind {α β : Type} (x : Naming α) (f : α → Naming β) (k : Nat) :
    (x >>= f).run k = (f (x.run k).1).run (x.run k).2 := rfl

theorem run_pure {α : Type} (a : α) (k : Nat) : (pure a : Naming α).run k = (a, k) := rfl

theorem run_fresh (name : String) (k : Nat) : (fresh name).run k = (issued (k + 1) name, k + 1) := rfl

/-- **A test that holds of whatever is put together from computations that issue a name.** -/
structure Hereditary (C : (α : Type) → Naming α → Prop) : Prop extends Closed C where
  fresh : ∀ x, C String (fresh x)

theorem Hereditary.binding {C : (α : Type) → Naming α → Prop} (hC : Hereditary C) (x : String) :
    C String (binding x) := by
  rw [Naming.binding]
  split
  · exact hC.fresh x
  · exact hC.pure x

/-- No name that was issued is taken back. -/
theorem hereditary_le : Hereditary fun α (x : Naming α) => ∀ k, k ≤ (x.run k).2 where
  pure _ := Nat.le_refl
  bind hx hf k := Nat.le_trans (hx k) (hf _ _)
  fresh _ := Nat.le_succ

theorem le_binding (x : String) (k : Nat) : k ≤ ((binding x).run k).2 := hereditary_le.binding x k

/-! ## Issued names -/

theorem toList_issued (n : Nat) (name : String) :
    (issued n name).toList = "var_".toList ++ (Nat.toDigits 10 n ++
      '_' :: name.toList.map fun c => if c = '$' then '_' else c) := by
  simp [issued, Nat.toString_eq_repr]

/-- **An issued name has one number.** -/
theorem issued_inj {n n' : Nat} {name name' : String} (h : issued n name = issued n' name') : n = n' := by
  have hl := congrArg String.toList h
  rw [toList_issued, toList_issued, List.append_cancel_left_eq] at hl
  exact (Text.toDigits_mark_inj hl).1

/-- An issued name cannot be kept. -/
theorem needsFresh_issued (n : Nat) (name : String) : needsFresh (issued n name) = true := by
  have hstem : Text.startsWith (issued n name) "var_" = true := by
    rw [Text.startsWith, toList_issued, Text.after?_append]
    rfl
  simp [needsFresh, generated, hstem]

/-! ## What a variable is called -/

/-- **What a variable `x` may be called** once `k` names have been issued: its own name, when that can be
kept, or one of the names issued. -/
inductive Called (k : Nat) (x : String) : String → Prop where
  | kept (h : needsFresh x = false) : Called k x x
  | issued (n : Nat) (z : String) (h : n ≤ k) : Called k x (Naming.issued n z)

variable {k m : Nat} {x y : String}

theorem Called.mono (h : Called k x y) (hle : k ≤ m) : Called m x y := by
  cases h with
  | kept h => exact .kept h
  | issued n z h => exact .issued n z (Nat.le_trans h hle)

/-- What a newly bound variable is called. -/
theorem called_binding (x : String) (k : Nat) :
    Called ((binding x).run k).2 x ((binding x).run k).1 := by
  rw [binding]
  split
  · exact .issued (k + 1) x (Nat.le_refl _)
  · next h => exact .kept (Bool.eq_false_iff.mpr h)

/-- A name that is issued next is no name before it. -/
theorem Called.ne_issued (h : Called k x y) (z : String) (hlt : k < m) : y ≠ Naming.issued m z := by
  intro heq
  cases h with
  | kept h => exact Bool.false_ne_true (h.symm.trans (heq ▸ needsFresh_issued m z))
  | issued n z' hn => exact absurd (issued_inj heq ▸ hn) (Nat.not_le.mpr hlt)

/-- No variable is called like a reserved word. -/
theorem Called.ne_of_reserved (h : Called k x y) {word : String} (hword : word ∈ reserved) : y ≠ word := by
  have hstem : ∀ w ∈ reserved, Text.startsWith w "var_" = false := by decide
  rintro rfl
  cases h with
  | kept h => simp [needsFresh, hword] at h
  | issued n z _ =>
    have hissued := hstem _ hword
    rw [Text.startsWith, toList_issued, Text.after?_append] at hissued
    exact Bool.noConfusion hissued

/-- **A newly bound variable is called differently** than the variables before it. -/
theorem Called.ne_binding {var : String} (h : Called k x y) (hne : x ≠ var) :
    y ≠ ((binding var).run k).1 := by
  rw [binding]
  split
  · exact h.ne_issued var (Nat.lt_succ_self k)
  · next hvar =>
    cases h with
    | kept _ => exact hne
    | issued n z _ =>
      exact fun heq : Naming.issued n z = var => hvar (heq ▸ needsFresh_issued n z)

end Naming

end Relspec
