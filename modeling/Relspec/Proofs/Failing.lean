import Mathlib.Data.List.Forall2

/-!
# Proofs/Failing — computations that may fail

A computation that succeeds has gone through all its parts.

* `exists_of_except_ok`, `exists_of_bind_ok` — two parts, without a state and with one;
* `exists_of_except_error`, `exists_of_mapM_error` — the part that a computation failed at;
* `forall₂_of_mapM_ok`, `forall₂_of_mapM_run_ok` — one part for each element of a list;
* `Preserves` — what every part leaves alone is left alone, whether or not the computation succeeds.
-/

namespace Relspec

open List

section

variable {ε α β : Type} {f : α → Except ε β}
variable {x : Except ε α} {b : β} {R : α → β → Prop} {Q : β → Prop} {l : List α} {bs : List β}

theorem exists_of_except_ok (h : x >>= f = .ok b) : ∃ a, x = .ok a ∧ f a = .ok b := by
  cases x with
  | ok a => exact ⟨a, rfl, h⟩
  | error e => cases h

theorem exists_of_except_map_ok {f : α → β} (h : x.map f = .ok b) : ∃ a, x = .ok a ∧ f a = b := by
  cases x with
  | ok a => exact ⟨a, rfl, Except.ok.inj h⟩
  | error e => cases h

theorem exists_of_except_error {e : ε} (h : x >>= f = .error e) :
    x = .error e ∨ ∃ a, x = .ok a ∧ f a = .error e := by
  cases x with
  | ok a => exact .inr ⟨a, rfl, h⟩
  | error e =>
    cases h
    exact .inl rfl

/-- The element that the results failed at. -/
theorem exists_of_mapM_error {e : ε} : ∀ {l : List α}, l.mapM f = .error e → ∃ a ∈ l, f a = .error e
  | [], h => by cases h
  | a :: l, h => by
    rw [mapM_cons] at h
    rcases exists_of_except_error h with h | ⟨_, -, h⟩
    · exact ⟨a, mem_cons_self, h⟩
    · rcases exists_of_except_error h with h | ⟨_, -, h⟩
      · obtain ⟨b, hb, h⟩ := exists_of_mapM_error h
        exact ⟨b, mem_cons_of_mem a hb, h⟩
      · cases h

/-- A list of results, one for each element. -/
theorem forall₂_of_mapM_ok : ∀ {l : List α} {bs : List β},
    l.mapM f = .ok bs → List.Forall₂ (fun a b => f a = .ok b) l bs
  | [], bs, h => by
    rw [mapM_nil] at h
    cases h
    exact .nil
  | a :: l, bs, h => by
    rw [mapM_cons] at h
    obtain ⟨b, hb, h⟩ := exists_of_except_ok h
    obtain ⟨bs', hbs', h⟩ := exists_of_except_ok h
    cases h
    exact .cons hb (forall₂_of_mapM_ok hbs')

/-- Two lists that go together element by element. -/
theorem forall_mem_iff_of_forall₂ {P : α → Prop} (h : List.Forall₂ R l bs) (hR : ∀ a b, R a b → (P a ↔ Q b)) :
    (∀ a ∈ l, P a) ↔ ∀ b ∈ bs, Q b := by
  induction h with
  | nil => exact iff_of_true nofun nofun
  | cons hab _ ih => rw [forall_mem_cons, forall_mem_cons, hR _ _ hab, ih]

theorem forall_mem_of_forall₂_mem (h : List.Forall₂ R l bs) (hR : ∀ a b, a ∈ l → R a b → Q b) :
    ∀ b ∈ bs, Q b := by
  induction h with
  | nil => exact nofun
  | cons hab _ ih =>
    refine forall_mem_cons.mpr ⟨hR _ _ mem_cons_self hab, ih fun a b ha => ?_⟩
    exact hR a b (mem_cons_of_mem _ ha)

/-- What the elements show is what the results show. -/
theorem map_eq_of_forall₂ {γ : Type} {k : α → γ} {g : β → γ} (h : List.Forall₂ R l bs)
    (hR : ∀ a b, R a b → g b = k a) : bs.map g = l.map k := by
  rw [← forall₂_eq_eq_eq, forall₂_map_left_iff, forall₂_map_right_iff]
  exact (h.imp hR).flip

theorem forall_mem_of_forall₂ (h : List.Forall₂ R l bs) (hR : ∀ a b, R a b → Q b) : ∀ b ∈ bs, Q b :=
  forall_mem_of_forall₂_mem h fun a b _ => hR a b

end

variable {ε σ α β : Type} {x : ExceptT ε (StateM σ) α} {f : α → ExceptT ε (StateM σ) β} {s s₁ : σ}

theorem run_bind_of_ok {a : α} (h : x.run.run s = (.ok a, s₁)) :
    (x >>= f).run.run s = (f a).run.run s₁ := by
  rw [ExceptT.run_bind, StateT.run_bind, h]
  rfl

theorem run_bind_of_error {e : ε} (h : x.run.run s = (.error e, s₁)) :
    (x >>= f).run.run s = (.error e, s₁) := by
  rw [ExceptT.run_bind, StateT.run_bind, h]
  rfl

/-- A computation in two parts ends with the first, or goes on to the second. -/
theorem run_bind_cases {r : Except ε β} {s' : σ} (h : (x >>= f).run.run s = (r, s')) :
    (∃ e, x.run.run s = (.error e, s') ∧ r = .error e) ∨
      ∃ a s₁, x.run.run s = (.ok a, s₁) ∧ (f a).run.run s₁ = (r, s') := by
  rcases hx : x.run.run s with ⟨r', s₁⟩
  cases r' with
  | ok a => exact .inr ⟨a, s₁, rfl, run_bind_of_ok hx ▸ h⟩
  | error e =>
    rw [run_bind_of_error hx] at h
    obtain ⟨rfl, rfl⟩ := Prod.mk.inj h
    exact .inl ⟨e, rfl, rfl⟩

/-- A computation in two parts that succeeds. -/
theorem exists_of_bind_ok {b : β} {s' : σ} (h : (x >>= f).run.run s = (.ok b, s')) :
    ∃ a s₁, x.run.run s = (.ok a, s₁) ∧ (f a).run.run s₁ = (.ok b, s') := by
  refine (run_bind_cases h).resolve_left ?_
  rintro ⟨_, -, he⟩
  cases he

theorem run_bind_eq_ok {b : β} {s' : σ} : (x >>= f).run.run s = (.ok b, s') ↔
    ∃ a s₁, x.run.run s = (.ok a, s₁) ∧ (f a).run.run s₁ = (.ok b, s') :=
  ⟨exists_of_bind_ok, fun ⟨_, _, hx, hf⟩ => (run_bind_of_ok hx).trans hf⟩

/-- **A list of results, one for each element**, each left in a state with a property that holds of a state
if it holds of one that is reached from it. -/
theorem forall₂_of_mapM_run_ok {P : σ → Prop} (hP : ∀ a s, P ((f a).run.run s).2 → P s) :
    ∀ {l : List α} {bs : List β} {s s' : σ}, (l.mapM f).run.run s = (.ok bs, s') → P s' →
      P s ∧ List.Forall₂ (fun a b => ∃ t t', (f a).run.run t = (.ok b, t') ∧ P t') l bs
  | [], bs, s, s', h, hs' => by
    rw [mapM_nil] at h
    cases h
    exact ⟨hs', .nil⟩
  | a :: l, bs, s, s', h, hs' => by
    rw [mapM_cons] at h
    obtain ⟨b, s₁, hb, h⟩ := exists_of_bind_ok h
    obtain ⟨bs', s₂, hbs', h⟩ := exists_of_bind_ok h
    cases h
    obtain ⟨hs₁, hrest⟩ := forall₂_of_mapM_run_ok hP hbs' hs'
    exact ⟨hP a s (by rwa [hb]), .cons ⟨s, s₁, hb, hs₁⟩ hrest⟩

/-- **A computation preserves a property of the state**, whether it succeeds or not. -/
def Preserves (P : σ → Prop) (x : ExceptT ε (StateM σ) α) : Prop := ∀ s, P s → P (x.run.run s).2

namespace Preserves

variable {P : σ → Prop}

theorem pure (a : α) : Preserves P (pure a : ExceptT ε (StateM σ) α) := fun _ h => h

theorem throw (e : ε) : Preserves P (throw e : ExceptT ε (StateM σ) α) := fun _ h => h

theorem bind (hx : Preserves P x) (hf : ∀ a, Preserves P (f a)) : Preserves P (x >>= f) := by
  intro s hs
  have hs₁ := hx s hs
  rcases hrun : x.run.run s with ⟨r, s₁⟩
  rw [hrun] at hs₁
  cases r with
  | ok a =>
    rw [run_bind_of_ok hrun]
    exact hf a s₁ hs₁
  | error e =>
    rw [run_bind_of_error hrun]
    exact hs₁

theorem mapM (hf : ∀ a, Preserves P (f a)) : ∀ l : List α, Preserves P (l.mapM f)
  | [] => Preserves.pure []
  | a :: l => by
    rw [mapM_cons]
    exact (hf a).bind fun b => (Preserves.mapM hf l).bind fun bs => .pure (b :: bs)

end Preserves

end Relspec
