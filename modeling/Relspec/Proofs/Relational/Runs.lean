import Relspec.Proofs.Spec.BoundedRun

/-!
# Proofs/Relational/Runs — bodies run to their ends

Contract bodies and relational bodies run alike.  A run goes from a state to the one where the body
falls through, returns or throws, and notes the values of the conditions, invariants and variants that
it meets.  A body that goes on forever has no end.  Formulas are read over two states, of which `old`
reads the first; that one stays the same all along.

* `Ended` — how and where a run ends, and `Runs` — the ends that a body reaches from a state;
* `Runs.andThen`, `Runs.choose`, `Runs.loop` — runs from smaller runs;
* `Contract.Stmt.runs`, `Relational.Stmt.runs` — the runs of statements.
-/

namespace Relspec

/-! ## Ends -/

/-- **How a run ends.** -/
inductive Exit (M : Model) where
  | falls
  | returns (value : Option M.Value)
  | throws (exception : String)

/-- What a run notes the values of. -/
inductive Clause where
  | assert | assume | invariant | variant

/-- **Where a run ends**, with the values that it met on the way. -/
structure Ended (M : Model) where
  exit : Exit M := .falls
  noted : List (Clause × M.Value) := []
  state : M.Valuation

/-- **The ends that a body reaches from a state.** -/
abbrev Runs (M : Model) := M.Valuation → Ended M → Prop

namespace Runs

variable {M : Model}

/-! ## Runs from smaller runs -/

/-- One step, which ends in one way. -/
def step (f : M.Valuation → Ended M) : Runs M := fun σ e => e = f σ

/-- Nothing at all. -/
def skip : Runs M := step fun σ => { state := σ }

/-- Sets a name to a value of the state. -/
def set (name : String) (value : M.Valuation → M.Value) : Runs M :=
  step fun σ => { state := Function.update σ name (value σ) }

/-- One run and, where it falls through, another. -/
def andThen (R S : Runs M) : Runs M := fun σ e =>
  (R σ e ∧ e.exit ≠ .falls) ∨
    ∃ d, R σ d ∧ d.exit = .falls ∧ ∃ d', S d.state d' ∧ e = { d' with noted := d.noted ++ d'.noted }

/-- One run where a condition holds, and another elsewhere. -/
def choose (test : M.Valuation → Prop) (R S : Runs M) : Runs M := fun σ e =>
  (test σ ∧ R σ e) ∨ (¬ test σ ∧ S σ e)

/-- Fewer than `n` rounds: the lead, and then `body` and the next round, or `leave`. -/
def rounds (lead : Runs M) (test : M.Valuation → Prop) (body leave : Runs M) : Nat → Runs M
  | 0 => fun _ _ => False
  | n + 1 => lead.andThen (choose test (body.andThen (rounds lead test body leave n)) leave)

variable (M) (pre : M.Valuation)

/-- Notes the value of a formula, if there is one. -/
def note (clause : Clause) (f : Option Formula) : Runs M :=
  step fun σ => { state := σ, noted := f.toList.map fun f => (clause, M.eval pre σ f) }

/-- **A loop**, as many rounds as it takes.  Every test notes the invariant; the variant is noted before
and after the body. -/
def loop (lead : Runs M) (cond : Formula) (invariant variant : Option Formula) (body : Runs M) :
    Runs M := fun σ e =>
  ∃ n, rounds lead (fun σ => M.holds (M.eval pre σ cond))
    ((note M pre .invariant invariant).andThen ((note M pre .variant variant).andThen
      (body.andThen (note M pre .variant variant))))
    (note M pre .invariant invariant) n σ e

/-- Sets a field of an object. -/
noncomputable def setField (field : String) (object value : Formula) : Runs M :=
  set field fun σ => M.override (σ field) (M.product (M.eval pre σ object) (M.eval pre σ value))

/-- An assignment to a variable or to a field of an object; nothing else can be assigned to. -/
noncomputable def assign : Formula → Formula → Runs M
  | .ident name, value => set name fun σ => M.eval pre σ value
  | .join object (.ident field), value => setField M pre field object value
  | _, _ => fun _ _ => False

/-- A return. -/
noncomputable def ret (value : Option Formula) : Runs M :=
  step fun σ => { exit := .returns (value.map (M.eval pre σ)), state := σ }

/-- A throw. -/
def raise (exception : String) : Runs M := step fun σ => { exit := .throws exception, state := σ }

end Runs

/-! ## Statements -/

namespace Contract

mutual

/-- **The runs of a statement of a contract body.** -/
noncomputable def Stmt.runs (M : Model) (pre : M.Valuation) : Stmt → Runs M
  | .assign target value => .assign M pre target value
  | .branch cond thn els =>
    .choose (fun σ => M.holds (M.eval pre σ cond)) (Stmt.runsAll M pre thn) (Stmt.runsAll M pre els)
  | .loop cond invariant variant body =>
    .loop M pre .skip cond invariant variant (Stmt.runsAll M pre body)
  | .assert cond => .note M pre .assert (some cond)
  | .assume cond => .note M pre .assume (some cond)
  | .ret value => .ret M pre value
  | .raise exception => .raise M exception

/-- The runs of statements in order. -/
noncomputable def Stmt.runsAll (M : Model) (pre : M.Valuation) : List Stmt → Runs M
  | [] => .skip
  | s :: ss => (s.runs M pre).andThen (Stmt.runsAll M pre ss)

end

end Contract

namespace Relational

mutual

/-- **The runs of a statement of a relational body.**  A predicate gives its target the value that makes
it hold. -/
noncomputable def Stmt.runs (M : Model) (pre : M.Valuation) : Stmt → Runs M
  | .assign target value => .set target fun σ => M.eval pre σ value
  | .update field object value => .setField M pre field object value
  | .compute target pred args => .set target fun σ => Spec.result M pred (args.map (M.eval pre σ))
  | .branch cond thn els =>
    .choose (fun σ => M.holds (M.eval pre σ cond)) (Stmt.runsAll M pre thn) (Stmt.runsAll M pre els)
  | .loop lead cond invariant variant body =>
    .loop M pre (Stmt.runsAll M pre lead) cond invariant variant (Stmt.runsAll M pre body)
  | .assert cond => .note M pre .assert (some cond)
  | .assume cond => .note M pre .assume (some cond)
  | .ret value => .ret M pre value
  | .raise exception => .raise M exception

/-- The runs of statements in order. -/
noncomputable def Stmt.runsAll (M : Model) (pre : M.Valuation) : List Stmt → Runs M
  | [] => .skip
  | s :: ss => (s.runs M pre).andThen (Stmt.runsAll M pre ss)

end

end Relational

/-! ## Running in order -/

namespace Runs

variable {M : Model} {σ τ ρ : M.Valuation}

/-- `R` does nothing but go from `σ` to `τ`. -/
def Reaches (R : Runs M) (σ τ : M.Valuation) : Prop := ∀ e, R σ e ↔ e = { state := τ }

theorem reaches_skip (σ : M.Valuation) : skip.Reaches σ σ := fun _ => Iff.rfl

theorem reaches_set (name : String) (value : M.Valuation → M.Value) (σ : M.Valuation) :
    (set name value).Reaches σ (Function.update σ name (value σ)) := fun _ => Iff.rfl

/-- A run that goes on where another has brought it. -/
theorem Reaches.andThen_eq {R : Runs M} (h : R.Reaches σ τ) (S : Runs M) : R.andThen S σ = S τ := by
  funext e
  refine propext ⟨?_, fun he => .inr ⟨_, (h _).mpr rfl, rfl, e, he, rfl⟩⟩
  rintro (⟨he, hexit⟩ | ⟨d, hd, -, d', hd', rfl⟩)
  · exact absurd (congrArg Ended.exit ((h e).mp he)) hexit
  · obtain rfl := (h d).mp hd
    exact hd'

theorem Reaches.andThen {R S : Runs M} (hR : R.Reaches σ τ) (hS : S.Reaches τ ρ) :
    (R.andThen S).Reaches σ ρ := by
  intro e
  rw [hR.andThen_eq S]
  exact hS e

theorem skip_andThen (R : Runs M) : skip.andThen R = R := by
  funext σ
  exact (reaches_skip σ).andThen_eq R

theorem andThen_skip (R : Runs M) : R.andThen skip = R := by
  funext σ e
  refine propext ⟨?_, fun he => ?_⟩
  · rintro (⟨he, -⟩ | ⟨⟨exit, noted, state⟩, hd, rfl, d', rfl, rfl⟩)
    · exact he
    · rwa [List.append_nil]
  · by_cases hexit : e.exit = .falls
    · obtain ⟨exit, noted, state⟩ := e
      obtain rfl : exit = .falls := hexit
      refine .inr ⟨_, he, rfl, _, rfl, ?_⟩
      rw [List.append_nil]
    · exact .inl ⟨he, hexit⟩

theorem andThen_assoc (R S T : Runs M) : (R.andThen S).andThen T = R.andThen (S.andThen T) := by
  funext σ e
  refine propext ⟨?_, ?_⟩
  · rintro (⟨⟨he, hexit⟩ | ⟨d, hd, hfalls, d', hd', rfl⟩, hends⟩ |
      ⟨c, ⟨hc, hexit⟩ | ⟨d, hd, hfalls, d', hd', rfl⟩, hc', e', he', rfl⟩)
    · exact .inl ⟨he, hexit⟩
    · exact .inr ⟨d, hd, hfalls, d', .inl ⟨hd', hends⟩, rfl⟩
    · exact absurd hc' hexit
    · refine .inr ⟨d, hd, hfalls, _, .inr ⟨d', hd', hc', e', he', rfl⟩, ?_⟩
      rw [List.append_assoc]
  · rintro (⟨he, hexit⟩ | ⟨d, hd, hfalls, d', ⟨hd', hends⟩ | ⟨c, hc, hc', e', he', rfl⟩, rfl⟩)
    · exact .inl ⟨.inl ⟨he, hexit⟩, hexit⟩
    · exact .inl ⟨.inr ⟨d, hd, hfalls, d', hd', rfl⟩, hends⟩
    · refine .inr ⟨_, .inr ⟨d, hd, hfalls, c, hc, rfl⟩, hc', e', he', ?_⟩
      rw [List.append_assoc]

end Runs

theorem Relational.Stmt.runsAll_singleton (M : Model) (pre : M.Valuation) (s : Relational.Stmt) :
    runsAll M pre [s] = s.runs M pre := by
  rw [runsAll, runsAll, Runs.andThen_skip]

theorem Relational.Stmt.runsAll_append (M : Model) (pre : M.Valuation) :
    ∀ ss ts : List Relational.Stmt,
      runsAll M pre (ss ++ ts) = (runsAll M pre ss).andThen (runsAll M pre ts)
  | [], ts => by rw [List.nil_append, runsAll, Runs.skip_andThen]
  | s :: ss, ts => by
    rw [List.cons_append, runsAll, runsAll, runsAll_append M pre ss ts, Runs.andThen_assoc]

end Relspec
