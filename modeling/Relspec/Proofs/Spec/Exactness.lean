import Relspec.Proofs.Formula.Relations
import Relspec.Proofs.Spec.Initial
import Relspec.Proofs.Spec.Simulation

/-!
# Proofs/Spec/Exactness — verification conditions are exact for bounded runs

The state before a program has every variable at version zero.  Values of these versions determine the
values of all others: the last versions hold the state that the bounded run ends in, the transitions
that leave runs out hold where the run meets its assumptions, and the obligations hold where the run
meets its own.

* `Frame.start` — the state that a run starts from;
* `Frame.verification_exact` — the exact meaning of the state after the symbolic run.
-/

namespace Relspec.Spec

open Verification

namespace Verification

variable {names : List String} {v : Verification}

/-- Nothing recorded has nothing to determine. -/
theorem Fresh.determined (hv : v.Fresh names) (M : Model) : v.Determined names M := by
  intro ρ₀
  have hmade : ∀ x, ¬ v.Made names x := by
    rintro x ⟨b, -, n, hpos, hn, -⟩
    rw [hv.version b] at hn
    omega
  refine ⟨ρ₀, ⟨fun _ _ => rfl, fun t ht => ?_⟩, fun ρ hρ => funext fun x => hρ.agrees x (hmade x)⟩
  rw [hv.transitions] at ht
  exact absurd ht List.not_mem_nil

end Verification

namespace Frame

variable {M : Model} {ρ₀ ρ : M.Valuation}

/-! ## The state after the program -/

/-- **The state that a run starts from**: declared variables have the values of their versions at the
start. -/
def start (a : Frame) (ρ₀ : M.Valuation) : M.Valuation :=
  fun x => if x ∈ a.declared then ρ₀ (versioned x 0) else ρ₀ x

/-- The bounded run of the program. -/
noncomputable def bounded (a : Frame) (s : Settings) (ρ₀ : M.Valuation) : Reached M :=
  execAll M s.loopUnroll.toNat a.program.body (a.start ρ₀)

theorem read_initial (a : Frame) (h : ∀ x ∈ a.declared, ρ (versioned x 0) = ρ₀ (versioned x 0)) :
    a.initial.read ρ₀ ρ = a.start ρ₀ := by
  have hfresh := a.fresh_initial
  funext x
  by_cases hx : x ∈ a.declared
  · rw [hfresh.isOver.read_of_mem ρ₀ ρ hx, current, hfresh.version, h x hx, start, if_pos hx]
  · rw [hfresh.isOver.read_of_not_mem ρ₀ ρ hx, start, if_neg hx]

/-- A solution leaves the versions at the start, and all names that are no versions, alone. -/
theorem solves_agree {names : List String} {v : Verification} (h : v.Solves names ρ₀ ρ) :
    Agree names ρ₀ ρ ∧ ∀ x ∈ names, ρ (versioned x 0) = ρ₀ (versioned x 0) := by
  refine ⟨fun x hx => h.agrees x ?_, fun x _ => h.agrees _ ?_⟩
  · rintro ⟨b, hb, n, -, -, rfl⟩
    exact hx ⟨b, hb, n, rfl⟩
  · rintro ⟨b, -, n, hpos, -, heq⟩
    obtain ⟨-, rfl⟩ := versioned_inj heq
    exact absurd hpos (Nat.lt_irrefl 0)

/-- **A solution of the definitions reads the bounded run.** -/
theorem follows_of_solves (a : Frame) (s : Settings)
    (hbody : NamedAll a.declared (Computes M) a.program.body) (hρ : (a.final s).Solves a.declared ρ₀ ρ) :
    Follows ρ₀ ρ a.initial (a.final s) (a.bounded s ρ₀) := by
  have hfresh := a.fresh_initial
  obtain ⟨hagree, hzero⟩ := solves_agree hρ
  have hguard : M.Holds ρ a.initial.guard := by
    rw [holds_guard, hfresh.path, hfresh.done]
    exact ⟨Model.holds_truthFormula, Model.not_holds_falsity⟩
  have hrun := (mirrors_runAll s.loopUnroll.toNat hagree a.program.body hbody).simulates hfresh.isOver
  have h := hrun.reached hρ.defined hguard
  rwa [a.read_initial hzero] at h

/-- **What the versions say of a run**, in a valuation of them: the last versions hold the state that
it ends in, the end condition that it has ended, the transitions that leave runs out that it meets what
it assumes, and the obligations that it meets what it has to. -/
structure Describes (a : Frame) (s : Settings) {M : Model} (ρ : M.Valuation) (r : Reached M) :
    Prop where
  state : ∀ x ∈ a.declared, ρ ((a.final s).current x) = r.state x
  ended : M.Holds ρ (a.final s).done ↔ r.ended = true
  assumed : (a.final s).Allowed M ρ ↔ ∀ p ∈ r.assumed, p
  obliged : (a.final s).Met M ρ ↔ ∀ p ∈ r.obliged, p

theorem describes_of_solves (a : Frame) (s : Settings)
    (hbody : NamedAll a.declared (Computes M) a.program.body) (hρ : (a.final s).Solves a.declared ρ₀ ρ) :
    a.Describes s ρ (a.bounded s ρ₀) := by
  have hfresh := a.fresh_initial
  have hgrows := a.reaches_final s (lawful_settling ..) hfresh.isOver hbody.allowsAll
  have h := a.follows_of_solves s hbody hρ
  refine ⟨fun x hx => ?_, h.done, h.allowed.trans (and_iff_right ?_), h.met.trans (and_iff_right ?_)⟩
  · rw [← h.state]
    exact (hgrows.keeps.tables.read_of_mem ρ₀ ρ hx).symm
  · exact fun t ht => absurd (hfresh.transitions ▸ ht) List.not_mem_nil
  · exact fun f hf => absurd (hfresh.obligations ▸ hf) List.not_mem_nil

/-- **Verification conditions are exact.**  Values of the versions at the start determine the values of
all other versions through the definitions.  These values describe the bounded run, and so the
obligations follow from the transitions, definitions or not, exactly where what the run has to meet
follows from what it assumes. -/
theorem verification_exact (a : Frame) (s : Settings) (M : Model)
    (hbody : NamedAll a.declared (Computes M) a.program.body) (ρ₀ : M.Valuation) :
    (∃! ρ, (a.final s).Solves a.declared ρ₀ ρ) ∧
    (∀ ρ, (a.final s).Solves a.declared ρ₀ ρ → a.Describes s ρ (a.bounded s ρ₀)) ∧
    ((∀ ρ : M.Valuation, (∀ x, ¬ (a.final s).Made a.declared x → ρ x = ρ₀ x) →
        (∀ t ∈ (a.final s).transitions, M.Holds ρ t.formula) → (a.final s).Met M ρ) ↔
      ((∀ p ∈ (a.bounded s ρ₀).assumed, p) → ∀ p ∈ (a.bounded s ρ₀).obliged, p)) := by
  have hfresh := a.fresh_initial
  have hlaws := lawful_settling a.declared (Computes M)
  have hgrows := a.reaches_final s hlaws hfresh.isOver hbody.allowsAll
  have hunique := (steps_determined hgrows.steps (hfresh.keeps hlaws hfresh.isOver) (hfresh.determined M)).2 ρ₀
  refine ⟨hunique, fun ρ hρ => a.describes_of_solves s hbody hρ, fun h hassumed => ?_,
    fun h ρ hagree htrans => ?_⟩
  · obtain ⟨ρ, hρ, -⟩ := hunique
    have hreads := a.describes_of_solves s hbody hρ
    refine hreads.obliged.mp (h ρ hρ.agrees fun t ht => ?_)
    cases hdef : t.defines.isSome with
    | true => exact hρ.defined t ht hdef
    | false => exact hreads.assumed.mpr hassumed t ht hdef
  · have hρ : (a.final s).Solves a.declared ρ₀ ρ := ⟨hagree, fun t ht _ => htrans t ht⟩
    have hreads := a.describes_of_solves s hbody hρ
    exact hreads.obliged.mpr (h (hreads.assumed.mp fun t ht _ => htrans t ht))

/-- A loop that returns from a branch of its body, and an exception after it. -/
def search : Frame :=
  let program : Relational.Program :=
    { id := "Store_find_0", owner := "Store", method := "find", overload := 0
      params := [⟨"n", .int⟩], locals := [⟨"i", .int⟩, ⟨"t_1", .int⟩], returns := some .int
      pre := .truth, post := .truth, side := {}, skolems := []
      body :=
        [.assign "i" (.int 0),
          .loop [.compute "t_1" ArithOp.add.predicate [.ident "i", .int 1]]
            (.binary .lt (.ident "i") (.ident "n")) (some (.binary .le (.int 0) (.ident "i"))) none
            [.branch (.eq (.join (.ident "thiz") (.ident "count")) (.ident "i"))
              [.ret (some (.ident "t_1"))] [.assign "i" (.ident "t_1")]],
          .update "count" (.ident "thiz") (.ident "n"),
          .raise "Missing"] }
  let owner : Relational.Module :=
    { id := "Store", className := "Store", fields := [⟨"count", .int⟩]
      invariant := ⟨"Store_invariant", [], .truth⟩, side := {}, programs := [program] }
  ⟨[owner], owner, program⟩

open Relational (Stmt) in
theorem namedAll_search : NamedAll search.declared (Computes Model.relations) search.program.body := by
  have hground : ∀ s ∈ Stmt.walkAll search.program.body, ∀ f ∈ ownFormulas s,
      f.binders = [] ∧ ∀ x ∈ f.occurrences [], x ∈ search.declared := by decide
  have htarget : ∀ s ∈ Stmt.walkAll search.program.body, ∀ x ∈ ownTarget s, x ∈ search.declared := by
    decide
  have hthrown : ∀ s ∈ Stmt.walkAll search.program.body, ∀ e ∈ s.thrown?,
      e ∉ search.declared ∧ '_' ∉ e.toList := by decide
  refine fun s hs => ⟨htarget s hs, fun f hf => ?_, fun e he => ?_, fun target pred args h => ?_⟩
  · obtain ⟨hbinders, hnames⟩ := hground s hs f hf
    exact ⟨fun x hx => by simp [hbinders] at hx, fun x hx => .inl (hnames x (Formula.mem_freeNames.mp hx))⟩
  · exact ⟨(hthrown s hs e he).1, not_isVersion (hthrown s hs e he).2⟩
  · subst h
    simp only [search, Stmt.walkAll, Stmt.walk] at hs
    obtain ⟨-, rfl, rfl⟩ := by simpa using hs
    exact computes_predicate Model.relations .add

/-- A program with a loop and a call of a predicate is described exactly. -/
theorem verification_exact_search :
    NamedAll search.declared (Computes Model.relations) search.program.body ∧
    let ρ₀ : Model.relations.Valuation := fun _ => Tuples.number 2
    (∃! ρ, (search.final {}).Solves search.declared ρ₀ ρ) ∧
    (∀ ρ, (search.final {}).Solves search.declared ρ₀ ρ →
      search.Describes {} ρ (search.bounded {} ρ₀)) ∧
    ((∀ ρ : Model.relations.Valuation,
        (∀ x, ¬ (search.final {}).Made search.declared x → ρ x = ρ₀ x) →
        (∀ t ∈ (search.final {}).transitions, Model.relations.Holds ρ t.formula) →
        (search.final {}).Met Model.relations ρ) ↔
      ((∀ p ∈ (search.bounded {} ρ₀).assumed, p) → ∀ p ∈ (search.bounded {} ρ₀).obliged, p)) :=
  ⟨namedAll_search, verification_exact search {} Model.relations namedAll_search _⟩

end Frame

end Relspec.Spec
