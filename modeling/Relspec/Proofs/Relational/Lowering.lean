import Relspec.Proofs.Relational.Temporaries

/-!
# Proofs/Relational/Lowering — lowered bodies run like the bodies they come from

A body and its lowering start in one state and go through the same tests, so they end alike: in the same
way, with the same values noted, and in states that agree but for temporaries.  Nothing of a temporary
outlives the statement that it was made for, so no statement has to know the temporaries of another.

* `Similar` — two bodies end alike from states that agree but for temporaries;
* `Similar.loop` — by induction on the rounds;
* `Lowers.similar` — by induction over the statements;
* `ofProgram_runs_alike` — a program and its relational program.
-/

namespace Relspec

open List
open Relational
open Contract.Stmt (formulasAll runsAll runs formulas)

variable {M : Model} {pre σ τ ρ : M.Valuation}

/-! ## Ends that are alike -/

/-- **Two ends are alike** when they differ in temporaries alone. -/
structure Ended.Alike (d e : Ended M) : Prop where
  exit : d.exit = e.exit
  noted : d.noted = e.noted
  state : AgreeOff Set.univ d.state e.state

namespace Ended.Alike

variable {c d e : Ended M}

theorem symm (h : d.Alike e) : e.Alike d := ⟨h.exit.symm, h.noted.symm, h.state.symm⟩

theorem trans (h : c.Alike d) (h' : d.Alike e) : c.Alike e :=
  ⟨h.exit.trans h'.exit, h.noted.trans h'.noted, h.state.trans h'.state⟩

end Ended.Alike

/-- Every end of `P` is like an end of `Q`. -/
def Covers (P Q : Ended M → Prop) : Prop := ∀ d, P d → ∃ e, Q e ∧ d.Alike e

/-- **The same ends**, up to temporaries. -/
def SameEnds (P Q : Ended M → Prop) : Prop := Covers P Q ∧ Covers Q P

/-- **Two bodies are similar** when they have the same ends from states that agree but for
temporaries. -/
def Similar (R S : Runs M) : Prop := ∀ σ τ, AgreeOff Set.univ σ τ → SameEnds (R σ) (S τ)

theorem Covers.exists_alike {P Q : Ended M → Prop} (h : Covers P Q) {e : Ended M} :
    (∃ d, P d ∧ d.Alike e) → ∃ d, Q d ∧ d.Alike e := by
  rintro ⟨d, hd, hde⟩
  obtain ⟨c, hc, hdc⟩ := h d hd
  exact ⟨c, hc, hdc.symm.trans hde⟩

/-! ## Similar parts make similar bodies -/

section

variable {R R' S S' : Runs M}

theorem Covers.andThen (h : Covers (R σ) (R' τ))
    (h' : ∀ ρ ρ', AgreeOff Set.univ ρ ρ' → Covers (S ρ) (S' ρ')) :
    Covers (R.andThen S σ) (R'.andThen S' τ) := by
  rintro e (⟨he, hexit⟩ | ⟨d, hd, hfalls, d', hd', rfl⟩)
  · obtain ⟨e', he', halike⟩ := h e he
    exact ⟨e', .inl ⟨he', halike.exit ▸ hexit⟩, halike⟩
  · obtain ⟨c, hc, hdc⟩ := h d hd
    obtain ⟨c', hc', hdc'⟩ := h' _ _ hdc.state d' hd'
    refine ⟨_, .inr ⟨c, hc, hdc.exit ▸ hfalls, c', hc', rfl⟩, hdc'.exit, ?_, hdc'.state⟩
    rw [hdc.noted, hdc'.noted]

theorem Covers.choose {test test' : M.Valuation → Prop} (htest : test σ ↔ test' τ)
    (hR : Covers (R σ) (R' τ)) (hS : Covers (S σ) (S' τ)) :
    Covers (Runs.choose test R S σ) (Runs.choose test' R' S' τ) := by
  rintro d (⟨ht, hd⟩ | ⟨ht, hd⟩)
  · obtain ⟨e, he, hde⟩ := hR d hd
    exact ⟨e, .inl ⟨htest.mp ht, he⟩, hde⟩
  · obtain ⟨e, he, hde⟩ := hS d hd
    exact ⟨e, .inr ⟨mt htest.mpr ht, he⟩, hde⟩

theorem Covers.iUnion {P Q : ℕ → Ended M → Prop} (h : ∀ k, Covers (P k) (Q k)) :
    Covers (fun e => ∃ k, P k e) fun e => ∃ k, Q k e := by
  rintro d ⟨k, hd⟩
  obtain ⟨e, he, hde⟩ := h k d hd
  exact ⟨e, ⟨k, he⟩, hde⟩

namespace SameEnds

theorem step {f g : M.Valuation → Ended M} (h : (f σ).Alike (g τ)) :
    SameEnds (Runs.step f σ) (Runs.step g τ) :=
  ⟨fun _ hd => ⟨_, rfl, hd ▸ h⟩, fun _ hd => ⟨_, rfl, hd ▸ h.symm⟩⟩

theorem andThen (h : SameEnds (R σ) (R' τ)) (h' : Similar S S') :
    SameEnds (R.andThen S σ) (R'.andThen S' τ) :=
  ⟨h.1.andThen fun _ _ hρ => (h' _ _ hρ).1, h.2.andThen fun _ _ hρ => (h' _ _ hρ.symm).2⟩

theorem choose {test test' : M.Valuation → Prop} (htest : test σ ↔ test' τ)
    (hR : SameEnds (R σ) (R' τ)) (hS : SameEnds (S σ) (S' τ)) :
    SameEnds (Runs.choose test R S σ) (Runs.choose test' R' S' τ) :=
  ⟨hR.1.choose htest hS.1, hR.2.choose htest.symm hS.2⟩

theorem set (h : AgreeOff Set.univ σ τ) {name : String} {f g : M.Valuation → M.Value}
    (hfg : f σ = g τ) : SameEnds (Runs.set name f σ) (Runs.set name g τ) :=
  step ⟨rfl, rfl, hfg ▸ h.update name (f σ)⟩

theorem note (h : AgreeOff Set.univ σ τ) (c : Clause) {f g : Option Formula}
    (hfg : f.map (M.eval pre σ) = g.map (M.eval pre τ)) :
    SameEnds (Runs.note M pre c f σ) (Runs.note M pre c g τ) := by
  refine step ⟨rfl, ?_, h⟩
  cases f <;> cases g <;> simp_all

theorem ret (h : AgreeOff Set.univ σ τ) {f g : Option Formula}
    (hfg : f.map (M.eval pre σ) = g.map (M.eval pre τ)) :
    SameEnds (Runs.ret M pre f σ) (Runs.ret M pre g τ) :=
  step ⟨congrArg Exit.returns hfg, rfl, h⟩

/-- Statements that work out values come before what uses the values. -/
theorem after {fs gs : List Formula} {ss : List Stmt} {n m : ℕ} (h : Computes pre fs gs ss n m)
    (hfree : ∀ f ∈ fs, TempFree f) (hστ : AgreeOff Set.univ σ τ)
    (hR : ∀ ρ, AgreeOff Set.univ σ ρ → fs.map (M.eval pre σ) = gs.map (M.eval pre ρ) →
      SameEnds (R σ) (R' ρ)) :
    SameEnds (R σ) ((Stmt.runsAll M pre ss).andThen R' τ) := by
  obtain ⟨ρ, hρ, hagree, hvalues⟩ := h.reaches τ
  rw [hρ.andThen_eq]
  refine hR ρ (hστ.trans (hagree.mono (Set.subset_univ _))) ?_
  rw [hvalues ρ (.refl _ ρ)]
  exact map_congr_left fun f hf => hστ.eval_eq (hfree f hf)

end SameEnds

namespace Similar

theorem skip : Similar (M := M) Runs.skip Runs.skip := fun _ _ h => .step ⟨rfl, rfl, h⟩

theorem andThen (h : Similar R R') (h' : Similar S S') : Similar (R.andThen S) (R'.andThen S') :=
  fun σ τ hστ => (h σ τ hστ).andThen h'

/-- A formula that stays in one piece. -/
theorem note (pre : M.Valuation) (c : Clause) {f : Option Formula} (hf : ∀ g ∈ f, TempFree g) :
    Similar (Runs.note M pre c f) (Runs.note M pre c (f.map Relational.inline)) := by
  refine fun σ τ hστ => .note hστ c ?_
  cases f with
  | none => rfl
  | some g =>
    rw [Option.map_some, Option.map_some, Option.map_some, eval_inline, hστ.eval_eq (hf g rfl)]

/-- Similar rounds, where the lead of one works out its condition. -/
theorem rounds {cond cond' : Formula} {lead : List Stmt} {n m : ℕ}
    (hcond : Computes pre [cond] [cond'] lead n m) (hfree : TempFree cond) (hR : Similar R R')
    (hS : Similar S S') : ∀ k, Similar
      (Runs.rounds .skip (fun σ => M.holds (M.eval pre σ cond)) R S k)
      (Runs.rounds (Stmt.runsAll M pre lead) (fun σ => M.holds (M.eval pre σ cond')) R' S' k)
  | 0 => fun _ _ _ => ⟨fun _ hd => hd.elim, fun _ hd => hd.elim⟩
  | k + 1 => by
    intro σ τ hστ
    -- One side tests in `σ` itself, the other in the state `ρ` that its lead leaves.
    rw [Runs.rounds, Runs.rounds, Runs.skip_andThen]
    refine .after hcond (by simpa using hfree) hστ fun ρ hσρ hvalues => ?_
    refine .choose ?_ ((hR.andThen (rounds hcond hfree hR hS k)) σ ρ hσρ) (hS σ ρ hσρ)
    rw [singleton_inj.mp hvalues]

/-- **Similar bodies make similar loops.** -/
theorem loop {cond cond' : Formula} {invariant variant : Option Formula} {lead : List Stmt}
    {n m : ℕ} (hcond : Computes pre [cond] [cond'] lead n m) (hfree : TempFree cond)
    (hinvariant : ∀ g ∈ invariant, TempFree g) (hvariant : ∀ g ∈ variant, TempFree g)
    (hbody : Similar R R') :
    Similar (Runs.loop M pre .skip cond invariant variant R)
      (Runs.loop M pre (Stmt.runsAll M pre lead) cond' (invariant.map Relational.inline)
        (variant.map Relational.inline) R') := by
  have hinvariant := note pre .invariant hinvariant
  have hvariant := note pre .variant hvariant
  have hrounds := rounds hcond hfree
    (hinvariant.andThen (hvariant.andThen (hbody.andThen hvariant))) hinvariant
  intro σ τ hστ
  exact ⟨.iUnion fun k => (hrounds k σ τ hστ).1, .iUnion fun k => (hrounds k σ τ hστ).2⟩

end Similar

end

namespace Relational

/-! ## Statements -/

section

variable {native : Bool} {n m : ℕ}
variable {ss : List Stmt} {s : Stmt} {R : Runs M} {f : Formula}

/-- Expressions and then the statement that uses them. -/
theorem similar_of_flattens {fs gs : List Formula} (h : Flattens native fs gs ss n m)
    (hfree : ∀ f ∈ fs, TempFree f)
    (hs : ∀ σ ρ, AgreeOff Set.univ σ ρ → fs.map (M.eval pre σ) = gs.map (M.eval pre ρ) →
      SameEnds (R σ) (s.runs M pre ρ)) : Similar R (Stmt.runsAll M pre (ss ++ [s])) := by
  intro σ τ hστ
  rw [Stmt.runsAll_append, Stmt.runsAll_singleton]
  exact .after (h.computes hfree) hfree hστ fun ρ => hs σ ρ

theorem similar_of_flattens_one {g : Formula} (h : Flattens native [f] [g] ss n m) (hf : TempFree f)
    (hs : ∀ σ ρ, AgreeOff Set.univ σ ρ → M.eval pre σ f = M.eval pre ρ g → SameEnds (R σ) (s.runs M pre ρ)) :
    Similar R (Stmt.runsAll M pre (ss ++ [s])) :=
  similar_of_flattens h (by simpa using hf) fun σ ρ hσρ hvalues =>
    hs σ ρ hσρ (singleton_inj.mp hvalues)

/-- **Statements and the relational statements that stand for them are similar.** -/
theorem Lowers.similar {xs : List Contract.Stmt} (h : Lowers native xs ss n m)
    (hfree : ∀ f ∈ formulasAll xs, TempFree f) :
    Similar (runsAll M pre xs) (Stmt.runsAll M pre ss) := by
  induction h with
  | nil => exact .skip
  | cons _ _ ih ih' =>
    simp only [runsAll, formulasAll, Runs.andThen_skip, append_nil,
      forall_mem_append, Stmt.runsAll_append] at hfree ih ⊢
    exact (ih hfree.1).andThen (ih' hfree.2)
  | assign h =>
    simp only [runsAll, Runs.andThen_skip, runs, Runs.assign]
    refine similar_of_flattens_one h (hfree _ (.tail _ (.head _))) fun σ ρ hσρ hvalue => ?_
    rw [Stmt.runs]
    exact .set hσρ hvalue
  | update h =>
    simp only [runsAll, Runs.andThen_skip, runs, Runs.assign, Runs.setField]
    obtain ⟨hobject, hfield⟩ := tempFree_join.mp (hfree _ (.head _))
    have hvalue := hfree _ (.tail _ (.head _))
    refine similar_of_flattens h (by simp [hvalue, hobject]) fun σ ρ hσρ hvalues => ?_
    obtain ⟨hvalue, hobject⟩ : _ ∧ _ := by simpa using hvalues
    rw [Stmt.runs, Runs.setField]
    refine .set hσρ ?_
    rw [hvalue, hobject, hσρ.eq_of_not_isTemp hfield.ident]
  | branch h _ _ ihthn ihels =>
    simp only [formulasAll, formulas, append_nil, forall_mem_cons,
      forall_mem_append] at hfree
    simp only [runsAll, Runs.andThen_skip, runs]
    refine similar_of_flattens_one h hfree.1 fun σ ρ hσρ hvalue => ?_
    rw [Stmt.runs]
    exact .choose (by rw [hvalue]) (ihthn hfree.2.1 σ ρ hσρ) (ihels hfree.2.2 σ ρ hσρ)
  | loop h _ ih =>
    simp only [formulasAll, formulas, append_nil, forall_mem_cons,
      forall_mem_append, Option.mem_toList] at hfree
    simp only [runsAll, Runs.andThen_skip, runs, Stmt.runsAll_singleton, Stmt.runs]
    exact .loop (h.computes (by simpa using hfree.1)) hfree.1 hfree.2.1.1 hfree.2.1.2 (ih hfree.2.2)
  | assert h | assume h =>
    simp only [runsAll, Runs.andThen_skip, runs]
    refine similar_of_flattens_one h (hfree _ (.head _)) fun σ ρ hσρ hvalue => ?_
    rw [Stmt.runs]
    exact .note hσρ _ (congrArg some hvalue)
  | ret h =>
    simp only [runsAll, Runs.andThen_skip, runs]
    refine similar_of_flattens_one h (hfree _ (.head _)) fun σ ρ hσρ hvalue => ?_
    rw [Stmt.runs]
    exact .ret hσρ (congrArg some hvalue)
  | leave =>
    simp only [runsAll, Runs.andThen_skip, runs, Stmt.runsAll_singleton, Stmt.runs]
    exact fun σ τ hστ => .ret hστ rfl
  | raise =>
    simp only [runsAll, Runs.andThen_skip, runs, Stmt.runsAll_singleton, Stmt.runs]
    exact fun σ τ hστ => .step ⟨rfl, rfl, hστ⟩

end

/-! ## Programs -/

theorem gives_of_ofProgram {s : Settings} {state : List String} {owner : String}
    {p : Contract.Program} {q : Program} (h : ofProgram s state owner p = .ok q) :
    ∃ m, Gives (ofStmts ⟨s.nativeArithmetic, s.bitWidth, p.id⟩ p.body) 0 q.body m := by
  obtain ⟨check, hcheck⟩ := exists_check s state owner p
  have hbody : Program.body <$> ofProgram s state owner p = _ := hcheck s.nativeArithmetic
  rw [h] at hbody
  cases check with
  | error => cases hbody
  | ok => exact ⟨_, Prod.ext hbody.symm rfl⟩

/-- **A program and its relational program run alike**, in either arithmetic: from every state they end
in the same ways, with the same values noted, in states that agree but for temporaries.  In native
arithmetic the body has predicates for the functions whose results go into temporaries, and is the same
otherwise. -/
theorem ofProgram_runs_alike {s : Settings} {state : List String} {owner : String}
    {p : Contract.Program} {q : Program}
    (hfree : ∀ f ∈ Contract.Stmt.formulasAll p.body, TempFree f)
    (h : ofProgram s state owner p = .ok q) :
    (∀ (M : Model) (pre σ : M.Valuation) (e : Ended M),
      (∃ d, Contract.Stmt.runsAll M pre p.body σ d ∧ d.Alike e) ↔
        ∃ d, Stmt.runsAll M pre q.body σ d ∧ d.Alike e) ∧
    Program.body <$> ofProgram { s with nativeArithmetic := true } state owner p =
      (Stmt.nativeAll ∘ Program.body) <$>
        ofProgram { s with nativeArithmetic := false } state owner p := by
  refine ⟨fun M pre σ e => ?_, body_ofProgram_native hfree⟩
  obtain ⟨m, hgives⟩ := gives_of_ofProgram h
  have hends : SameEnds (runsAll M pre p.body σ) _ := (ofStmts_lowers hgives).similar hfree σ σ (.refl _ σ)
  exact ⟨hends.1.exists_alike, hends.2.exists_alike⟩

/-- Adds up twice the numbers below `n - 1` in a field, and gives up at `- x`. -/
def doubles : Contract.Program where
  id := "Store_doubles_0"
  method := "doubles"
  overload := 0
  params := [⟨"thiz", .ref "Store"⟩, ⟨"n", .int⟩, ⟨"x", .int⟩]
  locals := [⟨"i", .int⟩]
  body := [
    .loop (.binary .lt (.ident "i") (.binary (.arith .sub) (.ident "n") (.int 1))) none
      (some (.binary (.arith .sub) (.ident "n") (.ident "i"))) [
      .branch (.binary .eq (.ident "i") (.unary .neg (.ident "x"))) [.raise "Full"] [],
      .assign (.join (.ident "thiz") (.ident "sum"))
        (.binary (.arith .add) (.join (.ident "thiz") (.ident "sum"))
          (.binary (.arith .mul) (.ident "i") (.int 2))),
      .assign (.ident "i") (.binary (.arith .add) (.ident "i") (.int 1))],
    .ret (some (.join (.ident "thiz") (.ident "sum")))]

/-- The body of `doubles` in native arithmetic. -/
def doublesNative : List Stmt := [
  .loop [.compute "t_0" ArithOp.sub.predicate [.ident "n", .int 1]]
    (.binary .lt (.ident "i") (.ident "t_0")) none
    (some (.call "sub" [.ident "n", .ident "i"])) [
    .compute "t_1" ArithOp.sub.predicate [.int 0, .ident "x"],
    .branch (.binary .eq (.ident "i") (.ident "t_1")) [.raise "Full"] [],
    .compute "t_2" ArithOp.mul.predicate [.ident "i", .int 2],
    .compute "t_3" ArithOp.add.predicate [.join (.ident "thiz") (.ident "sum"), .ident "t_2"],
    .update "sum" (.ident "thiz") (.ident "t_3"),
    .compute "t_4" ArithOp.add.predicate [.ident "i", .int 1],
    .assign "i" (.ident "t_4")],
  .ret (some (.join (.ident "thiz") (.ident "sum")))]

/-- From a state where the test fails, `doubles` returns the field. -/
theorem doubles_returns (h : ¬ M.holds (M.eval pre σ
      (.binary .lt (.ident "i") (.binary (.arith .sub) (.ident "n") (.int 1))))) :
    runsAll M pre doubles.body σ
      { exit := .returns (some (M.eval pre σ (.join (.ident "thiz") (.ident "sum"))))
        state := σ } := by
  simp only [doubles, runsAll, runs, Runs.andThen_skip]
  refine .inr ⟨{ state := σ }, ⟨1, ?_⟩, rfl, _, rfl, rfl⟩
  rw [Runs.rounds, Runs.skip_andThen]
  exact .inr ⟨h, rfl⟩

/-- A loop whose condition computes runs as before, and has runs. -/
theorem doubles_runs_alike : (∀ f ∈ Contract.Stmt.formulasAll doubles.body, TempFree f) ∧
    (∃ q, ofProgram { nativeArithmetic := true } ["sum"] "Store" doubles = .ok q ∧
      q.body = doublesNative) ∧
    (∀ (M : Model) (pre σ : M.Valuation) (e : Ended M),
      (∃ d, Contract.Stmt.runsAll M pre doubles.body σ d ∧ d.Alike e) ↔
        ∃ d, Stmt.runsAll M pre doublesNative σ d ∧ d.Alike e) ∧
    ∀ (M : Model) (pre σ : M.Valuation),
      ¬ M.holds (M.eval pre σ
        (.binary .lt (.ident "i") (.binary (.arith .sub) (.ident "n") (.int 1)))) →
      ∃ d, Stmt.runsAll M pre doublesNative σ d ∧
        d.exit = .returns (some (M.eval pre σ (.join (.ident "thiz") (.ident "sum")))) := by
  have hfree : ∀ f ∈ Contract.Stmt.formulasAll doubles.body, TempFree f := by decide
  obtain ⟨q, hq, hbody⟩ : ∃ q,
      ofProgram { nativeArithmetic := true } ["sum"] "Store" doubles = .ok q ∧
        q.body = doublesNative := ⟨_, rfl, rfl⟩
  have halike := (ofProgram_runs_alike hfree hq).1
  rw [hbody] at halike
  refine ⟨hfree, ⟨q, hq, hbody⟩, halike, fun M pre σ htest => ?_⟩
  obtain ⟨d, hd, hde⟩ := (halike M pre σ _).mp ⟨_, doubles_returns htest, rfl, rfl, .refl _ σ⟩
  exact ⟨d, hd, hde.exit⟩

end Relational

end Relspec
