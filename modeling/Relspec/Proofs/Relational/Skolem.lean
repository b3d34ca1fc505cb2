import Mathlib.Logic.Function.Basic
import Relspec.Proofs.Formula.Relations
import Relspec.Proofs.Relational.Vocabulary

/-!
# Proofs/Relational/Skolem — variables for quantified ones

A quantifier at the top of a contract asks for values of its variables, and the variables that stand for these are
given values instead.  Each conjunct has its own, so their values are chosen independently.

* `Model.given` — a valuation that gives some names values of its own;
* `asks_back_and_forth`, `asks_and` — quantifiers over valuations;
* `numbered_skolemizeConjunct`, `nodup_numbered` — the variables are numbered in one row;
* `holds_skolemizeConjunct`, `holds_skolemizeAll` — one conjunct, and several;
* `skolemize_exact` — contracts without their quantifiers.
-/

namespace Relspec

open List

/-! ## Choices of values -/

namespace Model

variable {M : Model} {g h ρ : M.Valuation} {xs ys : List String} {vals : List M.Value} {x : String}

/-- **The valuation that gives names the values they have in another one.** -/
def given (xs : List String) (g ρ : M.Valuation) : M.Valuation := fun x => if x ∈ xs then g x else ρ x

theorem given_of_mem (hx : x ∈ xs) : given xs g ρ x = g x := if_pos hx

theorem given_of_not_mem (hx : x ∉ xs) : given xs g ρ x = ρ x := if_neg hx

theorem given_congr (heq : ∀ x ∈ xs, g x = h x) : given xs g ρ = given xs h ρ :=
  funext fun x => ite_congr rfl (heq x) fun _ => rfl

theorem bind_map (g : M.Valuation) : ∀ xs : List String, M.bind ρ xs (xs.map g) = given xs g ρ
  | [] => rfl
  | y :: ys => by
    funext x
    by_cases hxy : x = y
    · simp [bind, given, hxy]
    · have hne : (x == y) = false := by simpa using hxy
      have ih := congrFun (bind_map g ys) x
      simp only [given, mem_cons, hxy, false_or]
      simpa [bind, given, lookup_cons, hne] using ih

theorem bind_eq_given (q : M.Valuation) (hlen : vals.length = xs.length) :
    M.bind ρ xs vals = given xs (M.bind q xs vals) ρ := by
  funext x
  by_cases hx : x ∈ xs
  · rw [given_of_mem hx, bind_of_mem ρ q hlen hx]
  · rw [given_of_not_mem hx, bind_of_not_mem hx]

theorem bind_mem (hlen : vals.length = xs.length) (hx : x ∈ xs) : M.bind ρ xs vals x ∈ vals := by
  induction xs generalizing vals with
  | nil => cases hx
  | cons y ys ih =>
    obtain ⟨v, vals, rfl⟩ := exists_cons_of_length_eq_add_one hlen
    by_cases hxy : x = y
    · simp [bind, hxy]
    · have hne : (x == y) = false := by simpa using hxy
      have hmem := ih (by simpa using hlen) ((mem_cons.mp hx).resolve_left hxy)
      simpa [bind, lookup_cons, hne] using Or.inr (a := _ = v) hmem

end Model

/-- The quantifiers that ask for all values, and for some. -/
def Formula.Quantifier.Strong (kind : Formula.Quantifier) : Prop := kind = .all ∨ kind = .mult .some

section

variable {α β : Type} {kind : Formula.Quantifier} {D D₁ D₂ P P₁ P₂ : α → Prop} {E Q : β → Prop}

/-- Two quantifiers agree when each choice of either has its like among those of the other. -/
theorem asks_back_and_forth (hkind : kind.Strong) (forth : ∀ a, D a → ∃ b, E b ∧ (P a ↔ Q b))
    (back : ∀ b, E b → ∃ a, D a ∧ (P a ↔ Q b)) : kind.asks D P ↔ kind.asks E Q := by
  rcases hkind with rfl | rfl
  · refine ⟨fun h b hb => ?_, fun h a ha => ?_⟩
    · obtain ⟨a, ha, hab⟩ := back b hb
      exact hab.mp (h a ha)
    · obtain ⟨b, hb, hab⟩ := forth a ha
      exact hab.mpr (h b hb)
  · refine ⟨fun ⟨a, ha, h⟩ => ?_, fun ⟨b, hb, h⟩ => ?_⟩
    · obtain ⟨b, hb, hab⟩ := forth a ha
      exact ⟨b, hb, hab.mp h⟩
    · obtain ⟨a, ha, hab⟩ := back b hb
      exact ⟨a, ha, hab.mpr h⟩

/-- **Choices that can be made independently are one choice.** -/
theorem asks_and (hkind : kind.Strong) (mix : α → α → α)
    (left : ∀ a b, (D₁ (mix a b) ↔ D₁ a) ∧ (P₁ (mix a b) ↔ P₁ a))
    (right : ∀ a b, (D₂ (mix a b) ↔ D₂ b) ∧ (P₂ (mix a b) ↔ P₂ b)) (hD₁ : ∃ a, D₁ a) (hD₂ : ∃ a, D₂ a) :
    kind.asks D₁ P₁ ∧ kind.asks D₂ P₂ ↔
      kind.asks (fun a => D₁ a ∧ D₂ a) fun a => P₁ a ∧ P₂ a := by
  have hmix : ∀ a b, D₁ a → D₂ b → D₁ (mix a b) ∧ D₂ (mix a b) := fun a b ha hb =>
    ⟨(left a b).1.mpr ha, (right a b).1.mpr hb⟩
  rcases hkind with rfl | rfl
  · refine ⟨fun ⟨h₁, h₂⟩ a ha => ⟨h₁ a ha.1, h₂ a ha.2⟩, fun h => ⟨fun a ha => ?_, fun b hb => ?_⟩⟩
    · obtain ⟨b, hb⟩ := hD₂
      exact (left a b).2.mp (h _ (hmix a b ha hb)).1
    · obtain ⟨a, ha⟩ := hD₁
      exact (right a b).2.mp (h _ (hmix a b ha hb)).2
  · refine ⟨fun ⟨⟨a, ha, h₁⟩, b, hb, h₂⟩ => ?_, fun ⟨a, ha, h₁, h₂⟩ => ⟨⟨a, ha.1, h₁⟩, a, ha.2, h₂⟩⟩
    exact ⟨mix a b, hmix a b ha hb, (left a b).2.mpr h₁, (right a b).2.mpr h₂⟩

end

namespace Relational

open Formula (Vocabulary Over)

variable {M : Model} {pre cur : M.Valuation} {kind : Formula.Quantifier} {f c : Formula} {vars : List String}
  {n : Nat} {x : String}

/-! ## The names of the variables -/

/-- **A name that is not like one of a variable for a quantified one.** -/
def NotSkolem (x : String) : Prop := Text.startsWith x "sk_" = false

instance : DecidablePred NotSkolem := fun x => inferInstanceAs (Decidable (Text.startsWith x "sk_" = false))

theorem toList_skolemName (n : Nat) (x : String) :
    (skolemName n x).toList = "sk_".toList ++ (Nat.toDigits 10 n ++ '_' :: x.toList) := by
  simp [skolemName, Nat.toString_eq_repr]

theorem NotSkolem.ne_skolemName (h : NotSkolem x) (n : Nat) (y : String) : x ≠ skolemName n y := by
  rintro rfl
  have hstem : Text.startsWith (skolemName n y) "sk_" = true :=
    Text.startsWith_iff.mpr ⟨_, (toList_skolemName n y).symm⟩
  exact Bool.false_ne_true (h.symm.trans hstem)

/-- **A variable stands for one quantified variable.** -/
theorem skolemName_injective : Function.Injective fun p : Nat × String => skolemName p.1 p.2 := by
  rintro ⟨n, x⟩ ⟨m, y⟩ h
  have hl := congrArg String.toList h
  simp only [toList_skolemName, append_cancel_left_eq] at hl
  obtain ⟨rfl, hxy⟩ := Text.toDigits_mark_inj hl
  exact Prod.ext rfl (String.toList_inj.mp hxy)

/-- The names of the variables for quantified ones, numbered from `n`. -/
def numbered (n : Nat) (vars : List String) : List String := (skolemNames n vars).map (·.2)

theorem exists_of_mem_numbered {s : String} (hs : s ∈ numbered n vars) :
    ∃ k x, n ≤ k ∧ x ∈ vars ∧ s = skolemName k x := by
  induction vars generalizing n with
  | nil => cases hs
  | cons y vars ih =>
    rcases mem_cons.mp hs with rfl | hs
    · exact ⟨n, y, le_rfl, mem_cons_self, rfl⟩
    · obtain ⟨k, x, hk, hx, rfl⟩ := ih hs
      exact ⟨k, x, Nat.le_of_succ_le hk, mem_cons_of_mem y hx, rfl⟩

theorem nodup_numbered (n : Nat) (vars : List String) : (numbered n vars).Nodup := by
  induction vars generalizing n with
  | nil => exact nodup_nil
  | cons y vars ih =>
    refine nodup_cons.mpr ⟨fun hmem => ?_, ih (n + 1)⟩
    obtain ⟨k, x, hk, -, heq⟩ := exists_of_mem_numbered hmem
    have hnum : n = k := congrArg Prod.fst (@skolemName_injective (n, y) (k, x) heq)
    omega

theorem numbered_append (n : Nat) (xs ys : List String) :
    numbered n (xs ++ ys) = numbered n xs ++ numbered (n + xs.length) ys := by
  induction xs generalizing n with
  | nil => rfl
  | cons x xs ih =>
    have htail := ih (n + 1)
    rw [Nat.add_right_comm, Nat.add_assoc n xs.length 1] at htail
    exact congrArg (skolemName n x :: ·) htail

/-- The names of variables. -/
abbrev names (vs : List Var) : List String := vs.map (·.name)

theorem numbered_skolemizeConjunct (kind : Formula.Quantifier) (n : Nat) (c : Formula) :
    ∃ xs, names (skolemizeConjunct kind n c).2 = numbered n xs ∧
      xs.length = (skolemizeConjunct kind n c).2.length := by
  unfold skolemizeConjunct
  split
  · next k vars domain body =>
    split
    · refine ⟨vars, map_map .., ?_⟩
      rw [length_map]
      exact (congrArg length (keys_skolemNames n vars)).symm.trans (length_map ..)
    · exact ⟨[], rfl, rfl⟩
  · exact ⟨[], rfl, rfl⟩

theorem numbered_skolemizeAll (kind : Formula.Quantifier) (n : Nat) (cs : List Formula) :
    ∃ xs, names (skolemizeAll kind n cs).2 = numbered n xs ∧ xs.length = (skolemizeAll kind n cs).2.length := by
  induction cs generalizing n with
  | nil => exact ⟨[], rfl, rfl⟩
  | cons c cs ih =>
    obtain ⟨xs, hxs, hlen⟩ := numbered_skolemizeConjunct kind n c
    obtain ⟨ys, hys, hlen'⟩ := ih (n + (skolemizeConjunct kind n c).2.length)
    refine ⟨xs ++ ys, ?_, ?_⟩
    · rw [numbered_append, hlen, ← hxs, ← hys]
      exact map_append
    · rw [length_append, hlen, hlen']
      exact (length_append ..).symm

/-- **The variables of one program are told apart by their numbers**, those of its precondition from those of its
postcondition among them. -/
theorem nodup_skolems {s : Settings} {state : List String} {owner : String} {p : Contract.Program} {q : Program}
    (h : ofProgram s state owner p = .ok q) : (names q.skolems).Nodup := by
  obtain ⟨side, body, temps, -, -, rfl⟩ := exists_of_ofProgram h
  rw [names, map_append, ensuresOf, requiresOf]
  split
  · obtain ⟨xs, hxs, hlen⟩ := numbered_skolemizeAll (.mult .some) 0 p.requires.conjuncts
    obtain ⟨ys, hys, -⟩ := numbered_skolemizeAll .all xs.length p.ensures.conjuncts
    have hrow : names (skolemize (.mult .some) 0 p.requires).2 ++
        names (skolemize .all (skolemize (.mult .some) 0 p.requires).2.length p.ensures).2 =
          numbered 0 (xs ++ ys) := by
      rw [numbered_append, Nat.zero_add, ← hxs, ← hys, hlen]
      rfl
    exact hrow ▸ nodup_numbered 0 (xs ++ ys)
  · exact nodup_nil

/-! ## One conjunct -/

/-- The variable that stands for a quantified one; of several the last. -/
def skolemOf (n : Nat) (vars : List String) (x : String) : String :=
  ((Table.ofList (skolemNames n vars)).find? x).getD x

theorem find?_skolemNames (n : Nat) (hx : x ∈ vars) :
    ∃ k, (Table.ofList (skolemNames n vars)).find? x = some (skolemName k x) ∧
      skolemName k x ∈ numbered n vars := by
  have hpairs : ∀ {vars n}, ∀ e ∈ skolemNames n vars, ∃ k, e.2 = skolemName k e.1 := by
    intro vars
    induction vars with
    | nil => exact nofun
    | cons y vars ih => exact forall_mem_cons.mpr ⟨⟨_, rfl⟩, ih⟩
  have hcontains : (Table.ofList (skolemNames n vars)).contains x = true :=
    Table.contains_foldl_insert.mpr (.inr ((keys_skolemNames n vars).symm ▸ hx))
  obtain ⟨s, hs⟩ := Option.isSome_iff_exists.mp hcontains
  obtain ⟨e, he, rfl, rfl⟩ := (Table.find?_foldl_insert hs).resolve_left nofun
  obtain ⟨k, hk⟩ := hpairs e he
  exact ⟨k, hk ▸ hs, hk ▸ mem_map_of_mem he⟩

theorem skolemOf_mem (hx : x ∈ vars) : skolemOf n vars x ∈ numbered n vars := by
  obtain ⟨k, hk, hmem⟩ := find?_skolemNames n hx
  rwa [skolemOf, hk, Option.getD_some]

theorem NotSkolem.not_mem_numbered (h : NotSkolem x) : x ∉ numbered n vars := fun hmem => by
  obtain ⟨k, y, -, -, heq⟩ := exists_of_mem_numbered hmem
  exact h.ne_skolemName k y heq

/-- **Putting variables for the quantified ones** reads the quantified ones at the values of the variables. -/
theorem eval_rename_skolemNames {body : Formula} {o : Bool}
    (hbody : body.Over (.only NotSkolem) vars o) (n : Nat) (g : M.Valuation) :
    M.eval (M.given (numbered n vars) g pre) (M.given (numbered n vars) g cur)
        (body.rename (.ofList (skolemNames n vars))) =
      M.eval (M.given vars (g ∘ skolemOf n vars) pre) (M.given vars (g ∘ skolemOf n vars) cur) body := by
  have hfind : ∀ y, ((Table.ofList (skolemNames n vars)).map Formula.ident).find? y =
      ((Table.ofList (skolemNames n vars)).find? y).map .ident := Table.find?_map _ _
  have hadmits : body.Admits ((Table.ofList (skolemNames n vars)).map .ident) [] := by
    refine Formula.admits_of_binders [] body fun x hx y g hg hxg => ?_
    obtain ⟨s, hs, rfl⟩ := Option.map_eq_some_iff.mp ((hfind y).symm.trans hg)
    obtain hempty | ⟨e, he, -, rfl⟩ := Table.find?_foldl_insert hs
    · cases hempty
    obtain rfl : x = e.2 := by simpa [Formula.freeNames, Formula.occurrences] using hxg
    exact (hbody.binders _ hx : NotSkolem _).not_mem_numbered (mem_map_of_mem he)
  rw [Formula.rename, Model.eval_substitute _ _ hadmits]
  refine Model.eval_congr fun x hx => ?_
  by_cases hmem : x ∈ vars
  · obtain ⟨k, hk, hskolem⟩ := find?_skolemNames n hmem
    simp [Model.updated, hfind, hk, Model.eval, Model.given, hskolem, hmem, skolemOf]
  · have hx : NotSkolem x := by
      have hocc : x ∈ body.occurrences vars :=
        (Formula.mem_occurrences vars body).mpr ⟨Formula.mem_freeNames.mp hx, hmem⟩
      exact (hbody.of_mem_occurrences hocc).choose_spec
    have hnone : (Table.ofList (skolemNames n vars)).find? x = none := by
      rw [← Option.not_isSome_iff_eq_none]
      intro hsome
      rcases Table.contains_foldl_insert.mp hsome with hempty | hkey
      · cases hempty
      · exact hmem (keys_skolemNames n vars ▸ hkey)
    simp [Model.updated, hfind, hnone, Model.given, hx.not_mem_numbered, hmem]

/-- A quantifier asks of the values of its variables what it asks of those of the variables that stand for them. -/
theorem asks_numbered (hkind : kind.Strong) (D : M.Value) (n : Nat) (P : M.Valuation → M.Valuation → Prop) :
    kind.asks (M.ranges D vars.length) (fun vals => P (M.bind pre vars vals) (M.bind cur vars vals)) ↔
      kind.asks (fun g : M.Valuation => ∀ s ∈ numbered n vars, M.atom (g s) ∧ M.mem (g s) D) fun g =>
        P (M.given vars (g ∘ skolemOf n vars) pre) (M.given vars (g ∘ skolemOf n vars) cur) := by
  refine asks_back_and_forth hkind (fun vals hvals => ?_) fun g hg => ?_
  · -- A variable takes the value of the one that it stands for.
    obtain ⟨hlen, hvals⟩ := hvals
    let g : M.Valuation :=
      Function.extend (fun p : Nat × String => skolemName p.1 p.2) (fun p => M.bind pre vars vals p.2) pre
    have hg : ∀ k x, g (skolemName k x) = M.bind pre vars vals x := fun k x =>
      skolemName_injective.extend_apply _ _ (k, x)
    have hskolem : ∀ x ∈ vars, M.bind pre vars vals x = (g ∘ skolemOf n vars) x := fun x hx => by
      obtain ⟨k, hk, -⟩ := find?_skolemNames n hx
      rw [Function.comp_apply, skolemOf, hk, Option.getD_some, hg]
    refine ⟨g, fun s hs => ?_, ?_⟩
    · obtain ⟨k, x, -, hx, rfl⟩ := exists_of_mem_numbered hs
      rw [hg]
      exact hvals _ (Model.bind_mem hlen hx)
    · rw [Model.bind_eq_given pre hlen, Model.bind_eq_given (ρ := cur) pre hlen, Model.given_congr hskolem,
        Model.given_congr (ρ := cur) hskolem]
  · refine ⟨vars.map (g ∘ skolemOf n vars), ⟨length_map _, forall_mem_map.mpr fun x hx => ?_⟩, ?_⟩
    · exact hg _ (skolemOf_mem hx)
    · rw [Model.bind_map, Model.bind_map]

/-- The values of variables: atoms. -/
def Atoms (M : Model) (vs : List Var) (g : M.Valuation) : Prop := ∀ x ∈ names vs, M.atom (g x)

/-- Whether a formula holds where variables have the values of a valuation. -/
def HoldsGiven (pre cur : M.Valuation) (vs : List Var) (f : Formula) (g : M.Valuation) : Prop :=
  M.holds (M.eval (M.given (names vs) g pre) (M.given (names vs) g cur) f)

/-- **A conjunct holds when the values of its variables say so.** -/
theorem holds_skolemizeConjunct (hkind : kind.Strong) (n : Nat) (hc : c.Over (.only NotSkolem) [] false) :
    M.holds (M.eval pre cur c) ↔ kind.asks (Atoms M (skolemizeConjunct kind n c).2)
      (HoldsGiven pre cur (skolemizeConjunct kind n c).2 (skolemizeConjunct kind n c).1) := by
  have hsame : M.holds (M.eval pre cur c) ↔ kind.asks (Atoms M []) (HoldsGiven pre cur [] c) := by
    rcases hkind with rfl | rfl
    · exact ⟨fun h _ _ => h, fun h => h cur nofun⟩
    · exact ⟨fun h => ⟨cur, nofun, h⟩, fun ⟨_, _, h⟩ => h⟩
  unfold skolemizeConjunct
  split
  · next k vars domain body =>
    split
    · next heq =>
      subst heq
      obtain ⟨-, hdomain, hbody⟩ := hc
      have hdomain : NotSkolem domain := hdomain.resolve_left not_mem_nil
      have hbody : body.Over (.only NotSkolem) vars false := hbody
      have hnames : names ((skolemNames n vars).map fun v => (⟨v.2, skolemType domain⟩ : Var)) =
          numbered n vars := map_map ..
      have hranges : ∀ g : M.Valuation, (∀ r ∈ (skolemNames n vars).map fun v =>
            Formula.binary .mem (.ident v.2) (.ident domain),
          M.holds (M.eval (M.given (numbered n vars) g pre) (M.given (numbered n vars) g cur) r)) ↔
            ∀ s ∈ numbered n vars, M.mem (g s) (cur domain) := by
        intro g
        refine forall_mem_map.trans (Iff.trans (forall₂_congr fun v hv => ?_) forall_mem_map.symm)
        have hv : v.2 ∈ numbered n vars := mem_map_of_mem hv
        rw [Model.eval, Model.binary, M.holds_truth, Model.eval, Model.eval, Model.given_of_mem hv,
          Model.given_of_not_mem hdomain.not_mem_numbered]
      have heval : M.eval pre cur (.ident domain) = cur domain := by rw [Model.eval]
      rw [Model.eval, M.holds_truth, heval, asks_numbered hkind _ n fun pre cur => M.holds (M.eval pre cur body)]
      rcases hkind with rfl | rfl
      · refine forall_congr' fun g => ?_
        simp only [Atoms, HoldsGiven, hnames]
        rw [Model.holds_implies, Model.holds_all, hranges, eval_rename_skolemNames hbody, ← and_imp,
          ← forall₂_and]
      · refine exists_congr fun g => ?_
        simp only [Atoms, HoldsGiven, hnames]
        rw [Model.holds_all, forall_mem_append, forall_mem_singleton, hranges,
          eval_rename_skolemNames hbody, ← and_assoc, ← forall₂_and]
    · exact hsame
  · exact hsame

/-! ## Several conjuncts -/

/-- A formula reads the variables among its free names only. -/
theorem holdsGiven_congr {vs ws : List Var} (g : M.Valuation) (hf : f.Over (withVars vs (.only NotSkolem)) [] false)
    (hsub : names vs ⊆ names ws) (hws : ∀ x ∈ names ws, ¬ NotSkolem x) :
    HoldsGiven pre cur ws f g ↔ HoldsGiven pre cur vs f g := by
  have hread : ∀ x ∈ f.freeNames, (x ∈ names ws ↔ x ∈ names vs) := fun x hx => by
    obtain ⟨_, hread | hread⟩ := hf.of_mem_freeNames hx
    · exact iff_of_true (hsub hread) hread
    · exact iff_of_false (fun hmem => hws x hmem hread) fun hmem => hws x (hsub hmem) hread
  rw [HoldsGiven, HoldsGiven, Model.eval_congr fun x hx => ?_]
  simp only [Model.given, hread x hx, and_self]

/-- **Conjuncts hold when the values of their variables say so.** -/
theorem holds_skolemizeAll (hM : ∃ a, M.atom a) (hkind : kind.Strong) (n : Nat) {cs : List Formula}
    (hcs : ∀ c ∈ cs, c.Over (.only NotSkolem) [] false) :
    (∀ c ∈ cs, M.holds (M.eval pre cur c)) ↔ kind.asks (Atoms M (skolemizeAll kind n cs).2) fun g =>
      ∀ c ∈ (skolemizeAll kind n cs).1, HoldsGiven pre cur (skolemizeAll kind n cs).2 c g := by
  obtain ⟨a, ha⟩ := hM
  induction cs generalizing n with
  | nil =>
    rcases hkind with rfl | rfl
    · exact iff_of_true (forall_mem_nil _) fun _ _ => forall_mem_nil _
    · exact iff_of_true (forall_mem_nil _) ⟨cur, forall_mem_nil _, forall_mem_nil _⟩
  | cons c cs ih =>
    obtain ⟨hc, hcs⟩ := forall_mem_cons.mp hcs
    obtain ⟨xs, hrow, -⟩ := numbered_skolemizeAll kind n (c :: cs)
    have hws : ∀ x ∈ names (skolemizeAll kind n (c :: cs)).2, ¬ NotSkolem x := fun x hx hx' =>
      hx'.not_mem_numbered (hrow ▸ hx)
    have hnodup : (names (skolemizeAll kind n (c :: cs)).2).Nodup := hrow ▸ nodup_numbered n xs
    have hover := skolemizeConjunct_over kind n hc
    have hovers := skolemizeAll_over kind (n + (skolemizeConjunct kind n c).2.length) hcs
    rw [forall_mem_cons, holds_skolemizeConjunct hkind n hc, ih (n + _) hcs]
    rw [skolemizeAll] at hws hnodup ⊢
    dsimp only at hws hnodup ⊢
    set vs := (skolemizeConjunct kind n c).2
    set ws := (skolemizeAll kind (n + vs.length) cs).2
    have hnames : names (vs ++ ws) = names vs ++ names ws := map_append
    rw [hnames] at hnodup
    have hapart : ∀ x ∈ names ws, x ∉ names vs := fun x hw hv =>
      (disjoint_of_nodup_append hnodup) hv hw
    -- The values of the first variables are those of one choice, the values of the others those of the other.
    have hleft : ∀ g h ρ : M.Valuation, M.given (names vs) (M.given (names vs) g h) ρ = M.given (names vs) g ρ :=
      fun g h ρ => Model.given_congr fun x hx => Model.given_of_mem hx
    have hright : ∀ g h ρ : M.Valuation, M.given (names ws) (M.given (names vs) g h) ρ = M.given (names ws) h ρ :=
      fun g h ρ => Model.given_congr fun x hx => Model.given_of_not_mem (hapart x hx)
    have hatoms : Atoms M (vs ++ ws) = fun g => Atoms M vs g ∧ Atoms M ws g := by
      funext g
      rw [Atoms, hnames]
      exact propext forall_mem_append
    have hholds : ∀ g, (∀ d ∈ (skolemizeConjunct kind n c).1 :: (skolemizeAll kind (n + vs.length) cs).1,
        HoldsGiven pre cur (vs ++ ws) d g) ↔ HoldsGiven pre cur vs (skolemizeConjunct kind n c).1 g ∧
          ∀ d ∈ (skolemizeAll kind (n + vs.length) cs).1, HoldsGiven pre cur ws d g := fun g => by
      rw [forall_mem_cons, holdsGiven_congr g hover (hnames ▸ subset_append_left _ _) hws]
      exact and_congr_right fun _ => forall₂_congr fun d hd =>
        holdsGiven_congr g (hovers d hd) (hnames ▸ subset_append_right _ _) hws
    rw [hatoms, Model.asks_congr kind fun g _ => hholds g]
    refine asks_and hkind (M.given (names vs)) (fun g h => ⟨?_, ?_⟩) (fun g h => ⟨?_, ?_⟩)
      ⟨fun _ => a, fun _ _ => ha⟩ ⟨fun _ => a, fun _ _ => ha⟩
    · exact forall₂_congr fun x hx => by rw [Model.given_of_mem hx]
    · rw [HoldsGiven, HoldsGiven, hleft, hleft]
    · exact forall₂_congr fun x hx => by rw [Model.given_of_not_mem (hapart x hx)]
    · simp only [HoldsGiven, hright]

theorem holds_conjuncts : ∀ f : Formula,
    M.holds (M.eval pre cur f) ↔ ∀ c ∈ f.conjuncts, M.holds (M.eval pre cur c) := by
  intro f
  fun_induction Formula.conjuncts f with
  | case1 x y ihx ihy => rw [Model.eval, Model.binary, M.holds_truth, forall_mem_append, ihx, ihy]
  | case2 f _ htruth => exact iff_of_true (Model.holds_of_isTruth htruth) (forall_mem_nil _)
  | case3 f => rw [forall_mem_singleton]

/-- A contract holds when the values of its variables say so. -/
theorem holds_skolemize (hM : ∃ a, M.atom a) (hkind : kind.Strong) (n : Nat)
    (hf : f.Over (.only NotSkolem) [] false) :
    M.holds (M.eval pre cur f) ↔ kind.asks (Atoms M (skolemize kind n f).2)
      (HoldsGiven pre cur (skolemize kind n f).2 (skolemize kind n f).1) := by
  rw [holds_conjuncts, holds_skolemizeAll hM hkind n hf.conjuncts]
  exact Model.asks_congr kind fun g _ => Model.holds_all.symm

/-- **Contracts without their quantifiers are exact.**  A formula holds if and only if some values of the variables
for `some`, and if and only if all values of those for `all`, make what is left of it hold; and no two variables of a
program have one name. -/
theorem skolemize_exact (M : Model) (hM : ∃ a, M.atom a) (pre cur : M.Valuation) (n : Nat) (e : Formula)
    (he : e.Over (.only NotSkolem) [] false) :
    (M.holds (M.eval pre cur e) ↔ ∃ g : M.Valuation, Atoms M (skolemize (.mult .some) n e).2 g ∧
      HoldsGiven pre cur (skolemize (.mult .some) n e).2 (skolemize (.mult .some) n e).1 g) ∧
    (M.holds (M.eval pre cur e) ↔ ∀ g : M.Valuation, Atoms M (skolemize .all n e).2 g →
      HoldsGiven pre cur (skolemize .all n e).2 (skolemize .all n e).1 g) ∧
    (∀ kind, (names (skolemize kind n e).2).Nodup) ∧
    ∀ (s : Settings) (state : List String) (owner : String) (p : Contract.Program) (q : Program),
      ofProgram s state owner p = .ok q → (names q.skolems).Nodup := by
  refine ⟨holds_skolemize hM (.inr rfl) n he, holds_skolemize hM (.inl rfl) n he, fun kind => ?_,
    fun s state owner p q h => nodup_skolems h⟩
  obtain ⟨xs, hxs, -⟩ := numbered_skolemizeAll kind n e.conjuncts
  exact hxs.symm ▸ nodup_numbered n xs

/-- A contract with a variable that is bound twice and one that an inner quantifier shadows. -/
def rebound : Formula :=
  .binary .and
    (.quant (.mult .some) ["x", "x"] (.ident "C") (.quant .all ["x"] (.ident "D")
      (.binary .mem (.ident "x") (.join (.ident "thiz") (.ident "C_f")))))
    (.quant .all ["y"] (.ident "Int") (.binary .le (.int 0) (.old (.ident "y"))))

/-- One variable stands for each of two of one name, and the inner one is left alone. -/
theorem skolemize_exact_rebound :
    let ρ : Model.relations.Valuation := fun x => Set.singleton [.object x]
    rebound.Over (.only NotSkolem) [] false ∧ names (skolemize (.mult .some) 0 rebound).2 = ["sk_0_x", "sk_1_x"] ∧
      (Model.relations.holds (Model.relations.eval ρ ρ rebound) ↔ ∃ g : Model.relations.Valuation,
        Atoms Model.relations (skolemize (.mult .some) 0 rebound).2 g ∧
          HoldsGiven ρ ρ (skolemize (.mult .some) 0 rebound).2 (skolemize (.mult .some) 0 rebound).1 g) := by
  intro ρ
  have hx : NotSkolem "x" := by decide
  have hrebound : rebound.Over (.only NotSkolem) [] false :=
    ⟨⟨List.forall_mem_cons.mpr ⟨hx, List.forall_mem_singleton.mpr hx⟩, .inr (by decide : NotSkolem "C"),
      List.forall_mem_singleton.mpr hx, .inr (by decide : NotSkolem "D"), .inr hx,
      .inr (by decide : NotSkolem "thiz"), .inr (by decide : NotSkolem "C_f")⟩,
      List.forall_mem_singleton.mpr (by decide : NotSkolem "y"), .inr (by decide : NotSkolem "Int"), trivial,
      .inr (by decide : NotSkolem "y")⟩
  exact ⟨hrebound, by decide, (skolemize_exact Model.relations ⟨_, (.object "x"), rfl⟩ ρ ρ 0 rebound hrebound).1⟩

end Relational

end Relspec
