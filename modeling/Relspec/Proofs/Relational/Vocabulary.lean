import Mathlib.Logic.Function.Iterate
import Relspec.Proofs.Contract.Vocabulary
import Relspec.Proofs.Relational.OfNamed

/-!
# Proofs/Relational/Vocabulary — what relational modules speak of

A precondition speaks of what it read in any state.  In a postcondition names of the state get a prime, and
what stands under `old` loses one for each `old` around it, even if the prime was part of the name.  A body
speaks of its temporaries besides.

* `preState_over`, `postState_over` — formulas over the states before and after;
* `sideOf_over`, `skolemize_over` — definitions of side variables, and variables for quantified ones;
* `Hereditary`, `Lowers.flattened` — properties that the lowering of bodies keeps;
* `Program.Speaks`, `ofProgram_speaks`, `ofModules_speaks` — programs and modules.
-/

namespace Relspec.Relational

open List
open Formula (Over OverAll Vocabulary)

variable {V : Vocabulary} {bound state : List String} {o : Bool} {f : Formula}
variable {op : ArithOp} {a b : Formula} {x : String} {mode : Mode} {s s' : Side} {p : Contract.Program}

/-! ## The state before -/

theorem over_of_operation? (hf : f.Over V bound o) (h : operation? f = some (op, a, b)) :
    a.Over V bound o ∧ b.Over V bound o := by
  unfold operation? at h
  split at h
  · cases h
    exact hf
  · cases h
    exact ⟨trivial, hf⟩
  · cases h

theorem functionCall_over (op : ArithOp) (ha : a.Over V bound o) (hb : b.Over V bound o) :
    (functionCall op a b).Over V bound o := ⟨ha, hb, trivial⟩

theorem inline_over (h : f.Over V [] o) : (inline f).Over V [] o := by
  refine Over.rebuild [] [] (fun _ _ _ _ hx => ?_) (fun inner o g _ _ hg => ?_) (fun _ hv => hv) nofun h
  · exact hx
  · unfold inlineNode
    split
    · next hop =>
      obtain ⟨ha, hb⟩ := over_of_operation? hg hop
      exact functionCall_over _ ha hb
    · exact hg

/-- **A formula over the state before a program** speaks of what it read in any state. -/
theorem preState_over (h : f.Over V [] false) : (preState f).Over V.ever [] false := by
  refine Over.rebuild [] [] (fun _ _ _ _ hx => ?_) (fun inner o g _ _ hg => ?_) (fun _ hv => hv) nofun
    ((inline_over h).mono Vocabulary.within_ever)
  · exact hx
  · cases g with
    | old x => exact Over.early o hg
    | _ => exact hg

/-! ## The states before and after -/

theorem toList_primed (x : String) : (primed x).toList = x.toList ++ ['\''] := by
  simp [primed]

theorem prime_mem_iterate_primed (x : String) : ∀ {k : Nat}, 0 < k → '\'' ∈ (primed^[k] x).toList
  | k + 1, _ => by
    rw [Function.iterate_succ_apply', toList_primed]
    exact mem_append_right _ mem_cons_self

/-- A name without a prime in it has lost none. -/
theorem eq_of_iterate_primed {k : Nat} {y : String} (h : primed^[k] x = y) (hy : '\'' ∉ y.toList) :
    x = y := by
  rcases Nat.eq_zero_or_pos k with rfl | hk
  · exact h
  · exact absurd (h ▸ prime_mem_iterate_primed x hk) hy

/-- A name that is left of one that is read under `old`, or of a variable of a quantifier, without the
primes at its end. -/
def Stripped (V : Vocabulary) (x : String) : Prop :=
  ∃ k, V.reads true (primed^[k] x) ∨ 0 < k ∧ V.binds (primed^[k] x)

/-- **The vocabulary of the states before and after**: names of the state get a prime, names under `old`
lose theirs. -/
def after (state : List String) (V : Vocabulary) : Vocabulary where
  reads old x := (∃ y, V.reads old y ∧ x = if y ∈ state then primed y else y) ∨ Stripped V x
  binds := V.binds

theorem Stripped.dropEnd (h : Stripped V x) : Stripped V (Text.dropEnd x "'") := by
  rcases Text.dropEnd_cases x "'" with hx | hx
  · rwa [hx]
  · obtain ⟨k, hk⟩ := h
    rw [hx] at hk
    exact ⟨k + 1, hk.imp_right fun hk => ⟨Nat.succ_pos k, hk.2⟩⟩

/-- A name under `old` loses the prime that it got, or one that it had. -/
theorem after_reads_dropEnd (h : (after state V).reads true x) (old : Bool) :
    (after state V).reads old (Text.dropEnd x "'") := by
  refine .inr ?_
  rcases h with ⟨y, hy, rfl⟩ | h
  · have hstripped : Stripped V y := ⟨0, .inl hy⟩
    split
    · rwa [primed, Text.dropEnd_append]
    · exact hstripped.dropEnd
  · exact h.dropEnd

theorem unprime_over (hbound : ∀ v ∈ bound, V.binds v) (h : f.Over (after state V) bound true) (o : Bool) :
    (unprime f).Over (after state V) bound o := by
  have hearly : f.Over (after state V).early (bound ++ []) o := by
    rw [append_nil]
    exact Over.early o h
  suffices hover : (unprime f).Over (after state V) (bound ++ []) o by rwa [append_nil] at hover
  refine Over.rebuild (V := (after state V).early) (W := after state V) bound bound
    (fun inner o x hinner hx => ?_) (fun inner o g hne _ hg => ?_) (fun _ hv => hv)
    (fun _ hv => absurd hv not_mem_nil) hearly
  · rcases hx with hx | hx
    · -- A bound name that loses a prime is bound no more.
      rcases Text.dropEnd_cases x "'" with heq | heq
      · exact .inl (heq.symm ▸ hx)
      · have hbinds : V.binds x := (forall_mem_append.mpr ⟨hbound, hinner⟩) x hx
        have hprimed : primed^[1] (Text.dropEnd x "'") = x := heq.symm
        exact .inr (.inr ⟨1, .inr ⟨Nat.one_pos, hprimed.symm ▸ hbinds⟩⟩)
    · exact .inr (after_reads_dropEnd hx o)
  · cases g with
    | ident x => exact absurd rfl (hne x)
    | _ => exact hg

/-- **A formula over the states before and after a program.** -/
theorem postState_over (h : f.Over V [] false) : (postState state f).Over (after state V) [] false := by
  refine Over.rebuild (V := V) (W := after state V) [] [] (fun inner o x _ hx => ?_)
    (fun inner o g hne hinner hg => ?_) (fun _ hv => hv) (fun _ hv => absurd hv not_mem_nil)
    (inline_over h)
  · dsimp only
    by_cases hmem : x ∈ inner
    · rw [if_neg (by simp [hmem])]
      exact .inl hmem
    · have hread : V.reads o x := hx.resolve_left hmem
      split
      · next hstate =>
        have hstate : x ∈ state := by simpa [hmem] using hstate
        exact .inr (.inl ⟨x, hread, (if_pos hstate).symm⟩)
      · next hstate =>
        have hstate : x ∉ state := by simpa [hmem] using hstate
        exact .inr (.inl ⟨x, hread, (if_neg hstate).symm⟩)
  · cases g with
    | ident x => exact absurd rfl (hne x)
    | old x => exact unprime_over hinner hg o
    | _ => exact hg

/-! ## Side variables -/

theorem over_of_definedBy? (hf : f.Over V bound o) (h : definedBy? f = some (op, a, b)) :
    a.Over V bound o ∧ b.Over V bound o := by
  unfold definedBy? at h
  split at h
  · next x =>
    obtain ⟨⟨op', a', b'⟩, hop, heq⟩ := Option.map_eq_some_iff.mp h
    cases heq
    have hx : x.Over V bound true := hf
    obtain ⟨ha, hb⟩ := over_of_operation? hx hop
    exact ⟨ha, hb⟩
  · exact over_of_operation? hf h

theorem applied_over (native : Bool) (h : f.Over V bound o) : (applied native f).Over V bound o := by
  unfold applied
  split
  · next v rhs =>
    split
    · next hop =>
      obtain ⟨ha, hb⟩ := over_of_definedBy? h.2 hop
      cases native with
      | true => exact ⟨ha, hb, h.1, trivial⟩
      | false => exact ⟨h.1, functionCall_over _ ha hb⟩
    · exact h
  · exact h

/-- The vocabulary of a part of a contract over the states that it speaks of. -/
def spoken (state : List String) : Origin → Vocabulary → Vocabulary
  | .ensures, V => after state V
  | .requires, V | .invariant, V => V.ever

theorem define_over (native : Bool) {d : SideDef} (h : d.formula.Over V [] false) :
    (define native state d).formula.Over (spoken state d.origin V) [] false := by
  have happlied := applied_over native h
  unfold define
  cases d.origin with
  | ensures => exact postState_over happlied
  | requires | invariant => exact preState_over happlied

/-- **Side variables stay, and their definitions are put over the states** that they speak of. -/
theorem sideOf_eq (h : sideOf mode state s = .ok s') :
    s' = ⟨s.vars, s.defs.map (define mode.native state)⟩ := by
  obtain ⟨defs, hdefs, h⟩ := exists_of_except_ok h
  cases h
  congr 1
  rw [← map_id defs]
  refine map_eq_of_forall₂ (forall₂_of_mapM_ok hdefs) fun d d' hd => ?_
  obtain ⟨_, -, hd⟩ := exists_of_except_ok hd
  cases hd
  rfl

theorem ofOrigin_of_sideOf (h : sideOf mode state s = .ok s') (o : Origin) :
    s'.ofOrigin o = ⟨(s.ofOrigin o).vars, (s.ofOrigin o).defs.map (define mode.native state)⟩ := by
  rw [sideOf_eq h, Side.ofOrigin, filter_map]
  rfl

theorem sideOf_over (h : sideOf mode state s = .ok s') {o : Origin}
    (hs : ∀ d ∈ (s.ofOrigin o).formulas, d.Over V [] false) :
    ∀ d ∈ (s'.ofOrigin o).formulas, d.Over (spoken state o V) [] false := by
  rw [ofOrigin_of_sideOf h, Side.formulas, map_map]
  refine forall_mem_map.mpr fun d hd => ?_
  have horigin : d.origin = o := eq_of_beq (mem_filter.mp hd).2
  exact horigin ▸ define_over mode.native (hs d.formula (mem_map_of_mem hd))

/-! ## Quantifiers as variables -/

theorem IsSkolem.ne_return {v : Var} (h : IsSkolem v) : v.name ≠ "return" := by
  obtain ⟨n, x, hname⟩ := h
  have hhead : v.name.toList.head? = some 's' := by simp [hname, skolemName]
  intro hreturn
  rw [hreturn] at hhead
  exact absurd hhead (by decide)

/-- The vocabulary with variables in it. -/
def withVars (vs : List Var) (V : Vocabulary) : Vocabulary := V.adding (· ∈ vs.map (·.name))

theorem withVars_within {vs ws : List Var} (h : vs ⊆ ws) : (withVars vs V).Within (withVars ws V) :=
  Vocabulary.Within.adding (.refl V) fun _ hx => map_subset _ h hx

theorem keys_skolemNames (n : Nat) (vars : List String) : (skolemNames n vars).map (·.1) = vars := by
  induction vars generalizing n with
  | nil => rfl
  | cons v vars ih => rw [skolemNames, map_cons, ih]

theorem skolemizeConjunct_over (kind : Formula.Quantifier) (n : Nat) {c : Formula} (h : c.Over V [] false) :
    (skolemizeConjunct kind n c).1.Over (withVars (skolemizeConjunct kind n c).2 V) [] false := by
  unfold skolemizeConjunct
  split
  · next k vars domain body =>
    split
    · dsimp only
      set W := withVars ((skolemNames n vars).map fun v => (⟨v.2, skolemType domain⟩ : Var)) V with hW
      obtain ⟨-, hdomain, hbody⟩ := h
      have hskolem : ∀ e ∈ skolemNames n vars, ∀ old, W.reads old e.2 := fun e he old => by
        refine .inl ?_
        rw [map_map]
        exact mem_map_of_mem (f := fun v : String × String => v.2) he
      have hranges : ∀ g ∈ (skolemNames n vars).map fun v => Formula.binary .mem (.ident v.2) (.ident domain),
          g.Over W [] false := forall_mem_map.mpr fun e he =>
        ⟨.inr (hskolem e he false), hdomain.mono Vocabulary.within_adding⟩
      have hrenamed : (body.rename (.ofList (skolemNames n vars))).Over W [] false := by
        refine hbody.rename (fun x hx => ?_) (fun x y hxy => ?_) (fun old x _ hx => .inr hx) fun _ hv => hv
        · refine Table.contains_foldl_insert.mpr (.inr ?_)
          rwa [keys_skolemNames]
        · exact (Table.Forall.ofList (P := fun _ y => ∀ old, W.reads old y) hskolem).find? hxy
      split
      · exact .all (forall_mem_append.mpr ⟨hranges, forall_mem_singleton.mpr hrenamed⟩)
      · exact .implies (.all hranges) hrenamed
    · exact h.mono Vocabulary.within_adding
  · exact h.mono Vocabulary.within_adding

theorem skolemizeAll_over (kind : Formula.Quantifier) : ∀ {cs : List Formula} (n : Nat),
    (∀ c ∈ cs, c.Over V [] false) →
      ∀ c ∈ (skolemizeAll kind n cs).1, c.Over (withVars (skolemizeAll kind n cs).2 V) [] false
  | [], _, _ => nofun
  | c :: cs, n, h => by
    obtain ⟨hc, hcs⟩ := forall_mem_cons.mp h
    have hrest := skolemizeAll_over kind (n + (skolemizeConjunct kind n c).2.length) hcs
    exact forall_mem_cons.mpr
      ⟨(skolemizeConjunct_over kind n hc).mono (withVars_within (subset_append_left _ _)),
        fun c hc => (hrest c hc).mono (withVars_within (subset_append_right _ _))⟩

/-- **A contract whose quantifiers become variables** speaks of these besides. -/
theorem skolemize_over (kind : Formula.Quantifier) (n : Nat) (h : f.Over V [] false) :
    (skolemize kind n f).1.Over (withVars (skolemize kind n f).2 V) [] false :=
  .all (skolemizeAll_over kind n h.conjuncts)

theorem requiresOf_over (s : Settings) (h : p.requires.Over V [] false) :
    (requiresOf s p).1.Over (withVars (requiresOf s p).2 V) [] false := by
  rw [requiresOf]
  split
  · exact skolemize_over _ 0 h
  · exact h.mono Vocabulary.within_adding

theorem ensuresOf_over (s : Settings) (h : p.ensures.Over V [] false) :
    (ensuresOf s p).1.Over (withVars (ensuresOf s p).2 V) [] false := by
  rw [ensuresOf]
  split
  · exact skolemize_over _ _ h
  · exact h.mono Vocabulary.within_adding

/-! ## Bodies -/

/-- The vocabulary with the first `m` temporaries. -/
def withTemps (m : Nat) (V : Vocabulary) : Vocabulary := V.adding fun x => ∃ k < m, x = tempName k

theorem withTemps_within {n m : Nat} (h : n ≤ m) : (withTemps n V).Within (withTemps m V) :=
  Vocabulary.Within.adding (.refl V) fun _ ⟨k, hk, hx⟩ => ⟨k, Nat.lt_of_lt_of_le hk h, hx⟩

section

theorem forall_mem_pair {α : Type} {P : α → Prop} {x y : α} : (∀ z ∈ [x, y], P z) ↔ P x ∧ P y := by
  rw [forall_mem_cons, forall_mem_singleton]

theorem Stmt.formulasAll_append (ss ts : List Stmt) :
    formulasAll (ss ++ ts) = formulasAll ss ++ formulasAll ts := by
  induction ss with
  | nil => rfl
  | cons s ss ih => rw [cons_append, formulasAll, ih, formulasAll, append_assoc]

theorem Stmt.formulasAll_singleton (s : Stmt) : formulasAll [s] = s.formulas := append_nil _

/-- **A property of expressions that lowering keeps**, while temporaries are added. -/
structure Hereditary (H : Nat → Formula → Prop) : Prop where
  mono {n m f} : n ≤ m → H n f → H m f
  temp (n) : H (n + 1) (.ident (tempName n))
  operands {n f op x y} : H n f → operation? f = some (op, x, y) → H n x ∧ H n y
  function {n x y} (op) : H n x → H n y → H n (functionCall op x y)
  inline {n f} : H n f → H n (inline f)
  unary {n op x} : H n (.unary op x) ↔ H n x
  binary {n op x y} : H n (.binary op x y) ↔ H n x ∧ H n y
  join {n x y} : H n (.join x y) ↔ H n x ∧ H n y
  ite {n c t e} : H n (.ite c t e) ↔ H n c ∧ H n t ∧ H n e
  call {n name fs} : H n (.call name fs) ↔ ∀ f ∈ fs, H n f

theorem hereditary_over (V : Vocabulary) : Hereditary fun m f => f.Over (withTemps m V) [] false where
  mono h hf := hf.mono (withTemps_within h)
  temp n := .inr (.inl ⟨n, Nat.lt_succ_self n, rfl⟩)
  operands := over_of_operation?
  function := functionCall_over
  inline := inline_over
  unary := Iff.rfl
  binary := Iff.rfl
  join := Iff.rfl
  ite := Iff.rfl
  call := Formula.overAll_iff

variable {H : Nat → Formula → Prop} (hH : Hereditary H) {native : Bool} {n k m : Nat}
variable {fs gs gs' : List Formula} {ss ts : List Stmt} {g : Formula}

/-- **Expressions `gs` and the statements `ss` that compute them**, which take the temporaries from `n` on
and below `m`, with a property. -/
structure Flattened (H : Nat → Formula → Prop) (gs : List Formula) (ss : List Stmt) (n m : Nat) : Prop where
  le : n ≤ m
  formulas : ∀ g ∈ gs, H m g
  body : ∀ g ∈ Stmt.formulasAll ss, H m g

namespace Flattened

theorem single (h : H n g) : Flattened H [g] [] n n :=
  ⟨Nat.le_refl n, forall_mem_singleton.mpr h, forall_mem_nil _⟩

theorem nil : Flattened H [] [] n n := ⟨Nat.le_refl n, forall_mem_nil _, forall_mem_nil _⟩

/-- An expression by its parts. -/
theorem node (h : Flattened H gs ss n m) (hg : (∀ x ∈ gs, H m x) → H m g) : Flattened H [g] ss n m :=
  ⟨h.le, forall_mem_singleton.mpr (hg h.formulas), h.body⟩

include hH

theorem append (h : Flattened H gs ss n k) (h' : Flattened H gs' ts k m) :
    Flattened H (gs ++ gs') (ss ++ ts) n m where
  le := Nat.le_trans h.le h'.le
  formulas := forall_mem_append.mpr ⟨fun g hg => hH.mono h'.le (h.formulas g hg), h'.formulas⟩
  body := by
    rw [Stmt.formulasAll_append]
    exact forall_mem_append.mpr ⟨fun g hg => hH.mono h'.le (h.body g hg), h'.body⟩

/-- A statement that uses the expressions. -/
theorem stmt {s : Stmt} (h : Flattened H gs ss n k) (hle : k ≤ m)
    (hs : (∀ x ∈ gs, H m x) → ∀ f ∈ s.formulas, H m f) : Flattened H [] (ss ++ [s]) n m where
  le := Nat.le_trans h.le hle
  formulas := forall_mem_nil _
  body := by
    rw [Stmt.formulasAll_append, Stmt.formulasAll_singleton]
    exact forall_mem_append.mpr ⟨fun g hg => hH.mono hle (h.body g hg),
      hs fun g hg => hH.mono hle (h.formulas g hg)⟩

/-- An operation that goes into a temporary. -/
theorem temp {x y : Formula} (h : Flattened H [x, y] ss n m) (native : Bool) (op : ArithOp) :
    Flattened H [.ident (tempName m)] (ss ++ [setTemp native op x y (tempName m)]) n (m + 1) := by
  refine { h.stmt hH (Nat.le_succ m) fun hxy => ?_ with formulas := forall_mem_singleton.mpr (hH.temp m) }
  rw [setTemp]
  split
  · exact hxy
  · obtain ⟨hx, hy⟩ := forall_mem_pair.mp hxy
    exact forall_mem_singleton.mpr (hH.function op hx hy)

end Flattened

include hH

theorem Hereditary.map_inline {f : Option Formula} (h : ∀ g ∈ f.toList, H n g) :
    ∀ g ∈ (f.map Relational.inline).toList, H n g := by
  rw [Option.toList_map]
  exact forall_mem_map.mpr fun g hg => hH.inline (h g hg)

/-- **Taking the operations out of expressions** keeps such a property. -/
theorem Flattens.flattened (h : Flattens native fs gs ss n m) (hfs : ∀ f ∈ fs, H n f) :
    Flattened H gs ss n m := by
  induction h with
  | nil => exact .nil
  | append _ _ ih ih' =>
    obtain ⟨hfs, hfs'⟩ := forall_mem_append.mp hfs
    have hleft := ih hfs
    exact hleft.append hH (ih' fun f hf => hH.mono hleft.le (hfs' f hf))
  | temp hf _ ih => exact (ih (forall_mem_pair.mpr (hH.operands (hfs _ (.head _)) hf))).temp hH native _
  | binary _ _ ih =>
    exact (ih (forall_mem_pair.mpr (hH.binary.mp (hfs _ (.head _))))).node (by simp [hH.binary])
  | join _ ih => exact (ih (forall_mem_pair.mpr (hH.join.mp (hfs _ (.head _))))).node (by simp [hH.join])
  | call _ ih => exact (ih (hH.call.mp (hfs _ (.head _)))).node hH.call.mpr
  | unary _ _ ih => exact (ih (by simpa [hH.unary] using hfs)).node (by simp [hH.unary])
  | ite _ ih => exact (ih (by simpa [hH.ite] using hfs)).node (by simp +contextual [hH.ite])
  | quant => exact .single (hH.inline (hfs _ (.head _)))
  | old | ident | int => exact .single (hfs _ (.head _))

/-- **The relational statements that stand for statements** keep such a property. -/
theorem Lowers.flattened {xs : List Contract.Stmt} (h : Lowers native xs ss n m)
    (hxs : ∀ f ∈ Contract.Stmt.formulasAll xs, H n f) : Flattened H [] ss n m := by
  induction h with
  | nil => exact .nil
  | cons _ _ ih ih' =>
    obtain ⟨hx, hxs⟩ := forall_mem_append.mp hxs
    have hfirst := ih (by simpa [Contract.Stmt.formulasAll] using hx)
    exact hfirst.append hH (ih' fun f hf => hH.mono hfirst.le (hxs f hf))
  | assign h =>
    exact (h.flattened hH (forall_mem_singleton.mpr (hxs _ (.tail _ (.head _))))).stmt hH (Nat.le_refl _) id
  | update h =>
    have hparts := forall_mem_pair.mpr ⟨hxs _ (.tail _ (.head _)), (hH.join.mp (hxs _ (.head _))).1⟩
    refine (h.flattened hH hparts).stmt hH (Nat.le_refl _) fun hparts => ?_
    exact forall_mem_pair.mpr (forall_mem_pair.mp hparts).symm
  | branch h _ _ ihthn ihels =>
    simp only [Contract.Stmt.formulasAll, Contract.Stmt.formulas, append_nil, forall_mem_cons,
      forall_mem_append] at hxs
    have hcond := h.flattened hH (forall_mem_singleton.mpr hxs.1)
    have hthn := ihthn fun f hf => hH.mono hcond.le (hxs.2.1 f hf)
    have hels := ihels fun f hf => hH.mono (Nat.le_trans hcond.le hthn.le) (hxs.2.2 f hf)
    refine hcond.stmt hH (Nat.le_trans hthn.le hels.le) fun hcond => ?_
    rw [Stmt.formulas, forall_mem_cons, forall_mem_append]
    exact ⟨hcond _ (.head _), fun f hf => hH.mono hels.le (hthn.body f hf), hels.body⟩
  | loop h _ ih =>
    simp only [Contract.Stmt.formulasAll, Contract.Stmt.formulas, append_nil, forall_mem_cons,
      forall_mem_append] at hxs
    obtain ⟨hcond, ⟨hinvariant, hvariant⟩, hbody⟩ := hxs
    have hlead := h.flattened hH (forall_mem_singleton.mpr hcond)
    have hbody := ih fun f hf => hH.mono hlead.le (hbody f hf)
    have hle := Nat.le_trans hlead.le hbody.le
    refine (Flattened.nil (H := H)).stmt hH hle fun _ => ?_
    simp only [Stmt.formulas, forall_mem_append, forall_mem_cons]
    exact ⟨fun f hf => hH.mono hbody.le (hlead.body f hf), hH.mono hbody.le (hlead.formulas _ (.head _)),
      ⟨fun f hf => hH.mono hle (hH.map_inline hinvariant f hf),
        fun f hf => hH.mono hle (hH.map_inline hvariant f hf)⟩, hbody.body⟩
  | assert h | assume h | ret h =>
    exact (h.flattened hH (forall_mem_singleton.mpr (hxs _ (.head _)))).stmt hH (Nat.le_refl _) id
  | leave | raise => exact ⟨Nat.le_refl _, forall_mem_nil _, forall_mem_nil _⟩

end

/-! ## Programs and modules -/

open Source (ClassDecl Method)

/-- The vocabulary of a part of the contract of a program: with its side variables, and with those that
stand for quantified ones. -/
def Program.vocabulary (q : Program) (o : Origin) (V : Vocabulary) : Vocabulary :=
  withVars q.skolems (q.side.vocabulary o V)

/-- **A relational program over the vocabulary of its method**, with the parameters and the result of the
program that it comes from. -/
structure Program.Speaks (classes : List ClassDecl) (kept state : List String) (c : ClassDecl) (m : Method)
    (p : Contract.Program) (q : Program) : Prop where
  params : q.params = p.params
  returns : q.returns = p.returns
  locals : p.locals ⊆ q.locals
  skolems : ∀ v ∈ q.skolems, IsSkolem v
  unreturned : "return" ∉ p.params.map (·.name)
  names : ∀ x ∈ (q.side.ofOrigin .ensures).names, ∃ n, x = Arithmetic.sideVar n
  requires : ∀ f ∈ q.pre :: (q.side.ofOrigin .requires).formulas,
    f.Over (q.vocabulary .requires (Contract.preVocabulary classes kept c m p)).ever [] false
  ensures : ∀ f ∈ q.post :: (q.side.ofOrigin .ensures).formulas,
    f.Over (after state (q.vocabulary .ensures (Contract.postVocabulary classes kept c m p))) [] false
  body : ∀ f ∈ Stmt.formulasAll q.body,
    f.Over (withVars q.locals (Contract.bodyVocabulary classes kept c m p)) [] false

/-- **A relational module over the vocabulary of its class.** -/
structure Module.Speaks (classes : List ClassDecl) (kept state : List String) (c : ClassDecl) (r : Module) :
    Prop where
  id : r.id = c.id
  fields : r.fields.map (·.name) = c.fields.map fun f => c.id ++ "_" ++ f.name
  invariant : ∀ f ∈ r.invariant.body :: r.side.formulas,
    f.Over (Vocabulary.adding (Contract.invariantVocabulary classes kept c) (· ∈ r.side.names)).ever [] false
  programs : ∀ q ∈ r.programs, ∃ m k p, (m, k) ∈ Contract.numbered [] c.methods ∧
    q.id = Contract.programId c.id m.name k ∧ q.Speaks classes kept state c m p

theorem names_of_sideOf (h : sideOf mode state s = .ok s') (o : Origin) :
    (s'.ofOrigin o).names = (s.ofOrigin o).names := by
  rw [ofOrigin_of_sideOf h]
  rfl

theorem vocabulary_of_sideOf (h : sideOf mode state s = .ok s') (o : Origin)
    (V : Vocabulary) : s'.vocabulary o V = s.vocabulary o V := by
  rw [Side.vocabulary, names_of_sideOf h, Side.vocabulary]

section

variable {classes : List ClassDecl} {kept : List String} {c : ClassDecl} {s : Settings}

/-- **A program that is lowered is over the vocabulary of its method.** -/
theorem ofProgram_speaks {m : Method} {owner : String} {q : Program}
    (hp : p.Speaks classes kept c m) (h : ofProgram s state owner p = .ok q) :
    q.Speaks classes kept state c m p := by
  have hskolems := isSkolem_of_ofProgram h
  obtain ⟨side, stmts, temps, hside, hstmts, rfl⟩ := exists_of_ofProgram h
  refine ⟨rfl, rfl, subset_append_left _ _, hskolems, hp.params, ?_, ?_, ?_, ?_⟩
  · rw [names_of_sideOf hside]
    exact hp.ensures.defines.names
  · have hpre := (requiresOf_over s hp.requires.formula).mono
      (withVars_within (subset_append_left _ (ensuresOf s p).2))
    rw [Program.vocabulary, vocabulary_of_sideOf hside]
    refine forall_mem_cons.mpr ⟨preState_over hpre, sideOf_over hside fun d hd => ?_⟩
    exact (hp.requires.defines.formulas d hd).mono Vocabulary.within_adding
  · have hpost := (ensuresOf_over s hp.ensures.formula).mono
      (withVars_within (subset_append_right (requiresOf s p).2 _))
    rw [Program.vocabulary, vocabulary_of_sideOf hside]
    refine forall_mem_cons.mpr ⟨postState_over hpost, sideOf_over hside fun d hd => ?_⟩
    exact (hp.ensures.defines.formulas d hd).mono Vocabulary.within_adding
  · refine fun f hf => (((ofStmts_lowers hstmts).flattened (hereditary_over _)
      fun g hg => (hp.body g hg).mono Vocabulary.within_adding).body f hf).mono ?_
    refine Vocabulary.Within.adding (.refl _) fun x ⟨k, hk, hx⟩ => ?_
    rw [map_append, map_map]
    exact mem_append_right _ (mem_map.mpr ⟨k, mem_range.mpr hk, hx.symm⟩)

theorem invariantOf_over {m : Contract.Module}
    (h : ∀ p ∈ m.predicates, p.body.Over V [] false) : (invariantOf m).body.Over V [] false := by
  rw [invariantOf]
  cases hfind : m.predicate? (m.invariant.getD "") with
  | none => exact .truth
  | some p => exact h p (mem_of_find?_eq_some hfind)

/-- **A module that is lowered is over the vocabulary of its class.** -/
theorem ofModule_speaks {m : Contract.Module} {r : Module} (hm : m.Speaks classes kept c)
    (h : ofModule s state m = .ok r) : r.Speaks classes kept state c := by
  obtain ⟨side, programs, hside, hprograms, rfl⟩ := exists_of_ofModule h
  refine ⟨hm.id, hm.fields, ?_, ?_⟩
  · have horigin : side.ofOrigin .invariant = side := by
      rw [ofOrigin_of_sideOf hside, hm.origin, sideOf_eq hside]
    have hformulas := sideOf_over hside hm.side.formulas
    have hinvariant := preState_over (invariantOf_over hm.predicates)
    rw [← vocabulary_of_sideOf hside, Side.vocabulary, horigin] at hformulas hinvariant
    exact forall_mem_cons.mpr ⟨hinvariant, hformulas⟩
  · refine forall_mem_of_forall₂_mem hprograms fun p q hp hq => ?_
    obtain ⟨method, k, hmethod, hid, hspeaks⟩ := hm.programs p hp
    have hq' := ofProgram_speaks hspeaks hq
    obtain ⟨_, _, _, -, -, rfl⟩ := exists_of_ofProgram hq
    exact ⟨method, k, p, hmethod, hid, hq'⟩

theorem ofModules_speaks {ms : List Contract.Module} {rs : List Module} (h : ofModules s ms = .ok rs)
    (hms : ∀ m ∈ ms, ∃ c ∈ classes, m.Speaks classes kept c) :
    ∀ r ∈ rs, ∃ c ∈ classes, r.Speaks classes kept (stateNames ms) c :=
  forall_mem_of_forall₂_mem (forall₂_of_mapM_ok h) fun m _ hm hr => by
    obtain ⟨c, hc, hspeaks⟩ := hms m hm
    exact ⟨c, hc, ofModule_speaks hspeaks hr⟩

end

end Relspec.Relational
