import Relspec.Proofs.Relational.Vocabulary

/-!
# Proofs/Relational/BitWidth — the literals of relational modules

Every formula is checked as it is lowered, and lowering adds no literal but zero.  So the literals of
relational modules are in the range of the bit width, and a fault about a literal tells one of the input.

* `Checked` — what was checked, by whether a computation has failed;
* `ofStmts_checks`, `ofProgram_checked`, `ofModule_checked` — every formula is checked;
* `ofModules_bitWidth`.
-/

namespace Relspec.Relational

open List
open Formula (literalsAll literalsAll_eq_flatMap passes_valued passesAll_iff)

/-- The range of a bit width. -/
def InRange (bits v : Int) : Prop := -2 ^ (bits - 1).toNat ≤ v ∧ v ≤ 2 ^ (bits - 1).toNat - 1

theorem fits_iff {bits : Int} (h : bits ≤ 64) (v : Int64) : fits bits v = true ↔ InRange bits v.toInt := by
  rw [fits, maxInt, if_pos h, Bool.and_eq_true, decide_eq_true_iff, decide_eq_true_iff, InRange]
  have hpow : Int.pow 2 (bits - 1).toNat = 2 ^ (bits - 1).toNat := rfl
  rw [hpow]
  exact and_congr_left' (by omega)

/-- **What was checked, with the owner of each literal**: if nothing has failed, every such literal fits,
and a fault about a literal tells the first one that does not. -/
def Checked {α : Type} (bits : Int) (L : String → Int64 → Prop) : Except Fault α → Prop
  | .ok _ => ∀ o v, L o v → fits bits v = true
  | .error (.literalRange v b o) => b = bits ∧ ∃ w, L o w ∧ fits bits w = false ∧ w.toInt = v
  | .error _ => True

variable {bits : Int} {α β : Type} {L M : String → Int64 → Prop}

namespace Checked

theorem congr {r : Except Fault α} (h : Checked bits L r) (hL : ∀ o v, L o v ↔ M o v) : Checked bits M r := by
  obtain rfl : L = M := funext₂ fun o v => propext (hL o v)
  exact h

/-- One check after the other. -/
theorem next {r : Except Fault α} {r' : Except Fault β} (h : Checked bits L r)
    (herror : ∀ e, r = .error e → r' = .error e) (hok : ∀ a, r = .ok a → Checked bits M r') :
    Checked bits (fun o v => L o v ∨ M o v) r' := by
  rcases r with e | a
  · rw [herror e rfl]
    cases e with
    | literalRange =>
      obtain ⟨hbits, w, hw, hfits⟩ := h
      exact ⟨hbits, w, .inl hw, hfits⟩
    | _ => trivial
  · have hnext := hok a rfl
    rcases r' with e | b
    · cases e with
      | literalRange =>
        obtain ⟨hbits, w, hw, hfits⟩ := hnext
        exact ⟨hbits, w, .inr hw, hfits⟩
      | _ => trivial
    · exact fun o v hv => hv.elim (h o v) (hnext o v)

theorem bind {x : Except Fault α} {k : α → Except Fault β} (h : Checked bits L x)
    (hk : ∀ a, Checked bits M (k a)) : Checked bits (fun o v => L o v ∨ M o v) (x >>= k) :=
  h.next (by rintro e rfl; rfl) (by rintro a rfl; exact hk a)

theorem pure (a : α) : Checked bits (fun _ _ => False) (Except.ok a) := nofun

theorem mapM {γ : Type} {k : γ → Except Fault β} {L : γ → String → Int64 → Prop}
    (h : ∀ x, Checked bits (L x) (k x)) :
    ∀ xs : List γ, Checked bits (fun o v => ∃ x ∈ xs, L x o v) (xs.mapM k)
  | [] => by simp [Checked, Pure.pure, Except.pure]
  | x :: xs => by
    rw [mapM_cons]
    exact ((h x).bind fun _ => (mapM h xs).bind fun _ => pure _).congr (by simp)

end Checked

theorem checkLiterals_checked (bits : Int) (owner : String) (f : Formula) :
    Checked bits (fun o v => o = owner ∧ v ∈ f.literals) (checkLiterals bits owner f) := by
  unfold checkLiterals
  split
  · next v hv => exact ⟨rfl, v, ⟨rfl, mem_of_find?_eq_some hv⟩, by simpa using find?_some hv, rfl⟩
  · next hnone =>
    rintro o v ⟨-, hv⟩
    simpa using find?_eq_none.mp hnone v hv

/-! ## Bodies -/

/-- A part of a body that checks literals. -/
def Checks (mode : Mode) (vs : List Int64) (x : Flattening α) : Prop :=
  ∀ n, Checked mode.bits (fun o v => o = mode.owner ∧ v ∈ vs) (x.run.run n).1

section

variable {mode : Mode} {vs ws : List Int64}

theorem Checks.congr {x : Flattening α} (h : Checks mode vs x) (hvs : ∀ v, v ∈ vs ↔ v ∈ ws) :
    Checks mode ws x :=
  fun n => (h n).congr fun _ v => and_congr_right' (hvs v)

theorem Checks.bind {x : Flattening α} {k : α → Flattening β} (h : Checks mode vs x)
    (hk : ∀ a, Checks mode ws (k a)) : Checks mode (vs ++ ws) (x >>= k) := by
  intro n
  have hx := h n
  rw [ExceptT.run_bind, StateT.run_bind]
  rcases hrun : x.run.run n with ⟨r, m⟩
  rw [hrun] at hx
  refine (hx.next (M := fun o v => o = mode.owner ∧ v ∈ ws) ?_ ?_).congr (by simp [and_or_left])
  · rintro e rfl
    rfl
  · rintro a rfl
    exact hk a m

theorem Checks.pure (a : α) : Checks mode [] (Pure.pure a : Flattening α) := fun _ => nofun

/-- A formula is checked before anything is made of it. -/
theorem Checks.of_literals {f : Formula} {k : Unit → Flattening α} (hk : ∀ u, Checks mode [] (k u)) :
    Checks mode f.literals (liftM (checkLiterals mode.bits mode.owner f) >>= k) := by
  have hlift : Checks mode f.literals (liftM (checkLiterals mode.bits mode.owner f) : Flattening Unit) := by
    intro n
    have h := checkLiterals_checked mode.bits mode.owner f
    cases hcheck : checkLiterals mode.bits mode.owner f <;> exact hcheck ▸ h
  exact (hlift.bind hk).congr (by simp)

theorem exprOf_checks (f : Formula) : Checks mode f.literals (exprOf mode f) := .of_literals fun _ _ => nofun

theorem loopFormula_checks : ∀ o : Option Formula,
    Checks mode (literalsAll o.toList) (o.mapM (loopFormula mode))
  | none => .pure _
  | some _ => (Checks.of_literals fun _ => .pure _).bind fun _ => .pure _

mutual

theorem ofStmt_checks : ∀ x : Contract.Stmt, Checks mode (literalsAll x.formulas) (ofStmt mode x)
  | .assign target value => by
    rw [ofStmt]
    refine ((exprOf_checks value).bind fun _ => (?_ : Checks mode target.literals _)).congr ?_
    · dsimp only
      split
      · exact .pure _
      · next object field => exact (exprOf_checks object).bind fun _ => .pure _
      · exact fun _ => trivial
    · simp [Contract.Stmt.formulas, literalsAll_eq_flatMap, or_comm]
  | .branch cond thn els => by
    rw [ofStmt]
    refine ((exprOf_checks cond).bind fun _ => (ofStmts_checks thn).bind fun _ =>
      (ofStmts_checks els).bind fun _ => .pure _).congr ?_
    simp [Contract.Stmt.formulas, literalsAll_eq_flatMap]
  | .loop cond invariant variant body => by
    rw [ofStmt]
    refine ((exprOf_checks cond).bind fun _ => (ofStmts_checks body).bind fun _ =>
      (loopFormula_checks invariant).bind fun _ => (loopFormula_checks variant).bind fun _ => .pure _).congr ?_
    simp only [Contract.Stmt.formulas, literalsAll_eq_flatMap, flatMap_cons, flatMap_append, mem_append,
      append_nil]
    tauto
  | .assert cond | .assume cond | .ret (some cond) => by
    rw [ofStmt]
    exact (exprOf_checks cond).bind fun _ => .pure _
  | .ret none | .raise _ => by
    rw [ofStmt]
    exact .pure _

/-- **Every formula of a body is checked.** -/
theorem ofStmts_checks : ∀ xs : List Contract.Stmt,
    Checks mode (literalsAll (Contract.Stmt.formulasAll xs)) (ofStmts mode xs)
  | [] => by
    rw [ofStmts]
    exact .pure _
  | x :: xs => by
    rw [ofStmts]
    refine ((ofStmt_checks x).bind fun _ => (ofStmts_checks xs).bind fun _ => .pure _).congr ?_
    simp [Contract.Stmt.formulasAll, literalsAll_eq_flatMap]

end

end

/-! ## Programs and modules -/

section

variable {s : Settings} {state : List String}

theorem sideOf_checked (state : List String) (mode : Mode) (side : Side) :
    Checked mode.bits (fun o v => o = mode.owner ∧ v ∈ literalsAll side.formulas) (sideOf mode state side) := by
  have hdefs := Checked.mapM (fun d : SideDef => (checkLiterals_checked mode.bits mode.owner d.formula).bind
    fun _ => .pure (define mode.native state d)) side.defs
  refine (hdefs.bind fun defs => .pure { side with defs }).congr fun o v => ?_
  simp [literalsAll_eq_flatMap, Side.formulas, and_left_comm]

/-- The formulas of a program that are lowered: its own, with variables for quantified ones. -/
def lowered (s : Settings) (p : Contract.Program) : List Formula :=
  (requiresOf s p).1 :: (ensuresOf s p).1 :: (p.side.formulas ++ Contract.Stmt.formulasAll p.body)

/-- **Every formula of a program is checked.** -/
theorem ofProgram_checked (state : List String) (owner : String) (p : Contract.Program) :
    Checked s.bitWidth (fun o v => o = p.id ∧ v ∈ literalsAll (lowered s p)) (ofProgram s state owner p) := by
  have hrequires := checkLiterals_checked s.bitWidth p.id (requiresOf s p).1
  have hensures := checkLiterals_checked s.bitWidth p.id (ensuresOf s p).1
  have hside := sideOf_checked state ⟨s.nativeArithmetic, s.bitWidth, p.id⟩ p.side
  have hbody : Checks ⟨s.nativeArithmetic, s.bitWidth, p.id⟩ _ _ := ofStmts_checks p.body
  refine (hrequires.bind fun _ => hensures.bind fun _ => hside.bind fun _ => (hbody 0).bind fun _ => .pure _).congr
    fun o v => ?_
  simp [lowered, literalsAll_eq_flatMap, ← and_or_left]

/-- **Every formula of a module is checked.** -/
theorem ofModule_checked (state : List String) (m : Contract.Module) :
    Checked s.bitWidth (fun o v => o = m.invariant.getD "" ∧
      v ∈ literalsAll ((invariantOf m).body :: m.side.formulas) ∨
        ∃ p ∈ m.programs, o = p.id ∧ v ∈ literalsAll (lowered s p)) (ofModule s state m) := by
  have hinvariant := checkLiterals_checked s.bitWidth (m.invariant.getD "") (invariantOf m).body
  have hside := sideOf_checked state ⟨s.nativeArithmetic, s.bitWidth, m.invariant.getD ""⟩ m.side
  have hprograms := Checked.mapM (ofProgram_checked (s := s) state m.id) m.programs
  refine (hinvariant.bind fun _ => hside.bind fun _ => hprograms.bind fun _ => .pure _).congr fun o v => ?_
  simp only [literalsAll, mem_append, or_false, and_or_left, or_assoc]

/-! ## The literals that there are -/

variable {L : Int64 → Prop} (hL : L 0)

theorem passes_of_literalsAll {fs : List Formula} (h : ∀ v ∈ literalsAll fs, L v) :
    ∀ f ∈ fs, f.Passes (.valued L) := by
  rw [literalsAll_eq_flatMap, forall_mem_flatMap] at h
  exact fun f hf => passes_valued.mpr (h f hf)

include hL

theorem keeps_valued : Keeps (.valued L) :=
  ⟨trivial, trivial, fun _ => trivial, fun _ => trivial, fun _ _ => trivial, fun _ _ => trivial,
    fun _ _ _ => trivial, fun _ => trivial, hL⟩

theorem hereditary_valued : Hereditary fun _ f => f.Passes (.valued L) where
  mono _ h := h
  temp _ := trivial
  operands := passes_of_operation? (keeps_valued hL)
  function := passes_functionCall (keeps_valued hL)
  inline := passes_inline (keeps_valued hL)
  unary := Iff.rfl
  binary := Iff.rfl
  join := Iff.rfl
  ite := Iff.rfl
  call := (and_iff_right trivial).trans passesAll_iff

theorem sideOf_valued {mode : Mode} {side side' : Side} (h : sideOf mode state side = .ok side')
    (hside : ∀ f ∈ side.formulas, f.Passes (.valued L)) : ∀ f ∈ side'.formulas, f.Passes (.valued L) := by
  rw [sideOf_eq h, Side.formulas, map_map]
  exact forall_mem_map.mpr fun d hd =>
    passes_define (keeps_valued hL) _ _ (hside _ (mem_map_of_mem hd))

/-- **Lowering adds no literal but zero.** -/
theorem ofProgram_valued {owner : String} {p : Contract.Program} {q : Program}
    (h : ofProgram s state owner p = .ok q) (hp : ∀ f ∈ lowered s p, f.Passes (.valued L)) :
    ∀ f ∈ q.contract ++ Stmt.formulasAll q.body, f.Passes (.valued L) := by
  simp only [lowered, forall_mem_cons, forall_mem_append] at hp
  obtain ⟨hrequires, hensures, hside, hbody⟩ := hp
  obtain ⟨side, body, temps, hsideOf, hstmts, rfl⟩ := exists_of_ofProgram h
  have hkeeps := keeps_valued hL
  have hcontract := forall_mem_cons.mpr ⟨passes_preState hkeeps hrequires, forall_mem_cons.mpr
    ⟨passes_postState hkeeps state hensures, sideOf_valued hL hsideOf hside⟩⟩
  exact forall_mem_append.mpr
    ⟨hcontract, ((ofStmts_lowers hstmts).flattened (hereditary_valued hL) hbody).body⟩

theorem ofModule_valued {m : Contract.Module} {r : Module} (h : ofModule s state m = .ok r)
    (hm : ∀ f ∈ (invariantOf m).body :: m.side.formulas, f.Passes (.valued L))
    (hprograms : ∀ p ∈ m.programs, ∀ f ∈ lowered s p, f.Passes (.valued L)) :
    ∀ f ∈ r.formulas, f.Passes (.valued L) := by
  obtain ⟨side, programs, hside, hforall, rfl⟩ := exists_of_ofModule h
  have hof := forall_mem_of_forall₂_mem hforall fun p q hp hq =>
    forall_mem_append.mp (ofProgram_valued hL hq (hprograms p hp))
  simp only [Module.formulas, Module.contracts, Module.bodies, forall_mem_append, forall_mem_cons,
    forall_mem_flatMap, cons_append]
  exact ⟨passes_preState (keeps_valued hL) (hm _ (.head _)),
    ⟨sideOf_valued hL hside fun f hf => hm f (.tail _ hf), fun q hq => (hof q hq).1⟩,
    fun q hq => (hof q hq).2⟩

end

/-- A literal that does not fit has been there before variables stood for quantified ones. -/
theorem mem_literalsAll_of_lowered {s : Settings} {p : Contract.Program} {v : Int64}
    (hzero : fits s.bitWidth 0 = true) (hv : v ∈ literalsAll (lowered s p))
    (hfits : fits s.bitWidth v = false) : v ∈ literalsAll p.formulas := by
  let L : Int64 → Prop := fun w => fits s.bitWidth w = true ∨ w ∈ literalsAll p.formulas
  have hkeeps : Keeps (.valued L) := keeps_valued (.inl hzero)
  have hformulas : ∀ f ∈ p.formulas, f.Passes (.valued L) := passes_of_literalsAll fun w hw => .inr hw
  have hlowered : ∀ f ∈ lowered s p, f.Passes (.valued L) :=
    forall_mem_cons.mpr ⟨(passes_requiresOf hkeeps s (hformulas _ (.head _))).1, forall_mem_cons.mpr
      ⟨(passes_ensuresOf hkeeps s (hformulas _ (.tail _ (.head _)))).1,
        fun f hf => hformulas f (.tail _ (.tail _ hf))⟩⟩
  rw [literalsAll_eq_flatMap] at hv
  obtain ⟨f, hf, hv⟩ := mem_flatMap.mp hv
  exact (passes_valued.mp (hlowered f hf) v hv).resolve_left (by simp [hfits])

/-- **The formulas that a fault names by their owner**: those of the module with an invariant of that name,
or of the program with that id. -/
def Owns (m : Contract.Module) (owner : String) (f : Formula) : Prop :=
  owner = m.invariant.getD "" ∧ f ∈ (invariantOf m).body :: m.side.formulas ∨
    ∃ p ∈ m.programs, owner = p.id ∧ f ∈ p.formulas

/-- **Literals are in the range of the bit width** wherever they stand in relational modules, and a fault
about a literal tells one of the formulas of the owner that it names, which is not in that range. -/
theorem ofModules_bitWidth (s : Settings) (hpos : 1 ≤ s.bitWidth) (hle : s.bitWidth ≤ 32)
    (ms : List Contract.Module) :
    (∀ rs, ofModules s ms = .ok rs →
      ∀ r ∈ rs, ∀ f ∈ r.formulas, ∀ v ∈ f.literals, InRange s.bitWidth v.toInt) ∧
    (∀ v bits owner, ofModules s ms = .error (.literalRange v bits owner) →
      bits = s.bitWidth ∧ ¬ InRange s.bitWidth v ∧
        ∃ m ∈ ms, ∃ f, Owns m owner f ∧ ∃ w ∈ f.literals, w.toInt = v) := by
  have hfits := fits_iff (show s.bitWidth ≤ 64 by omega)
  have hzero : fits s.bitWidth 0 = true := by
    have hpow : (0 : Int) < 2 ^ (s.bitWidth - 1).toNat := by positivity
    rw [hfits, InRange, Int64.toInt_zero]
    omega
  have hchecked := Checked.mapM (ofModule_checked (s := s) (stateNames ms)) ms
  refine ⟨fun rs hrs => ?_, fun v bits owner herror => ?_⟩
  · rw [← ofModules, hrs] at hchecked
    have hmodules := forall₂_of_mapM_ok hrs
    refine forall_mem_of_forall₂_mem hmodules fun m r hm hr f hf v hv => (hfits v).mp ?_
    refine passes_valued.mp (ofModule_valued (L := fun v => fits s.bitWidth v = true) hzero hr
      (passes_of_literalsAll fun v hv => ?_) (fun p hp => passes_of_literalsAll fun v hv => ?_) f hf) v hv
    · exact hchecked _ v ⟨m, hm, .inl ⟨rfl, hv⟩⟩
    · exact hchecked _ v ⟨m, hm, .inr ⟨p, hp, rfl, hv⟩⟩
  · rw [← ofModules, herror] at hchecked
    obtain ⟨hbits, w, ⟨m, hm, hw⟩, hnot, rfl⟩ := hchecked
    refine ⟨hbits, by rw [← hfits, hnot]; nofun, m, hm, ?_⟩
    rcases hw with ⟨howner, hw⟩ | ⟨p, hp, howner, hw⟩
    · rw [literalsAll_eq_flatMap] at hw
      obtain ⟨f, hf, hw⟩ := mem_flatMap.mp hw
      exact ⟨f, .inl ⟨howner, hf⟩, w, hw, rfl⟩
    · have hw := mem_literalsAll_of_lowered hzero hw hnot
      rw [literalsAll_eq_flatMap] at hw
      obtain ⟨f, hf, hw⟩ := mem_flatMap.mp hw
      exact ⟨f, .inr ⟨p, hp, howner, hf⟩, w, hw, rfl⟩

/-- The literals of `store` fit four bits, and its invariant has one that does not fit a single bit. -/
theorem store_bitWidth :
    (∃ rs, ofModules {} [store] = .ok rs ∧ rs.length = 1 ∧
      ∀ r ∈ rs, ∀ f ∈ r.formulas, ∀ v ∈ f.literals, InRange 4 v.toInt) ∧
    ofModules { bitWidth := 1 } [store] = .error (.literalRange 1 1 "Store_object_invariant") ∧
      ¬ InRange 1 1 ∧ ∃ f, Owns store "Store_object_invariant" f ∧ ∃ w ∈ f.literals, w.toInt = 1 := by
  obtain ⟨rs, hrs, hlength⟩ : ∃ rs, ofModules {} [store] = .ok rs ∧ rs.length = 1 := ⟨_, rfl, rfl⟩
  have herror : ofModules { bitWidth := 1 } [store] =
      .error (.literalRange 1 1 "Store_object_invariant") := rfl
  obtain ⟨-, hrange, m, hm, howns⟩ :=
    (ofModules_bitWidth { bitWidth := 1 } (by decide) (by decide) [store]).2 _ _ _ herror
  obtain rfl := mem_singleton.mp hm
  exact ⟨⟨rs, hrs, hlength, (ofModules_bitWidth {} (by decide) (by decide) [store]).1 rs hrs⟩, herror,
    hrange, howns⟩

end Relspec.Relational
