import Relspec.Contract.OfClass
import Relspec.Proofs.Failing
import Relspec.Proofs.Relational.Lowering

/-!
# Proofs/Relational/NormalForm — formulas without `old` and without integer operations

A formula is in normal form when no node of it is an `old` or an integer operation.  Each rewriting of
formulas acts on the nodes one by one, so it is described by what it makes of each symbol
(`symbols_rebuild`): operations become calls, and over the states before and after every `old` goes.

* `preState_normal`, `postState_normal` — contracts are in normal form, whatever they were made from;
* `Flattens.normalFrom`, `Lowers.normalBody_iff` — a body is in normal form exactly when it comes from one
  without `old`: taking an expression apart stops at an `old`;
* `ofModules_normal` — the relational modules of contract modules.
-/

namespace Relspec

open List
open Contract.Stmt (formulasAll formulas)

namespace Formula

/-! ## The symbols of a formula -/

/-- What stands at a node of a formula. -/
inductive Symbol where
  | name | literal | join | call
  | unary (op : UnaryOp)
  | binary (op : BinaryOp)
  | quant | old | ite
deriving DecidableEq, Repr

/-- The symbol at the root. -/
def symbol : Formula → Symbol
  | .ident _ => .name
  | .int _ => .literal
  | .join _ _ => .join
  | .call _ _ => .call
  | .unary op _ => .unary op
  | .binary op _ _ => .binary op
  | .quant _ _ _ _ => .quant
  | .old _ => .old
  | .ite _ _ _ => .ite

mutual

/-- **The symbols of a formula**, one for each node, each before those of its parts. -/
def symbols : Formula → List Symbol
  | .ident _ => [.name]
  | .int _ => [.literal]
  | .join l r => .join :: (l.symbols ++ r.symbols)
  | .call _ args => .call :: symbolsAll args
  | .unary op x => .unary op :: x.symbols
  | .binary op x y => .binary op :: (x.symbols ++ y.symbols)
  | .quant _ _ domain body => .quant :: (domain.symbols ++ body.symbols)
  | .old x => .old :: x.symbols
  | .ite c t e => .ite :: (c.symbols ++ t.symbols ++ e.symbols)

/-- The symbols of several formulas. -/
def symbolsAll : List Formula → List Symbol
  | [] => []
  | x :: xs => x.symbols ++ symbolsAll xs

end

/-- Whether a symbol is an integer operation. -/
def Symbol.isOperation : Symbol → Bool
  | .unary .neg => true
  | .binary (.arith _) => true
  | _ => false

/-- A formula without `old`. -/
def OldFree (f : Formula) : Prop := Symbol.old ∉ f.symbols

instance : DecidablePred OldFree := fun f => inferInstanceAs (Decidable (Symbol.old ∉ f.symbols))

/-- **A formula in normal form** has no `old` and no integer operation, at any depth. -/
def Normal (f : Formula) : Prop := ∀ s ∈ f.symbols, s ≠ .old ∧ s.isOperation = false

instance : DecidablePred Normal := fun f =>
  inferInstanceAs (Decidable (∀ s ∈ f.symbols, s ≠ .old ∧ s.isOperation = false))

attribute [local simp] symbols

theorem symbolsAll_eq_flatMap (fs : List Formula) : symbolsAll fs = fs.flatMap symbols := by
  induction fs with
  | nil => rfl
  | cons f fs ih => rw [symbolsAll, ih, flatMap_cons]

/-- **A rewriting that acts on each node by itself** acts on each symbol by itself. -/
theorem symbols_rebuild {g : List String → Formula → Formula} {h : Symbol → List Symbol}
    (hg : ∀ bound n, (g bound n).symbols = h n.symbol ++ n.symbols.tail) (f : Formula) (bound : List String) :
    (f.rebuild g bound).symbols = f.symbols.flatMap h := by
  induction f generalizing bound with
  | call _ args ih =>
    simp only [rebuild, hg, symbols, symbol, symbolsAll_eq_flatMap, rebuildAll_eq_map, flatMap_map, tail_cons,
      flatMap_cons, flatMap_assoc]
    exact congrArg (h .call ++ ·) (flatMap_congr fun a ha => ih a ha bound)
  | _ => simp [rebuild, symbol, *]

variable {l r x y c t e : Formula} {op : BinaryOp} {name : String} {args : List Formula}

/-! ## Formulas in normal form and their parts -/

theorem OldFree.of_normal {f : Formula} (h : f.Normal) : f.OldFree := fun hold => (h _ hold).1 rfl

theorem oldFree_join : OldFree (.join l r) ↔ l.OldFree ∧ r.OldFree := by
  simp [OldFree]

theorem oldFree_unary {op : UnaryOp} : OldFree (.unary op x) ↔ x.OldFree := by
  simp [OldFree]

theorem oldFree_binary : OldFree (.binary op x y) ↔ x.OldFree ∧ y.OldFree := by
  simp [OldFree]

theorem oldFree_ite : OldFree (.ite c t e) ↔ c.OldFree ∧ t.OldFree ∧ e.OldFree := by
  simp [OldFree]

theorem oldFree_call : OldFree (.call name args) ↔ ∀ a ∈ args, a.OldFree := by
  simp [OldFree, symbolsAll_eq_flatMap]

theorem not_oldFree_old (x : Formula) : ¬ OldFree (.old x) := by simp [OldFree]

theorem oldFree_ident (name : String) : OldFree (.ident name) := by simp [OldFree]

theorem oldFree_int (value : Int64) : OldFree (.int value) := by simp [OldFree]

theorem normal_ident (name : String) : Normal (.ident name) := by
  simp [Normal, Symbol.isOperation]

theorem normal_int (value : Int64) : Normal (.int value) := by
  simp [Normal, Symbol.isOperation]

theorem normal_join : Normal (.join l r) ↔ l.Normal ∧ r.Normal := by
  rw [Normal, symbols, forall_mem_cons, forall_mem_append]
  exact and_iff_right ⟨nofun, rfl⟩

theorem normal_call : Normal (.call name args) ↔ ∀ a ∈ args, a.Normal := by
  rw [Normal, symbols, forall_mem_cons, symbolsAll_eq_flatMap, forall_mem_flatMap]
  exact and_iff_right ⟨nofun, rfl⟩

theorem normal_unary {op : UnaryOp} (hop : op ≠ .neg) : Normal (.unary op x) ↔ x.Normal := by
  rw [Normal, symbols, forall_mem_cons]
  exact and_iff_right ⟨nofun, by cases op <;> first | rfl | exact absurd rfl hop⟩

theorem normal_binary (hop : ∀ o, op ≠ .arith o) : Normal (.binary op x y) ↔ x.Normal ∧ y.Normal := by
  rw [Normal, symbols, forall_mem_cons, forall_mem_append]
  exact and_iff_right ⟨nofun, by cases op <;> first | rfl | exact absurd rfl (hop _)⟩

theorem normal_ite : Normal (.ite c t e) ↔ c.Normal ∧ t.Normal ∧ e.Normal := by
  rw [Normal, symbols, forall_mem_cons, forall_mem_append, forall_mem_append]
  exact (and_iff_right ⟨nofun, rfl⟩).trans and_assoc

end Formula

namespace Relational

open Formula

/-! ## What becomes of the symbols -/

/-- What becomes of a symbol when operations become calls; a minus brings the zero that it subtracts
from. -/
def calledSymbol : Symbol → List Symbol
  | .unary .neg => [.call, .literal]
  | .binary (.arith _) => [.call]
  | s => [s]

/-- What becomes of a symbol when every `old` goes. -/
def recentSymbol : Symbol → List Symbol
  | .old => []
  | s => [s]

theorem symbols_inline (f : Formula) : (inline f).symbols = f.symbols.flatMap calledSymbol := by
  refine symbols_rebuild (fun _ n => ?_) f []
  cases n with
  | unary op x | binary op x y =>
    cases op <;> simp [inlineNode, operation?, functionCall, symbols, symbolsAll, symbol, calledSymbol]
  | _ => rfl

theorem symbols_stripOld (f : Formula) : (stripOld f).symbols = f.symbols.flatMap recentSymbol := by
  refine symbols_rebuild (fun _ n => ?_) f []
  cases n <;> rfl

theorem symbols_unprime (f : Formula) : (unprime f).symbols = f.symbols := by
  refine (symbols_rebuild (h := fun s => [s]) (fun _ n => ?_) f []).trans (flatMap_singleton' _)
  cases n <;> rfl

theorem symbols_prime (state : List String) (f : Formula) :
    (prime state f).symbols = f.symbols.flatMap recentSymbol := by
  refine symbols_rebuild (fun bound n => ?_) f []
  cases n with
  | ident name => dsimp only; split <;> rfl
  | old x => exact symbols_unprime x
  | _ => rfl

theorem isOperation_calledSymbol {s t : Symbol} (h : t ∈ calledSymbol s) : t.isOperation = false := by
  unfold calledSymbol at h
  split at h
  · rcases mem_pair.mp h with rfl | rfl <;> rfl
  · rw [mem_singleton.mp h]
    rfl
  · obtain rfl := mem_singleton.mp h
    unfold Symbol.isOperation
    split <;> simp_all

theorem mem_recentSymbol {s t : Symbol} : t ∈ recentSymbol s ↔ t = s ∧ t ≠ .old := by
  cases s <;> simp_all [recentSymbol]

theorem old_mem_calledSymbol {s : Symbol} : Symbol.old ∈ calledSymbol s ↔ s = .old := by
  unfold calledSymbol
  split <;> simp_all [eq_comm]

/-! ## Contracts -/

/-- Operations become calls, and then every `old` goes. -/
theorem normal_of_symbols {f g : Formula} (h : g.symbols = (inline f).symbols.flatMap recentSymbol) :
    g.Normal := by
  intro t ht
  rw [h, symbols_inline] at ht
  obtain ⟨s, hs, hts⟩ := mem_flatMap.mp ht
  obtain ⟨rfl, hold⟩ := mem_recentSymbol.mp hts
  obtain ⟨r, -, hr⟩ := mem_flatMap.mp hs
  exact ⟨hold, isOperation_calledSymbol hr⟩

/-- **A formula over the state before a program** is in normal form. -/
theorem preState_normal (f : Formula) : (preState f).Normal := normal_of_symbols (symbols_stripOld _)

/-- **A formula over the states before and after** is in normal form. -/
theorem postState_normal (state : List String) (f : Formula) : (postState state f).Normal :=
  normal_of_symbols (symbols_prime state _)

theorem define_normal (native : Bool) (state : List String) (d : SideDef) :
    (define native state d).formula.Normal := by
  rw [define]
  cases d.origin
  · exact preState_normal _
  · exact postState_normal state _
  · exact preState_normal _

/-- Operations become calls, and every `old` stays. -/
theorem inline_normal_iff {f : Formula} : (inline f).Normal ↔ f.OldFree := by
  refine ⟨fun h hold => ?_, fun h s hs => ?_⟩
  · refine (h .old ?_).1 rfl
    rw [symbols_inline]
    exact mem_flatMap.mpr ⟨_, hold, old_mem_calledSymbol.mpr rfl⟩
  · rw [symbols_inline] at hs
    obtain ⟨r, hr, hs⟩ := mem_flatMap.mp hs
    refine ⟨?_, isOperation_calledSymbol hs⟩
    rintro rfl
    exact h (old_mem_calledSymbol.mp hs ▸ hr)

/-! ## Bodies -/

mutual

/-- **The formulas of a statement**, at any depth. -/
def Stmt.formulas : Stmt → List Formula
  | .assign _ value => [value]
  | .update _ object value => [object, value]
  | .compute _ _ args => args
  | .branch cond thn els => cond :: (Stmt.formulasAll thn ++ Stmt.formulasAll els)
  | .loop lead cond invariant variant body =>
    Stmt.formulasAll lead ++ cond :: (invariant.toList ++ variant.toList ++ Stmt.formulasAll body)
  | .assert cond => [cond]
  | .assume cond => [cond]
  | .ret value => value.toList
  | .raise _ => []

/-- The formulas of statements. -/
def Stmt.formulasAll : List Stmt → List Formula
  | [] => []
  | s :: ss => s.formulas ++ Stmt.formulasAll ss

end

/-- Statements whose formulas are all in normal form. -/
def NormalBody (ss : List Stmt) : Prop := ∀ f ∈ Stmt.formulasAll ss, f.Normal

theorem normalBody_nil : NormalBody [] := by simp [NormalBody, Stmt.formulasAll]

theorem normalBody_cons {s : Stmt} {ss : List Stmt} :
    NormalBody (s :: ss) ↔ (∀ f ∈ s.formulas, f.Normal) ∧ NormalBody ss := by
  rw [NormalBody, Stmt.formulasAll, forall_mem_append]
  exact Iff.rfl

theorem normalBody_append {ss ts : List Stmt} :
    NormalBody (ss ++ ts) ↔ NormalBody ss ∧ NormalBody ts := by
  induction ss with
  | nil => exact (and_iff_right normalBody_nil).symm
  | cons s ss ih => rw [cons_append, normalBody_cons, normalBody_cons, ih, and_assoc]

theorem normalBody_singleton {s : Stmt} : NormalBody [s] ↔ ∀ f ∈ s.formulas, f.Normal := by
  rw [normalBody_cons]
  exact and_iff_left normalBody_nil

theorem normalBody_setTemp {native : Bool} {op : ArithOp} {a b : Formula} {t : String} :
    NormalBody [setTemp native op a b t] ↔ ∀ f ∈ [a, b], f.Normal := by
  rw [normalBody_singleton, setTemp]
  split
  · exact Iff.rfl
  · rw [Stmt.formulas, forall_mem_singleton, functionCall, normal_call]

theorem oldFree_of_operation? {f x y : Formula} {op : ArithOp} (h : operation? f = some (op, x, y)) :
    f.OldFree ↔ ∀ g ∈ [x, y], g.OldFree := by
  unfold operation? at h
  split at h
  · cases h
    simpa using oldFree_binary
  · cases h
    simpa [oldFree_int] using oldFree_unary
  · cases h

/-- **The formulas `gs` and the statements `ss` are in normal form** exactly when the formulas `fs`, from
which they come, have no `old`. -/
def NormalFrom (fs gs : List Formula) (ss : List Stmt) : Prop :=
  (∀ g ∈ gs, g.Normal) ∧ NormalBody ss ↔ ∀ f ∈ fs, f.OldFree

namespace NormalFrom

variable {fs gs fs' gs' : List Formula} {ss ts : List Stmt} {f g : Formula}

theorem of_iff (h : g.Normal ↔ f.OldFree) : NormalFrom [f] [g] [] := by
  rw [NormalFrom, forall_mem_singleton, forall_mem_singleton, h]
  exact and_iff_left normalBody_nil

theorem nil : NormalFrom [] [] [] := ⟨fun _ => nofun, fun _ => ⟨nofun, normalBody_nil⟩⟩

theorem append (h : NormalFrom fs gs ss) (h' : NormalFrom fs' gs' ts) :
    NormalFrom (fs ++ fs') (gs ++ gs') (ss ++ ts) := by
  rw [NormalFrom] at h h'
  rw [NormalFrom, forall_mem_append, forall_mem_append, normalBody_append, ← h, ← h']
  exact and_and_and_comm

/-- A formula and what becomes of it, by their parts. -/
theorem node (h : NormalFrom fs gs ss) (hf : f.OldFree ↔ ∀ x ∈ fs, x.OldFree)
    (hg : g.Normal ↔ ∀ x ∈ gs, x.Normal) : NormalFrom [f] [g] ss := by
  rw [NormalFrom, forall_mem_singleton, forall_mem_singleton, hf, hg]
  exact h

theorem unary {x x' : Formula} (h : NormalFrom [x] [x'] ss) {op : UnaryOp} (hop : op ≠ .neg) :
    NormalFrom [.unary op x] [.unary op x'] ss :=
  h.node (by simpa using oldFree_unary) (by simpa using normal_unary hop)

theorem binary {x y x' y' : Formula} (h : NormalFrom [x, y] [x', y'] ss) {op : BinaryOp}
    (hop : ∀ o, op ≠ .arith o) : NormalFrom [.binary op x y] [.binary op x' y'] ss :=
  h.node (by simpa using oldFree_binary) (by simpa using normal_binary hop)

theorem join {x y x' y' : Formula} (h : NormalFrom [x, y] [x', y'] ss) :
    NormalFrom [.join x y] [.join x' y'] ss :=
  h.node (by simpa using oldFree_join) (by simpa using normal_join)

theorem ite {c t e c' t' e' : Formula} (h : NormalFrom [c, t, e] [c', t', e'] ss) :
    NormalFrom [.ite c t e] [.ite c' t' e'] ss :=
  h.node (by simpa using oldFree_ite) (by simpa using normal_ite)

theorem call (h : NormalFrom fs gs ss) (name : String) :
    NormalFrom [.call name fs] [.call name gs] ss :=
  h.node oldFree_call normal_call

/-- An operation that goes into a temporary. -/
theorem temp {x y x' y' : Formula} {op : ArithOp} (h : NormalFrom [x, y] [x', y'] ss)
    (hf : operation? f = some (op, x, y)) (native : Bool) (t : String) :
    NormalFrom [f] [.ident t] (ss ++ [setTemp native op x' y' t]) := by
  rw [NormalFrom] at h
  rw [NormalFrom, forall_mem_singleton, forall_mem_singleton, oldFree_of_operation? hf, ← h,
    normalBody_append, normalBody_setTemp, and_iff_right (normal_ident t)]
  exact and_comm

end NormalFrom

/-- **Taking the operations out of expressions** gives normal forms exactly when they have no `old`: what
stands under an `old` stays as it is. -/
theorem Flattens.normalFrom {native : Bool} {fs gs : List Formula} {ss : List Stmt} {n m : ℕ}
    (h : Flattens native fs gs ss n m) : NormalFrom fs gs ss := by
  induction h with
  | nil => exact .nil
  | append _ _ ih ih' => exact ih.append ih'
  | temp hf _ ih => exact ih.temp hf native _
  | binary hop _ ih => exact ih.binary hop
  | unary hop _ ih => exact ih.unary hop
  | join _ ih => exact ih.join
  | call _ ih => exact ih.call _
  | ite _ ih => exact ih.ite
  | quant => exact .of_iff inline_normal_iff
  | old => exact .of_iff ⟨.of_normal, fun h => absurd h (not_oldFree_old _)⟩
  | ident => exact .of_iff (iff_of_true (normal_ident _) (oldFree_ident _))
  | int => exact .of_iff (iff_of_true (normal_int _) (oldFree_int _))

theorem forall_inline_normal_iff {o : Option Formula} :
    (∀ f ∈ (o.map inline).toList, f.Normal) ↔ ∀ f ∈ o.toList, f.OldFree := by
  cases o with
  | none => exact iff_of_true nofun nofun
  | some f => simpa using inline_normal_iff

/-- **The relational statements that stand for statements** are in normal form exactly when these have no
`old`. -/
theorem Lowers.normalBody_iff {native : Bool} {xs : List Contract.Stmt} {ss : List Stmt} {n m : ℕ}
    (h : Lowers native xs ss n m) : NormalBody ss ↔ ∀ f ∈ formulasAll xs, f.OldFree := by
  induction h with
  | nil => exact iff_of_true normalBody_nil (forall_mem_nil _)
  | cons _ _ ih ih' =>
    rw [formulasAll, formulasAll, append_nil] at ih
    rw [normalBody_append, ih, ih', formulasAll, forall_mem_append]
  | assign h | assert h | assume h | ret h =>
    have h := h.normalFrom
    simp only [NormalFrom, forall_mem_singleton] at h
    simp [normalBody_append, normalBody_singleton, Stmt.formulas, formulasAll,
      formulas, oldFree_ident, ← h, and_comm]
  | update h =>
    have h := h.normalFrom
    simp only [NormalFrom, forall_mem_cons] at h
    simp only [normalBody_append, normalBody_singleton, Stmt.formulas, formulasAll,
      formulas, append_nil, forall_mem_cons, oldFree_join, oldFree_ident]
    tauto
  | branch h _ _ ihthn ihels =>
    have h := h.normalFrom
    simp only [NormalFrom, forall_mem_singleton] at h
    simp only [normalBody_append, normalBody_singleton, Stmt.formulas, formulasAll,
      formulas, append_nil, forall_mem_cons, forall_mem_append, ← h, ← ihthn,
      ← ihels]
    exact and_left_comm.trans and_assoc.symm
  | loop h _ ih =>
    have h := h.normalFrom
    simp only [NormalFrom, forall_mem_singleton] at h
    simp only [normalBody_singleton, Stmt.formulas, formulasAll, formulas,
      append_nil, forall_mem_cons, forall_mem_append, ← h, ← ih, forall_inline_normal_iff]
    exact and_left_comm.trans and_assoc.symm
  | leave | raise => exact normalBody_singleton.trans (iff_of_true (forall_mem_nil _) (forall_mem_nil _))

/-! ## Programs and modules -/

/-- **What a relational program is made of.** -/
theorem exists_of_ofProgram {s : Settings} {state : List String} {owner : String}
    {p : Contract.Program} {q : Program} (h : ofProgram s state owner p = .ok q) :
    ∃ side body temps,
      sideOf ⟨s.nativeArithmetic, s.bitWidth, p.id⟩ state p.side = .ok side ∧
      Gives (ofStmts ⟨s.nativeArithmetic, s.bitWidth, p.id⟩ p.body) 0 body temps ∧
      q = { id := p.id, owner, method := p.method, overload := p.overload, params := p.params,
            locals := p.locals ++ (List.range temps).map fun n => ⟨tempName n, .int⟩,
            returns := p.returns, pre := preState (requiresOf s p).1,
            post := postState state (ensuresOf s p).1, side,
            skolems := (requiresOf s p).2 ++ (ensuresOf s p).2, body } := by
  obtain ⟨_, -, h⟩ := exists_of_except_ok h
  obtain ⟨_, -, h⟩ := exists_of_except_ok h
  obtain ⟨side, hside, h⟩ := exists_of_except_ok h
  obtain ⟨body, hbody, h⟩ := exists_of_except_ok h
  cases h
  exact ⟨side, body, _, hside, Prod.ext hbody rfl, rfl⟩

/-- **What a relational module is made of.** -/
theorem exists_of_ofModule {s : Settings} {state : List String} {m : Contract.Module} {r : Module}
    (h : ofModule s state m = .ok r) :
    ∃ side programs,
      sideOf ⟨s.nativeArithmetic, s.bitWidth, m.invariant.getD ""⟩ state m.side = .ok side ∧
      List.Forall₂ (fun p q => ofProgram s state m.id p = .ok q) m.programs programs ∧
      r = { id := m.id, className := m.className, fields := m.fields,
            invariant := { invariantOf m with body := preState (invariantOf m).body }, side,
            programs } := by
  obtain ⟨_, -, h⟩ := exists_of_except_ok h
  obtain ⟨side, hside, h⟩ := exists_of_except_ok h
  obtain ⟨programs, hprograms, h⟩ := exists_of_except_ok h
  cases h
  exact ⟨side, programs, hside, forall₂_of_mapM_ok hprograms, rfl⟩

theorem normal_of_sideOf {mode : Mode} {state : List String} {side side' : Side}
    (h : sideOf mode state side = .ok side') : ∀ f ∈ side'.formulas, f.Normal := by
  obtain ⟨defs, hdefs, h⟩ := exists_of_except_ok h
  cases h
  rw [Side.formulas, forall_mem_map]
  refine forall_mem_of_forall₂ (forall₂_of_mapM_ok hdefs) fun d d' hd => ?_
  obtain ⟨_, -, hd⟩ := exists_of_except_ok hd
  cases hd
  exact define_normal mode.native state d

/-- The formulas of the contract of a program. -/
def Program.contract (p : Program) : List Formula := p.pre :: p.post :: p.side.formulas

/-- The formulas of the contracts of a module: of its invariant, and of those of its programs. -/
def Module.contracts (m : Module) : List Formula :=
  m.invariant.body :: m.side.formulas ++ m.programs.flatMap Program.contract

/-- The formulas of the bodies of the programs of a module. -/
def Module.bodies (m : Module) : List Formula := m.programs.flatMap fun p => Stmt.formulasAll p.body

/-- **The formulas of a module**, in its contracts and in the bodies of its programs. -/
def Module.formulas (m : Module) : List Formula := m.contracts ++ m.bodies

section

variable {s : Settings} {state : List String}

theorem ofProgram_normal {owner : String} {p : Contract.Program} {q : Program}
    (h : ofProgram s state owner p = .ok q) :
    (∀ f ∈ q.contract, f.Normal) ∧
      (NormalBody q.body ↔ ∀ f ∈ formulasAll p.body, f.OldFree) := by
  obtain ⟨side, body, temps, hside, hbody, rfl⟩ := exists_of_ofProgram h
  refine ⟨?_, (ofStmts_lowers hbody).normalBody_iff⟩
  exact forall_mem_cons.mpr ⟨preState_normal _, forall_mem_cons.mpr
    ⟨postState_normal state _, normal_of_sideOf hside⟩⟩

theorem ofModule_normal {m : Contract.Module} {r : Module} (h : ofModule s state m = .ok r) :
    (∀ f ∈ r.contracts, f.Normal) ∧ ((∀ f ∈ r.bodies, f.Normal) ↔
      ∀ p ∈ m.programs, ∀ f ∈ formulasAll p.body, f.OldFree) := by
  obtain ⟨side, programs, hside, hprograms, rfl⟩ := exists_of_ofModule h
  have hcontracts := forall_mem_of_forall₂ hprograms fun _ _ h => (ofProgram_normal h).1
  refine ⟨?_, ?_⟩
  · rw [Module.contracts, cons_append, forall_mem_cons, forall_mem_append,
      forall_mem_flatMap]
    exact ⟨preState_normal _, normal_of_sideOf hside, hcontracts⟩
  · rw [Module.bodies, forall_mem_flatMap]
    exact (forall_mem_iff_of_forall₂ hprograms fun _ _ h => (ofProgram_normal h).2.symm).symm

/-- **Relational modules are in normal form exactly when no body has an `old`.**  Their contracts always
are; in a body what stands under an `old` stays as it was, and the `old` with it. -/
theorem ofModules_normal {ms : List Contract.Module} {rs : List Module}
    (h : ofModules s ms = .ok rs) :
    (∀ r ∈ rs, ∀ f ∈ r.contracts, f.Normal) ∧ ((∀ r ∈ rs, ∀ f ∈ r.formulas, f.Normal) ↔
      ∀ m ∈ ms, ∀ p ∈ m.programs, ∀ f ∈ Contract.Stmt.formulasAll p.body, f.OldFree) := by
  have hmodules := forall₂_of_mapM_ok h
  refine ⟨forall_mem_of_forall₂ hmodules fun _ _ h => (ofModule_normal h).1,
    (forall_mem_iff_of_forall₂ hmodules fun m r h => ?_).symm⟩
  obtain ⟨hcontract, hbodies⟩ := ofModule_normal h
  rw [← hbodies, Module.formulas, List.forall_mem_append]
  exact (and_iff_right hcontract).symm

end

/-- A module whose only program adds up `doubles`, with an `old` in the definition of a side variable. -/
def store : Contract.Module where
  id := "Store"
  className := "Store"
  fields := [⟨"sum", .int⟩]
  predicates := [⟨"Store_object_invariant", [⟨"thiz", .ref "Store"⟩],
    .binary .ge (.join (.ident "thiz") (.ident "sum")) (.unary .neg (.int 1))⟩]
  invariant := some "Store_object_invariant"
  programs := [{ doubles with
    ensures := .binary .ge (.join (.ident "thiz") (.ident "sum")) (.ident "n_add_0")
    side := ⟨[⟨"n_add_0", .ensures⟩], [⟨.ensures, .eq (.ident "n_add_0")
      (.binary (.arith .add) (.old (.join (.ident "thiz") (.ident "sum"))) (.int 1))⟩]⟩ }]

/-- A module in normal form, in the arithmetic of the source language. -/
theorem store_normal : ∃ rs, ofModules { nativeArithmetic := true } [store] = .ok rs ∧
    rs.length = 1 ∧ ∀ r ∈ rs, ∀ f ∈ r.formulas, f.Normal := by
  obtain ⟨rs, hrs, hlength⟩ : ∃ rs, ofModules { nativeArithmetic := true } [store] = .ok rs ∧
      rs.length = 1 := ⟨_, rfl, rfl⟩
  exact ⟨rs, hrs, hlength, (ofModules_normal hrs).2.mpr (by decide)⟩

/-- A class whose method asserts that a field has grown by one. -/
def growing : Source.ClassDecl where
  file := "C.java"
  name := "C"
  fields := [⟨.start, "f", some ⟨"int", false⟩⟩]
  methods := [{
    name := "m"
    body := some ⟨.start, [.assert .start (.binary .start .eq
      (.old .start (.binary .start (.arith .add) (.ident .start "f") (.int .start 1)))
      (.ident .start "f"))]⟩ }]

/-- **An `old` in a body stays, and the operation under it**: the modules of a class need not be in
normal form. -/
theorem growing_not_normal : ∃ ms rs,
    ((Contract.ofClasses { className := "C", method := "m" } [growing]).run {}).1.result = .ok ms ∧
      ofModules { className := "C", method := "m" } ms = .ok rs ∧
      ∃ r ∈ rs, ∃ f ∈ r.formulas, Formula.Symbol.old ∈ f.symbols ∧
        Formula.Symbol.binary (.arith .add) ∈ f.symbols := by
  refine ⟨_, _, rfl, rfl, ?_⟩
  decide

end Relational

end Relspec
