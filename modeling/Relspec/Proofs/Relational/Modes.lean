import Relspec.Relational.OfContract

/-!
# Proofs/Relational/Modes — bodies in the two kinds of arithmetic

* `Stmt.native` — puts predicates for the functions whose results go into temporaries;
* `body_ofProgram_native` — the body of a program in native arithmetic is the one in the other, with
  such predicates.
-/

namespace Relspec

open List

/-- The operation that a function computes. -/
def ArithOp.ofFunction? (name : String) : Option ArithOp := all.find? fun op => op.function == name

theorem ArithOp.ofFunction?_function (op : ArithOp) : ofFunction? op.function = some op := by
  cases op <;> rfl

namespace Contract

mutual

/-- **The formulas of a statement**, the target of an assignment among them. -/
def Stmt.formulas : Stmt → List Formula
  | .assign target value => [target, value]
  | .branch cond thn els => cond :: (Stmt.formulasAll thn ++ Stmt.formulasAll els)
  | .loop cond invariant variant body =>
    cond :: (invariant.toList ++ variant.toList ++ Stmt.formulasAll body)
  | .assert cond => [cond]
  | .assume cond => [cond]
  | .ret value => value.toList
  | .raise _ => []

/-- The formulas of statements. -/
def Stmt.formulasAll : List Stmt → List Formula
  | [] => []
  | s :: ss => s.formulas ++ Stmt.formulasAll ss

end

end Contract

namespace Relational

/-! ## Predicates for functions -/

/-- Whether a name is one of temporaries. -/
def isTemp (name : String) : Bool := Text.startsWith name "t_"

theorem isTemp_tempName (n : Nat) : isTemp (tempName n) = true := by
  rw [isTemp, Text.startsWith, tempName, String.toList_append, Text.after?_append]
  rfl

/-- A formula without names of temporaries. -/
def TempFree (f : Formula) : Prop := ∀ x ∈ f.freeNames, isTemp x = false

instance : DecidablePred TempFree := fun f =>
  inferInstanceAs (Decidable (∀ x ∈ f.freeNames, isTemp x = false))

theorem TempFree.ident {name : String} (h : TempFree (.ident name)) : isTemp name = false :=
  h name (by simp [Formula.freeNames, Formula.occurrences])

/-- The assignment, or the predicate for it when it puts an operation into a temporary. -/
def nativeAssign (target : String) (value : Formula) : Stmt :=
  match isTemp target, value with
  | true, .call name [a, b] =>
    match ArithOp.ofFunction? name with
    | some op => .compute target op.predicate [a, b]
    | none => .assign target value
  | _, _ => .assign target value

mutual

/-- **The statement with predicates for the functions** whose results go into temporaries.  Nothing else
changes. -/
def Stmt.native : Stmt → Stmt
  | .assign target value => nativeAssign target value
  | .branch cond thn els => .branch cond (Stmt.nativeAll thn) (Stmt.nativeAll els)
  | .loop lead cond invariant variant body =>
    .loop (Stmt.nativeAll lead) cond invariant variant (Stmt.nativeAll body)
  | s => s

/-- `native` on each of several statements. -/
def Stmt.nativeAll : List Stmt → List Stmt
  | [] => []
  | s :: ss => s.native :: Stmt.nativeAll ss

end

open Stmt (nativeAll)

theorem nativeAll_append : ∀ ss ts : List Stmt, nativeAll (ss ++ ts) = nativeAll ss ++ nativeAll ts
  | [], _ => rfl
  | s :: ss, ts => by
    rw [cons_append, nativeAll, nativeAll, nativeAll_append ss ts, cons_append]

/-! ## Expressions -/

theorem setTemp_native (op : ArithOp) (a b : Formula) (n : Nat) :
    setTemp true op a b (tempName n) = (setTemp false op a b (tempName n)).native := by
  simp [setTemp, Stmt.native, nativeAssign, isTemp_tempName, functionCall,
    ArithOp.ofFunction?_function]

theorem toTemp_native (op : ArithOp) (a b : Formula) :
    toTemp true op a b = Prod.map id nativeAll <$> toTemp false op a b := by
  simp [toTemp, setTemp_native, nativeAll]

mutual

theorem flatten_native : ∀ f : Formula,
    flatten true f = Prod.map id nativeAll <$> flatten false f
  | .binary op x y => by
    by_cases h : ∃ o, op = .arith o
    · obtain ⟨o, rfl⟩ := h
      simp [flatten, flatten_native x, flatten_native y, toTemp_native, nativeAll_append]
    · rw [flatten, flatten]
      · simp [flatten_native x, flatten_native y, nativeAll_append]
      all_goals exact fun o ho => h ⟨o, ho⟩
  | .unary op x => by
    by_cases h : op = .neg
    · subst h
      simp [flatten, flatten_native x, toTemp_native, nativeAll_append]
    · rw [flatten, flatten]
      · simp [flatten_native x]
      all_goals exact h
  | .join x y => by simp [flatten, flatten_native x, flatten_native y, nativeAll_append]
  | .call name args => by simp [flatten, flattenAll_native args]
  | .ite c t e => by
    simp [flatten, flatten_native c, flatten_native t, flatten_native e, nativeAll_append]
  | .quant _ _ _ _ | .old _ | .ident _ | .int _ => by simp [flatten, nativeAll]

theorem flattenAll_native : ∀ fs : List Formula,
    flattenAll true fs = Prod.map id nativeAll <$> flattenAll false fs
  | [] => by simp [flattenAll, nativeAll]
  | f :: fs => by simp [flattenAll, flatten_native f, flattenAll_native fs, nativeAll_append]

end

/-! ## Statements -/

section

variable (bits : Int) (owner : String)

theorem exprOf_native (f : Formula) :
    exprOf ⟨true, bits, owner⟩ f = Prod.map id nativeAll <$> exprOf ⟨false, bits, owner⟩ f := by
  simp [exprOf, flatten_native]

mutual

theorem ofStmt_native : ∀ {x : Contract.Stmt}, (∀ f ∈ x.formulas, TempFree f) →
    ofStmt ⟨true, bits, owner⟩ x = nativeAll <$> ofStmt ⟨false, bits, owner⟩ x
  | .assign target value, h => by
    simp only [Contract.Stmt.formulas, forall_mem_cons] at h
    rw [ofStmt, ofStmt, exprOf_native]
    simp only [bind_map_left, map_bind]
    refine bind_congr fun p => ?_
    split
    · simp [nativeAll_append, nativeAll, Stmt.native, nativeAssign, h.1.ident]
    · simp [exprOf_native, nativeAll_append, nativeAll, Stmt.native]
    · rfl
  | .branch cond thn els, h => by
    simp only [Contract.Stmt.formulas, forall_mem_cons, forall_mem_append] at h
    simp [ofStmt, exprOf_native, ofStmts_native h.2.1, ofStmts_native h.2.2, nativeAll_append,
      nativeAll, Stmt.native]
  | .loop cond invariant variant body, h => by
    simp only [Contract.Stmt.formulas, forall_mem_cons, forall_mem_append] at h
    have hclause : loopFormula ⟨true, bits, owner⟩ = loopFormula ⟨false, bits, owner⟩ := rfl
    simp [ofStmt, exprOf_native, ofStmts_native h.2.2, hclause, nativeAll, Stmt.native]
  | .assert cond, h | .assume cond, h | .ret (some value), _ => by
    simp [ofStmt, exprOf_native, nativeAll_append, nativeAll, Stmt.native]
  | .ret none, _ | .raise _, _ => by simp [ofStmt, nativeAll, Stmt.native]

theorem ofStmts_native : ∀ {xs : List Contract.Stmt},
    (∀ f ∈ Contract.Stmt.formulasAll xs, TempFree f) →
    ofStmts ⟨true, bits, owner⟩ xs = nativeAll <$> ofStmts ⟨false, bits, owner⟩ xs
  | [], _ => by simp [ofStmts, nativeAll]
  | x :: xs, h => by
    simp only [Contract.Stmt.formulasAll, forall_mem_append] at h
    simp [ofStmts, ofStmt_native h.1, ofStmts_native h.2, nativeAll_append]

end

end

/-! ## Programs -/

/-- Which side definitions pass does not depend on the arithmetic. -/
theorem passes_sideOf (native : Bool) (bits : Int) (owner : String) (state : List String) (s : Side) :
    (fun _ => ()) <$> sideOf ⟨native, bits, owner⟩ state s =
      (fun _ => ()) <$> sideOf ⟨false, bits, owner⟩ state s := by
  have hdefs : ∀ ds : List SideDef,
      (fun _ => ()) <$> ds.mapM (fun d =>
        (fun _ => define native state d) <$> checkLiterals bits owner d.formula) =
      (fun _ => ()) <$> ds.mapM (fun d =>
        (fun _ => define false state d) <$> checkLiterals bits owner d.formula) := by
    intro ds
    induction ds with
    | nil => rfl
    | cons d ds ih =>
      simp only [mapM_cons, bind_map_left, map_bind, map_pure]
      refine bind_congr fun _ => ?_
      simpa using ih
  simpa [sideOf] using hdefs s.defs

/-- **The body of a program is lowered after checks** that do not depend on the arithmetic. -/
theorem exists_check (s : Settings) (state : List String) (owner : String) (p : Contract.Program) :
    ∃ check : Except Fault Unit, ∀ native,
      Program.body <$> ofProgram { s with nativeArithmetic := native } state owner p =
        check >>= fun _ => ((ofStmts ⟨native, s.bitWidth, p.id⟩ p.body).run.run 0).1 := by
  refine ⟨do
    checkLiterals s.bitWidth p.id (requiresOf s p).1
    checkLiterals s.bitWidth p.id (ensuresOf s p).1
    (fun _ => ()) <$> sideOf ⟨false, s.bitWidth, p.id⟩ state p.side, fun native => ?_⟩
  rw [← passes_sideOf native]
  -- The side definitions differ, but the body does not look at them.
  simp only [ofProgram, map_bind, bind_assoc, bind_map_left]
  refine bind_congr fun _ => bind_congr fun _ => bind_congr fun side => ?_
  rcases (ofStmts ⟨native, s.bitWidth, p.id⟩ p.body).run.run 0 with ⟨_ | body, temps⟩ <;> rfl

/-- **The bodies of the two kinds of arithmetic** differ in the statements that set temporaries. -/
theorem body_ofProgram_native {s : Settings} {state : List String} {owner : String}
    {p : Contract.Program} (h : ∀ f ∈ Contract.Stmt.formulasAll p.body, TempFree f) :
    Program.body <$> ofProgram { s with nativeArithmetic := true } state owner p =
      (nativeAll ∘ Program.body) <$> ofProgram { s with nativeArithmetic := false } state owner p := by
  obtain ⟨check, hcheck⟩ := exists_check s state owner p
  have hbody : ((ofStmts ⟨true, s.bitWidth, p.id⟩ p.body).run.run 0).1 =
      nativeAll <$> ((ofStmts ⟨false, s.bitWidth, p.id⟩ p.body).run.run 0).1 := by
    rw [ofStmts_native s.bitWidth p.id h, ExceptT.run_map, StateT.run_map]
    rfl
  rw [LawfulFunctor.comp_map, hcheck, hcheck, map_bind, hbody]

end Relational

end Relspec
