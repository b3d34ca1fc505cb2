import Relspec.Relational.OfContract

/-!
# Proofs/Relational/Flattening — what becomes of expressions and statements of bodies

Expressions and bodies are taken apart with temporaries that are numbered in the order in which they are
set.  The two relations here say what comes of them, one case for each form, so that a fact about lowered
bodies is an induction over these cases.

* `Flattens` — expressions, and the expressions and statements that stand for them;
* `Lowers` — statements, and the relational statements that stand for them;
* `flatten_flattens`, `ofStmts_lowers`.
-/

namespace Relspec.Relational

/-- **Expressions taken apart**: the expressions that stand for them, the statements before these, and the
numbers of temporaries before and after. -/
inductive Flattens (native : Bool) : List Formula → List Formula → List Stmt → Nat → Nat → Prop where
  | nil {n} : Flattens native [] [] [] n n
  | append {fs gs fs' gs' ss ts n k m} (h : Flattens native fs gs ss n k)
      (h' : Flattens native fs' gs' ts k m) : Flattens native (fs ++ fs') (gs ++ gs') (ss ++ ts) n m
  | temp {f op x y x' y' ss n m} (hf : operation? f = some (op, x, y))
      (h : Flattens native [x, y] [x', y'] ss n m) : Flattens native [f] [.ident (tempName m)]
        (ss ++ [setTemp native op x' y' (tempName m)]) n (m + 1)
  | binary {op x y x' y' ss n m} (hop : ∀ o, op ≠ .arith o) (h : Flattens native [x, y] [x', y'] ss n m) :
    Flattens native [.binary op x y] [.binary op x' y'] ss n m
  | unary {op x x' ss n m} (hop : op ≠ .neg) (h : Flattens native [x] [x'] ss n m) :
    Flattens native [.unary op x] [.unary op x'] ss n m
  | join {x y x' y' ss n m} (h : Flattens native [x, y] [x', y'] ss n m) :
    Flattens native [.join x y] [.join x' y'] ss n m
  | call {name fs gs ss n m} (h : Flattens native fs gs ss n m) :
    Flattens native [.call name fs] [.call name gs] ss n m
  | ite {c t e c' t' e' ss n m} (h : Flattens native [c, t, e] [c', t', e'] ss n m) :
    Flattens native [.ite c t e] [.ite c' t' e'] ss n m
  | quant {kind vars domain body n} :
    Flattens native [.quant kind vars domain body] [inline (.quant kind vars domain body)] [] n n
  | old {x n} : Flattens native [.old x] [.old x] [] n n
  | ident {x n} : Flattens native [.ident x] [.ident x] [] n n
  | int {v n} : Flattens native [.int v] [.int v] [] n n

/-- **Statements and the relational statements that stand for them.**  The value of an assignment is worked
out before the object whose field is set. -/
inductive Lowers (native : Bool) : List Contract.Stmt → List Stmt → Nat → Nat → Prop where
  | nil {n} : Lowers native [] [] n n
  | cons {x xs ss ts n k m} (hx : Lowers native [x] ss n k) (hxs : Lowers native xs ts k m) :
    Lowers native (x :: xs) (ss ++ ts) n m
  | assign {x f g ss n m} (h : Flattens native [f] [g] ss n m) :
    Lowers native [.assign (.ident x) f] (ss ++ [.assign x g]) n m
  | update {object field f o g ss n m} (h : Flattens native [f, object] [g, o] ss n m) :
    Lowers native [.assign (.join object (.ident field)) f] (ss ++ [.update field o g]) n m
  | branch {f g thn els thn' els' ss n k k' m} (h : Flattens native [f] [g] ss n k)
      (hthn : Lowers native thn thn' k k') (hels : Lowers native els els' k' m) :
    Lowers native [.branch f thn els] (ss ++ [.branch g thn' els']) n m
  | loop {f g invariant variant body body' lead n k m} (h : Flattens native [f] [g] lead n k)
      (hbody : Lowers native body body' k m) : Lowers native [.loop f invariant variant body]
        [.loop lead g (invariant.map inline) (variant.map inline) body'] n m
  | assert {f g ss n m} (h : Flattens native [f] [g] ss n m) :
    Lowers native [.assert f] (ss ++ [.assert g]) n m
  | assume {f g ss n m} (h : Flattens native [f] [g] ss n m) :
    Lowers native [.assume f] (ss ++ [.assume g]) n m
  | ret {f g ss n m} (h : Flattens native [f] [g] ss n m) :
    Lowers native [.ret (some f)] (ss ++ [.ret (some g)]) n m
  | leave {n} : Lowers native [.ret none] [.ret none] n n
  | raise {exception n} : Lowers native [.raise exception] [.raise exception] n n

variable {native : Bool} {mode : Mode} {n m : Nat} {α β : Type}

/-! ## Expressions -/

mutual

/-- **Taking the operations out of an expression.** -/
theorem flatten_flattens : ∀ (f : Formula) (n : Nat), Flattens native [f] [((flatten native f).run n).1.1]
    ((flatten native f).run n).1.2 n ((flatten native f).run n).2
  | .binary op x y, n => by
    have hxy := (flatten_flattens x n).append (flatten_flattens y ((flatten native x).run n).2)
    by_cases hop : ∃ o, op = .arith o
    · obtain ⟨o, rfl⟩ := hop
      exact .temp rfl hxy
    · have hop : ∀ o, op ≠ .arith o := fun o ho => hop ⟨o, ho⟩
      rw [flatten]
      · exact .binary hop hxy
      · exact hop
  | .unary op x, n => by
    have hx := flatten_flattens x n
    by_cases hop : op = .neg
    · subst hop
      exact .temp rfl (Flattens.int.append hx)
    · rw [flatten]
      · exact .unary hop hx
      · exact hop
  | .join x y, n => .join ((flatten_flattens x n).append (flatten_flattens y ((flatten native x).run n).2))
  | .call _ args, n => .call (flattenAll_flattens args n)
  | .ite c t e, n => by
    have hct := (flatten_flattens c n).append (flatten_flattens t ((flatten native c).run n).2)
    exact .ite (hct.append (flatten_flattens e ((flatten native t).run ((flatten native c).run n).2).2))
  | .quant .., _ => .quant
  | .old _, _ => .old
  | .ident _, _ => .ident
  | .int _, _ => .int

theorem flattenAll_flattens : ∀ (fs : List Formula) (n : Nat), Flattens native fs
    ((flattenAll native fs).run n).1.1 ((flattenAll native fs).run n).1.2 n ((flattenAll native fs).run n).2
  | [], _ => .nil
  | f :: fs, n => (flatten_flattens f n).append (flattenAll_flattens fs ((flatten native f).run n).2)

end

/-! ## What lowering gives -/

/-- Lowering succeeds with `a` and takes the temporaries from `n` on and below `m`. -/
def Gives (x : Flattening α) (n : Nat) (a : α) (m : Nat) : Prop := x.run.run n = (.ok a, m)

theorem Gives.bind {x : Flattening α} {f : α → Flattening β} {b : β} (h : Gives (x >>= f) n b m) :
    ∃ a k, Gives x n a k ∧ Gives (f a) k b m := by
  rw [Gives, ExceptT.run_bind, StateT.run_bind] at h
  rcases hx : x.run.run n with ⟨_ | a, k⟩
  · rw [hx] at h
    cases h
  · rw [hx] at h
    exact ⟨a, k, hx, h⟩

theorem Gives.pure {a b : α} (h : Gives (Pure.pure a) n b m) : a = b ∧ n = m := by
  cases h
  exact ⟨rfl, rfl⟩

/-- Checks of literals take no temporaries. -/
theorem Gives.checkLiterals {f : Formula} {u : Unit}
    (h : Gives (liftM (Relational.checkLiterals mode.bits mode.owner f)) n u m) : n = m := by
  rcases hcheck : Relational.checkLiterals mode.bits mode.owner f with _ | a <;> rw [hcheck] at h
  · cases h
  · exact h.pure.2

theorem Gives.flattens {f : Formula} {p : Formula × List Stmt} (h : Gives (exprOf mode f) n p m) :
    Flattens mode.native [f] [p.1] p.2 n m := by
  obtain ⟨_, k, hcheck, hflatten⟩ := h.bind
  obtain rfl := hcheck.checkLiterals
  cases hflatten
  exact flatten_flattens f n

theorem Gives.loopFormula {o o' : Option Formula}
    (h : Gives (o.mapM (Relational.loopFormula mode)) n o' m) : o.map inline = o' ∧ n = m := by
  cases o with
  | none => exact h.pure
  | some f =>
    obtain ⟨g, k, hg, ho⟩ := h.bind
    obtain ⟨_, _, hcheck, hf⟩ := hg.bind
    obtain rfl := hcheck.checkLiterals
    obtain ⟨rfl, rfl⟩ := hf.pure
    exact ho.pure

/-! ## Statements -/

mutual

theorem ofStmt_lowers {n m : Nat} {ss : List Stmt} : ∀ {x : Contract.Stmt},
    Gives (ofStmt mode x) n ss m → Lowers mode.native [x] ss n m
  | .assign target value, h => by
    rw [ofStmt] at h
    obtain ⟨⟨g, ts⟩, _, hg, h⟩ := h.bind
    dsimp only at h
    split at h
    · obtain ⟨rfl, rfl⟩ := h.pure
      exact .assign hg.flattens
    · obtain ⟨⟨o, us⟩, _, ho, h⟩ := h.bind
      obtain ⟨rfl, rfl⟩ := h.pure
      exact .update (hg.flattens.append ho.flattens)
    · cases h
  | .branch cond thn els, h => by
    rw [ofStmt] at h
    obtain ⟨_, _, hg, h⟩ := h.bind
    obtain ⟨thn', _, hthn, h⟩ := h.bind
    obtain ⟨els', _, hels, h⟩ := h.bind
    obtain ⟨rfl, rfl⟩ := h.pure
    exact .branch hg.flattens (ofStmts_lowers hthn) (ofStmts_lowers hels)
  | .loop cond invariant variant body, h => by
    rw [ofStmt] at h
    obtain ⟨_, _, hg, h⟩ := h.bind
    obtain ⟨body', _, hbody, h⟩ := h.bind
    obtain ⟨_, _, hinvariant, h⟩ := h.bind
    obtain ⟨_, _, hvariant, h⟩ := h.bind
    obtain ⟨rfl, rfl⟩ := h.pure
    obtain ⟨rfl, rfl⟩ := hinvariant.loopFormula
    obtain ⟨rfl, rfl⟩ := hvariant.loopFormula
    exact .loop hg.flattens (ofStmts_lowers hbody)
  | .assert _, h | .assume _, h | .ret (some _), h => by
    rw [ofStmt] at h
    obtain ⟨_, _, hg, h⟩ := h.bind
    obtain ⟨rfl, rfl⟩ := h.pure
    first | exact .assert hg.flattens | exact .assume hg.flattens | exact .ret hg.flattens
  | .ret none, h | .raise _, h => by
    rw [ofStmt] at h
    obtain ⟨rfl, rfl⟩ := h.pure
    first | exact .leave | exact .raise

/-- **The relational statements of statements.** -/
theorem ofStmts_lowers : ∀ {xs : List Contract.Stmt} {n m : Nat} {ss : List Stmt},
    Gives (ofStmts mode xs) n ss m → Lowers mode.native xs ss n m
  | [], n, m, ss, h => by
    rw [ofStmts] at h
    obtain ⟨rfl, rfl⟩ := h.pure
    exact .nil
  | x :: xs, n, m, ss, h => by
    rw [ofStmts] at h
    obtain ⟨ts, _, hx, h⟩ := h.bind
    obtain ⟨us, _, hxs, h⟩ := h.bind
    obtain ⟨rfl, rfl⟩ := h.pure
    exact .cons (ofStmt_lowers hx) (ofStmts_lowers hxs)

end

end Relspec.Relational
