import Relspec.Proofs.Contract.Named
import Relspec.Proofs.Relational.NormalForm

/-!
# Proofs/Relational/Named — relational modules over identifiers

* `Stmt.Named`, `Program.Named`, `Module.Named` — every name is an identifier.
-/

namespace Relspec

open List

namespace Relational

mutual

/-- **A statement over identifiers**, at any depth. -/
def Stmt.Named : Stmt → Prop
  | .assign target value => IsIdentifier target ∧ value.Named
  | .update field object value => IsIdentifier field ∧ object.Named ∧ value.Named
  | .compute target pred args => IsIdentifier target ∧ IsIdentifier pred ∧ ∀ a ∈ args, a.Named
  | .branch cond thn els => cond.Named ∧ Stmt.NamedAll thn ∧ Stmt.NamedAll els
  | .loop lead cond invariant variant body =>
    Stmt.NamedAll lead ∧ cond.Named ∧ (∀ f ∈ invariant, f.Named) ∧ (∀ f ∈ variant, f.Named) ∧
      Stmt.NamedAll body
  | .assert cond => cond.Named
  | .assume cond => cond.Named
  | .ret value => ∀ f ∈ value, f.Named
  | .raise exception => IsIdentifier exception

/-- Statements over identifiers. -/
def Stmt.NamedAll : List Stmt → Prop
  | [] => True
  | s :: ss => s.Named ∧ Stmt.NamedAll ss

end

/-- **A program over identifiers.** -/
structure Program.Named (p : Program) : Prop where
  id : IsIdentifier p.id
  method : IsIdentifier p.method
  params : ∀ v ∈ p.params, v.Named
  locals : ∀ v ∈ p.locals, v.Named
  returns : ∀ t ∈ p.returns, t.Named
  pre : p.pre.Named
  post : p.post.Named
  side : p.side.Named
  skolems : ∀ v ∈ p.skolems, v.Named
  body : Stmt.NamedAll p.body

/-- **A module over identifiers.** -/
structure Module.Named (m : Module) : Prop where
  id : IsIdentifier m.id
  fields : ∀ v ∈ m.fields, v.Named
  invariantName : IsIdentifier m.invariant.name
  invariant : m.invariant.body.Named
  side : m.side.Named
  programs : ∀ p ∈ m.programs, p.Named

mutual

/-- Every statement within a statement over identifiers is over identifiers. -/
theorem Stmt.Named.within : ∀ {s : Stmt}, s.Named → ∀ t ∈ s.walk, t.Named
  | .branch .., h => by
    rw [Stmt.walk, forall_mem_cons, forall_mem_append]
    exact ⟨h, Stmt.NamedAll.within h.2.1, Stmt.NamedAll.within h.2.2⟩
  | .loop .., h => by
    rw [Stmt.walk, forall_mem_cons, forall_mem_append]
    exact ⟨h, Stmt.NamedAll.within h.1, Stmt.NamedAll.within h.2.2.2.2⟩
  | .assign .., h | .update .., h | .compute .., h | .assert _, h | .assume _, h | .ret _, h
  | .raise _, h => forall_mem_singleton.mpr h

theorem Stmt.NamedAll.within : ∀ {ss : List Stmt}, Stmt.NamedAll ss → ∀ t ∈ Stmt.walkAll ss, t.Named
  | [], _ => nofun
  | _ :: _, h => by
    rw [Stmt.walkAll, forall_mem_append]
    exact ⟨h.1.within, Stmt.NamedAll.within h.2⟩

end

/-- The exception that a statement over identifiers throws. -/
theorem Stmt.Named.thrown {s : Stmt} (h : s.Named) : ∀ e ∈ s.thrown?, IsIdentifier e := by
  cases s <;> simp_all [Stmt.thrown?, Stmt.Named]

theorem Program.Named.exceptions {p : Program} (h : p.Named) : ∀ e ∈ p.exceptions, IsIdentifier e := by
  intro e he
  obtain ⟨t, ht, hte⟩ := mem_filterMap.mp (mem_eraseDups.mp he)
  exact (h.body.within t ht).thrown e hte

end Relational

end Relspec
