import Relspec.Contract.Basic
import Relspec.Proofs.Formula.Words

/-!
# Proofs/Contract/Named — contract modules over identifiers

* `Stmt.Named`, `Program.Named`, `Module.Named` — every name is an identifier;
* `isIdentifier_splitProgramId` — so is the method in a program id.
-/

namespace Relspec

open List

/-- A type whose class has an identifier for a name. -/
def ValueType.Named : ValueType → Prop
  | .ref className => IsIdentifier className
  | _ => True

/-- A variable whose name and type are named by identifiers. -/
structure Var.Named (v : Var) : Prop where
  name : IsIdentifier v.name
  type : v.type.Named

/-- Side variables and definitions over identifiers. -/
structure Side.Named (s : Side) : Prop where
  vars : ∀ v ∈ s.vars, IsIdentifier v.name
  defs : ∀ d ∈ s.defs, d.formula.Named

namespace Side.Named

variable {s t : Side}

theorem ofOrigin (h : s.Named) (o : Origin) : (s.ofOrigin o).Named where
  vars v hv := h.vars v (mem_filter.mp hv).1
  defs d hd := h.defs d (mem_filter.mp hd).1

theorem append (hs : s.Named) (ht : t.Named) : (s ++ t).Named where
  vars := forall_mem_append.mpr ⟨hs.vars, ht.vars⟩
  defs := forall_mem_append.mpr ⟨hs.defs, ht.defs⟩

end Side.Named

namespace Contract

mutual

/-- **A statement over identifiers**, at any depth. -/
def Stmt.Named : Stmt → Prop
  | .assign target value => target.Named ∧ value.Named
  | .branch cond thn els => cond.Named ∧ Stmt.NamedAll thn ∧ Stmt.NamedAll els
  | .loop cond invariant variant body =>
    cond.Named ∧ (∀ f ∈ invariant, f.Named) ∧ (∀ f ∈ variant, f.Named) ∧ Stmt.NamedAll body
  | .assert cond => cond.Named
  | .assume cond => cond.Named
  | .ret value => ∀ f ∈ value, f.Named
  | .raise exception => IsIdentifier exception

/-- Statements over identifiers. -/
def Stmt.NamedAll : List Stmt → Prop
  | [] => True
  | s :: ss => s.Named ∧ Stmt.NamedAll ss

end

/-- **A program over identifiers**, of the method and the overload that its id tells. -/
structure Program.Named (owner : String) (p : Program) : Prop where
  split : splitProgramId owner p.id = (p.method, p.overload)
  id : IsIdentifier p.id
  params : ∀ v ∈ p.params, v.Named
  returns : ∀ t ∈ p.returns, t.Named
  locals : ∀ v ∈ p.locals, v.Named
  requires : p.requires.Named
  ensures : p.ensures.Named
  side : p.side.Named
  body : Stmt.NamedAll p.body

/-- **A module over identifiers.** -/
structure Module.Named (m : Module) : Prop where
  id : IsIdentifier m.id
  fields : ∀ v ∈ m.fields, v.Named
  predicates : ∀ p ∈ m.predicates, IsIdentifier p.name ∧ p.body.Named
  invariant : ∀ name ∈ m.invariant, IsIdentifier name
  side : m.side.Named
  programs : ∀ p ∈ m.programs, p.Named m.id

theorem isIdentifier_splitProgramId {id : String} (h : IsIdentifier id) (owner : String) :
    IsIdentifier (splitProgramId owner id).1 := by
  have hrest := h.dropStart (owner ++ "_")
  rw [splitProgramId]
  split
  · exact hrest
  · next method number hcut =>
    split
    · exact hrest.cutLast? hcut
    · exact hrest

theorem Program.Named.method {owner : String} {p : Program} (h : p.Named owner) : IsIdentifier p.method := by
  have hmethod := isIdentifier_splitProgramId h.id owner
  rwa [h.split] at hmethod

end Contract

end Relspec
