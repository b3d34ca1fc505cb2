import Relspec.ClassName
import Relspec.Source.Tree
import Relspec.Table
import Relspec.Var

/-!
# Source/ClassTable — classes, types and fields by name

The classes of a run, looked up by qualified name, simple name or identifier; the first class with a name
counts.  A class has the fields it declares and those of its superclasses, the nearest declaration first.

* `lookup?` finds a class, `typeOf?` the relational type of a type;
* `fieldsOf` collects the fields of a class along the chain of its superclasses.
-/

namespace Relspec.Source

/-- The identifier of a class. -/
def ClassDecl.id (c : ClassDecl) : String := ClassName.identifier c.qualifiedName

/-- The names that a class is found by. -/
def ClassDecl.names (c : ClassDecl) : List String := [c.qualifiedName, c.name, c.id]

namespace ClassTable

/-- **The class with a name.** -/
def lookup? (classes : List ClassDecl) (name : String) : Option ClassDecl :=
  classes.find? fun c => c.names.contains name

/-- The identifier of the class with a name.  A name that is no class of the run and has no dot belongs
to the standard package. -/
def idOf (classes : List ClassDecl) (name : String) : String :=
  match lookup? classes name with
  | some c => c.id
  | none => ClassName.identifier (if name.toList.contains '.' then name else "java.lang." ++ name)

/-- The types of integers. -/
def intTypes : List String := ["int", "long", "short", "byte", "char", "Integer", "java.lang.Integer"]

/-- The types of truth values. -/
def boolTypes : List String := ["boolean", "Boolean", "java.lang.Boolean"]

/-- The type that a name stands for. -/
def namedType (classes : List ClassDecl) (name : String) : ValueType :=
  if intTypes.contains name then .int
  else if boolTypes.contains name then .bool
  else .ref (idOf classes name)

/-- **The relational type of a type**; arrays and `void` have none. -/
def typeOf? (classes : List ClassDecl) (t : Option TypeRef) : Option ValueType :=
  match t with
  | some t => if t.array then none else some (namedType classes t.name)
  | none => none

/-- The relation of a field that a class declares. -/
def relation (classes : List ClassDecl) (owner : ClassDecl) (f : Field) : Var :=
  ⟨owner.id ++ "_" ++ f.name, (typeOf? classes f.type).getD .int⟩

/-- Adds the fields that a class declares to those already found nearer by. -/
def addFields (classes : List ClassDecl) (owner : ClassDecl) (found : Table Var) : Table Var :=
  owner.fields.foldl (fun t f => t.insertNew f.name (relation classes owner f)) found

/-- The fields of a class and its superclasses, added to those already found; the number bounds the
classes that are still looked at. -/
def collect (classes : List ClassDecl) : Nat → ClassDecl → Table Var → Table Var
  | 0, _, found => found
  | n + 1, c, found =>
    let found := addFields classes c found
    match c.superclass.bind (lookup? classes) with
    | some s => collect classes n s found
    | none => found

/-- **The fields of a class**, by name.  A chain of superclasses that runs in a circle ends after as many
steps as there are classes. -/
def fieldsOf (classes : List ClassDecl) (c : ClassDecl) : Table Var :=
  collect classes (classes.length + 1) c .empty

/-- The relations of the fields that a class declares, in order. -/
def ownFields (classes : List ClassDecl) (c : ClassDecl) : List Var :=
  c.fields.map fun f => ((fieldsOf classes c).find? f.name).getD (relation classes c f)

/-- The atom that stands for a thrown exception. -/
def exceptionAtom (classes : List ClassDecl) (name : String) : String := idOf classes name ++ "Lit"

end ClassTable

end Relspec.Source
