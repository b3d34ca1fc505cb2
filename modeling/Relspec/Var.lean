/-!
# Var — variables and their types

Variables, parameters and fields have the same three types on the way from a source to a specification.
-/

namespace Relspec

/-- The type of a variable: an integer, a truth value, or a reference to an object of a class. -/
inductive ValueType where
  | int
  | bool
  | ref (className : String)
deriving DecidableEq, Repr

namespace ValueType

def text : ValueType → String
  | .int => "Int"
  | .bool => "Bool"
  | .ref className => className

def ofName (name : String) : ValueType :=
  if name = "Int" then .int else if name = "Bool" then .bool else .ref name

end ValueType

/-- A variable, parameter or field with its type. -/
structure Var where
  name : String
  type : ValueType
deriving DecidableEq, Repr

end Relspec
