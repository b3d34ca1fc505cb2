import Relspec.Text.Search

/-!
# ClassName — the names of classes

A class has a qualified name, dotted; its simple name is the part after the last dot, and its identifier
is the qualified name with an underscore for each dot.
-/

namespace Relspec.ClassName

/-- The identifier of a class: dots become underscores. -/
def identifier (qualified : String) : String :=
  String.ofList (qualified.toList.map fun c => if c = '.' then '_' else c)

def simple (qualified : String) : String :=
  match Text.cutLast? '.' qualified with
  | some (_, last) => last
  | none => qualified

/-- **Whether `name` means the class `qualified`**: its qualified name, its identifier, or, without a
dot, its simple name. -/
def same (qualified name : String) : Bool :=
  qualified == name || identifier qualified == name ||
    (!name.toList.contains '.' && simple qualified == name)

end Relspec.ClassName
