import Relspec.ClassName
import Relspec.Diagnostic.Fault
import Relspec.Table
import Relspec.Text.Blank
import Relspec.Text.Number

/-!
# Settings/Basic — what a run is asked to do

* `Settings.validate` says what is wrong with settings, if anything;
* `MethodName.normalize` and `MethodName.split` relate the spellings of a method and its overload;
* `Settings.scopeOf` bounds the number of objects of a class.
-/

namespace Relspec

/-- **The settings of a run.** -/
structure Settings where
  /-- The class with the method to check, by simple or qualified name. -/
  className : String := ""
  /-- The method to check: a name, a name with parameter types, or a name with an overload number. -/
  method : String := ""
  /-- The classes that take part; none means all. -/
  relevant : List String := []
  /-- The number of bits of an integer. -/
  bitWidth : Int := 4
  /-- How many objects a class has. -/
  objectScope : Int := 3
  /-- The classes with another number of objects, `A:1,B:15`. -/
  typeScopes : String := ""
  /-- How often a loop is run. -/
  loopUnroll : Int := 3
  /-- Whether quantifiers at the top of contracts become variables. -/
  removeQuantifiers : Bool := false
  /-- Whether integer operations are predicates of the source language's arithmetic. -/
  nativeArithmetic : Bool := false
  /-- Where the results go. -/
  outputDir : String := "output"
  /-- Whether the contract modules are written out. -/
  keepIntermediate : Bool := false
deriving DecidableEq, Repr

/-! ## Methods and their overloads -/

namespace MethodName

/-- The method whose precondition becomes the query for an object invariant. -/
def generateInvariant : String := "generateInvariant"

/-- Whether a character can stand in a method name with an overload number. -/
def isPart (c : Char) : Bool := c.isAlphanum || c == '_' || c == '$' || c == '-'

/-- Whether a method name ends in an overload number. -/
def isNumbered (name : String) : Bool :=
  match Text.cutLast? '_' name with
  | some (base, number) =>
    name.toList.all isPart && base != "" && number != "" && number.toList.all Char.isDigit
  | none => false

/-- **The name of a method with its overload number**, zero when there is none; a parameter list is
dropped. -/
def normalize (method : String) : String :=
  let trimmed := Text.trim method
  let name := String.ofList (trimmed.toList.takeWhile (· != '('))
  if isNumbered name then name else name ++ "_0"

/-- The name and the overload number of a normalized method. -/
def split (normalized : String) : String × Int :=
  match Text.cutLast? '_' normalized with
  | none => (normalized, 0)
  | some (base, number) =>
    match Text.integer? number with
    | some n => (base, n)
    | none => (normalized, 0)

end MethodName

namespace Settings

/-! ## Scopes of classes -/

/-- Adds one entry of the form `A:1` to the bounds. -/
def addScope (scopes : Table Nat) (entry : String) : Except Fault (Table Nat) :=
  let noForm := Fault.badSetting "typeScopes" ("entry '" ++ entry ++ "' is not of the form Type:bound")
  match Text.cut? [':'] (Text.trim entry).toList with
  | none => .error noForm
  | some (name, bound) =>
    let name := String.ofList name
    if Text.isBlank name then .error noForm
    else
      match Text.integer? (Text.trim (String.ofList bound)) with
      | some (.ofNat n) => .ok (scopes.insert (Text.trim name) n)
      | _ =>
        .error (.badSetting "typeScopes" ("bound of '" ++ name ++ "' is not a non-negative integer"))

/-- **The bounds in a text of the form `A:1,B:15`**; the last of several bounds of a class counts. -/
def parseScopes (spec : String) : Except Fault (Table Nat) :=
  if Text.isBlank spec then .ok .empty else (Text.split spec ',').foldlM addScope .empty

/-- **What is wrong with the settings**, if anything. -/
def validate (s : Settings) : Except Fault Unit := do
  if Text.isBlank s.className then throw (.missingSetting "classToCheck")
  if Text.isBlank s.method then throw (.missingSetting "methodToCheck")
  if s.bitWidth ≤ 0 || 32 < s.bitWidth then throw (.badSetting "bitwidth" "must be between 1 and 32")
  if s.objectScope < 0 then throw (.badSetting "objectScope" "must not be negative")
  if s.loopUnroll < 0 then throw (.badSetting "loopUnroll" "must not be negative")
  discard (parseScopes s.typeScopes)

def forMethod (s : Settings) (method : String) : Settings := { s with method }

/-- Whether the method to check is the one that asks for an object invariant. -/
def isInvariantQuery (s : Settings) : Bool :=
  (MethodName.split (MethodName.normalize s.method)).1 == MethodName.generateInvariant

def isRelevant (s : Settings) (qualified : String) : Bool :=
  ClassName.same qualified s.className || s.relevant.isEmpty ||
    s.relevant.any (ClassName.same qualified)

/-- The bounds of classes, none when their text does not read. -/
def scopes (s : Settings) : Table Nat :=
  match parseScopes s.typeScopes with
  | .ok t => t
  | .error _ => .empty

/-- The classes with a bound of their own, sorted. -/
def scopedTypes (s : Settings) : List String := s.scopes.keys.mergeSort

/-- **How many objects a class has.**  A bound whose name spells the class in full goes before one that
gives its simple name. -/
def scopeOf (s : Settings) (type : String) : Int :=
  let names := s.scopedTypes
  let full := names.find? fun n => ClassName.identifier n == ClassName.identifier type
  let found := full <|> names.find? (ClassName.same type)
  match found.bind s.scopes.find? with
  | some bound => bound
  | none => s.objectScope

end Settings

end Relspec
