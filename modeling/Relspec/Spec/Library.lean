import Relspec.Relational.Operation
import Relspec.Text.Search

/-!
# Spec/Library — what every specification starts with

Specifications rest on three library modules: objects and exceptions, truth values, and the arithmetic of
the source language.
-/

namespace Relspec.Spec

/-- A signature: a set of atoms. -/
structure Sig where
  name : String
  parent : Option String := none
  isAbstract : Bool := false
  one : Bool := false
deriving DecidableEq, Repr

def Sig.text (s : Sig) : String :=
  (if s.isAbstract then "abstract " else "") ++ (if s.one then "one " else "") ++ "sig " ++ s.name ++
    ((s.parent.map fun p => " extends " ++ p).getD "") ++ " \x7b\x7d"

/-- A predicate of the library over integers; its body is written out. -/
structure LibraryPred where
  name : String
  params : List String := []
  body : String := ""
deriving DecidableEq, Repr

def LibraryPred.text (p : LibraryPred) : String :=
  "pred " ++ p.name ++ "[" ++ Text.join ", " (p.params.map (· ++ ": Int")) ++ "] " ++
    (if p.body = "" then "\x7b\x7d" else "\x7b\n  " ++ p.body ++ "\n\x7d")

/-- A library module. -/
structure Library where
  name : String
  sigs : List Sig := []
  preds : List LibraryPred := []
deriving DecidableEq, Repr

namespace Library

/-- Objects, exceptions and the atom that is no object. -/
def objects : Library where
  name := "java_lang"
  sigs :=
    [{ name := "null", one := true }, { name := "java_lang_Object", isAbstract := true },
      { name := "java_lang_Throwable", parent := some "java_lang_Object", isAbstract := true }]

/-- Truth values and the two constant conditions. -/
def truthValues : Library where
  name := "boolean"
  sigs :=
    [{ name := "boolean", isAbstract := true }, { name := "true", parent := some "boolean", one := true },
      { name := "false", parent := some "boolean", one := true }]
  preds := [{ name := "TruePred" }, { name := "FalsePred", body := "not TruePred[]" }]

def integers : Library where
  name := "java_primitive_integer_value"
  preds := ArithOp.all.map fun op =>
    { name := op.predicate, params := ["a", "b", "r"], body := "r = " ++ op.function ++ "[a, b]" }

/-- The modules that every specification starts with. -/
def all : List Library := [objects, truthValues, integers]

def find? (name : String) : Option Library := all.find? (·.name == name)

def text (l : Library) : String :=
  "// " ++ l.name ++ "\n" ++ String.join (l.sigs.map fun s => s.text ++ "\n") ++
    String.join (l.preds.map fun p => p.text ++ "\n") ++ "\n"

end Library

end Relspec.Spec
