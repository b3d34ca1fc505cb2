import Relspec.Command.Flag
import Relspec.Settings.Basic

/-!
# Command/Options — the options of the commands

The command line gives options; those that are given replace what the settings file says.

* `Options.common`, `Options.ofCheck` — the flags of commands;
* `Options.apply` puts options in place of settings;
* `commandWord` finds the command on a command line.
-/

namespace Relspec.Command

/-- **The options on a command line.**  What is missing was not given. -/
structure Options where
  help : Bool := false
  verbosity : Int := 0
  logPath : String := ""
  settingsPath : String := ""
  className : Option String := none
  method : Option String := none
  relevant : Option (List String) := none
  bitWidth : Option Int := none
  objectScope : Option Int := none
  typeScopes : Option String := none
  loopUnroll : Option Int := none
  removeQuantifiers : Option Bool := none
  nativeArithmetic : Option Bool := none
  keepIntermediate : Option Bool := none
  outputDir : Option String := none
deriving Repr

namespace Options

def common : List (Flag Options) :=
  [⟨"help", some 'h', .switch fun v o => { o with help := v }⟩,
    ⟨"verbose", some 'v', .count (fun v o => { o with verbosity := v })
      (fun o => { o with verbosity := o.verbosity + 1 })⟩,
    ⟨"log", none, .text fun v o => { o with logPath := v }⟩]

def ofCheck : List (Flag Options) :=
  [⟨"config", none, .text fun v o => { o with settingsPath := v }⟩,
    ⟨"class", some 'c', .text fun v o => { o with className := some v }⟩,
    ⟨"method", some 'm', .text fun v o => { o with method := some v }⟩,
    ⟨"relevant", none, .list fun v o => { o with relevant := some (o.relevant.getD [] ++ v) }⟩,
    ⟨"width", some 'w', .number fun v o => { o with bitWidth := some v }⟩,
    ⟨"bound", some 'b', .number fun v o => { o with objectScope := some v }⟩,
    ⟨"type-scopes", none, .text fun v o => { o with typeScopes := some v }⟩,
    ⟨"unroll", some 'u', .number fun v o => { o with loopUnroll := some v }⟩,
    ⟨"remove-quantifiers", none, .switch fun v o => { o with removeQuantifiers := some v }⟩,
    ⟨"java-arithmetic", none, .switch fun v o => { o with nativeArithmetic := some v }⟩,
    ⟨"keep-intermediate", none, .switch fun v o => { o with keepIntermediate := some v }⟩,
    ⟨"output", some 'o', .text fun v o => { o with outputDir := some v }⟩]

/-- **Settings with the given options in their place.** -/
def apply (o : Options) (s : Settings) : Settings where
  className := o.className.getD s.className
  method := o.method.getD s.method
  relevant := o.relevant.getD s.relevant
  bitWidth := o.bitWidth.getD s.bitWidth
  objectScope := o.objectScope.getD s.objectScope
  typeScopes := o.typeScopes.getD s.typeScopes
  loopUnroll := o.loopUnroll.getD s.loopUnroll
  removeQuantifiers := o.removeQuantifiers.getD s.removeQuantifiers
  nativeArithmetic := o.nativeArithmetic.getD s.nativeArithmetic
  outputDir := o.outputDir.getD s.outputDir
  keepIntermediate := o.keepIntermediate.getD s.keepIntermediate

end Options

/-! ## Finding the command -/

/-- Whether the word after a flag is taken for its value while the command is looked for: after every flag
without `=` but the one for verbosity. -/
def takesNext (s : String) : Bool :=
  match s.toList with
  | '-' :: '-' :: name => !name.contains '=' && String.ofList name != "verbose"
  | ['-', c] => c != '=' && c != 'v'
  | _ => false

/-- **The command on a command line**, and the other words. -/
def commandWord : List String → Option (String × List String)
  | [] => none
  | s :: rest =>
    if s = "--" then none
    else if takesNext s then
      match rest with
      | [] => none
      | [_] => none
      | value :: next :: rest => (commandWord (next :: rest)).map fun (w, ws) => (w, s :: value :: ws)
    else if s != "" && s.toList.head? != some '-' then some (s, rest)
    else (commandWord rest).map fun (w, ws) => (w, s :: ws)

end Relspec.Command
