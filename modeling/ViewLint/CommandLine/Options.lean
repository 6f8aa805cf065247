import ViewLint.CommandLine.Reader
import ViewLint.Run.File

/-!
# The options of the linter

* `Options`: what a command line asks for.
* `Options.read`: the options of a command line.
-/

namespace ViewLint

structure Options where
  config : Text := "rule_config.json"
  files : Text := "**/view.json"
  filenames : List Text := []
  ignoreWarnings : Bool := false
  debugOutput : Option Text := none
  timingOutput : Option Text := none
  resultsOutput : Option Text := none
  whitelist : Option Text := none
  noWhitelist : Bool := false
  generateWhitelist : List Text := []
  whitelistOutput : Text := ".whitelist.txt"
  append : Bool := false
  dryRun : Bool := false
  each : FileRun.Options := {}

namespace Options

open CommandLine

def flag (name : Text) : Opt := { names := [name] }

def valued (name : Text) : Opt := { names := [name], arity := .one }

def known : List Opt :=
  [{ names := ["-h", "--help"], final := true }, { names := ["--version"], final := true },
    valued "--config", valued "--files", { names := ["--verbose", "-v"] }, flag "--stats-only",
    { names := ["--debug-nodes"], arity := .any }, flag "--analyze-rules", valued "--debug-output",
    flag "--ignore-warnings", valued "--timing-output", valued "--results-output",
    valued "--whitelist", flag "--no-whitelist", { names := ["--generate-whitelist"], arity := .some },
    valued "--whitelist-output", flag "--append", flag "--dry-run", flag "--fix", flag "--fix-unsafe",
    flag "--fix-dry-run", valued "--fix-rules"]

def nonempty (value : Option Text) : Option Text := value.filter (!·.isEmpty)

/-- The options that settings and operands stand for. An output without a name is none. -/
def ofSettings (settings : List Setting) (operands : List Text) : Options :=
  let on := isSet settings
  let value := valueOf? settings
  { config := (value "--config").getD "rule_config.json"
    files := (value "--files").getD "**/view.json"
    filenames := operands
    ignoreWarnings := on "--ignore-warnings"
    debugOutput := nonempty (value "--debug-output")
    timingOutput := nonempty (value "--timing-output")
    resultsOutput := nonempty (value "--results-output")
    whitelist := nonempty (value "--whitelist")
    noWhitelist := on "--no-whitelist"
    generateWhitelist := (valuesOf? settings "--generate-whitelist").getD []
    whitelistOutput := (value "--whitelist-output").getD ".whitelist.txt"
    append := on "--append"
    dryRun := on "--dry-run"
    each :=
      { verbose := on "--verbose", statsOnly := on "--stats-only", analyzeRules := on "--analyze-rules"
        debugNodes := ((valuesOf? settings "--debug-nodes").map .texts).getD .null, fix := on "--fix"
        fixUnsafe := on "--fix-unsafe", fixDryRun := on "--fix-dry-run"
        fixRules := .optional (value "--fix-rules"), timing := (nonempty (value "--timing-output")).isSome } }

def read (args : List Text) : Except Ending Options := do
  let (settings, operands) ← CommandLine.read known args
  return ofSettings settings operands

end Options

end ViewLint
