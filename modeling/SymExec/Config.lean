import SymExec.Setting
import SymExec.Source
import SymExec.Yaml.Error

/-!
# Configuration

Limits on a run and the size of the symbolic input. A configuration is a mapping whose keys may be
written with dashes or underscores; unknown keys are rejected, missing ones have defaults.
-/
namespace SymExec

structure Limits where
  steps : Int := 1000000
  memory : Int := 104857600
  frames : Int := 100
  deriving DecidableEq, Repr

/-- What can be set for a run. -/
structure Config where
  limits : Limits := {}
  /-- The number of bytes of the symbolic input. -/
  inputLength : Int := 21
  /-- The time for one question to the solver, in milliseconds. -/
  solverTimeout : Option Int := some 5000
  deriving DecidableEq, Repr

inductive ConfigError where
  | notMapping (part : String)
  | unknownKey (part : String) (key : Setting)
  | notTopMapping (file : String)
  | directory (path : String)
  | unreadable (cause : Yaml.Error)
  | failure (cause : Failure)

/-- A configuration error in words; there are none for a value of a shape that no rule covers. -/
def ConfigError.message? : ConfigError → Option String
  | notMapping part => some s!"{part}: expected a mapping"
  | unknownKey part key => some (part ++ ": unknown key " ++ key.text)
  | notTopMapping file => some s!"{file}: expected a mapping at the top level"
  | directory path => some (Source.directoryMessage path)
  | unreadable cause => cause.message?
  | failure (.error e) => some e.message
  | failure (.numeral e) => some e.message
  | failure .crash => none

namespace Config

/-- The entries of a mapping by the names of their keys, with underscores, the last one first. Of
two entries of one name the later one counts. -/
def normalize (part : String) (known : List String) (raw : Setting) :
    Except ConfigError (List (String × Setting)) :=
  match raw with
  | .mapping entries => entries.foldlM (fun done (key, value) => do
      let written ← key.name.mapError fun e => .failure (.numeral e)
      let name := written.map fun c => if c == '-' then '_' else c
      if known.contains name then return (name, value) :: done
      else throw (.unknownKey part key)) []
  | _ => .error (.notMapping part)

def intAt (entries : List (String × Setting)) (name : String) (default : Int) :
    Except ConfigError Int :=
  match entries.lookup name with
  | none => .ok default
  | some v => v.toInt.mapError .failure

def ofSetting (raw : Setting) : Except ConfigError Config := do
  let defaults : Config := {}
  let entries ← normalize "config" ["limits", "symbolic_input_len", "solver_timeout_ms"] raw
  let inner := (entries.lookup "limits").getD (.mapping [])
  let inner := if inner.truthy then inner else .mapping []
  let limits ← normalize "limits" ["step_limit", "memory_size", "stack_limit"] inner
  let steps ← intAt limits "step_limit" defaults.limits.steps
  let memory ← intAt limits "memory_size" defaults.limits.memory
  let frames ← intAt limits "stack_limit" defaults.limits.frames
  let inputLength ← intAt entries "symbolic_input_len" defaults.inputLength
  let solverTimeout ← match entries.lookup "solver_timeout_ms" with
    | none => pure defaults.solverTimeout
    | some (.value .null) => pure none
    | some v => some <$> v.toInt.mapError .failure
  return ⟨⟨steps, memory, frames⟩, inputLength, solverTimeout⟩

/-- The configuration as a YAML document, if its integers can be written. -/
def toYaml (c : Config) : Except Text.NumeralError String := do
  let steps ← Text.decimal c.limits.steps
  let memory ← Text.decimal c.limits.memory
  let frames ← Text.decimal c.limits.frames
  let inputLength ← Text.decimal c.inputLength
  let timeout ← match c.solverTimeout with
    | some n => Text.decimal n
    | none => .ok "null"
  return "limits:\n" ++ s!"  step-limit: {steps}\n" ++ s!"  memory-size: {memory}\n" ++
    s!"  stack-limit: {frames}\n" ++ s!"symbolic-input-len: {inputLength}\n" ++
    s!"solver-timeout-ms: {timeout}\n"

end Config
end SymExec
