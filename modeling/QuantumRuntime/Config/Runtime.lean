import QuantumRuntime.Config.Settings
import QuantumRuntime.Config.Flag

/-!
# Runtime settings

The runtime has one setting: whether it tracks every allocation and reports leaks when it is torn
down. It is off unless a settings document or the environment variable
`QIRT_TRACK_ALLOCATIONS` switches it on; the environment wins over the document.
-/

namespace QuantumRuntime

/-- Settings of a runtime. -/
structure RuntimeSettings where
  trackAllocations : Bool := false
deriving DecidableEq, Repr, Inhabited

namespace RuntimeSettings

/-- The environment variable that switches allocation tracking. -/
def trackingVariable : String := "QIRT_TRACK_ALLOCATIONS"

/-- Reads runtime settings from a YAML document. -/
def ofYaml (doc : String) : Except ConfigError RuntimeSettings := do
  let fields ← readSettingFields ["track_allocations"] doc
  withField fields "track_allocations" FieldValue.toBool?
    (fun b s => { s with trackAllocations := b }) {}

/-- Applies the environment on top of settings. -/
def mergeEnv (s : RuntimeSettings) (env : String → Option String) :
    Except ConfigError RuntimeSettings :=
  match env trackingVariable with
  | none => .ok s
  | some v => do
    let b ← parseFlag trackingVariable v
    pure { s with trackAllocations := b }

end RuntimeSettings

end QuantumRuntime
