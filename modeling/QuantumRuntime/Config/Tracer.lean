import QuantumRuntime.Config.Settings
import QuantumRuntime.Text.Blank

/-!
# Tracer settings

The layering tracer is set up with the preferred duration of a layer, display names for
operation ids, and the column separator of its metrics report, which can also print `0` for an
operation absent from a layer instead of leaving the cell empty. The environment variables
`QIRT_TRACER_LAYER_DURATION` and `QIRT_TRACER_SEPARATOR` override a settings document.

Valid settings have a non-negative duration, a non-empty separator and no empty operation name;
the first broken rule, in that order, is reported, and for names the smallest id.
-/

namespace QuantumRuntime

/-- Settings of the layering tracer and its metrics report. -/
structure TracerSettings where
  preferredLayerDuration : Int := 0
  opNames : List (Int × String) := []
  metricsSeparator : String := "\t"
  printZeroMetrics : Bool := false
deriving DecidableEq, Repr, Inhabited

namespace TracerSettings

/-- The environment variable that sets the preferred layer duration. -/
def durationVariable : String := "QIRT_TRACER_LAYER_DURATION"

/-- The environment variable that sets the metrics separator. -/
def separatorVariable : String := "QIRT_TRACER_SEPARATOR"

/-- Checks the rules of valid settings. -/
def validate (s : TracerSettings) : Except ConfigError TracerSettings :=
  if s.preferredLayerDuration < 0 then
    .error (.validation
      s!"preferred_layer_duration must not be negative, got {s.preferredLayerDuration}")
  else if s.metricsSeparator.isEmpty then
    .error (.validation "metrics_separator must not be empty")
  else match s.opNames.find? (fun (_, name) => name.isEmpty) with
    | some (id, _) => .error (.validation s!"operation {id} has an empty name")
    | none => .ok s

/-- Reads tracer settings from a YAML document and checks them. -/
def ofYaml (doc : String) : Except ConfigError TracerSettings := do
  let fields ← readSettingFields
    ["preferred_layer_duration", "op_names", "metrics_separator", "print_zero_metrics"] doc
  let s : TracerSettings := {}
  let s ← withField fields "preferred_layer_duration" FieldValue.toInt32?
    (fun d s => { s with preferredLayerDuration := d }) s
  let s ← withField fields "op_names" FieldValue.toNameTable?
    (fun names s => { s with opNames := names }) s
  let s ← withField fields "metrics_separator" FieldValue.toText?
    (fun sep s => { s with metricsSeparator := sep }) s
  let s ← withField fields "print_zero_metrics" FieldValue.toBool?
    (fun b s => { s with printZeroMetrics := b }) s
  validate s

/-- Applies the environment on top of settings and checks the result. -/
def mergeEnv (s : TracerSettings) (env : String → Option String) :
    Except ConfigError TracerSettings := do
  let s ← match env durationVariable with
    | none => pure s
    | some v =>
      match parseInt32? (trimBlank v) with
      | some d => pure { s with preferredLayerDuration := d }
      | none => .error (.validation s!"{durationVariable}: expected an integer, got '{v}'")
  let s := match env separatorVariable with
    | none => s
    | some sep => { s with metricsSeparator := sep }
  validate s

/-- The display name of an operation: its configured name, or its id. -/
def opName (s : TracerSettings) (op : Int) : String :=
  (s.opNames.lookup op).getD (toString op)

end TracerSettings

end QuantumRuntime
