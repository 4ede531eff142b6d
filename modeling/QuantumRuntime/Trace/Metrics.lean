import QuantumRuntime.Trace.Tracer
import QuantumRuntime.Config.Tracer
import QuantumRuntime.Backend.Config

/-!
# The layer metrics report and tracer set-up

The metrics report is a table with one line per layer. Its header names the columns `layer_id`,
`name` and every traced operation in ascending id order; each row gives the layer's start time,
the name of its barrier operation (or nothing), and for each traced operation how many times it
was placed in the layer. A count of zero is left empty, or written `0` when asked. Cells are
joined by the separator and every line, the header included, ends with a newline.

A tracer is set up from tracer settings, or from a backend configuration whose
`preferred_layer_duration` must be a non-negative 32-bit integer and whose `op_names` is a table
from ids to names.
-/

namespace QuantumRuntime

namespace Tracer

/-- The metrics report with the given separator. -/
def metricsReport (t : Tracer) (sep : String) (printZero : Bool) : String :=
  let zero := if printZero then "0" else ""
  let header := "layer_id" ++ sep ++ "name" ++ String.join (t.seen.map fun op => sep ++ t.opName op)
  let row (l : Layer) : String :=
    let barrier := match l.barrier with
      | some op => t.opName op
      | none => ""
    toString l.start ++ sep ++ barrier ++ String.join (t.seen.map fun op =>
      sep ++ match l.ops.lookup op with
        | some n => toString n
        | none => zero)
  String.join ((header :: t.layers.map row).map (· ++ "\n"))

/-- The metrics report in the format that tracer settings ask for. -/
def layerMetrics (t : Tracer) (s : TracerSettings) : String :=
  t.metricsReport s.metricsSeparator s.printZeroMetrics

/-- A tracer set up from tracer settings. -/
def ofSettings (s : TracerSettings) : Tracer := new s.preferredLayerDuration s.opNames

/-- A tracer set up from a backend configuration. -/
def ofConfig (c : BackendConfig) : Except BackendError Tracer := do
  let d := (← c.setting? "preferred_layer_duration" SettingValue.toInt32?).getD 0
  if d < 0 then
    throw (.configuration s!"'preferred_layer_duration' must not be negative, got {d}")
  let names := (← c.setting? "op_names" SettingValue.toNameTable?).getD []
  pure (new d names)

end Tracer

end QuantumRuntime
