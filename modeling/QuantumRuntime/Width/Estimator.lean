import QuantumRuntime.Width.Interference
import QuantumRuntime.Schedule.Coloring
import QuantumRuntime.Backend.Gate
import QuantumRuntime.Backend.Config

/-!
# The width estimator

The width estimator is a backend that executes nothing: it numbers the gates it receives, gives
each the depth one past the deepest of its qubits (as soon as possible), and remembers for every
qubit the first and last depth at which it was used. It also counts gates by name and records the
peak number of live qubits.

When finalized it reports the circuit width in one of two ways. Optimizing for depth, qubits are
intervals of depths and the width is the most intervals that share a depth (a never-used qubit
sits at depth zero). Optimizing for width, the width is the estimate of the interference graph,
where operations depend on the last operation of each of their qubits.

It measures nothing: every measurement gives the fixed zero result.
-/

namespace QuantumRuntime

/-- What the width estimator optimizes for. -/
inductive Objective
  | circuitDepth
  | qubitWidth
deriving DecidableEq, Repr, Inhabited

namespace Objective

/-- The name of an objective in settings and reports. -/
def name : Objective → String
  | circuitDepth => "circuit_depth"
  | qubitWidth => "qubit_width"

/-- The objective of a name. -/
def ofName? : String → Option Objective
  | "circuit_depth" => some circuitDepth
  | "qubit_width" => some qubitWidth
  | _ => none

/-- The objective a setting names: its name as a text, or a table whose single entry maps the
name to null. -/
def ofSetting? : SettingValue → Option Objective
  | .text s => ofName? s
  | .table [(s, .null)] => ofName? s
  | _ => none

theorem ofName?_name (o : Objective) : ofName? o.name = some o := by
  cases o <;> rfl

end Objective

/-- The depths at which a qubit was first and last used, and its last operation; zero means
none. -/
structure QubitDepth where
  start : Nat := 0
  stop : Nat := 0
  lastOp : Nat := 0
deriving DecidableEq, Repr, Inhabited

/-- What the width estimator reports. -/
structure Statistics where
  qubitWidth : Nat
  circuitDepth : Option Nat
  gateCounts : List (String × Nat)
deriving DecidableEq, Repr, Inhabited

namespace Statistics

/-- How many gates of a name were applied. -/
def count (s : Statistics) (gate : String) : Nat := (s.gateCounts.lookup gate).getD 0

/-- The report as indented JSON text, two spaces a level; the depth is left out when the width
was optimized. -/
def toJson (s : Statistics) : String :=
  let depth := match s.circuitDepth with
    | some d => "  \"circuit_depth\": " ++ toString d ++ ",\n"
    | none => ""
  let counts := match s.gateCounts with
    | [] => "\x7b\x7d"
    | cs => "\x7b\n" ++ ",\n".intercalate (cs.map fun (g, n) => "    \"" ++ g ++ "\": " ++ toString n) ++
      "\n  \x7d"
  "\x7b\n  \"qubit_width\": " ++ toString s.qubitWidth ++ ",\n" ++ depth ++
    "  \"gate_counts\": " ++ counts ++ "\n\x7d"

end Statistics

/-- The state of the width estimator. -/
structure WidthEstimator where
  objective : Objective := .circuitDepth
  qubits : List QubitDepth := []
  time : Nat := 0
  depth : Nat := 0
  live : Nat := 0
  peak : Nat := 0
  gateCounts : List (String × Nat) := []
  interference : Interference := {}
deriving Repr, Inhabited

namespace WidthEstimator

/-- The result every measurement gives. -/
def zeroResult : ResultHandle := ⟨0xface0000⟩

/-- The result that reads as one. -/
def oneResult : ResultHandle := ⟨0xface1000⟩

/-- Adds one to the count of a gate name, keeping names in ascending order. -/
def bumpCount (name : String) : List (String × Nat) → List (String × Nat)
  | [] => [(name, 1)]
  | (g, n) :: rest =>
    if name < g then (name, 1) :: (g, n) :: rest
    else if name = g then (g, n + 1) :: rest
    else (g, n) :: bumpCount name rest

/-- A width estimator for an objective. -/
def new (objective : Objective) : WidthEstimator := { objective }

/-- The depths of a qubit, if it was allocated. -/
def qubit? (w : WidthEstimator) (q : Qubit) : Option QubitDepth := w.qubits[q.index]?

/-- Allocates a qubit. -/
def allocate (w : WidthEstimator) : Qubit × WidthEstimator :=
  (⟨w.qubits.length⟩, { w with
    qubits := w.qubits ++ [{}], live := w.live + 1, peak := max w.peak (w.live + 1) })

/-- Releases a qubit; the live count never goes below zero. -/
def release (w : WidthEstimator) (q : Qubit) : Except BackendError WidthEstimator :=
  match w.qubit? q with
  | none => .error (.unknownQubit q)
  | some _ => .ok { w with live := w.live - 1 }

/-- The estimator's description of a qubit. -/
def qubitText (w : WidthEstimator) (q : Qubit) : String :=
  match w.qubit? q with
  | some d => s!"{q.index} depth [{d.start}, {d.stop}]"
  | none => s!"{q.index} (unknown)"

/-- Records a gate called `name` on `controls` and `targets`: it gets the next operation number
and the depth one past the deepest of its qubits. -/
def record (w : WidthEstimator) (name : String) (controls targets : List Qubit) :
    Except BackendError WidthEstimator := do
  let qs := controls ++ targets
  let states ← qs.mapM fun q => match w.qubit? q with
    | some d => .ok d
    | none => .error (.unknownQubit q)
  let depth := states.foldl (fun m d => max m d.stop) 0 + 1
  let previous := (states.map (·.lastOp)).filter (· ≠ 0)
  let participants := (qs.map (·.index)).eraseDups
  let op := w.time + 1
  let qubits := participants.foldl (fun qubits i => qubits.modify i fun d =>
    { start := if d.start = 0 then depth else d.start, stop := depth, lastOp := op }) w.qubits
  pure { w with
    time := op
    depth := max w.depth depth
    interference := w.interference.addOperation op previous participants
    qubits
    gateCounts := bumpCount name w.gateCounts }

/-- The name under which the estimator counts a gate. -/
def gateName : Gate → String
  | .fixed g c _ => if c.isSome then "c" ++ g.name else g.name
  | .rotation c _ _ _ => if c.isSome then "cr" else "r"
  | .exp c _ _ _ => if c.isSome then "cexp" else "exp"

/-- Applies a gate. -/
def apply (w : WidthEstimator) (g : Gate) : Except BackendError WidthEstimator :=
  w.record (gateName g) g.controls g.targets

/-- Measures qubits: counted as the gate `m`, giving the zero result. -/
def measure (w : WidthEstimator) (targets : List Qubit) :
    Except BackendError (ResultHandle × WidthEstimator) :=
  if targets.isEmpty then .error (.failure "measurement without targets")
  else (w.record "m" [] targets).map (zeroResult, ·)

/-- The statistics of everything recorded so far. -/
def finalize (w : WidthEstimator) : Statistics :=
  match w.objective with
  | .circuitDepth =>
    { qubitWidth := minColoringSize (w.qubits.map fun d => ⟨d.start, d.stop⟩)
      circuitDepth := some w.depth
      gateCounts := w.gateCounts }
  | .qubitWidth =>
    { qubitWidth := w.interference.estimate, circuitDepth := none, gateCounts := w.gateCounts }

/-- The outcome a result reads as: one for the one result, zero for every other. -/
def outcome (r : ResultHandle) : Outcome := if r = oneResult then .one else .zero

/-- A width estimator set up from a backend configuration. -/
def ofConfig (c : BackendConfig) : Except BackendError WidthEstimator := do
  let objective ← c.setting? "optimize_for" Objective.ofSetting?
  pure (new (objective.getD .circuitDepth))

end WidthEstimator

end QuantumRuntime
