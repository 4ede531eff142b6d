import QuantumRuntime.Backend.Recorder
import QuantumRuntime.Trace.Metrics
import QuantumRuntime.Width.Estimator

/-!
# Backends

A runtime executes against one backend: the recording backend, the layering tracer or the width
estimator. A backend issues and takes back qubits, describes them, reads and compares results,
and names its canonical zero and one results. Only some backends apply gates (the tracer does
not) and only the recorder has diagnostics.

The registry creates backends by name from a configuration; it knows `tracer` and `width`.
-/

namespace QuantumRuntime

/-- A backend and its state. -/
inductive Backend
  | recorder (r : Recorder)
  | tracer (t : Tracer)
  | width (w : WidthEstimator)
deriving Inhabited

namespace Backend

/-- The name of a backend. -/
def name : Backend → String
  | recorder _ => "recording"
  | tracer _ => "tracer"
  | width _ => "width"

/-- Issues a fresh qubit. -/
def allocateQubit : Backend → Except BackendError (Qubit × Backend)
  | recorder r => let (q, r) := r.allocate; .ok (q, recorder r)
  | tracer t => let (q, t) := t.allocate; .ok (q, tracer t)
  | width w => let (q, w) := w.allocate; .ok (q, width w)

/-- Takes back a qubit. -/
def releaseQubit (b : Backend) (q : Qubit) : Except BackendError Backend :=
  match b with
  | recorder r => recorder <$> r.release q
  | tracer t => .ok (tracer t)
  | width w => width <$> w.release q

/-- The backend's description of a qubit. -/
def qubitText (b : Backend) (q : Qubit) : String :=
  match b with
  | recorder _ => Recorder.qubitText q
  | tracer t => t.qubitText q
  | width w => w.qubitText q

/-- Takes back a result that the program no longer refers to. -/
def releaseResult (b : Backend) (res : ResultHandle) : Except BackendError Backend :=
  match b with
  | recorder r => .ok (recorder { r with releasedResults := r.releasedResults ++ [res] })
  | other => .ok other

/-- What a result reads as. -/
def outcome (b : Backend) (res : ResultHandle) : Except BackendError Outcome :=
  match b with
  | recorder _ => .ok (Recorder.outcome res)
  | tracer _ => .error (.resultsUnavailable "result values aren't available while tracing")
  | width _ => .ok (WidthEstimator.outcome res)

/-- Whether two results read the same. -/
def resultsEqual (b : Backend) (r1 r2 : ResultHandle) : Except BackendError Bool :=
  match b with
  | recorder _ => .ok (Recorder.outcome r1 == Recorder.outcome r2)
  | tracer _ => .error (.resultsUnavailable "cannot compare results while tracing")
  | width _ => .ok (r1 == r2)

/-- The canonical zero result. -/
def zero : Backend → ResultHandle
  | recorder _ => ⟨0⟩
  | tracer _ => ResultHandle.invalid
  | width _ => WidthEstimator.zeroResult

/-- The canonical one result. -/
def one : Backend → ResultHandle
  | recorder _ => ⟨1⟩
  | tracer _ => ResultHandle.invalid
  | width _ => WidthEstimator.oneResult

/-- Whether the backend applies gates. -/
def hasGates : Backend → Bool
  | tracer _ => false
  | _ => true

/-- The error for a backend without gates. -/
def noGates (b : Backend) : BackendError := .unsupported s!"driver '{b.name}' has no gate set"

/-- Applies a gate. -/
def applyGate (b : Backend) (g : Gate) : Except BackendError Backend :=
  match b with
  | recorder r => .ok (recorder (r.apply g))
  | width w => width <$> w.apply g
  | tracer _ => .error b.noGates

/-- Measures qubits in the given bases. -/
def measure (b : Backend) (bases : List Pauli) (targets : List Qubit) :
    Except BackendError (ResultHandle × Backend) :=
  match b with
  | recorder r => let (res, r) := r.measure bases targets; .ok (res, recorder r)
  | width w => (w.measure targets).map fun (res, w) => (res, width w)
  | tracer _ => .error b.noGates

/-- Whether the backend has diagnostics. -/
def hasDiagnostics : Backend → Bool
  | recorder _ => true
  | _ => false

/-- Asks whether measuring gives zero with the given probability, within a tolerance. -/
def assertProbability (b : Backend) (probabilityOfZero : Float) :
    Except BackendError (Bool × Backend) :=
  match b with
  | recorder r => let (ok, r) := r.assertProbability probabilityOfZero; .ok (ok, recorder r)
  | _ => .error (.unsupported s!"driver '{b.name}' has no diagnostics")

/-- The names the registry knows, in order. -/
def registered : List String := ["tracer", "width"]

/-- Creates a registered backend from its configuration. -/
def create (c : BackendConfig) : Except BackendError Backend :=
  if c.name = "tracer" then tracer <$> Tracer.ofConfig c
  else if c.name = "width" then width <$> WidthEstimator.ofConfig c
  else .error (.unavailable s!"No driver registered with name '{c.name}'")

end Backend

end QuantumRuntime
