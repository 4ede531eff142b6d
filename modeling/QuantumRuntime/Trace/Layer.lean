import QuantumRuntime.Handle
import QuantumRuntime.SortedMap

/-!
# Layers, qubit states and trace errors

The layering tracer packs traced operations into layers: consecutive time slots, each with a
start time and a duration, counting the operations placed in it, or holding a barrier. Each
qubit remembers the last layer it was placed in, the time it was last busy until, and the
zero-duration operations held for it until its next placement.
-/

namespace QuantumRuntime

/-- A time slot of the schedule. `ops` counts the operations placed in it, by id. -/
structure Layer where
  start : Int
  duration : Int
  ops : List (Int × Nat) := []
  barrier : Option Int := none
deriving DecidableEq, Repr, Inhabited

namespace Layer

/-- The time at which a layer ends. -/
def stop (l : Layer) : Int := l.start + l.duration

/-- How many operations with this id the layer holds. -/
def count (l : Layer) (op : Int) : Nat := (l.ops.lookup op).getD 0

/-- Whether the layer holds an operation with this id. -/
def contains (l : Layer) (op : Int) : Bool := (l.ops.lookup op).isSome

/-- Places one more operation with this id in the layer. -/
def addOp (l : Layer) (op : Int) : Layer := { l with ops := SortedMap.bump op l.ops }

end Layer

/-- What the tracer knows about a qubit. -/
structure QubitState where
  layer : Option Nat := none
  lastUsed : Int := 0
  pending : List Int := []
deriving DecidableEq, Repr, Inhabited

/-- Where an operation goes: an existing layer, or a new one after the last. Every existing layer
comes before a new one. -/
inductive Placement
  | layer (index : Nat)
  | fresh
deriving DecidableEq, Repr, Inhabited

namespace Placement

/-- The later of two placements. -/
def max : Placement → Placement → Placement
  | layer a, layer b => layer (Nat.max a b)
  | _, _ => fresh

end Placement

/-- The later of two optional layers; no layer comes before every layer. -/
def optMax : Option Nat → Option Nat → Option Nat
  | none, b => b
  | a, none => a
  | some a, some b => some (Nat.max a b)

/-- Why the tracer refused a request. -/
inductive TraceError
  | unknownQubit (q : Qubit)
  | unknownMeasurement (r : ResultHandle)
  | noTargets (op : Int)
  | negativeDuration (op duration : Int)
deriving DecidableEq, Repr

namespace TraceError

/-- The name of the kind of error. -/
def kind : TraceError → String
  | unknownQubit _ => "UnknownQubit"
  | unknownMeasurement _ => "UnknownMeasurement"
  | noTargets _ => "NoTargets"
  | negativeDuration _ _ => "NegativeDuration"

/-- The message of the error. -/
def message : TraceError → String
  | unknownQubit q => "Unknown qubit " ++ q.text
  | unknownMeasurement r => s!"Result {r.text} does not refer to a traced measurement"
  | noTargets op => s!"Operation {op} has no target qubits"
  | negativeDuration op d => s!"Operation {op} has negative duration {d}"

end TraceError

end QuantumRuntime
