import QuantumRuntime.Machine.Gates

/-!
# Tracing intrinsics

Programs compiled for the tracer report their operations through these intrinsics instead of the
gate intrinsics. Each one forwards to the tracer that serves as the backend; any other backend is
refused. Arrays are decoded before the backend is looked at, and errors of the runtime that
arise on the way are wrapped, so that a caller can tell them from the tracer's own.
-/

namespace QuantumRuntime

/-- A tracing request of a running program. -/
abbrev Tracing := EStateM TracingError Machine

namespace Machine

/-- Runs a runtime request as a tracing request, wrapping its errors. -/
def traced {α : Type} (x : Exec α) : Tracing α := fun m =>
  match x m with
  | .ok a m => .ok a m
  | .error e m => .error (.machine e) m

/-- Runs a request on the tracer that serves as the backend, in place: an error keeps the tracer
the request reached. -/
def onTracer {α : Type} (x : Tracer.TraceM α) : Tracing α := fun m =>
  match m.backend with
  | .tracer t =>
    match x t with
    | .ok a t => .ok a { m with backend := .tracer t }
    | .error e t => .error (.schedule e) { m with backend := .tracer t }
  | b => .error (.notTracing b.name) m

/-- Traces a single-qubit operation. -/
def traceSingleOp (op duration : Int) (target : Qubit) : Tracing Unit :=
  discard (onTracer (Tracer.InPlace.traceSingle op duration target))

/-- Traces a single-qubit operation controlled by the qubits of an array. -/
def traceSingleOpCtl (op duration : Int) (controls : Nat) (target : Qubit) : Tracing Unit := do
  let cs ← traced (qubits controls)
  discard (onTracer (Tracer.InPlace.traceMulti op duration cs [target]))

/-- Traces an operation on the qubits of an array. -/
def traceMultiOp (op duration : Int) (targets : Nat) : Tracing Unit := do
  let ts ← traced (qubits targets)
  discard (onTracer (Tracer.InPlace.traceMulti op duration [] ts))

/-- Traces an operation on the qubits of an array, controlled by those of another. -/
def traceMultiOpCtl (op duration : Int) (controls targets : Nat) : Tracing Unit := do
  let cs ← traced (qubits controls)
  let ts ← traced (qubits targets)
  discard (onTracer (Tracer.InPlace.traceMulti op duration cs ts))

/-- Traces a barrier across every qubit. -/
def traceBarrier (op duration : Int) : Tracing Unit :=
  discard (onTracer (Tracer.InPlace.injectBarrier op duration))

/-- Traces the measurement of one qubit. -/
def traceMeasure (op duration : Int) (target : Qubit) : Tracing ResultHandle :=
  onTracer (Tracer.InPlace.measureSingle op duration target)

/-- Traces the joint measurement of the qubits of an array. -/
def traceJointMeasure (op duration : Int) (targets : Nat) : Tracing ResultHandle := do
  let ts ← traced (qubits targets)
  onTracer (Tracer.InPlace.measureMulti op duration ts)

end Machine

end QuantumRuntime
