import QuantumRuntime.Backend.Gate
import QuantumRuntime.Backend.Error

/-!
# The recording backend

A backend that hands out qubits `0, 1, 2, …`, keeps a log of every gate and measurement it is
asked for, and reads results by their parity: result `1000` is still pending, even results read
as zero and odd ones as one. Its measurements give results `2, 3, 4, …`, and its diagnostics
remember the last probability asked about and answer with a fixed verdict.
-/

namespace QuantumRuntime

/-- An entry of the recording backend's log. -/
inductive RecordedOp
  | gate (g : Gate)
  | measure (bases : List Pauli) (targets : List Qubit)
deriving Repr, Inhabited

/-- The state of the recording backend. -/
structure Recorder where
  nextQubit : Nat := 0
  nextResult : Nat := 2
  live : List Qubit := []
  releasedQubits : List Qubit := []
  releasedResults : List ResultHandle := []
  log : List RecordedOp := []
  probabilityOfZero : Option Float := none
  probabilityHolds : Bool := true
deriving Repr, Inhabited

namespace Recorder

/-- The result that is still pending. -/
def pendingResult : ResultHandle := ⟨1000⟩

/-- Issues the next qubit. -/
def allocate (r : Recorder) : Qubit × Recorder :=
  (⟨r.nextQubit⟩, { r with nextQubit := r.nextQubit + 1, live := r.live ++ [⟨r.nextQubit⟩] })

/-- Takes back a live qubit. -/
def release (r : Recorder) (q : Qubit) : Except BackendError Recorder :=
  if r.live.contains q then
    .ok { r with live := r.live.erase q, releasedQubits := r.releasedQubits ++ [q] }
  else .error (.unknownQubit q)

/-- The recorder's description of a qubit. -/
def qubitText (q : Qubit) : String := "qubit " ++ toString q.index

/-- What a result reads as. -/
def outcome (res : ResultHandle) : Outcome :=
  if res = pendingResult then .pending
  else if res.raw % 2 = 0 then .zero
  else .one

/-- Logs a gate. -/
def apply (r : Recorder) (g : Gate) : Recorder := { r with log := r.log ++ [.gate g] }

/-- Logs a measurement and gives the next result. -/
def measure (r : Recorder) (bases : List Pauli) (targets : List Qubit) : ResultHandle × Recorder :=
  (⟨r.nextResult⟩,
    { r with log := r.log ++ [.measure bases targets], nextResult := r.nextResult + 1 })

/-- Remembers the probability asked about and answers with the fixed verdict. -/
def assertProbability (r : Recorder) (probabilityOfZero : Float) : Bool × Recorder :=
  (r.probabilityHolds, { r with probabilityOfZero := some probabilityOfZero })

/-- The name under which the recorder logs a gate. -/
def gateName : Gate → String
  | .fixed g c _ =>
    let base := match g with
      | .x => "x" | .y => "y" | .z => "z" | .h => "h" | .s => "s" | .t => "t"
      | .sAdj => "sdg" | .tAdj => "tdg"
    if c.isSome then "c" ++ base else base
  | .rotation c _ _ _ => if c.isSome then "cr" else "r"
  | .exp c _ _ _ => if c.isSome then "cexp" else "exp"

end Recorder

end QuantumRuntime
