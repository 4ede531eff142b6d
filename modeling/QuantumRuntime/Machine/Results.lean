import QuantumRuntime.Machine.State

/-!
# Qubits and results

Qubits pass straight through to the backend. Results are issued by the backend but counted
here: a result the program never shared has one reference and no entry, so only counts other
than one are stored. A result whose count drops to zero is handed back to the backend.
-/

namespace QuantumRuntime

namespace Machine

/-- Asks the backend for a qubit. -/
def qubitAllocate : Exec Qubit := onBackend fun b => b.allocateQubit

/-- Gives a qubit back to the backend. -/
def qubitRelease (q : Qubit) : Exec Unit := onBackend fun b => (b.releaseQubit q).map ((), ·)

/-- The backend's zero result. -/
def resultZero (m : Machine) : ResultHandle := m.backend.zero

/-- The backend's one result. -/
def resultOne (m : Machine) : ResultHandle := m.backend.one

/-- Whether two results are equal: the same handle is, otherwise the backend compares. -/
def resultEqual (r1 r2 : ResultHandle) : Exec Bool :=
  if r1 = r2 then pure true else queryBackend fun b => b.resultsEqual r1 r2

/-- The reference count of a result. -/
def resultCount (m : Machine) (r : ResultHandle) : Nat := (m.results.lookup r).getD 1

/-- Changes the reference count of a result; at zero the backend releases it. -/
def updateResultRefs (r : ResultHandle) (increment : Int) : Exec Unit := do
  if increment = 0 then return
  let refs := ((← get).resultCount r : Int) + increment
  if refs < 0 then throw (.negativeRefCount ⟨.result, r.raw⟩ refs)
  let others := (← get).results.filter fun (h, _) => h ≠ r
  if refs = 0 then
    modify fun m => { m with results := others }
    onBackend fun b => (b.releaseResult r).map ((), ·)
  else if refs = 1 then
    modify fun m => { m with results := others }
  else
    modify fun m => { m with results := others ++ [(r, refs.toNat)] }

end Machine

end QuantumRuntime
