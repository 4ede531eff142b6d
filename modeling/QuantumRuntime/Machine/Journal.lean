import QuantumRuntime.Callable.Routine
import QuantumRuntime.Handle

/-!
# The journal of routines and hooks

Routines and capture hooks leave a record of every run, so that a caller can see which code ran
with which objects. A routine records its name, its capture, argument and result tuples and the
bytes of its argument tuple; the `controls` routine adds the control qubits it found; a hook
records its name, the capture and the count it was given.
-/

namespace QuantumRuntime

/-- One record of the journal. -/
inductive Record
  | entry (routine : Routine) (capture args result : Option Nat) (argsData : Option (List UInt8))
  | controls (qubits : List Qubit) (array : Nat) (target : Option Nat)
  | hook (h : Hook) (capture : Option Nat) (count : Int)
deriving DecidableEq, Repr, Inhabited

end QuantumRuntime
