import QuantumRuntime.Machine.Arrays
import QuantumRuntime.Machine.Messages
import QuantumRuntime.Machine.Results

/-!
# Gate intrinsics

Programs apply gates through arrays: control and target registers are arrays of qubit handles,
and Pauli bases are arrays of one-byte codes. The arrays are decoded first and the backend is
asked afterwards, so a malformed array is reported even by a backend without gates. The adjoint
of a rotation or an exponential is the same gate with the angle negated.

Asserting a measurement probability turns the expected probability of `result` into a
probability of zero (flipping it when `result` is the zero result) and asks the backend's
diagnostics; a refusal fails the program with the given message.
-/

namespace QuantumRuntime

namespace Machine

/-- The Paulis of an array of one-byte codes. -/
def paulis (id : Nat) : Exec (List Pauli) := do
  let a ← getArray id
  if a.itemSize ≠ 1 then throw (.itemSizeMismatch 1 a.itemSize)
  match ← arrayBuffer id with
  | some bytes =>
    match bytes.mapM fun b => Pauli.ofByte b.toNat with
    | .ok ps => pure ps
    | .error e => throw (.backend e)
  | none => pure []

/-- The qubits of an array of handles. -/
def qubits (id : Nat) : Exec (List Qubit) := do
  pure ((← arrayHandles id).map Qubit.mk)

/-- The bases and targets of a measurement-like request, which must pair up. -/
def basesAndTargets (bases targets : Nat) : Exec (List Pauli × List Qubit) := do
  let ps ← paulis bases
  let qs ← qubits targets
  if ps.length ≠ qs.length then
    throw (.dimensionMismatch s!"{ps.length} bases for {qs.length} qubits")
  pure (ps, qs)

/-- The control qubits of a request, if it is controlled. -/
def controlsOf : Option Nat → Exec (Option (List Qubit))
  | some id => some <$> qubits id
  | none => pure none

/-- The name of the intrinsic that applies a fixed gate: the gate's name, and for the controlled
form `_ctl` inserted before any `_adj`, as in `x_ctl` and `s_ctl_adj`. -/
def fixedIntrinsic (g : FixedGate) (controlled : Bool) : String :=
  if !controlled then g.name
  else match g with
    | .sAdj => "s_ctl_adj"
    | .tAdj => "t_ctl_adj"
    | g => g.name ++ "_ctl"

/-- The fixed gate an intrinsic name applies, and whether it is the controlled form. -/
def fixedIntrinsic? (n : String) : Option (FixedGate × Bool) :=
  (FixedGate.all.flatMap fun g => [(g, false), (g, true)]).find? fun (g, c) => fixedIntrinsic g c = n

/-- Hands a gate to the backend. -/
def applyGate (g : Gate) : Exec Unit := onBackend fun b => (b.applyGate g).map ((), ·)

/-- Applies a fixed single-qubit gate, controlled by the qubits of an array if one is given. -/
def applyFixed (g : FixedGate) (controls : Option Nat) (q : Qubit) : Exec Unit := do
  let cs ← controlsOf controls
  applyGate (.fixed g cs q)

/-- Applies a rotation about a Pauli axis, or its adjoint. -/
def applyRotation (adjoint : Bool) (controls : Option Nat) (axis : Pauli) (theta : Float)
    (q : Qubit) : Exec Unit := do
  let cs ← controlsOf controls
  applyGate (.rotation cs axis q (if adjoint then -theta else theta))

/-- Applies the exponential of a Pauli product, or its adjoint. -/
def applyExp (adjoint : Bool) (controls : Option Nat) (bases : Nat) (theta : Float)
    (targets : Nat) : Exec Unit := do
  let cs ← controlsOf controls
  let (ps, qs) ← basesAndTargets bases targets
  applyGate (.exp cs ps qs (if adjoint then -theta else theta))

/-- Measures qubits in Pauli bases. -/
def measure (bases targets : Nat) : Exec ResultHandle := do
  let (ps, qs) ← basesAndTargets bases targets
  onBackend fun b => b.measure ps qs

/-- Asks the backend to confirm the probability of `result`; fails with the message otherwise. -/
def assertProbability (bases targets : Nat) (result : ResultHandle) (probability : Float)
    (message : Nat) : Exec Unit := do
  let _ ← basesAndTargets bases targets
  let zero := (← get).resultZero
  let p := if ← resultEqual result zero then 1.0 - probability else probability
  if !(← onBackend fun b => b.assertProbability p) then failWith message

end Machine

end QuantumRuntime
