import QuantumRuntime.Handle

/-!
# Gates

The intrinsic gates a program can ask a backend to apply: the fixed single-qubit gates and the
adjoints of `S` and `T`, rotations about a Pauli axis, and exponentials of Pauli products. Each
comes plain or controlled by a list of qubits; an empty control list is still the controlled
gate, which a backend may record as such.
-/

namespace QuantumRuntime

/-- The single-qubit gates without a parameter. -/
inductive FixedGate
  | x
  | y
  | z
  | h
  | s
  | t
  | sAdj
  | tAdj
deriving DecidableEq, Repr, Inhabited

namespace FixedGate

/-- The name of a fixed gate: `x`, `y`, `z`, `h`, `s`, `t`, `s_adj` or `t_adj`. -/
def name : FixedGate → String
  | x => "x"
  | y => "y"
  | z => "z"
  | h => "h"
  | s => "s"
  | t => "t"
  | sAdj => "s_adj"
  | tAdj => "t_adj"

/-- Every fixed gate. -/
def all : List FixedGate := [x, y, z, h, s, t, sAdj, tAdj]

/-- The fixed gate of a name. -/
def ofName? (n : String) : Option FixedGate := all.find? fun g => g.name = n

theorem ofName?_name (g : FixedGate) : ofName? g.name = some g := by
  cases g <;> rfl

end FixedGate

/-- A gate application. `controls` is `none` for the plain gate. -/
inductive Gate
  | fixed (g : FixedGate) (controls : Option (List Qubit)) (target : Qubit)
  | rotation (controls : Option (List Qubit)) (axis : Pauli) (target : Qubit) (theta : Float)
  | exp (controls : Option (List Qubit)) (paulis : List Pauli) (targets : List Qubit) (theta : Float)
deriving Repr, Inhabited

namespace Gate

/-- The control qubits of a gate; none for a plain gate. -/
def controls : Gate → List Qubit
  | fixed _ c _ => c.getD []
  | rotation c _ _ _ => c.getD []
  | exp c _ _ _ => c.getD []

/-- The target qubits of a gate. -/
def targets : Gate → List Qubit
  | fixed _ _ q => [q]
  | rotation _ _ q _ => [q]
  | exp _ _ qs _ => qs

/-- Whether the gate is a controlled variant. -/
def isControlled : Gate → Bool
  | fixed _ c _ => c.isSome
  | rotation c _ _ _ => c.isSome
  | exp c _ _ _ => c.isSome

end Gate

end QuantumRuntime
