/-!
# Qubit and result handles

A backend hands out qubits and measurement results as raw 64-bit words, and the runtime never
invents one itself. A qubit is shown as `q3`. A result is shown as `r2`, except the all-ones
word, which stands for "no result" and is shown as `r<invalid>`. A Pauli operator travels as one
byte: `I = 0`, `X = 1`, `Z = 2`, `Y = 3`; every other byte is refused.

The main facts are `Pauli.ofByte?_code` (a code reads back as its operator) and
`Pauli.ofByte?_eq_none_iff` (exactly the bytes above 3 are refused).
-/

namespace QuantumRuntime

/-- The largest 64-bit word, `2^64 - 1`. -/
def wordMax : Nat := 18446744073709551615

/-- A qubit, named by the word its backend issued. -/
structure Qubit where
  index : Nat
deriving DecidableEq, Repr, Inhabited

namespace Qubit

/-- The short name of a qubit, `q` followed by its index. -/
def text (q : Qubit) : String := "q" ++ toString q.index

end Qubit

/-- A measurement result, named by the word its backend issued. -/
structure ResultHandle where
  raw : Nat
deriving DecidableEq, Repr, Inhabited

namespace ResultHandle

/-- The all-ones word, which names no result. -/
def invalid : ResultHandle := ⟨wordMax⟩

/-- Every word but the all-ones word names a result. -/
def isValid (r : ResultHandle) : Bool := r.raw != wordMax

/-- The short name of a result, `r` followed by its word, or `r<invalid>`. -/
def text (r : ResultHandle) : String :=
  if r.isValid then "r" ++ toString r.raw else "r<invalid>"

theorem isValid_invalid : invalid.isValid = false := by decide

end ResultHandle

/-- The four single-qubit Pauli operators. -/
inductive Pauli
  | i
  | x
  | z
  | y
deriving DecidableEq, Repr, Inhabited

namespace Pauli

/-- The byte that encodes an operator. -/
def code : Pauli → Nat
  | i => 0
  | x => 1
  | z => 2
  | y => 3

/-- The operator a byte encodes, if any. -/
def ofByte? : Nat → Option Pauli
  | 0 => some i
  | 1 => some x
  | 2 => some z
  | 3 => some y
  | _ => none

/-- The display name of an operator. -/
def name : Pauli → String
  | i => "PauliI"
  | x => "PauliX"
  | y => "PauliY"
  | z => "PauliZ"

theorem ofByte?_code (p : Pauli) : ofByte? p.code = some p := by
  cases p <;> rfl

theorem ofByte?_eq_none_iff (b : Nat) : ofByte? b = none ↔ 3 < b := by
  match b with
  | 0 | 1 | 2 | 3 => simp [ofByte?]
  | n + 4 => simp [ofByte?]

end Pauli

/-- What a backend observed for a measurement result. -/
inductive Outcome
  | zero
  | one
  | pending
deriving DecidableEq, Repr, Inhabited

end QuantumRuntime
