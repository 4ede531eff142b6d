import QuantumRuntime.Machine.Counts
import QuantumRuntime.Machine.Error
import QuantumRuntime.Layout.Stride
import QuantumRuntime.Layout.Word

/-!
# Tuples

A tuple is a zero-initialised payload of bytes whose layout the program decides. Fields that
hold handles are 8-byte words; a word field at `offset` needs the bytes `offset` to `offset + 7`.
The end `offset + 8` of the field is computed first, in a machine word, and an end past the
largest word aborts the program. When the field does not fit, the error names the first offset
that no longer has room, which is the payload length less seven (or zero).
-/

namespace QuantumRuntime

/-- A tuple object: its counts and its payload. -/
structure ByteTuple where
  counts : Counts := {}
  data : List UInt8
deriving DecidableEq, Repr, Inhabited

namespace ByteTuple

/-- The word field at an offset. -/
def field (t : ByteTuple) (offset : Nat) : Except MachineError (List UInt8) :=
  if wordLimit < offset + Word.size then .error (.panic "attempt to add with overflow")
  else if offset + Word.size ≤ t.data.length then .ok ((t.data.drop offset).take Word.size)
  else .error (.indexOutOfBounds offset (t.data.length - (Word.size - 1)))

/-- The handle stored in the word field at an offset. -/
def readWord (t : ByteTuple) (offset : Nat) : Except MachineError Nat :=
  (t.field offset).map Word.decode

/-- Stores a handle in the word field at an offset. -/
def writeWord (t : ByteTuple) (offset handle : Nat) : Except MachineError ByteTuple :=
  (t.field offset).map fun _ => { t with data := Bytes.overwrite t.data offset (Word.encode handle) }

theorem field_ok {t : ByteTuple} {offset : Nat} (hw : offset + Word.size ≤ wordLimit)
    (h : offset + Word.size ≤ t.data.length) :
    t.field offset = .ok ((t.data.drop offset).take Word.size) := by
  simp [field, h, Nat.not_lt.2 hw]

end ByteTuple

end QuantumRuntime
