import QuantumRuntime.Machine.State

/-!
# Tuple requests

Tuples are created zeroed, copied like arrays (a copy that is not forced is elided while the tuple
has no aliases), and read and written as raw bytes or as word fields holding handles.
-/

namespace QuantumRuntime

namespace Machine

/-- Stores a tuple with the given payload. -/
def insertTuple (data : List UInt8) : Exec Nat := insert (.tuple { data })

/-- Creates a zeroed tuple of a size. -/
def tupleCreate (size : Nat) : Exec Nat := insertTuple (Bytes.zeros size)

/-- Changes the reference count of a tuple. -/
def tupleUpdateRefs (id : Option Nat) (increment : Int) : Exec Unit := do
  let some id := id | return
  let _ ← updateRefs ⟨.tuple, id⟩ increment

/-- Changes the alias count of a tuple. -/
def tupleUpdateAliases (id : Option Nat) (increment : Int) : Exec Unit := do
  let some id := id | return
  updateAliases ⟨.tuple, id⟩ increment

/-- Copies a tuple, unless the copy is not forced and the tuple has no aliases. -/
def tupleCopy (id : Nat) (force : Bool) : Exec Nat := do
  let t ← getTuple id
  if !force && t.counts.aliases = 0 then
    tupleUpdateRefs (some id) 1
    return id
  insertTuple t.data

/-- The payload of a tuple. -/
def tupleData (id : Nat) : Exec (List UInt8) := do pure (← getTuple id).data

/-- The size of a tuple in bytes. -/
def tupleSize (id : Nat) : Exec Nat := do pure (← tupleData id).length

/-- The alias count of a tuple. -/
def tupleAliasCount (id : Nat) : Exec Nat := do pure (← getTuple id).counts.aliases

/-- Overwrites bytes of a tuple's payload from an offset. -/
def tupleWrite (id offset : Nat) (bytes : List UInt8) : Exec Unit := do
  let t ← getTuple id
  setObject id (.tuple { t with data := Bytes.overwrite t.data offset bytes })

/-- The handle in the word field at an offset. -/
def tupleReadHandle (id offset : Nat) : Exec Nat := do check ((← getTuple id).readWord offset)

/-- Stores a handle in the word field at an offset. -/
def tupleWriteHandle (id offset handle : Nat) : Exec Unit := do
  let t ← check ((← getTuple id).writeWord offset handle)
  setObject id (.tuple t)

end Machine

end QuantumRuntime
