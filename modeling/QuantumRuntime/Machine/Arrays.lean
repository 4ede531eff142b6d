import QuantumRuntime.Machine.State

/-!
# Array requests

Creating an array checks the item size and the shape before anything is stored: the item size
must be positive, the shape must have a dimension, and the buffer must be addressable. Copies,
concatenations, slices and projections are new arrays that never own qubits. A copy that is not
forced is elided while the array has no aliases: the same array comes back with one more
reference.

An array made by allocating qubits owns them: releasing its last reference, or releasing it as a
qubit array, gives the qubits back to the backend.
-/

namespace QuantumRuntime

namespace Machine

/-- Checks that an array of a shape can be addressed. -/
def checkBuffer (itemSize : Nat) (dims : List Nat) : Exec Unit :=
  match bufferLength? itemSize dims with
  | some _ => pure ()
  | none => throw (.arrayTooLarge itemSize dims)

/-- Stores an array. -/
def insertArray (a : ItemArray) : Exec Nat := insert (.array a)

/-- Creates a zeroed array of a shape. -/
def arrayCreate (itemSize : Nat) (dims : List Nat) : Exec Nat := do
  if itemSize = 0 then throw (.invalidItemSize itemSize)
  if dims.isEmpty then throw (.dimensionMismatch "an array needs at least one dimension")
  checkBuffer itemSize dims
  insertArray (ItemArray.new itemSize dims)

/-- Creates a zeroed one-dimensional array. -/
def arrayCreate1d (itemSize count : Nat) : Exec Nat := arrayCreate itemSize [count]

/-- The rank of an array. -/
def arrayRank (id : Nat) : Exec Nat := do pure (← getArray id).dims.length

/-- The item size of an array. -/
def arrayItemSize (id : Nat) : Exec Nat := do pure (← getArray id).itemSize

/-- Whether an array owns its qubits. -/
def arrayOwnsQubits (id : Nat) : Exec Bool := do pure (← getArray id).ownsQubits

/-- The extent of a dimension. -/
def arraySize (id dim : Nat) : Exec Nat := do
  let a ← getArray id
  check (a.checkDim dim)
  pure (a.dims.getD dim 0)

/-- The length of a one-dimensional array. -/
def arraySize1d (id : Nat) : Exec Nat := do
  let a ← getArray id
  if a.dims.length ≠ 1 then
    throw (.dimensionMismatch s!"expected a 1-D array, got rank {a.dims.length}")
  pure a.count

/-- The raw storage of an array; none for an empty one. -/
def arrayBuffer (id : Nat) : Exec (Option (List UInt8)) := do
  let a ← getArray id
  pure (if 0 < a.count then some a.buffer else none)

/-- The item at a linear index. -/
def arrayElement (id index : Nat) : Exec (List UInt8) := do check ((← getArray id).item index)

/-- The item at a position given by one index per dimension. -/
def arrayElementNd (id : Nat) (indices : List Nat) : Exec (List UInt8) := do
  let a ← getArray id
  check (a.item (← check (a.linearIndex indices)))

/-- Overwrites the start of the item at a linear index. The item must exist. -/
def arraySetElement (id index : Nat) (bytes : List UInt8) : Exec Unit := do
  let a ← getArray id
  let _ ← check (a.item index)
  setObject id (.array (a.writeItem index bytes))

/-- Overwrites the start of the item at a position. -/
def arraySetElementNd (id : Nat) (indices : List Nat) (bytes : List UInt8) : Exec Unit := do
  let a ← getArray id
  let index ← check (a.linearIndex indices)
  let _ ← check (a.item index)
  setObject id (.array (a.writeItem index bytes))

/-- Reads a handle from the first word of the item at an index. -/
def arrayReadHandle (id index : Nat) : Exec Nat := do
  let item ← arrayElement id index
  match Word.read? item with
  | some h => pure h
  | none => throw (.itemSizeMismatch Word.size item.length)

/-- Writes a handle into the item at an index, which must be exactly one word. -/
def arrayWriteHandle (id index handle : Nat) : Exec Unit := do
  let a ← getArray id
  let item ← check (a.item index)
  if item.length ≠ Word.size then throw (.itemSizeMismatch Word.size item.length)
  setObject id (.array (a.writeItem index (Word.encode handle)))

/-- The handles of an array of words, in order. -/
def arrayHandles (id : Nat) : Exec (List Nat) := do
  let a ← getArray id
  if a.itemSize ≠ Word.size then throw (.itemSizeMismatch Word.size a.itemSize)
  pure (a.items.map Word.decode)

/-- Gives the qubits held by an array back to the backend. -/
def releaseQubitsOf (a : ItemArray) : Exec Unit :=
  (a.items.map Word.decode).forM fun q => onBackend fun b => (b.releaseQubit ⟨q⟩).map ((), ·)

/-- Changes the reference count of an array; destroying an array that owns qubits releases
them. -/
def arrayUpdateRefs (id : Option Nat) (increment : Int) : Exec Unit := do
  let some id := id | return
  match ← updateRefs ⟨.array, id⟩ increment with
  | some (.array a) => if a.ownsQubits then releaseQubitsOf a
  | _ => pure ()

/-- Changes the alias count of an array. -/
def arrayUpdateAliases (id : Option Nat) (increment : Int) : Exec Unit := do
  let some id := id | return
  updateAliases ⟨.array, id⟩ increment

/-- Copies an array, unless the copy is not forced and the array has no aliases. An array that
owns qubits cannot be copied. -/
def arrayCopy (id : Nat) (force : Bool) : Exec Nat := do
  let a ← getArray id
  if !force && a.counts.aliases = 0 then
    arrayUpdateRefs (some id) 1
    return id
  if a.ownsQubits then throw (.ownsQubits ⟨.array, id⟩)
  insertArray a.copy

/-- A new array with the items of one one-dimensional array followed by those of another. -/
def arrayConcat (head tail : Nat) : Exec Nat := do
  let first ← getArray head
  let second ← getArray tail
  if first.dims.length ≠ 1 || second.dims.length ≠ 1 then
    throw (.dimensionMismatch "only 1-D arrays can be concatenated")
  if first.itemSize ≠ second.itemSize then
    throw (.itemSizeMismatch first.itemSize second.itemSize)
  insertArray (first.copy.append second)

/-- A new array with the positions a range selects along a dimension. -/
def arraySlice (id dim : Nat) (r : Range) : Exec Nat := do
  let a ← getArray id
  check (a.checkDim dim)
  let extent := a.dims.getD dim 0
  let s ← check ((r.select (Int.ofNat extent).toInt64.toInt).mapError .range)
  if s.step = 1 && s.start = 0 && (s.width : Int) = (extent : Int) then insertArray a.copy
  else insertArray (a.slice dim s)

/-- A new array of rank one lower: the hyperplane at a position along a dimension. -/
def arrayProject (id dim index : Nat) : Exec Nat := do
  let a ← getArray id
  if a.dims.length < 2 then throw (.dimensionMismatch "cannot project a 1-D array")
  check (a.checkDim dim)
  let extent := a.dims.getD dim 0
  if extent ≤ index then throw (.indexOutOfBounds index extent)
  insertArray (a.project dim index)

/-- Allocates qubits into a new array that owns them. -/
def qubitAllocateArray (count : Nat) : Exec Nat := do
  checkBuffer Word.size [count]
  let qubits ← (List.range count).mapM fun _ => onBackend fun b => b.allocateQubit
  insertArray { ItemArray.new Word.size [count] with
    items := qubits.map fun q => Word.encode q.index, ownsQubits := true }

/-- Releases the qubits of an owning array, which then no longer owns them, and drops one
reference to it. -/
def qubitReleaseArray (id : Nat) : Exec Unit := do
  let a ← getArray id
  if !a.ownsQubits then throw (.notQubitOwner ⟨.array, id⟩)
  setObject id (.array { a with ownsQubits := false })
  releaseQubitsOf a
  arrayUpdateRefs (some id) (-1)

end Machine

end QuantumRuntime
