import QuantumRuntime.Machine.Counts
import QuantumRuntime.Machine.Error
import QuantumRuntime.Layout.Stride
import QuantumRuntime.Layout.Word

/-!
# Arrays of fixed-size items

An array has an item size, a shape and its items in row-major order: the last dimension varies
fastest. In memory each item is padded with zeros up to the element stride, so the buffer of an
array is its items, each followed by its padding. Writes only ever touch the bytes of an item,
which keeps the padding zero.

Slicing selects positions along one dimension and keeps the others; projecting fixes one
position and drops the dimension. Both work on runs: the items that share one position along
the dimension are `run` consecutive items, where `run` is the product of the later extents, and
one `row` (all positions of the dimension) is `run` times its extent.
-/

namespace QuantumRuntime

/-- An array object: its counts, item size, shape and items. -/
structure ItemArray where
  counts : Counts := {}
  itemSize : Nat
  dims : List Nat
  items : List (List UInt8)
  ownsQubits : Bool := false
deriving DecidableEq, Repr, Inhabited

namespace ItemArray

/-- A zeroed array of a shape; it has as many items as the product of the extents. -/
def new (itemSize : Nat) (dims : List Nat) : ItemArray :=
  { itemSize, dims, items := List.replicate (dims.foldr (· * ·) 1) (Bytes.zeros itemSize) }

/-- The number of items. -/
def count (a : ItemArray) : Nat := a.items.length

/-- The distance between the starts of consecutive items in the buffer. -/
def stride (a : ItemArray) : Nat := elementStride a.itemSize

/-- The raw storage: every item followed by its zero padding. -/
def buffer (a : ItemArray) : List UInt8 :=
  a.items.flatMap fun item => item ++ Bytes.zeros (a.stride - a.itemSize)

/-- A copy with fresh counts; a copy never owns qubits. -/
def copy (a : ItemArray) : ItemArray := { a with counts := {}, ownsQubits := false }

/-- The item at a linear index. -/
def item (a : ItemArray) (index : Nat) : Except MachineError (List UInt8) :=
  match a.items[index]? with
  | some bytes => .ok bytes
  | none => .error (.indexOutOfBounds index a.count)

/-- Overwrites the start of the item at a linear index with some bytes. -/
def writeItem (a : ItemArray) (index : Nat) (bytes : List UInt8) : ItemArray :=
  { a with items := a.items.modify index fun old => Bytes.overwrite old 0 bytes }

/-- The row-major linear index of a position given by one index per dimension. -/
def linearIndex (a : ItemArray) (indices : List Nat) : Except MachineError Nat :=
  if indices.length ≠ a.dims.length then
    .error (.dimensionMismatch
      s!"{indices.length} indices for an array of rank {a.dims.length}")
  else
    (indices.zip a.dims).foldlM (fun linear (index, extent) =>
      if extent ≤ index then .error (.indexOutOfBounds index extent)
      else .ok (linear * extent + index)) 0

/-- Checks that a dimension exists. -/
def checkDim (a : ItemArray) (dim : Nat) : Except MachineError Unit :=
  if a.dims.length ≤ dim then .error (.dimensionOutOfBounds dim a.dims.length) else .ok ()

/-- The number of consecutive items that share one position along a dimension. -/
def run (a : ItemArray) (dim : Nat) : Nat := (a.dims.drop (dim + 1)).foldr (· * ·) 1

/-- The items of all rows, where each row contributes the runs at the given positions. -/
def gather (a : ItemArray) (dim : Nat) (positions : List Nat) : List (List UInt8) :=
  let run := a.run dim
  let row := run * a.dims.getD dim 0
  (List.range (a.count / row)).flatMap fun r =>
    positions.flatMap fun p => (a.items.drop (r * row + p * run)).take run

/-- The items of all rows, where each row contributes one chunk of `width` consecutive runs
from position `start` on. -/
def chunks (a : ItemArray) (dim start width : Nat) : List (List UInt8) :=
  let run := a.run dim
  let row := run * a.dims.getD dim 0
  (List.range (a.count / row)).flatMap fun r =>
    (a.items.drop (r * row + start * run)).take (run * width)

/-- The items a selection copies out of the rows: with a step of one the selected runs are
adjacent and each row is copied as one chunk, otherwise run by run. -/
def sliceItems (a : ItemArray) (dim : Nat) (s : Selection) : List (List UInt8) :=
  if s.step = 1 then a.chunks dim s.start.toNat s.width
  else a.gather dim (s.indices.map Int.toNat)

/-- The array of the positions a selection picks along a dimension. -/
def slice (a : ItemArray) (dim : Nat) (s : Selection) : ItemArray :=
  let dims := a.dims.set dim s.width
  let shaped := new a.itemSize dims
  if shaped.count = 0 then shaped
  else { shaped with items := a.sliceItems dim s }

/-- The array of the hyperplane at a position along a dimension, which is dropped. -/
def project (a : ItemArray) (dim index : Nat) : ItemArray :=
  let shaped := new a.itemSize (a.dims.eraseIdx dim)
  if shaped.count = 0 then shaped
  else { shaped with items := a.gather dim [index] }

/-- A one-dimensional array followed by the items of another. -/
def append (a b : ItemArray) : ItemArray :=
  { a with items := a.items ++ b.items, dims := a.dims.set 0 (a.count + b.count) }

theorem count_new (itemSize : Nat) (dims : List Nat) : (new itemSize dims).count = dims.foldr (· * ·) 1 := by
  simp [new, count]

theorem count_append (a b : ItemArray) : (a.append b).count = a.count + b.count := by
  simp [append, count]

end ItemArray

end QuantumRuntime
