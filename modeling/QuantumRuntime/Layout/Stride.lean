/-!
# Element stride and buffer size

Array items are laid out at a fixed stride: the item size rounded up to a multiple of its
alignment, which is the next power of two of the item size, capped at eight. An array's buffer
holds `stride * d₀ * … * dₖ` bytes, and creating it is refused when that product, formed left to
right in 64-bit words, overflows a word or exceeds the largest signed 64-bit value.

The main statement is `le_elementStride`: the stride never cuts an item.
-/

namespace QuantumRuntime

/-- The least power of two that is at least `n`; one for zero. -/
def nextPowerOfTwo (n : Nat) : Nat :=
  if n ≤ 1 then 1 else Nat.pow 2 (Nat.log2 (n - 1) + 1)

/-- The alignment of items of `itemSize` bytes: their next power of two, at most eight. -/
def itemAlignment (itemSize : Nat) : Nat := min (nextPowerOfTwo itemSize) 8

/-- The distance between consecutive items of `itemSize` bytes in a buffer. -/
def elementStride (itemSize : Nat) : Nat :=
  let align := itemAlignment itemSize
  (itemSize + align - 1) / align * align

/-- The largest signed 64-bit value, the bound on a buffer's length. -/
def bufferLimit : Nat := 9223372036854775807

/-- The largest unsigned 64-bit value, the bound on every intermediate product. -/
def wordLimit : Nat := 18446744073709551615

/-- The buffer length of an array with the given item size and shape, or `none` when it cannot
be formed: an item size whose power of two is not a word, a partial product that overflows a
word, or a final length above `bufferLimit`. -/
def bufferLength? (itemSize : Nat) (dims : List Nat) : Option Nat :=
  if Nat.pow 2 63 < itemSize then none
  else
    let grow (len extent : Nat) : Option Nat :=
      if len * extent ≤ wordLimit then some (len * extent) else none
    match dims.foldlM grow (elementStride itemSize) with
    | some len => if len ≤ bufferLimit then some len else none
    | none => none

theorem itemAlignment_pos (itemSize : Nat) : 0 < itemAlignment itemSize := by
  unfold itemAlignment nextPowerOfTwo
  split
  · decide
  · exact Nat.lt_min.mpr ⟨Nat.two_pow_pos _, by decide⟩

/-- The stride is at least the item size, so items never overlap. -/
theorem le_elementStride (itemSize : Nat) : itemSize ≤ elementStride itemSize := by
  have h := itemAlignment_pos itemSize
  simp only [elementStride]
  generalize itemAlignment itemSize = a at h ⊢
  have h1 := Nat.mod_add_div (itemSize + a - 1) a
  have h2 := Nat.mod_lt (itemSize + a - 1) h
  rw [Nat.mul_comm]
  generalize (itemSize + a - 1) / a = q at h1 ⊢
  generalize (itemSize + a - 1) % a = r at h1 h2
  generalize a * q = p at h1 ⊢
  omega

end QuantumRuntime
