/-!
# Words in byte payloads

Handles of qubits, results and objects travel inside array items and tuple payloads as 8-byte
little-endian words. A word is read from the first eight bytes of a payload, when it has that
many; writing one overwrites eight bytes in place.
-/

namespace QuantumRuntime

namespace Word

/-- The width of a word in bytes. -/
def size : Nat := 8

/-- The little-endian number spelled by a list of bytes. -/
def decode : List UInt8 → Nat
  | [] => 0
  | b :: rest => b.toNat + 256 * decode rest

/-- The eight little-endian bytes of a number, modulo `2 ^ 64`. -/
def encode (n : Nat) : List UInt8 :=
  (List.range size).map fun i => UInt8.ofNat (n / Nat.pow 256 i)

/-- The word at the start of a payload, if it holds at least eight bytes. -/
def read? (bytes : List UInt8) : Option Nat :=
  if size ≤ bytes.length then some (decode (bytes.take size)) else none

theorem length_encode (n : Nat) : (encode n).length = size := by
  simp [encode]

theorem read?_eq_none_iff (bytes : List UInt8) : read? bytes = none ↔ bytes.length < size := by
  unfold read?
  by_cases h : size ≤ bytes.length
  · simp only [h, if_true, reduceCtorEq, false_iff, Nat.not_lt]
  · simp only [h, if_false, true_iff]
    omega

end Word

namespace Bytes

/-- Overwrites the bytes of `data` from `offset` on with `src`; bytes past the end of `data` are
dropped, so the length never changes. -/
def overwrite (data : List UInt8) (offset : Nat) (src : List UInt8) : List UInt8 :=
  (data.take offset ++ src ++ data.drop (offset + src.length)).take data.length

/-- A payload of `n` zero bytes. -/
def zeros (n : Nat) : List UInt8 := List.replicate n 0

theorem length_zeros (n : Nat) : (zeros n).length = n := by simp [zeros]

theorem length_overwrite (data src : List UInt8) (offset : Nat)
    (h : offset + src.length ≤ data.length) : (overwrite data offset src).length = data.length := by
  simp only [overwrite, List.length_take, List.length_append, List.length_drop]
  omega

end Bytes

end QuantumRuntime
