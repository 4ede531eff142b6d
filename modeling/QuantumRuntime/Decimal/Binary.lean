/-!
# Binary64 values taken apart

A double is a sign, an eleven-bit biased exponent and a 52-bit fraction. A finite double is
`± mantissa * 2 ^ exponent` for whole numbers, and that value also has an exact decimal form
`± digits * 10 ^ exponent10`, since `2 ^ -k = 5 ^ k * 10 ^ -k`. Everything here works on the
bit pattern with exact natural-number arithmetic.
-/

namespace QuantumRuntime

/-- A double, classified by its bit pattern. A finite value is `± mantissa * 2 ^ exponent`. -/
inductive Binary64
  | finite (negative : Bool) (mantissa : Nat) (exponent : Int)
  | infinite (negative : Bool)
  | nan
deriving DecidableEq, Repr, Inhabited

namespace Binary64

/-- Takes apart the 64-bit pattern of a double. Subnormals have exponent `-1074` and no hidden
bit; normal values carry the hidden bit `2 ^ 52`. -/
def ofBits (bits : Nat) : Binary64 :=
  let negative := decide (Nat.pow 2 63 ≤ bits % Nat.pow 2 64)
  let biased : Nat := bits / Nat.pow 2 52 % Nat.pow 2 11
  let fraction : Nat := bits % Nat.pow 2 52
  if biased = 2047 then
    if fraction = 0 then .infinite negative else .nan
  else if biased = 0 then .finite negative fraction (-1074)
  else .finite negative (fraction + Nat.pow 2 52) ((biased : Int) - 1075)

/-- The parts of a double. -/
def ofFloat (x : Float) : Binary64 := ofBits x.toBits.toNat

/-- The exact decimal form `(negative, digits, exponent10)` of a finite value `± m * 2 ^ e`:
whole powers of two stay in the digits, and `2 ^ -k` becomes `5 ^ k * 10 ^ -k`. -/
def exactDecimal (negative : Bool) (mantissa : Nat) (exponent : Int) : Bool × Nat × Int :=
  if 0 ≤ exponent then (negative, mantissa * Nat.pow 2 exponent.toNat, 0)
  else (negative, mantissa * Nat.pow 5 (-exponent).toNat, exponent)

end Binary64

end QuantumRuntime
