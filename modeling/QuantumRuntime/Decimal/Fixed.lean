import QuantumRuntime.Decimal.Binary

/-!
# Fixed-point text of a double

A double is written with a fixed number of fractional digits, computed exactly from its bits:
the value is scaled by a power of ten and rounded to the nearest whole number, a tie going to the
even neighbour. Trailing zeros of the fraction are then dropped, but one fractional digit always
stays. The sign is written whenever the sign bit is set, so negative zero and negative values
that round to zero keep their minus. NaN and the infinities have texts of their own.

`FixedFormat.numbers` is the format the runtime uses when it turns a double into a string:
seventeen places.
-/

namespace QuantumRuntime

/-- Divides `num` by `den` and rounds to the nearest whole number; a tie goes to the even one. -/
def roundHalfEven (num den : Nat) : Nat :=
  let q := num / den
  let r := num % den
  if den < 2 * r then q + 1
  else if 2 * r = den ∧ q % 2 = 1 then q + 1
  else q

/-- `m * 2 ^ e * 10 ^ places`, rounded half to even. -/
def scaledRound (m : Nat) (e : Int) (places : Nat) : Nat :=
  if 0 ≤ e then m * Nat.pow 2 e.toNat * Nat.pow 10 places
  else roundHalfEven (m * Nat.pow 10 places) (Nat.pow 2 (-e).toNat)

/-- The decimal digits of a natural number, most significant first. -/
def decimalDigits (n : Nat) : List Char := (toString n).toList

/-- Splits the digits of `scaled / 10 ^ places` into a whole part and exactly `places`
fractional digits, padding with leading zeros so that the whole part has at least one digit. -/
def splitPlaces (scaled places : Nat) : List Char × List Char :=
  let digits := decimalDigits scaled
  let padded := List.replicate (places + 1 - digits.length) '0' ++ digits
  (padded.take (padded.length - places), padded.drop (padded.length - places))

/-- Drops trailing zeros of a fraction but keeps at least one digit. -/
def trimFraction (frac : List Char) : List Char :=
  match (frac.reverse.dropWhile (· = '0')).reverse with
  | [] => ['0']
  | kept => kept

/-- The decisions of a fixed-point format: how many places, and the texts of the values that
have no digits. -/
structure FixedFormat where
  places : Nat
  nanText : String
  infinityText : String

namespace FixedFormat

/-- Doubles turned into strings by the runtime: seventeen places, `NaN`, `inf` and `-inf`. -/
def numbers : FixedFormat := ⟨17, "NaN", "inf"⟩

/-- The text of a double in this format. -/
def render (f : FixedFormat) (x : Float) : String :=
  match Binary64.ofFloat x with
  | .nan => f.nanText
  | .infinite negative => (if negative then "-" else "") ++ f.infinityText
  | .finite negative m e =>
    let (whole, frac) := splitPlaces (scaledRound m e f.places) f.places
    String.ofList ((if negative then ['-'] else []) ++ whole ++ '.' :: trimFraction frac)

end FixedFormat

end QuantumRuntime
