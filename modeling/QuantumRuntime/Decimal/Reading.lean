/-!
# Reading decimal numerals into doubles

Numbers reach the runtime as decimal numerals, and a numeral is read the fast way: its digits are
gathered into a 64-bit significand, the position of the decimal point and the written exponent
into a power of ten, and the double is then the significand, rounded once to a double, multiplied
or divided once by the double nearest to that power of ten. This is exact whenever the significand
has at most fifteen digits and the power is at most `10^22`; otherwise the result can differ from
the nearest double by one unit in the last place.

Digits beyond what a 64-bit significand holds are not gathered: before the point each one raises
the power of ten by one, after the point it is dropped. The written exponent saturates at the
bounds of a signed 32-bit integer, and an exponent too long for one makes the numeral zero when the
significand is zero or the exponent is negative, and out of range otherwise. A power beyond
`10^308` is applied in steps of `10^308`; a product that overflows to infinity is out of range.
-/

namespace QuantumRuntime

namespace Numeral

/-- The largest 64-bit word, the bound on a gathered significand. -/
def significandLimit : Nat := 18446744073709551615

/-- The largest signed 32-bit integer, the bound on a written exponent. -/
def exponentLimit : Nat := 2147483647

/-- The double nearest to `10 ^ k`. -/
def powerOfTen (k : Nat) : Float := Float.ofScientific 1 false k

/-- Whether appending `digit` to `value` would pass `limit`. -/
def wouldOverflow (value digit limit : Nat) : Bool := limit < value * 10 + digit

/-- The value of a decimal digit character. -/
def digitValue (c : Char) : Nat := c.toNat - '0'.toNat

/-- Scales a significand by `10 ^ exponent` with double arithmetic, in steps of `10^308` for a
power that the table does not hold; `none` when the product is out of range. `steps` bounds the
number of steps and is always enough when it is at least `|exponent| / 308 + 1`. -/
def scale (f : Float) (exponent : Int) : Nat → Option Float
  | 0 => none
  | steps + 1 =>
    if exponent.natAbs ≤ 308 then
      if 0 ≤ exponent then
        let g := f * powerOfTen exponent.natAbs
        if g.isInf then none else some g
      else some (f / powerOfTen exponent.natAbs)
    else if f == 0 then some f
    else if 0 ≤ exponent then none
    else scale (f / powerOfTen 308) (exponent + 308) steps

/-- The double of a significand and a power of ten. -/
def compose (negative : Bool) (significand : Nat) (exponent : Int) : Option Float :=
  let magnitude := scale (Float.ofNat significand) exponent (exponent.natAbs / 308 + 1)
  magnitude.map fun f => if negative then -f else f

/-- Gathers digits into a significand while it stays a word. Gives the significand, how many
digits were gathered, and the digits that were left over. -/
def gather (significand : Nat) : List Char → Nat × Nat × List Char
  | [] => (significand, 0, [])
  | c :: rest =>
    if c.isDigit then
      if wouldOverflow significand (digitValue c) significandLimit then (significand, 0, c :: rest)
      else
        let (s, n, left) := gather (significand * 10 + digitValue c) rest
        (s, n + 1, left)
    else (significand, 0, c :: rest)

/-- The written exponent after `e` or `E`: its sign and digits, saturating in 32 bits. Gives
`none` when the exponent does not fit in 32 bits and the value is out of range, and `some none`
when it does not fit but the numeral is zero. -/
def writtenExponent (nonzero : Bool) (start : Int) (cs : List Char) : Option (Option Int) :=
  let (positive, digits) := match cs with
    | '+' :: rest => (true, rest)
    | '-' :: rest => (false, rest)
    | rest => (true, rest)
  let (value, _, left) := gather 0 digits
  if exponentLimit < value || (left.head?.map Char.isDigit).getD false then
    if nonzero && positive then none else some none
  else
    let total := if positive then start + value else start - value
    some (some (max (-(exponentLimit : Int) - 1) (min (exponentLimit : Int) total)))

/-- Reads a numeral in the number grammar of JSON (an optional minus, digits, an optional
fraction, an optional exponent) into a double. `none` means out of range or not a numeral. -/
def toFloat? (text : String) : Option Float :=
  let (negative, cs) := match text.toList with
    | '-' :: rest => (true, rest)
    | cs => (false, cs)
  -- the whole part: gathered digits, then digits that only raise the power
  let (s₁, _, afterWhole) := gather 0 cs
  let extra := (afterWhole.takeWhile Char.isDigit).length
  let rest₁ := afterWhole.dropWhile Char.isDigit
  -- the fraction: gathered digits lower the power, the others are dropped
  let (s₂, fracDigits, rest₂) := match rest₁ with
    | '.' :: frac =>
      let (s, n, left) := gather s₁ frac
      (s, n, left.dropWhile Char.isDigit)
    | other => (s₁, 0, other)
  let exponent : Int := (extra : Int) - fracDigits
  match rest₂ with
  | [] => compose negative s₂ exponent
  | c :: written =>
    if c = 'e' ∨ c = 'E' then
      match writtenExponent (s₂ != 0) exponent written with
      | none => none
      | some none => some (if negative then -0.0 else 0.0)
      | some (some e) => compose negative s₂ e
    else none

end Numeral

end QuantumRuntime
