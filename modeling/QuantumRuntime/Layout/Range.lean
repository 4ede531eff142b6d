/-!
# Ranges and the positions they select

A program slices an array with a range `start..step..stop`: the arithmetic sequence that starts
at `start`, moves by `step` and stays between `start` and `stop`, both ends included. All three
are signed 64-bit integers, and so is every intermediate value the check computes: a value that
leaves that width makes the range out of bounds rather than wrapping.

`Range.select r bound` checks a range against a dimension of size `bound` and gives a
`Selection`: first position, step, the position one step past the last, and the number of
positions. An empty sequence gives the canonical empty selection `0..1..0`, and a single position
is written with step one.
-/

namespace QuantumRuntime

/-- The least signed 64-bit integer. -/
def int64Min : Int := -9223372036854775808

/-- The greatest signed 64-bit integer. -/
def int64Max : Int := 9223372036854775807

/-- Whether an integer fits in a signed 64-bit word. -/
def fitsInt64 (x : Int) : Bool := decide (int64Min ≤ x) && decide (x ≤ int64Max)

/-- A range as a program writes it. -/
structure Range where
  start : Int
  step : Int
  stop : Int
deriving DecidableEq, Repr, Inhabited

namespace Range

/-- The text of a range: `start..stop` for step one, `start..step..stop` otherwise. -/
def text (r : Range) : String :=
  if r.step = 1 then s!"{r.start}..{r.stop}" else s!"{r.start}..{r.step}..{r.stop}"

/-- Whether the sequence of a range has no element: the step points away from `stop`. -/
def IsBackwards (r : Range) : Prop :=
  (0 < r.step ∧ r.stop < r.start) ∨ (r.step < 0 ∧ r.start < r.stop)

instance (r : Range) : Decidable r.IsBackwards := by
  unfold IsBackwards; infer_instance

end Range

/-- The positions a range selects in one dimension. `stop` is one step past the last position. -/
structure Selection where
  start : Int
  step : Int
  stop : Int
  width : Nat
deriving DecidableEq, Repr, Inhabited

namespace Selection

/-- The selection of no position. -/
def empty : Selection := ⟨0, 1, 0, 0⟩

/-- Whether no position is selected. -/
def isEmpty (s : Selection) : Bool := s.width == 0

/-- The selected positions, in order. -/
def indices (s : Selection) : List Int :=
  (List.range s.width).map fun (i : Nat) => s.start + (i : Int) * s.step

@[simp] theorem length_indices (s : Selection) : s.indices.length = s.width := by
  simp [indices]

end Selection

/-- Why a range cannot select positions in a dimension. -/
inductive RangeError
  | zeroStep (r : Range)
  | outOfBounds (r : Range) (bound : Int)
deriving DecidableEq, Repr

namespace RangeError

/-- The message of a range error. -/
def message : RangeError → String
  | zeroStep r => s!"Invalid range {r.text}: the step must be nonzero"
  | outOfBounds r bound => s!"Range {r.text} is out of bounds for a dimension of size {bound}"

end RangeError

namespace Range

/-- The number of steps from `start` towards `stop`, both ends included, before the sign of the
step is divided out: `stop - start + 1` going up and `stop - start - 1` going down. -/
def span (r : Range) : Int :=
  if 0 < r.step then r.stop - r.start + 1 else r.stop - r.start - 1

/-- The number of positions of a non-empty sequence: the span divided by the step, rounded away
from zero. -/
def count (r : Range) : Int :=
  r.span.tdiv r.step + (if r.span.tmod r.step ≠ 0 then 1 else 0)

/-- The last position of a non-empty sequence. -/
def last (r : Range) : Int := r.start + (r.count - 1) * r.step

/-- Checks a range against a dimension of size `bound`. A zero step is refused first; a
backwards range selects nothing; otherwise every intermediate value must fit in 64 bits and
every position must lie in `[0, bound)`. -/
def select (r : Range) (bound : Int) : Except RangeError Selection :=
  if r.step = 0 then .error (.zeroStep r)
  else if r.IsBackwards then .ok Selection.empty
  else
    let fail := RangeError.outOfBounds r bound
    if !fitsInt64 r.span then .error fail
    else if !fitsInt64 (r.span.tdiv r.step) then .error fail
    else if !(fitsInt64 ((r.count - 1) * r.step) && fitsInt64 r.last) then .error fail
    else
      let inside :=
        if 0 < r.step then decide (0 ≤ r.start) && decide (r.last < bound)
        else decide (0 ≤ r.last) && decide (r.start < bound)
      if !inside then .error fail
      else if r.count = 1 then .ok ⟨r.start, 1, r.start + 1, 1⟩
      else if !fitsInt64 (r.last + r.step) then .error fail
      else .ok ⟨r.start, r.step, r.last + r.step, r.count.toNat⟩

theorem select_zeroStep (r : Range) (bound : Int) (h : r.step = 0) :
    r.select bound = .error (.zeroStep r) := by
  simp [select, h]

end Range

end QuantumRuntime
