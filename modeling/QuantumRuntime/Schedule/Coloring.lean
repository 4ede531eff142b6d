/-!
# Colouring intervals

Each qubit is busy over an interval of circuit depths, both ends included, and two qubits whose
intervals share a depth need different registers. The number of registers is the largest number
of intervals open at once, found by a sweep over the start points in increasing order: at each
distinct start point, the intervals that ended before it are closed and those that start at it
are opened.

`minColoringSize` is the sweep. `openAt` counts, declaratively, what the sweep has open at a start
point: the intervals that started earlier and have not ended before it, and those that start there.
An interval whose end lies before its start is opened at its start and closed at the next point.
-/

namespace QuantumRuntime

/-- A closed interval of depths. -/
structure Interval where
  start : Nat
  stop : Nat
deriving DecidableEq, Repr, Inhabited

namespace Interval

/-- Sorts intervals by start point, keeping the given order among equal starts. -/
def sortByStart (xs : List Interval) : List Interval :=
  xs.mergeSort fun a b => decide (a.start ≤ b.start)

/-- The sweep over intervals sorted by start: `point` is the start point being opened, `ends`
the ends of the intervals still open, `best` the most intervals open so far. -/
def sweep : List Interval → Option Nat → List Nat → Nat → Nat
  | [], _, _, best => best
  | i :: rest, point, ends, best =>
    let ends := if point = some i.start then ends else ends.filter (fun e => i.start ≤ e)
    let ends := i.stop :: ends
    sweep rest (some i.start) ends (max best ends.length)

/-- What the sweep holds open at the start point `p`: intervals that started before `p` and end at
or after it, and every interval that starts at `p`. -/
def openAt (xs : List Interval) (p : Nat) : Nat :=
  (xs.filter fun i => decide (i.start < p ∧ p ≤ i.stop)).length +
    (xs.filter fun i => i.start = p).length

end Interval

/-- The number of registers the intervals need: the most intervals open at once in the sweep,
zero for no interval. -/
def minColoringSize (xs : List Interval) : Nat :=
  Interval.sweep (Interval.sortByStart xs) none [] 0

end QuantumRuntime
