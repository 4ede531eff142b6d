import QuantumRuntime.Machine.Error

/-!
# The allocation tracker

With tracking on, the runtime keeps its own count of references for every object key it ever
allocated, apart from the objects themselves. It refuses to allocate over a live key, to add a
reference to a key it never saw or whose count reached zero, and to release a key that is
untracked or already at zero. At teardown every key with a positive count is a leak.
-/

namespace QuantumRuntime

/-- Tracked reference counts, by key; a count of zero marks a released object. -/
structure Tracker where
  counts : List (ObjectKey × Nat) := []
deriving DecidableEq, Repr, Inhabited

namespace Tracker

/-- The tracked count of a key. -/
def count? (t : Tracker) (k : ObjectKey) : Option Nat := t.counts.lookup k

/-- Sets the tracked count of a key. -/
def put (t : Tracker) (k : ObjectKey) (n : Nat) : Tracker :=
  if (t.counts.lookup k).isSome then
    { counts := t.counts.map fun (k', m) => if k' = k then (k', n) else (k', m) }
  else { counts := t.counts ++ [(k, n)] }

/-- Starts tracking a new object with one reference. -/
def allocate (t : Tracker) (k : ObjectKey) : Except MachineError Tracker :=
  match t.count? k with
  | some (_ + 1) => .error (.allocatedOverLive k)
  | _ => .ok (t.put k 1)

/-- Adds a reference to a tracked, live object. -/
def addRef (t : Tracker) (k : ObjectKey) : Except MachineError Tracker :=
  match t.count? k with
  | none => .error (.untracked k)
  | some 0 => .error (.resurrection k)
  | some (n + 1) => .ok (t.put k (n + 2))

/-- Drops a reference to a tracked, live object. -/
def release (t : Tracker) (k : ObjectKey) : Except MachineError Tracker :=
  match t.count? k with
  | none => .error (.untracked k)
  | some 0 => .error (.released k)
  | some (n + 1) => .ok (t.put k n)

/-- The keys with a positive count, in report order. -/
def live (t : Tracker) : List ObjectKey :=
  ObjectKey.sort ((t.counts.filter fun (_, n) => 0 < n).map (·.1))

/-- Reports every live key as a leak. -/
def checkLeaks (t : Tracker) : Except MachineError Unit :=
  match t.live with
  | [] => .ok ()
  | keys => .error (.leaks keys)

end Tracker

end QuantumRuntime
