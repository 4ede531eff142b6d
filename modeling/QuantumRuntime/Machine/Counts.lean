/-!
# Reference and alias counts

Every array, tuple and callable carries two counts. The reference count says how many owners
the object has; the object is destroyed when it drops to zero, so a live object always has a
positive count. The alias count says how many read-only views share the object; while it is
positive, a copy that is not forced must really copy instead of sharing.
-/

namespace QuantumRuntime

/-- The counts of an object: owners and read-only aliases. A new object has one owner. -/
structure Counts where
  refs : Nat := 1
  aliases : Nat := 0
deriving DecidableEq, Repr, Inhabited

end QuantumRuntime
