/-!
# Maps and sets over integer keys

Operation counts, operation names and the set of traced operations are lists sorted by an
integer key, each key at most once. Keeping them sorted gives every report its ascending order
without a separate sort, and lookup is `List.lookup`.
-/

namespace QuantumRuntime

namespace SortedMap

/-- Sets `key ↦ value`, replacing an earlier value of the key and keeping the order. -/
def set {α : Type} (key : Int) (value : α) : List (Int × α) → List (Int × α)
  | [] => [(key, value)]
  | (k, v) :: rest =>
    if key < k then (key, value) :: (k, v) :: rest
    else if key = k then (key, value) :: rest
    else (k, v) :: set key value rest

/-- Adds one to the count of `key`, which starts at zero. -/
def bump (key : Int) : List (Int × Nat) → List (Int × Nat)
  | [] => [(key, 1)]
  | (k, n) :: rest =>
    if key < k then (key, 1) :: (k, n) :: rest
    else if key = k then (k, n + 1) :: rest
    else (k, n) :: bump key rest

/-- Adds `key` to a sorted list of distinct keys. -/
def insert (key : Int) : List Int → List Int
  | [] => [key]
  | k :: rest =>
    if key < k then key :: k :: rest
    else if key = k then k :: rest
    else k :: insert key rest

end SortedMap

end QuantumRuntime
