/-!
# Object keys

Every object of a running program has a kind and an id, shown as `array#3`. Keys are ordered by
kind (arrays, tuples, callables, strings, then results) and then by id; reports of live objects
list keys in this order.
-/

namespace QuantumRuntime

/-- The kinds of objects a program holds. -/
inductive ObjectKind
  | array
  | tuple
  | callable
  | string
  | result
deriving DecidableEq, Repr, Inhabited

namespace ObjectKind

/-- The position of a kind in the order of keys. -/
def rank : ObjectKind → Nat
  | array => 0
  | tuple => 1
  | callable => 2
  | string => 3
  | result => 4

/-- The name of a kind. -/
def name : ObjectKind → String
  | array => "array"
  | tuple => "tuple"
  | callable => "callable"
  | string => "string"
  | result => "result"

theorem rank_injective {a b : ObjectKind} (h : a.rank = b.rank) : a = b := by
  cases a <;> cases b <;> simp_all [rank]

end ObjectKind

/-- The key of an object: its kind and id. -/
structure ObjectKey where
  kind : ObjectKind
  id : Nat
deriving DecidableEq, Repr, Inhabited

namespace ObjectKey

/-- The text of a key, `kind#id`. -/
def text (k : ObjectKey) : String := k.kind.name ++ "#" ++ toString k.id

/-- Whether `a` comes before `b`: by kind, then by id. -/
def before (a b : ObjectKey) : Bool :=
  decide (a.kind.rank < b.kind.rank) || (decide (a.kind.rank = b.kind.rank) && decide (a.id < b.id))

/-- Sorts keys in the order of reports. -/
def sort (keys : List ObjectKey) : List ObjectKey :=
  keys.mergeSort fun a b => !(before b a)

end ObjectKey

end QuantumRuntime
