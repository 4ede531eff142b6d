/-!
# The qubit interference graph

To estimate how many registers a circuit needs, every recorded operation keeps, for each qubit
it depends on, the set of qubits that must stay live together with it: the operation's own qubits,
everything its recorded predecessors kept, and, for a qubit of a predecessor that the operation
does not touch, the operation's qubits as well. Two qubits interfere when one belongs to an
operation and the other to what the operation keeps for one of its qubits.

A register count `k` fits when the `k`-core of the interference graph is empty: deleting, again
and again, every qubit with fewer than `k` remaining neighbours deletes every qubit. The width
estimate is the least count, at least the largest arity of an operation, that fits; it is found
by bisection between the arity and one more than the largest degree, which always fits.
-/

namespace QuantumRuntime

namespace QubitSet

/-- Adds a qubit to a sorted list of distinct qubits. -/
def insert (q : Nat) : List Nat → List Nat
  | [] => [q]
  | p :: rest => if q < p then q :: p :: rest else if q = p then p :: rest else p :: insert q rest

/-- The union of two sorted lists of distinct qubits. -/
def union (a b : List Nat) : List Nat := b.foldl (fun s q => insert q s) a

/-- The distinct qubits of a list, sorted. -/
def ofList (qs : List Nat) : List Nat := union [] qs

end QubitSet

/-- The interference graph with the qubit sets of every recorded operation. `operations` maps an
operation id to the sets it keeps, qubit by qubit; `edges` holds each interfering pair once, the
smaller qubit first. -/
structure Interference where
  operations : List (Nat × List (Nat × List Nat)) := []
  edges : List (Nat × Nat) := []
  maxArity : Nat := 0
deriving DecidableEq, Repr, Inhabited

namespace Interference

/-- Adds `qs` to the set kept for qubit `q`. -/
def extendSet (sets : List (Nat × List Nat)) (q : Nat) (qs : List Nat) : List (Nat × List Nat) :=
  match sets.lookup q with
  | some s => sets.map fun (p, t) => if p = q then (p, QubitSet.union s qs) else (p, t)
  | none => sets ++ [(q, QubitSet.ofList qs)]

/-- Adds an undirected edge between two distinct qubits. -/
def addEdge (edges : List (Nat × Nat)) (a b : Nat) : List (Nat × Nat) :=
  let e := (min a b, max a b)
  if edges.contains e then edges else edges ++ [e]

/-- Records an operation on `qubits` that depends on the operations `dependsOn`. -/
def addOperation (g : Interference) (op : Nat) (dependsOn qubits : List Nat) : Interference :=
  let qs := QubitSet.ofList qubits
  let sets := qs.foldl (fun sets q => extendSet sets q qs) []
  let sets := dependsOn.foldl (fun sets earlier =>
    match g.operations.lookup earlier with
    | some earlierSets => earlierSets.foldl (fun sets (q, deps) => extendSet sets q deps) sets
    | none => sets) sets
  let sets := sets.map fun (q, deps) => if qs.contains q then (q, deps) else (q, QubitSet.union deps qs)
  let interfering := qs.foldl (fun acc q => QubitSet.union acc ((sets.lookup q).getD [])) []
  let edges := qs.foldl (fun edges q =>
    interfering.foldl (fun edges o => if q = o then edges else addEdge edges q o) edges) g.edges
  { operations := (g.operations.filter (·.1 != op)) ++ [(op, sets)]
    edges
    maxArity := max g.maxArity qs.length }

/-- The qubits kept for `qubit` by operation `op`, sorted, if the operation keeps any. -/
def dependents (g : Interference) (op qubit : Nat) : Option (List Nat) :=
  (g.operations.lookup op).bind fun sets => sets.lookup qubit

/-- Whether two qubits interfere. -/
def interfere (g : Interference) (a b : Nat) : Bool := g.edges.contains (min a b, max a b)

/-- The neighbours of a qubit. -/
def degree (g : Interference) (q : Nat) : Nat :=
  (g.edges.filter fun (a, b) => a = q ∨ b = q).length

/-- The qubits that have a neighbour. -/
def nodes (g : Interference) : List Nat :=
  g.edges.foldl (fun s (a, b) => QubitSet.insert b (QubitSet.insert a s)) []

/-- The largest degree, zero for a graph without edges. -/
def maxDegree (g : Interference) : Nat :=
  g.nodes.foldl (fun m q => max m (g.degree q)) 0

/-- Deletes, round after round, every qubit with fewer than `k` remaining neighbours; gives the
qubits that remain. Each round that changes something deletes a qubit, so `rounds` at least the
number of qubits reaches the end. -/
def core (k : Nat) : Nat → List Nat → List (Nat × Nat) → List Nat
  | 0, nodes, _ => nodes
  | rounds + 1, nodes, edges =>
    let degreeIn (q : Nat) := (edges.filter fun (a, b) => a = q ∨ b = q).length
    let keep := nodes.filter fun q => k ≤ degreeIn q
    if keep.length = nodes.length then nodes
    else core k rounds keep (edges.filter fun (a, b) => keep.contains a ∧ keep.contains b)

/-- Whether `k` registers fit: the `k`-core of the graph is empty. -/
def canFit (g : Interference) (k : Nat) : Bool :=
  if g.maxDegree < k then true
  else (core k g.nodes.length g.nodes g.edges).isEmpty

/-- Bisection between a count that does not fit and one that does. -/
def bisect (g : Interference) : Nat → Nat → Nat → Nat × Nat
  | 0, required, sufficient => (required, sufficient)
  | fuel + 1, required, sufficient =>
    if required + 1 < sufficient then
      let candidate := (required + sufficient) / 2
      if g.canFit candidate then g.bisect fuel required candidate
      else g.bisect fuel candidate sufficient
    else (required, sufficient)

/-- The estimated number of registers: the least count that fits, and at least the largest
arity. -/
def estimate (g : Interference) : Nat :=
  let required := g.maxArity
  let sufficient := g.maxDegree + 1
  if sufficient ≤ required then required
  else
    let (required, sufficient) := g.bisect sufficient required sufficient
    if g.canFit required then required else sufficient

end Interference

end QuantumRuntime
