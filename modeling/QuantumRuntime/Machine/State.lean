import QuantumRuntime.Machine.ItemArray
import QuantumRuntime.Machine.ByteTuple
import QuantumRuntime.Machine.Output
import QuantumRuntime.Machine.Journal
import QuantumRuntime.Machine.Tracker
import QuantumRuntime.Callable.Object
import QuantumRuntime.Backend.Basic

/-!
# The state of a running program

A running program owns a backend and every object it created. Arrays, tuples and callables live
in one store under ids drawn from one counter that starts at one; interned strings draw their
ids from the same counter and are also found by their text, through a content index kept beside
the table of live strings. An id is taken only when an object is really stored, and ids are
never reused, so an id names at most one object for the whole run. Looking an object up by a key
whose kind does not match is the same as looking up a released object.

Requests run in `Exec`, a state monad with errors in which the state reached before an error is
kept: a request that fails halfway leaves the effects of its first half in place, as a real
runtime would.

With allocation tracking on, a tracker mirrors the reference counts of arrays, tuples and
callables and reports misuse and leaks.
-/

namespace QuantumRuntime

/-- An object of the store. -/
inductive Obj
  | array (a : ItemArray)
  | tuple (t : ByteTuple)
  | callable (c : Callable)
deriving DecidableEq, Repr, Inhabited

namespace Obj

/-- The kind of an object. -/
def kind : Obj → ObjectKind
  | array _ => .array
  | tuple _ => .tuple
  | callable _ => .callable

/-- The counts of an object. -/
def counts : Obj → Counts
  | array a => a.counts
  | tuple t => t.counts
  | callable c => c.counts

/-- The object with other counts. -/
def withCounts : Obj → Counts → Obj
  | array a, n => array { a with counts := n }
  | tuple t, n => tuple { t with counts := n }
  | callable c, n => callable { c with counts := n }

theorem kind_withCounts (o : Obj) (n : Counts) : (o.withCounts n).kind = o.kind := by
  cases o <;> rfl

theorem counts_withCounts (o : Obj) (n : Counts) : (o.withCounts n).counts = n := by
  cases o <;> rfl

end Obj

/-- An interned string and its reference count. -/
structure Interned where
  text : String
  refs : Nat
deriving DecidableEq, Repr, Inhabited

/-- The state of a running program. -/
structure Machine where
  backend : Backend
  tracker : Option Tracker := none
  nextId : Nat := 1
  objects : List (Nat × Obj) := []
  strings : List (Nat × Interned) := []
  -- the content index: the id interned for each text
  byContent : List (String × Nat) := []
  results : List (ResultHandle × Nat) := []
  output : Output := {}
  journal : List Record := []
deriving Inhabited

/-- A request of a running program. -/
abbrev Exec := EStateM MachineError Machine

namespace Machine

/-- A fresh program on a backend, tracking allocations or not. -/
def new (backend : Backend) (trackAllocations : Bool) : Machine :=
  { backend, tracker := if trackAllocations then some {} else none }

/-- Fails with an error, keeping the state. -/
def fail {α : Type} (e : MachineError) : Exec α := throw e

/-- Runs a request and gives its outcome, keeping the state it reached either way. -/
def attempt {α : Type} (x : Exec α) : Exec (Except MachineError α) := fun m =>
  match x m with
  | .ok a m => .ok (.ok a) m
  | .error e m => .ok (.error e) m

/-- Runs a check that may fail. -/
def check {α : Type} : Except MachineError α → Exec α
  | .ok a => pure a
  | .error e => throw e

/-- Runs a backend request. -/
def onBackend {α : Type} (f : Backend → Except BackendError (α × Backend)) : Exec α := do
  match f (← get).backend with
  | .ok (a, b) => modify fun m => { m with backend := b }; pure a
  | .error e => throw (.backend e)

/-- Reads the backend. -/
def queryBackend {α : Type} (f : Backend → Except BackendError α) : Exec α := do
  match f (← get).backend with
  | .ok a => pure a
  | .error e => throw (.backend e)

/-- Takes the next id. -/
def freshId : Exec Nat :=
  modifyGet fun m => (m.nextId, { m with nextId := m.nextId + 1 })

/-- Whether allocations are tracked. -/
def isTracking (m : Machine) : Bool := m.tracker.isSome

/-- The live tracked objects, in report order; none when tracking is off. -/
def liveObjects (m : Machine) : List ObjectKey :=
  match m.tracker with
  | some t => t.live
  | none => []

/-- Applies a tracker transition, if tracking is on. -/
def onTracker (f : Tracker → Except MachineError Tracker) : Exec Unit := do
  match (← get).tracker with
  | some t =>
    match f t with
    | .ok t => modify fun m => { m with tracker := some t }
    | .error e => throw e
  | none => pure ()

/-- The object of a key, if it is stored. -/
def object? (m : Machine) (k : ObjectKey) : Option Obj :=
  match m.objects.lookup k.id with
  | some o => if o.kind = k.kind then some o else none
  | none => none

/-- The object of a key. -/
def getObject (k : ObjectKey) : Exec Obj := do
  match (← get).object? k with
  | some o => pure o
  | none => throw (.released k)

/-- Replaces the object of an id. -/
def setObject (id : Nat) (o : Obj) : Exec Unit :=
  modify fun m => { m with objects := m.objects.map fun (i, p) => if i = id then (i, o) else (i, p) }

/-- Removes the object of an id. -/
def removeObject (id : Nat) : Exec Unit :=
  modify fun m => { m with objects := m.objects.filter fun (i, _) => i ≠ id }

/-- Stores a new object under a fresh id and announces it to the tracker. -/
def insert (o : Obj) : Exec Nat := do
  let id ← freshId
  onTracker fun t => t.allocate ⟨o.kind, id⟩
  modify fun m => { m with objects := m.objects ++ [(id, o)] }
  pure id

/-- The array of an id. -/
def getArray (id : Nat) : Exec ItemArray := do
  match ← getObject ⟨.array, id⟩ with
  | .array a => pure a
  | _ => throw (.released ⟨.array, id⟩)

/-- The tuple of an id. -/
def getTuple (id : Nat) : Exec ByteTuple := do
  match ← getObject ⟨.tuple, id⟩ with
  | .tuple t => pure t
  | _ => throw (.released ⟨.tuple, id⟩)

/-- The callable of an id. -/
def getCallable (id : Nat) : Exec Callable := do
  match ← getObject ⟨.callable, id⟩ with
  | .callable c => pure c
  | _ => throw (.released ⟨.callable, id⟩)

/-- Adds `n` references to an object. Each reference is first announced to the tracker, which
refuses untracked and released keys; a tracked key whose object is gone keeps the first
announcement and is then refused as released. -/
def addRefs (k : ObjectKey) : Nat → Exec Unit
  | 0 => pure ()
  | n + 1 => do
    let m ← get
    match m.tracker with
    | some t =>
      match t.count? k with
      | none => throw (.untracked k)
      | some 0 => throw (.resurrection k)
      | some c =>
        set { m with tracker := some (t.put k (c + 1)) }
        let o ← getObject k
        modify fun m => { m with tracker := some (t.put k (c + n + 1)) }
        setObject k.id (o.withCounts { o.counts with refs := o.counts.refs + n + 1 })
    | none =>
      let o ← getObject k
      setObject k.id (o.withCounts { o.counts with refs := o.counts.refs + n + 1 })

/-- Drops `n` references to an object; gives the object back when its count reaches zero, which
removes it. Dropping more references than the object has is refused up front. Each reference is
also withdrawn from the tracker, one at a time, so a tracker that runs out first stops the
release halfway. -/
def releaseRefs (k : ObjectKey) : Nat → Exec (Option Obj)
  | 0 => pure none
  | n + 1 => do
    let m ← get
    match m.object? k with
    | some o =>
      let r := o.counts.refs
      if r < n + 1 then throw (.negativeRefCount k ((r : Int) - (n + 1 : Nat)))
      match m.tracker with
      | some t =>
        match t.count? k with
        | none => throw (.untracked k)
        | some c =>
          if c < n + 1 then
            set { m with tracker := some (t.put k 0) }
            setObject k.id (o.withCounts { o.counts with refs := r - c })
            throw (.released k)
          set { m with tracker := some (t.put k (c - (n + 1))) }
      | none => pure ()
      if r = n + 1 then
        removeObject k.id
        pure (some o)
      else
        setObject k.id (o.withCounts { o.counts with refs := r - (n + 1) })
        pure none
    | none =>
      match m.tracker with
      | some t =>
        match t.count? k with
        | none => throw (.untracked k)
        | some 0 => throw (.released k)
        | some (c + 1) =>
          set { m with tracker := some (t.put k c) }
          throw (.released k)
      | none => throw (.released k)

/-- Changes the reference count of an object by a signed amount; gives the object back if it
was destroyed. -/
def updateRefs (k : ObjectKey) (increment : Int) : Exec (Option Obj) :=
  if 0 ≤ increment then do addRefs k increment.toNat; pure none
  else releaseRefs k increment.natAbs

/-- Changes the alias count of an object; a count that would become negative is refused. -/
def updateAliases (k : ObjectKey) (increment : Int) : Exec Unit := do
  let o ← getObject k
  let aliases := (o.counts.aliases : Int) + increment
  if aliases < 0 then throw (.negativeAliasCount k)
  setObject k.id (o.withCounts { o.counts with aliases := aliases.toNat })

/-- Adds a record to the journal. -/
def note (r : Record) : Exec Unit := modify fun m => { m with journal := m.journal ++ [r] }

/-- Takes the records of the journal, leaving it empty. -/
def takeJournal (m : Machine) : List Record × Machine := (m.journal, { m with journal := [] })

/-- Tears the program down: with tracking on, every live object is reported as a leak. -/
def deinit (m : Machine) : Except MachineError Backend :=
  match m.tracker with
  | some t => t.checkLeaks.map fun _ => m.backend
  | none => .ok m.backend

end Machine

end QuantumRuntime
