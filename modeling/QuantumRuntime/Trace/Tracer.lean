import QuantumRuntime.Trace.Layer

/-!
# The layering tracer

The tracer stands in for a quantum backend: it receives operations (an id, a duration and the
qubits involved) and packs them into layers whose duration is at least the preferred duration.
An operation lands in the earliest layer that is not before any of its qubits' last layers, lies
after the active barrier or fence, and still has room for it after its qubits' last use; if no
layer qualifies a new one is opened, as long as the operation or the preferred duration.

A zero-duration operation on one qubit that has no layer yet, or whose layer lies before the
active fence, is held and flushed into the layer of the qubit's next placement. A barrier opens a
layer that nothing later may enter or precede. Fences come from measurements: while a fence is
pushed, nothing is placed into or before the latest layer that measured one of its results.

Each request is written twice. `Tracer.InPlace` runs it as the tracer does, in place: checks and
writes come in the order of the source, and an error keeps whatever was written before it. The
functions of `Tracer` give the same request as a transaction, which returns the new tracer only
on success; they are the form the proofs reason about, and each in-place request is proved equal
to its transaction.
-/

namespace QuantumRuntime

/-- The state of the layering tracer. Qubits and layers are indexed by position; `fences` is the
stack of pushed fences, innermost first; `seen` lists every traced operation id, ascending. -/
structure Tracer where
  qubits : List QubitState := []
  preferred : Int := 0
  layers : List Layer := []
  globalBarrier : Option Nat := none
  fences : List Nat := []
  latestFence : Option Nat := none
  opNames : List (Int × String) := []
  seen : List Int := []
deriving DecidableEq, Repr, Inhabited

namespace Tracer

/-- A tracer with the given preferred layer duration and operation names. -/
def new (preferred : Int) (opNames : List (Int × String) := []) : Tracer :=
  { preferred, opNames }

/-- The display name of an operation: its configured name, or its id. -/
def opName (t : Tracer) (op : Int) : String := (t.opNames.lookup op).getD (toString op)

/-- The state of a qubit, if it was allocated. -/
def qubitState? (t : Tracer) (q : Qubit) : Option QubitState := t.qubits[q.index]?

/-- The later of the global barrier and the latest fence. -/
def effectiveFence (t : Tracer) : Option Nat := optMax t.globalBarrier t.latestFence

/-- The first placement after the effective fence. -/
def firstAfterFence (t : Tracer) : Placement :=
  match t.effectiveFence with
  | none => if t.layers.isEmpty then .fresh else .layer 0
  | some f => if f + 1 = t.layers.length then .fresh else .layer (f + 1)

/-- The index of the first layer at or after `from` whose duration is at least `d`. -/
def firstLongEnough (t : Tracer) (start : Nat) (d : Int) : Option Nat :=
  ((t.layers.drop start).findIdx? fun l => decide (d ≤ l.duration)).map (start + ·)

/-- Where an operation of duration `d` on qubit `q` can go: the later of the qubit's layer and the
first layer after the fence, if the operation fits there after the qubit's last use; otherwise the
first later layer that is long enough; otherwise a new layer. -/
def findLayer (t : Tracer) (q : Qubit) (d : Int) : Except TraceError Placement :=
  match t.qubitState? q with
  | none => .error (.unknownQubit q)
  | some state =>
    let candidate := match state.layer with
      | some l => Placement.max (.layer l) t.firstAfterFence
      | none => t.firstAfterFence
    match candidate with
    | .fresh => .ok .fresh
    | .layer c =>
      match t.layers[c]? with
      | none => .ok .fresh
      | some layer =>
        if max state.lastUsed layer.start + d ≤ layer.stop then .ok (.layer c)
        else match t.firstLongEnough (c + 1) d with
          | some l => .ok (.layer l)
          | none => .ok .fresh

/-- Opens a layer after the last one, as long as `d` or the preferred duration. -/
def openLayer (t : Tracer) (d : Int) : Nat × Tracer :=
  let start := match t.layers.getLast? with
    | some l => l.stop
    | none => 0
  (t.layers.length, { t with layers := t.layers ++ [{ start, duration := max t.preferred d }] })

/-- The layer of a placement, opening a new layer when needed. -/
def place (t : Tracer) (p : Placement) (d : Int) : Nat × Tracer :=
  match p with
  | .layer l => (l, t)
  | .fresh => t.openLayer d

/-- Counts one operation in a layer. -/
def addOp (t : Tracer) (op : Int) (layer : Nat) : Tracer :=
  { t with layers := t.layers.modify layer (·.addOp op) }

/-- Moves a qubit into a layer after an operation of duration `d`, flushing its held operations
into that layer. -/
def updateQubit (t : Tracer) (q : Qubit) (layer : Nat) (d : Int) : Tracer :=
  match t.qubitState? q, t.layers[layer]? with
  | some state, some l =>
    let moved : QubitState :=
      { layer := some layer, lastUsed := max state.lastUsed l.start + d, pending := [] }
    let t := { t with qubits := t.qubits.set q.index moved }
    state.pending.foldl (fun t op => t.addOp op layer) t
  | _, _ => t

/-- Records that an operation id was traced. -/
def markSeen (t : Tracer) (op : Int) : Tracer := { t with seen := SortedMap.insert op t.seen }

/-- Whether a qubit has no layer, or only one before the effective fence. -/
def isUnplaced (t : Tracer) (state : QubitState) : Bool :=
  match state.layer, t.effectiveFence with
  | none, _ => true
  | some l, some f => decide (l < f)
  | some _, none => false

/-- Traces an operation on one qubit. Gives the layer it was placed in, or `none` when it was
held as a pending zero-duration operation. -/
def traceSingle (t : Tracer) (op d : Int) (target : Qubit) : Except TraceError (Option Nat × Tracer) :=
  if d < 0 then .error (.negativeDuration op d)
  else match t.qubitState? target with
    | none => .error (.unknownQubit target)
    | some state =>
      let t := t.markSeen op
      if d = 0 ∧ t.isUnplaced state then
        let held := { state with pending := state.pending ++ [op] }
        .ok (none, { t with qubits := t.qubits.set target.index held })
      else do
        let p ← t.findLayer target d
        let (layer, t) := t.place p d
        let t := (t.addOp op layer).updateQubit target layer d
        pure (some layer, t)

/-- Traces an operation on several qubits. Controls and targets are scheduled alike, and the
operation lands in the latest placement any of its qubits needs. A zero-duration operation on a
single target without controls is traced as a one-qubit operation. -/
def traceMulti (t : Tracer) (op d : Int) (controls targets : List Qubit) :
    Except TraceError (Option Nat × Tracer) :=
  if d < 0 then .error (.negativeDuration op d)
  else match targets with
    | [] => .error (.noTargets op)
    | first :: rest =>
      if d = 0 ∧ controls.isEmpty ∧ rest.isEmpty then t.traceSingle op d first
      else do
        let p ← t.findLayer first d
        let p ← (rest ++ controls).foldlM (fun p q => do
          let p' ← t.findLayer q d
          pure (p.max p')) p
        let t := t.markSeen op
        let (layer, t) := t.place p d
        let t := (controls ++ targets).foldl (fun t q => t.updateQubit q layer d) (t.addOp op layer)
        pure (some layer, t)

/-- The result that stands for a measurement: its layer, or the invalid result while pending. -/
def measurementResult : Option Nat → ResultHandle
  | some l => ⟨l⟩
  | none => ResultHandle.invalid

/-- Traces a measurement of one qubit. -/
def measureSingle (t : Tracer) (op d : Int) (target : Qubit) :
    Except TraceError (ResultHandle × Tracer) :=
  (t.traceSingle op d target).map fun (l, t) => (measurementResult l, t)

/-- Traces a joint measurement of several qubits. -/
def measureMulti (t : Tracer) (op d : Int) (targets : List Qubit) :
    Except TraceError (ResultHandle × Tracer) :=
  (t.traceMulti op d [] targets).map fun (l, t) => (measurementResult l, t)

/-- The layer of the measurement a result stands for, if the result is valid. -/
def layerOfMeasurement (r : ResultHandle) : Option Nat :=
  if r.isValid then some r.raw else none

/-- Opens a barrier layer: nothing traced afterwards is placed into or before it. -/
def injectBarrier (t : Tracer) (op d : Int) : Except TraceError (Nat × Tracer) :=
  if d < 0 then .error (.negativeDuration op d)
  else
    let (layer, t) := t.openLayer d
    .ok (layer, { t with
      layers := t.layers.modify layer (fun l => { l with barrier := some op })
      globalBarrier := some layer })

/-- The latest layer that measured one of the results; a result beyond the last layer is
refused. -/
def latestMeasurement (t : Tracer) (results : List ResultHandle) : Except TraceError (Option Nat) :=
  results.foldlM (fun latest r =>
    match layerOfMeasurement r with
    | some l => if t.layers.length ≤ l then .error (.unknownMeasurement r) else .ok (optMax latest (some l))
    | none => .ok latest) none

/-- Pushes a fence at the latest layer that measured a result of either list. Nothing is pushed
when no result stands for a placed measurement. -/
def pushFence (t : Tracer) (results1 results2 : List ResultHandle) :
    Except TraceError (Option Nat × Tracer) := do
  let f1 ← t.latestMeasurement results1
  let f2 ← t.latestMeasurement results2
  match optMax f1 f2 with
  | none => pure (none, t)
  | some layer =>
    pure (some layer, { t with fences := layer :: t.fences, latestFence := optMax t.latestFence (some layer) })

/-- Pops a fence that `pushFence` gave; popping `none` does nothing. -/
def popFence (t : Tracer) : Option Nat → Tracer
  | none => t
  | some _ =>
    let fences := t.fences.tail
    { t with fences, latestFence := fences.foldl (fun m f => optMax m (some f)) none }

/-! ### Requests in place -/

/-- A request run on the tracer in place; an error keeps the tracer it reached. -/
abbrev TraceM := EStateM TraceError Tracer

namespace InPlace

/-- Runs a check that only reads the tracer. -/
def read {α : Type} (f : Tracer → Except TraceError α) : TraceM α := fun t =>
  match f t with
  | .ok a => .ok a t
  | .error e => .error e t

/-- Refuses a negative duration. -/
def checkDuration (op d : Int) : TraceM Unit :=
  if d < 0 then throw (.negativeDuration op d) else pure ()

/-- The state of an allocated qubit; any other qubit is refused. -/
def qubitState (q : Qubit) : TraceM QubitState :=
  read fun t => match t.qubitState? q with
    | some s => .ok s
    | none => .error (.unknownQubit q)

/-- The layer of a placement, opening a new layer when needed. -/
def place (p : Placement) (d : Int) : TraceM Nat := modifyGet (·.place p d)

/-- Moves a qubit into a layer after an operation of duration `d` and flushes its held
operations into that layer. The layer is read first, and the qubit is looked up only then. -/
def updateQubit (q : Qubit) (layer : Nat) (d : Int) : TraceM Unit := do
  let start := (← get).layers[layer]!.start
  let state ← qubitState q
  let moved : QubitState :=
    { layer := some layer, lastUsed := max state.lastUsed start + d, pending := [] }
  modify fun t => { t with qubits := t.qubits.set q.index moved }
  modify fun t => state.pending.foldl (fun t op => t.addOp op layer) t

/-- Traces an operation on one qubit: the operation is recorded as seen once the qubit is known,
and then held or placed. -/
def traceSingle (op d : Int) (target : Qubit) : TraceM (Option Nat) := do
  checkDuration op d
  let _ ← qubitState target
  modify (·.markSeen op)
  let t ← get
  let state ← qubitState target
  if d = 0 ∧ t.isUnplaced state then
    set { t with qubits := t.qubits.set target.index { state with pending := state.pending ++ [op] } }
    pure none
  else
    let p ← read (·.findLayer target d)
    let layer ← place p d
    modify (·.addOp op layer)
    updateQubit target layer d
    pure (some layer)

/-- Traces an operation on several qubits: a layer is searched for each qubit before anything is
written, then the operation is recorded, placed, and every qubit moved, controls first. -/
def traceMulti (op d : Int) (controls targets : List Qubit) : TraceM (Option Nat) := do
  checkDuration op d
  match targets with
  | [] => throw (.noTargets op)
  | first :: rest =>
    if d = 0 ∧ controls.isEmpty ∧ rest.isEmpty then traceSingle op d first
    else
      let p ← read (·.findLayer first d)
      let p ← (rest ++ controls).foldlM (fun p q => do
        let p' ← read (·.findLayer q d)
        pure (p.max p')) p
      modify (·.markSeen op)
      let layer ← place p d
      modify (·.addOp op layer)
      (controls ++ targets).forM fun q => updateQubit q layer d
      pure (some layer)

/-- Traces a measurement of one qubit. -/
def measureSingle (op d : Int) (target : Qubit) : TraceM ResultHandle :=
  measurementResult <$> traceSingle op d target

/-- Traces a joint measurement of several qubits. -/
def measureMulti (op d : Int) (targets : List Qubit) : TraceM ResultHandle :=
  measurementResult <$> traceMulti op d [] targets

/-- Opens a barrier layer and makes it the global barrier. -/
def injectBarrier (op d : Int) : TraceM Nat := do
  checkDuration op d
  let layer ← modifyGet (·.openLayer d)
  modify fun t => { t with
    layers := t.layers.modify layer fun l => { l with barrier := some op }
    globalBarrier := some layer }
  pure layer

/-- Pushes a fence at the latest layer that measured a result of either list, once both lists
are read. -/
def pushFence (results1 results2 : List ResultHandle) : TraceM (Option Nat) := do
  let f1 ← read (·.latestMeasurement results1)
  let f2 ← read (·.latestMeasurement results2)
  match optMax f1 f2 with
  | none => pure none
  | some layer =>
    modify fun t => { t with
      fences := layer :: t.fences
      latestFence := optMax t.latestFence (some layer) }
    pure (some layer)

/-- Pops a fence that `pushFence` gave. -/
def popFence (fence : Option Nat) : TraceM Unit := modify (·.popFence fence)

end InPlace

/-- Allocates a qubit: the next index, with nothing placed yet. -/
def allocate (t : Tracer) : Qubit × Tracer :=
  (⟨t.qubits.length⟩, { t with qubits := t.qubits ++ [{}] })

/-- The tracer's description of a qubit. -/
def qubitText (t : Tracer) (q : Qubit) : String :=
  match t.qubitState? q with
  | some state =>
    let layer := match state.layer with
      | some l => toString l
      | none => "none"
    s!"{q.index} last used in layer {layer} (pending zero ops: {state.pending.length})"
  | none => s!"{q.index} (unknown)"

end Tracer

end QuantumRuntime
