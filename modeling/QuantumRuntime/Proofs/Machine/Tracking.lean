import Mathlib
import QuantumRuntime.Machine.Invoke
import QuantumRuntime.Proofs.Machine.Keeps

/-!
# Allocation tracking agrees with the object store

Every request a program makes on its arrays, tuples and callables keeps the tracker in agreement
with the objects, whether it succeeds or fails: creating, copying, concatenating, slicing and
projecting arrays, allocating and releasing qubit arrays, creating and copying tuples and
callables, writing into them, applying functors, changing reference and alias counts, and invoking
callables, with nested controls flattened into a joined array and a copied tuple that are released
again afterwards.

Each request is specified with the rules of `Keeps`, following the request's own steps. The main
statement, `allocation_tracking_agrees`, runs any list of such requests from a fresh program with
tracking on and reads the agreement off the machine it ends in: the keys are never forgotten and
their ids are issued once each, the tracked counts are the objects' reference counts, and the live
objects, which teardown reports as leaks, are exactly the stored objects in report order.
-/

namespace QuantumRuntime

namespace Machine

/-! ### Reads and the backend -/

theorem Frames.note (r : Record) : Frames (note r) := Frames.modify fun _ => rfl

theorem Frames.onBackend {α : Type} (f : Backend → Except BackendError (α × Backend)) :
    Frames (onBackend f) := by
  intro m
  simp only [Machine.onBackend, run_bind, run_get]
  cases f m.backend with
  | ok p => rfl
  | error e => rfl

/-- The tracer serves as the backend, so a tracing request leaves the store alone. -/
theorem store_onTracer {α : Type} (x : Tracer.TraceM α) (m : Machine) :
    store (final (onTracer x m)) = store m := by
  unfold onTracer
  split
  · split <;> rfl
  · rfl

theorem final_discard {ε α : Type} (x : EStateM ε Machine α) (m : Machine) :
    final (discard x m) = final (x m) := by
  show final (EStateM.map _ x m) = _
  unfold EStateM.map
  cases x m <;> rfl

theorem final_traced {α : Type} (x : Exec α) (m : Machine) : final (traced x m) = final (x m) := by
  unfold traced
  cases x m <;> rfl

theorem final_asFailure {α : Type} (x : Tracing α) (m : Machine) :
    final (asFailure x m) = final (x m) := by
  unfold asFailure
  cases x m <;> rfl

theorem store_traceSingleOp (op d : Int) (q : Qubit) (m : Machine) :
    store (final (traceSingleOp op d q m)) = store m := by
  unfold traceSingleOp
  rw [final_discard]
  exact store_onTracer _ m

theorem Frames.stringText (id : Nat) : Frames (stringText id) := by
  intro m
  simp only [Machine.stringText, getString, run_bind, run_get]
  cases m.strings.lookup id <;> rfl

theorem Frames.message (id : Nat) : Frames (message id) := by
  unfold Machine.message
  exact Frames.bind (Frames.stringText id) fun _ => Frames.bind Frames.get fun _ =>
    Frames.bind (Frames.check _) fun _ => Frames.modify fun _ => rfl

theorem Frames.tupleData (id : Nat) : Frames (tupleData id) :=
  Frames.bind (Frames.getTuple id) fun _ => Frames.pure _

theorem Frames.tupleReadHandle (id offset : Nat) : Frames (tupleReadHandle id offset) :=
  Frames.bind (Frames.getTuple id) fun _ => Frames.check _

theorem Frames.arrayHandles (id : Nat) : Frames (arrayHandles id) := by
  unfold Machine.arrayHandles
  refine Frames.bind (Frames.getArray id) fun a => ?_
  dsimp only
  exact Frames.ite (Frames.throw_bind _) (Frames.pure _)

theorem Frames.qubits (id : Nat) : Frames (qubits id) :=
  Frames.bind (Frames.arrayHandles id) fun _ => Frames.pure _

theorem Frames.releaseQubitsOf (a : ItemArray) : Frames (releaseQubitsOf a) :=
  Frames.forM _ (fun _ => Frames.onBackend _) _

theorem Frames.checkBuffer (itemSize : Nat) (dims : List Nat) :
    Frames (checkBuffer itemSize dims) := by
  unfold Machine.checkBuffer
  split
  · exact Frames.pure _
  · exact Frames.throw _

theorem Frames.needCapture (capture : Option Nat) : Frames (needCapture capture) := by
  cases capture with
  | some c => exact Frames.pure c
  | none => exact Frames.throw _

/-- Reading the levels of a nested controlled argument tuple changes nothing. -/
theorem Frames.controlLevels : ∀ (remaining level current : Nat),
    Frames (controlLevels remaining level current)
  | 0, _, _ => Frames.pure _
  | remaining + 1, level, current => by
    unfold Machine.controlLevels
    dsimp only
    refine Frames.bind (Frames.tupleData current) fun data => ?_
    refine Frames.ite (Frames.throw_bind _) ?_
    refine Frames.bind (Frames.tupleReadHandle current 0) fun controls => ?_
    refine Frames.bind (Frames.getArray controls) fun a => ?_
    refine Frames.ite (Frames.throw_bind _) (Frames.ite (Frames.pure _) ?_)
    refine Frames.bind (Frames.tupleReadHandle current _) fun next => ?_
    refine Frames.bind (Frames.controlLevels remaining (level + 1) next) fun p => ?_
    obtain ⟨rest, innermost⟩ := p
    exact Frames.pure _

/-! ### New objects start with one reference -/

theorem ItemArray.counts_slice (a : ItemArray) (dim : Nat) (s : Selection) :
    (a.slice dim s).counts = {} := by
  unfold ItemArray.slice
  dsimp only
  split <;> rfl

theorem ItemArray.counts_project (a : ItemArray) (dim index : Nat) :
    (a.project dim index).counts = {} := by
  unfold ItemArray.project
  dsimp only
  split <;> rfl

theorem ByteTuple.counts_of_writeWord {t t' : ByteTuple} {offset handle : Nat}
    (h : t.writeWord offset handle = .ok t') : t'.counts = t.counts := by
  unfold ByteTuple.writeWord at h
  cases hf : t.field offset with
  | error e =>
    rw [hf] at h
    cases h
  | ok w =>
    rw [hf] at h
    cases h
    rfl

/-! ### Reference and alias counts -/

section Counts

variable {ks : List ObjectKey} {P : Machine → Prop}

theorem Keeps.arrayUpdateRefs (id : Option Nat) (increment : Int) :
    Keeps ks P (arrayUpdateRefs id increment) fun _ _ => True := by
  unfold Machine.arrayUpdateRefs
  cases id with
  | none => exact Keeps.ret _
  | some id =>
    refine Keeps.bind (Keeps.updateRefs _ _) fun r => ?_
    -- a destroyed array gives its qubits back to the backend, which the tracker never sees
    rcases r with _ | (a | _ | _)
    · exact Keeps.ret _
    · exact Keeps.ite (fun _ => Keeps.of_frames (Frames.releaseQubitsOf a)) fun _ => Keeps.ret _
    · exact Keeps.ret _
    · exact Keeps.ret _

theorem Keeps.tupleUpdateRefs (id : Option Nat) (increment : Int) :
    Keeps ks P (tupleUpdateRefs id increment) fun _ _ => True := by
  unfold Machine.tupleUpdateRefs
  cases id with
  | none => exact Keeps.ret _
  | some id => exact Keeps.bind (Keeps.updateRefs _ _) fun _ => Keeps.ret _

theorem Keeps.callableUpdateRefs (id : Option Nat) (increment : Int) :
    Keeps ks P (callableUpdateRefs id increment) fun _ _ => True := by
  unfold Machine.callableUpdateRefs
  cases id with
  | none => exact Keeps.ret _
  | some id => exact Keeps.bind (Keeps.updateRefs _ _) fun _ => Keeps.ret _

theorem Keeps.arrayUpdateAliases (id : Option Nat) (increment : Int) :
    Keeps ks P (arrayUpdateAliases id increment) fun _ _ => True := by
  unfold Machine.arrayUpdateAliases
  cases id with
  | none => exact Keeps.ret _
  | some id => exact Keeps.updateAliases _ _

theorem Keeps.tupleUpdateAliases (id : Option Nat) (increment : Int) :
    Keeps ks P (tupleUpdateAliases id increment) fun _ _ => True := by
  unfold Machine.tupleUpdateAliases
  cases id with
  | none => exact Keeps.ret _
  | some id => exact Keeps.updateAliases _ _

theorem Keeps.callableUpdateAliases (id : Option Nat) (increment : Int) :
    Keeps ks P (callableUpdateAliases id increment) fun _ _ => True := by
  unfold Machine.callableUpdateAliases
  cases id with
  | none => exact Keeps.ret _
  | some id => exact Keeps.updateAliases _ _

end Counts

/-! ### Arrays -/

section Arrays

variable {ks : List ObjectKey} {P : Machine → Prop}

theorem Keeps.arrayCreate (itemSize : Nat) (dims : List Nat) :
    Keeps ks P (arrayCreate itemSize dims) fun _ _ => True := by
  unfold Machine.arrayCreate
  dsimp only
  refine Keeps.ite (fun _ => Keeps.throw_bind _) fun _ => ?_
  refine Keeps.ite (fun _ => Keeps.throw_bind _) fun _ => ?_
  exact Keeps.bind (Keeps.of_frames (Frames.checkBuffer _ _)) fun _ => Keeps.insert rfl

theorem Keeps.arrayCreate1d (itemSize count : Nat) :
    Keeps ks P (arrayCreate1d itemSize count) fun _ _ => True :=
  Keeps.arrayCreate itemSize [count]

theorem Keeps.arrayCopy (id : Nat) (force : Bool) :
    Keeps ks P (arrayCopy id force) fun _ _ => True := by
  unfold Machine.arrayCopy
  refine Keeps.bind (Keeps.getArray id) fun a => ?_
  dsimp only
  -- an elided copy is one more reference to the same array
  refine Keeps.ite (fun _ => Keeps.bind (Keeps.arrayUpdateRefs _ _) fun _ => Keeps.ret _)
    fun _ => ?_
  exact Keeps.ite (fun _ => Keeps.throw_bind _) fun _ => Keeps.insert rfl

theorem Keeps.arrayConcat (head tail : Nat) :
    Keeps ks P (arrayConcat head tail) fun _ _ => True := by
  unfold Machine.arrayConcat
  refine Keeps.bind (Keeps.getArray head) fun a => ?_
  refine Keeps.bind (Keeps.getArray tail) fun b => ?_
  dsimp only
  refine Keeps.ite (fun _ => Keeps.throw_bind _) fun _ => ?_
  exact Keeps.ite (fun _ => Keeps.throw_bind _) fun _ => Keeps.insert rfl

theorem Keeps.arraySlice (id dim : Nat) (r : Range) :
    Keeps ks P (arraySlice id dim r) fun _ _ => True := by
  unfold Machine.arraySlice
  refine Keeps.bind (Keeps.getArray id) fun a => ?_
  refine Keeps.bind (Keeps.check _) fun _ => ?_
  refine Keeps.bind (Keeps.check _) fun s => ?_
  refine Keeps.ite (fun _ => Keeps.insert rfl) fun _ => Keeps.insert ?_
  show (a.slice dim s).counts.refs = 1
  rw [ItemArray.counts_slice]

theorem Keeps.arrayProject (id dim index : Nat) :
    Keeps ks P (arrayProject id dim index) fun _ _ => True := by
  unfold Machine.arrayProject
  refine Keeps.bind (Keeps.getArray id) fun a => ?_
  dsimp only
  refine Keeps.ite (fun _ => Keeps.throw_bind _) fun _ => ?_
  refine Keeps.bind (Keeps.check _) fun _ => ?_
  refine Keeps.ite (fun _ => Keeps.throw_bind _) fun _ => Keeps.insert ?_
  show (a.project dim index).counts.refs = 1
  rw [ItemArray.counts_project]

theorem Keeps.arraySetElement (id index : Nat) (bytes : List UInt8) :
    Keeps ks P (arraySetElement id index bytes) fun _ _ => True := by
  unfold Machine.arraySetElement
  refine Keeps.bind (Keeps.getArray id) fun a => ?_
  exact Keeps.bind (Keeps.check _) fun _ => Keeps.assume fun _ => Keeps.writeBack rfl rfl

theorem Keeps.arrayWriteHandle (id index handle : Nat) :
    Keeps ks P (arrayWriteHandle id index handle) fun _ _ => True := by
  unfold Machine.arrayWriteHandle
  refine Keeps.bind (Keeps.getArray id) fun a => ?_
  refine Keeps.bind (Keeps.check _) fun _ => Keeps.assume fun _ => ?_
  dsimp only
  exact Keeps.ite (fun _ => Keeps.throw_bind _) fun _ => Keeps.writeBack rfl rfl

theorem Keeps.qubitAllocateArray (count : Nat) :
    Keeps ks P (qubitAllocateArray count) fun _ _ => True := by
  unfold Machine.qubitAllocateArray
  refine Keeps.bind (Keeps.of_frames (Frames.checkBuffer _ _)) fun _ => ?_
  refine Keeps.bind (Keeps.of_frames (Frames.mapM _ (fun _ => Frames.onBackend _) _)) fun _ => ?_
  exact Keeps.insert rfl

theorem Keeps.qubitReleaseArray (id : Nat) :
    Keeps ks P (qubitReleaseArray id) fun _ _ => True := by
  unfold Machine.qubitReleaseArray
  refine Keeps.bind (Keeps.getArray id) fun a => ?_
  dsimp only
  refine Keeps.ite (fun _ => Keeps.throw_bind _) fun _ => ?_
  -- giving the qubits up changes neither the kind nor the counts of the array
  refine Keeps.bind (Keeps.writeBack rfl rfl) fun _ => ?_
  exact Keeps.bind (Keeps.of_frames (Frames.releaseQubitsOf a)) fun _ => Keeps.arrayUpdateRefs _ _

end Arrays

/-! ### Tuples and callables -/

section Tuples

variable {ks : List ObjectKey} {P : Machine → Prop}

theorem Keeps.tupleCreate (size : Nat) : Keeps ks P (tupleCreate size) fun _ _ => True :=
  Keeps.insert rfl

theorem Keeps.tupleCopy (id : Nat) (force : Bool) :
    Keeps ks P (tupleCopy id force) fun _ _ => True := by
  unfold Machine.tupleCopy
  refine Keeps.bind (Keeps.getTuple id) fun t => ?_
  exact Keeps.ite (fun _ => Keeps.bind (Keeps.tupleUpdateRefs _ _) fun _ => Keeps.ret _)
    fun _ => Keeps.insert rfl

theorem Keeps.tupleWrite (id offset : Nat) (bytes : List UInt8) :
    Keeps ks P (tupleWrite id offset bytes) fun _ _ => True := by
  unfold Machine.tupleWrite
  exact Keeps.bind (Keeps.getTuple id) fun _ => Keeps.writeBack rfl rfl

theorem Keeps.tupleWriteHandle (id offset handle : Nat) :
    Keeps ks P (tupleWriteHandle id offset handle) fun _ _ => True := by
  unfold Machine.tupleWriteHandle
  refine Keeps.bind (Keeps.getTuple id) fun t => ?_
  refine Keeps.bind (Keeps.check _) fun t' => Keeps.assume fun hw => Keeps.writeBack rfl ?_
  show t'.counts.refs = t.counts.refs
  rw [ByteTuple.counts_of_writeWord hw]

theorem Keeps.callableCreate (table : FunctionTable Routine)
    (hooks : Option (Option Hook × Option Hook)) (capture : Option Nat) :
    Keeps ks P (callableCreate table hooks capture) fun _ _ => True := by
  unfold Machine.callableCreate
  dsimp only
  exact Keeps.ite (fun _ => Keeps.throw_bind _) fun _ => Keeps.insert rfl

theorem Keeps.callableCopy (id : Nat) (force : Bool) :
    Keeps ks P (callableCopy id force) fun _ _ => True := by
  unfold Machine.callableCopy
  refine Keeps.bind (Keeps.getCallable id) fun c => ?_
  exact Keeps.ite (fun _ => Keeps.bind (Keeps.callableUpdateRefs _ _) fun _ => Keeps.ret _)
    fun _ => Keeps.insert rfl

/-- A functor writes the callable back with its counts. -/
theorem Keeps.applyFunctor {f : Callable → Callable × Except MachineError Unit}
    (hf : ∀ c, (f c).1.counts = c.counts) (id : Nat) :
    Keeps ks P (applyFunctor f id) fun _ _ => True := by
  unfold Machine.applyFunctor
  refine Keeps.bind (Keeps.getCallable id) fun c => ?_
  refine Keeps.bind (Keeps.writeBack rfl ?_) fun _ =>
    (Keeps.check _).mono (fun _ h => h) fun _ _ _ => trivial
  show (f c).1.counts.refs = c.counts.refs
  rw [hf]

theorem Keeps.makeAdjoint (id : Nat) : Keeps ks P (makeAdjoint id) fun _ _ => True :=
  Keeps.applyFunctor Callable.counts_makeAdjoint id

theorem Keeps.makeControlled (id : Nat) : Keeps ks P (makeControlled id) fun _ _ => True :=
  Keeps.applyFunctor Callable.counts_makeControlled id

end Tuples

/-! ### Invocation -/

section Invocation

variable {ks : List ObjectKey} {P : Machine → Prop}

/-- A routine keeps the tracker in agreement as long as the callables it may call back do. -/
theorem Keeps.runRoutine {call : Nat → Option Nat → Option Nat → Exec Unit}
    (hcall : ∀ i a r, Keeps ks (fun _ => True) (call i a r) fun _ _ => True) (r : Routine)
    (capture args result : Option Nat) :
    Keeps ks P (runRoutine call r capture args result) fun _ _ => True := by
  unfold Machine.runRoutine
  refine Keeps.bind Keeps.get fun m => ?_
  dsimp only
  refine Keeps.bind (Keeps.of_frames (Frames.note _)) fun _ => ?_
  -- only a delegating routine calls back; the others write a tuple, drop a reference or touch
  -- nothing the tracker sees
  cases r with
  | mark s =>
    dsimp only
    cases result with
    | none => exact Keeps.ret _
    | some res =>
      exact Keeps.bind (Keeps.of_frames (Frames.tupleData res)) fun _ =>
        Keeps.ite (fun _ => Keeps.tupleWrite _ _ _) fun _ => Keeps.ret _
  | controls =>
    dsimp only
    cases args with
    | none => exact Keeps.throw _
    | some a =>
      refine Keeps.of_frames (Frames.bind (Frames.tupleReadHandle a 0) fun array => ?_)
      refine Frames.bind (Frames.qubits array) fun qs => ?_
      refine Frames.bind (Frames.tupleData a) fun d => ?_
      exact Frames.ite (Frames.bind (Frames.map _ (Frames.tupleReadHandle a _)) fun _ => Frames.note _)
        (Frames.bind (Frames.pure _) fun _ => Frames.note _)
  | fail => exact Keeps.throw _
  | delegate =>
    dsimp only
    refine Keeps.bind (Keeps.of_frames (Frames.needCapture capture)) fun c => ?_
    exact Keeps.bind (Keeps.of_frames (Frames.tupleReadHandle c 0)) fun h => hcall h args result
  | releaseArgs => exact Keeps.tupleUpdateRefs args (-1)
  | message =>
    refine Keeps.of_frames (Frames.bind (Frames.needCapture _) fun c => ?_)
    exact Frames.bind (Frames.tupleReadHandle c 0) fun h => Frames.message h
  | trace =>
    refine Keeps.of_frames (Frames.bind (Frames.needCapture _) fun c => ?_)
    refine Frames.bind (Frames.tupleData c) fun data => Frames.ite (Frames.throw_bind _) ?_
    intro m
    rw [final_asFailure]
    exact store_traceSingleOp _ _ _ m

/-- Flattening nested controls makes a joined array and a copied tuple with one reference each,
and releases what it made when a later step fails. -/
theorem Keeps.flattenControls (args depth : Nat) :
    Keeps ks P (flattenControls args depth) fun _ _ => True := by
  unfold Machine.flattenControls
  refine Keeps.bind (Keeps.of_frames (Frames.controlLevels depth 0 args)) fun p => ?_
  obtain ⟨levels, innermost⟩ := p
  dsimp only
  refine Keeps.bind (Keeps.of_frames (Frames.flatMapM _
    (fun id => Frames.bind (Frames.getArray id) fun _ => Frames.pure _) _)) fun words => ?_
  refine Keeps.bind (Keeps.arrayCreate1d _ _) fun controls => ?_
  refine Keeps.bind (Keeps.getArray controls) fun a => ?_
  refine Keeps.bind (Keeps.writeBack rfl rfl) fun _ => ?_
  refine Keeps.bind (Keeps.attempt (Keeps.tupleCopy _ _)) fun r => ?_
  cases r with
  | error e => exact Keeps.bind (Keeps.arrayUpdateRefs _ _) fun _ => Keeps.throw _
  | ok flat =>
    refine Keeps.bind (Keeps.attempt (Keeps.tupleWriteHandle _ _ _)) fun r => ?_
    cases r with
    | error e =>
      exact Keeps.bind (Keeps.tupleUpdateRefs _ _) fun _ =>
        Keeps.bind (Keeps.arrayUpdateRefs _ _) fun _ => Keeps.throw _
    | ok u => exact Keeps.ret _

/-- Invocation keeps the tracker in agreement, by induction on the fuel that bounds how deeply
routines call back. -/
theorem Keeps.invokeWith : ∀ (fuel id : Nat) (args result : Option Nat),
    Keeps ks (fun _ => True) (invokeWith fuel id args result) fun _ _ => True
  | 0, _, _, _ => Keeps.throw _
  | fuel + 1, id, args, result => by
    unfold Machine.invokeWith
    refine Keeps.bind (Keeps.getCallable id) fun c => ?_
    refine Keeps.bind (Keeps.check _) fun r => ?_
    dsimp only
    have hrun : ∀ (Q : Machine → Prop) (a res : Option Nat),
        Keeps ks Q (Machine.runRoutine (Machine.invokeWith fuel) r c.capture a res)
          fun _ _ => True :=
      fun _ a res => Keeps.runRoutine (fun i a r => Keeps.invokeWith fuel i a r) r c.capture a res
    refine Keeps.ite (fun _ => hrun _ _ _) fun _ => ?_
    cases args with
    | none => exact Keeps.throw _
    | some a =>
      refine Keeps.ite (fun _ => hrun _ _ _) fun _ => ?_
      -- nested controls are flattened first and the flattened tuple released after the run
      refine Keeps.bind (Keeps.flattenControls _ _) fun flat => ?_
      refine Keeps.bind (Keeps.attempt (hrun _ _ _)) fun outcome => ?_
      refine Keeps.bind (Keeps.of_frames (Frames.tupleReadHandle _ _)) fun controls => ?_
      refine Keeps.bind (Keeps.arrayUpdateRefs _ _) fun _ => ?_
      refine Keeps.bind (Keeps.tupleUpdateRefs _ _) fun _ => ?_
      exact (Keeps.check _).mono (fun _ h => h) fun _ _ _ => trivial

theorem Keeps.invoke (id : Nat) (args result : Option Nat) :
    Keeps ks P (invoke id args result) fun _ _ => True :=
  (Keeps.invokeWith _ id args result).mono (fun _ _ => trivial) fun _ _ h => h

end Invocation

end Machine

/-! ### Serving requests -/

/-- A request of a program on its arrays, tuples and callables. -/
inductive ObjectRequest
  | arrayCreate (itemSize : Nat) (dims : List Nat)
  | arrayCreate1d (itemSize count : Nat)
  | arrayCopy (id : Nat) (force : Bool)
  | arrayConcat (head tail : Nat)
  | arraySlice (id dim : Nat) (r : Range)
  | arrayProject (id dim index : Nat)
  | arraySetElement (id index : Nat) (bytes : List UInt8)
  | arrayWriteHandle (id index handle : Nat)
  | arrayUpdateRefs (id : Option Nat) (increment : Int)
  | arrayUpdateAliases (id : Option Nat) (increment : Int)
  | qubitAllocateArray (count : Nat)
  | qubitReleaseArray (id : Nat)
  | tupleCreate (size : Nat)
  | tupleCopy (id : Nat) (force : Bool)
  | tupleWrite (id offset : Nat) (bytes : List UInt8)
  | tupleWriteHandle (id offset handle : Nat)
  | tupleUpdateRefs (id : Option Nat) (increment : Int)
  | tupleUpdateAliases (id : Option Nat) (increment : Int)
  | callableCreate (table : FunctionTable Routine) (hooks : Option (Option Hook × Option Hook))
      (capture : Option Nat)
  | callableCopy (id : Nat) (force : Bool)
  | makeAdjoint (id : Nat)
  | makeControlled (id : Nat)
  | callableUpdateRefs (id : Option Nat) (increment : Int)
  | callableUpdateAliases (id : Option Nat) (increment : Int)
  | invoke (id : Nat) (args result : Option Nat)
deriving DecidableEq, Repr

namespace Machine

/-- Serves one request; a request that fails leaves the machine it reached. -/
def serve (m : Machine) : ObjectRequest → Machine
  | .arrayCreate itemSize dims => final (arrayCreate itemSize dims m)
  | .arrayCreate1d itemSize count => final (arrayCreate1d itemSize count m)
  | .arrayCopy id force => final (arrayCopy id force m)
  | .arrayConcat head tail => final (arrayConcat head tail m)
  | .arraySlice id dim r => final (arraySlice id dim r m)
  | .arrayProject id dim index => final (arrayProject id dim index m)
  | .arraySetElement id index bytes => final (arraySetElement id index bytes m)
  | .arrayWriteHandle id index handle => final (arrayWriteHandle id index handle m)
  | .arrayUpdateRefs id increment => final (arrayUpdateRefs id increment m)
  | .arrayUpdateAliases id increment => final (arrayUpdateAliases id increment m)
  | .qubitAllocateArray count => final (qubitAllocateArray count m)
  | .qubitReleaseArray id => final (qubitReleaseArray id m)
  | .tupleCreate size => final (tupleCreate size m)
  | .tupleCopy id force => final (tupleCopy id force m)
  | .tupleWrite id offset bytes => final (tupleWrite id offset bytes m)
  | .tupleWriteHandle id offset handle => final (tupleWriteHandle id offset handle m)
  | .tupleUpdateRefs id increment => final (tupleUpdateRefs id increment m)
  | .tupleUpdateAliases id increment => final (tupleUpdateAliases id increment m)
  | .callableCreate table hooks capture => final (callableCreate table hooks capture m)
  | .callableCopy id force => final (callableCopy id force m)
  | .makeAdjoint id => final (makeAdjoint id m)
  | .makeControlled id => final (makeControlled id m)
  | .callableUpdateRefs id increment => final (callableUpdateRefs id increment m)
  | .callableUpdateAliases id increment => final (callableUpdateAliases id increment m)
  | .invoke id args result => final (invoke id args result m)

/-- Serves requests one after another. -/
def serveAll (m : Machine) (rs : List ObjectRequest) : Machine := rs.foldl serve m

section Runs

variable {ks : List ObjectKey} {m : Machine}

theorem Keeps.tracking_final {α : Type} {x : Exec α} {Q : α → Machine → Prop}
    (h : Keeps ks (fun _ => True) x Q) (ht : Tracking ks m) : Tracking ks (final (x m)) := by
  have h := h m ht trivial
  cases hxm : x m with
  | ok a s =>
    rw [hxm] at h
    exact h.1
  | error e s =>
    rw [hxm] at h
    exact h

/-- Every request keeps the tracker in agreement with the objects and never forgets a key. -/
theorem tracking_serve (ht : Tracking ks m) (r : ObjectRequest) : Tracking ks (m.serve r) := by
  cases r with
  | arrayCreate itemSize dims => exact (Keeps.arrayCreate _ _).tracking_final ht
  | arrayCreate1d itemSize count => exact (Keeps.arrayCreate1d _ _).tracking_final ht
  | arrayCopy id force => exact (Keeps.arrayCopy _ _).tracking_final ht
  | arrayConcat head tail => exact (Keeps.arrayConcat _ _).tracking_final ht
  | arraySlice id dim r => exact (Keeps.arraySlice _ _ _).tracking_final ht
  | arrayProject id dim index => exact (Keeps.arrayProject _ _ _).tracking_final ht
  | arraySetElement id index bytes => exact (Keeps.arraySetElement _ _ _).tracking_final ht
  | arrayWriteHandle id index handle => exact (Keeps.arrayWriteHandle _ _ _).tracking_final ht
  | arrayUpdateRefs id increment => exact (Keeps.arrayUpdateRefs _ _).tracking_final ht
  | arrayUpdateAliases id increment => exact (Keeps.arrayUpdateAliases _ _).tracking_final ht
  | qubitAllocateArray count => exact (Keeps.qubitAllocateArray _).tracking_final ht
  | qubitReleaseArray id => exact (Keeps.qubitReleaseArray _).tracking_final ht
  | tupleCreate size => exact (Keeps.tupleCreate _).tracking_final ht
  | tupleCopy id force => exact (Keeps.tupleCopy _ _).tracking_final ht
  | tupleWrite id offset bytes => exact (Keeps.tupleWrite _ _ _).tracking_final ht
  | tupleWriteHandle id offset handle => exact (Keeps.tupleWriteHandle _ _ _).tracking_final ht
  | tupleUpdateRefs id increment => exact (Keeps.tupleUpdateRefs _ _).tracking_final ht
  | tupleUpdateAliases id increment => exact (Keeps.tupleUpdateAliases _ _).tracking_final ht
  | callableCreate table hooks capture => exact (Keeps.callableCreate _ _ _).tracking_final ht
  | callableCopy id force => exact (Keeps.callableCopy _ _).tracking_final ht
  | makeAdjoint id => exact (Keeps.makeAdjoint _).tracking_final ht
  | makeControlled id => exact (Keeps.makeControlled _).tracking_final ht
  | callableUpdateRefs id increment => exact (Keeps.callableUpdateRefs _ _).tracking_final ht
  | callableUpdateAliases id increment => exact (Keeps.callableUpdateAliases _ _).tracking_final ht
  | invoke id args result => exact (Keeps.invoke _ _ _).tracking_final ht

theorem tracking_serveAll (ht : Tracking ks m) (rs : List ObjectRequest) :
    Tracking ks (m.serveAll rs) := by
  -- the machine a run starts from changes with each request
  induction rs generalizing m with
  | nil => exact ht
  | cons r rs ih => exact ih (tracking_serve ht r)

theorem tracking_new (backend : Backend) : Tracking [] (Machine.new backend true) := by
  refine ⟨{}, rfl, ⟨?_, ?_, ?_, ?_, ?_⟩, List.nil_prefix⟩
  · exact List.Pairwise.nil
  · intro p hp
    cases hp
  · exact List.nodup_nil
  · intro i o h
    cases h
  · intro k c hc
    cases hc

end Runs

/-- Allocation tracking agrees with the object store. From a fresh program with tracking on,
after any requests on arrays, tuples and callables, each of which may succeed or fail: the keys
the tracker held after any earlier part of the run are still its first keys, in order, and their
ids grow along the list, whatever their kind, all below the next id, so no id is ever issued
twice; a stored object is tracked with its reference count, which is positive; a tracked key
whose object is gone has count zero; and the live objects, which teardown reports as leaks, are
the keys of the stored objects in report order. -/
theorem allocation_tracking_agrees (backend : Backend) (rs : List ObjectRequest) :
    let m := (Machine.new backend true).serveAll rs
    ∃ t, m.tracker = some t ∧
      (∀ pre post, rs = pre ++ post → ∃ t₀,
        ((Machine.new backend true).serveAll pre).tracker = some t₀ ∧
          t₀.counts.map Prod.fst <+: t.counts.map Prod.fst) ∧
      (t.counts.map (·.1.id)).Pairwise (· < ·) ∧ (∀ p ∈ t.counts, p.1.id < m.nextId) ∧
      (∀ k o, m.object? k = some o → t.count? k = some o.counts.refs ∧ 0 < o.counts.refs) ∧
      (∀ k c, t.count? k = some c → m.object? k = none → c = 0) ∧
      m.liveObjects = ObjectKey.sort m.storedKeys ∧
      m.deinit = if m.objects = [] then .ok m.backend
        else .error (.leaks (ObjectKey.sort m.storedKeys)) := by
  dsimp only
  obtain ⟨t, hm, ha, -⟩ := tracking_serveAll (tracking_new backend) rs
  refine ⟨t, hm, ?_, ha.ids_increase, ha.ids_lt, fun k o ho => ha.count?_of_object? ho, ha.removed,
    ?_, ha.deinit_eq hm⟩
  · intro pre post hrs
    -- the rest of the run starts from the machine `pre` left, with its keys as the snapshot
    obtain ⟨t₀, hm₀, ha₀, -⟩ := tracking_serveAll (tracking_new backend) pre
    have hrest : Tracking (t₀.counts.map Prod.fst)
        (((Machine.new backend true).serveAll pre).serveAll post) :=
      tracking_serveAll ⟨t₀, hm₀, ha₀, List.prefix_refl _⟩ post
    obtain ⟨t', hm', -, hks⟩ := hrest
    have hsplit : (Machine.new backend true).serveAll rs =
        ((Machine.new backend true).serveAll pre).serveAll post := by
      simp only [serveAll, hrs, List.foldl_append]
    rw [← hsplit, hm] at hm'
    cases hm'
    exact ⟨t₀, hm₀, hks⟩
  · simp only [liveObjects, hm]
    exact ha.live_eq

end Machine

end QuantumRuntime
