import QuantumRuntime.Machine.Tracing
import QuantumRuntime.Machine.Tuples

/-!
# Callables

A callable runs the routine its applied functors select, with its capture and the argument and
result tuples it is given. A controlled callable takes arguments of the form
`{ controls, inner }`, where `controls` is an array of qubit handles. Controlled once, the
routine sees these arguments as they are. Controlled `d ≥ 2` times, the arguments nest `d`
levels deep, and they are flattened first: the control arrays of every level are joined into one
new array, and a copy of the innermost tuple gets that array as its first field. The routine runs
on the flattened tuple; afterwards the joined array and the copy are released again, and an error
of that clean-up wins over an error of the routine.

Routines may invoke callables in turn, so invocation carries fuel; running out is reported as
nesting too deeply.
-/

namespace QuantumRuntime

namespace Machine

/-- How deeply invocations may nest. -/
def invocationFuel : Nat := 10000

/-- Creates a callable; its table must have a body. -/
def callableCreate (table : FunctionTable Routine) (hooks : Option (Option Hook × Option Hook))
    (capture : Option Nat) : Exec Nat := do
  if table.body.isNone then throw (.missingFunctor .body)
  insert (.callable { table, hooks := hooks.getD (none, none), capture })

/-- Changes the reference count of a callable. -/
def callableUpdateRefs (id : Option Nat) (increment : Int) : Exec Unit := do
  let some id := id | return
  let _ ← updateRefs ⟨.callable, id⟩ increment

/-- Changes the alias count of a callable. -/
def callableUpdateAliases (id : Option Nat) (increment : Int) : Exec Unit := do
  let some id := id | return
  updateAliases ⟨.callable, id⟩ increment

/-- Copies a callable, unless the copy is not forced and the callable has no aliases. The copy
shares the capture without adding a reference to it. -/
def callableCopy (id : Nat) (force : Bool) : Exec Nat := do
  let c ← getCallable id
  if !force && c.counts.aliases = 0 then
    callableUpdateRefs (some id) 1
    return id
  insert (.callable { c with counts := {} })

/-- Applies a functor to a callable in place; a refusal keeps the callable as the functor left
it. -/
def applyFunctor (functor : Callable → Callable × Except MachineError Unit) (id : Nat) :
    Exec Unit := do
  let applied := functor (← getCallable id)
  setObject id (.callable applied.1)
  check applied.2

/-- Applies the adjoint functor to a callable. -/
def makeAdjoint (id : Nat) : Exec Unit := applyFunctor Callable.makeAdjoint id

/-- Applies the controlled functor to a callable. -/
def makeControlled (id : Nat) : Exec Unit := applyFunctor Callable.makeControlled id

/-- The functor bits applied to a callable: 1 for adjoint, 2 for controlled. -/
def functorBits (id : Nat) : Exec Nat := do pure (← getCallable id).applied

/-- How many times a callable was controlled. -/
def controlledDepth (id : Nat) : Exec Nat := do pure (← getCallable id).depth

/-- Runs a capture hook with a count. -/
def runHook (h : Hook) (capture : Option Nat) (count : Int) : Exec Unit := do
  note (.hook h capture count)
  match h with
  | .shareRefs => tupleUpdateRefs capture count
  | .shareAliases => tupleUpdateAliases capture count
  | .fail => throw (.failure "callback failed")

/-- Runs the capture hook at an index, if the callable has one there. -/
def memoryManagement (index id : Nat) (parameter : Int) : Exec Unit := do
  let c ← getCallable id
  match ← check (c.hook? index) with
  | some h => runHook h c.capture parameter
  | none => pure ()

/-- The capture a routine needs. -/
def needCapture : Option Nat → Exec Nat
  | some c => pure c
  | none => throw (.invalidTuple "missing capture")

/-- A signed 32-bit number from four little-endian bytes. -/
def int32OfBytes (bytes : List UInt8) : Int :=
  let n := Word.decode bytes
  if n < Nat.pow 2 31 then n else (n : Int) - Nat.pow 2 32

/-- Runs a tracing request from the code of a callable, which reports a tracing error as a
failure with the error's message. -/
def asFailure {α : Type} (x : Tracing α) : Exec α := fun m =>
  match x m with
  | .ok a m => .ok a m
  | .error e m => .error (.failure (e.message?.getD "")) m

/-- Runs a routine. `call` invokes another callable with arguments and a result tuple. -/
def runRoutine (call : Nat → Option Nat → Option Nat → Exec Unit) (r : Routine)
    (capture args result : Option Nat) : Exec Unit := do
  let m ← get
  let argsData := args.bind fun a => match m.object? ⟨.tuple, a⟩ with
    | some (.tuple t) => some t.data
    | _ => none
  note (.entry r capture args result argsData)
  match r with
  | .mark s =>
    match result with
    | some res =>
      if !(← tupleData res).isEmpty then tupleWrite res 0 [Routine.markByte s]
    | none => pure ()
  | .controls =>
    let some a := args | throw (.invalidTuple "missing args")
    let array ← tupleReadHandle a 0
    let qs ← qubits array
    let size := (← tupleData a).length
    let target ← if 2 * Word.size ≤ size then some <$> tupleReadHandle a Word.size else pure none
    note (.controls qs array target)
  | .fail => throw (.failure "entry failed")
  | .delegate =>
    let c ← needCapture capture
    call (← tupleReadHandle c 0) args result
  | .releaseArgs => tupleUpdateRefs args (-1)
  | .message =>
    let c ← needCapture capture
    message (← tupleReadHandle c 0)
  | .trace =>
    let c ← needCapture capture
    let data ← tupleData c
    if data.length < 2 * Word.size then
      throw (.invalidTuple "trace capture needs 16 bytes")
    let op := int32OfBytes (data.take 4)
    let duration := int32OfBytes ((data.drop 4).take 4)
    let q := Word.decode ((data.drop 8).take 8)
    asFailure (traceSingleOp op duration ⟨q⟩)

/-- The control arrays of the levels of a nested controlled argument tuple, and its innermost
tuple. `remaining` counts the levels still to read. -/
def controlLevels : Nat → Nat → Nat → Exec (List Nat × Nat)
  | 0, _, current => pure ([], current)
  | remaining + 1, level, current => do
    let isLast := remaining = 0
    let size := (← tupleData current).length
    if (!isLast && size ≠ 2 * Word.size) || size < Word.size then
      throw (.invalidTuple s!"level {level} of a controlled argument tuple has {size} bytes")
    let controls ← tupleReadHandle current 0
    let itemSize := (← getArray controls).itemSize
    if itemSize ≠ Word.size then
      throw (.invalidTuple s!"controls array at level {level} has item size {itemSize}")
    if isLast then return ([controls], current)
    let (rest, innermost) ← controlLevels remaining (level + 1) (← tupleReadHandle current Word.size)
    pure (controls :: rest, innermost)

/-- Flattens `depth` levels of controlled arguments into a copy of the innermost tuple whose first
field is a new array of all the controls. The caller releases both. -/
def flattenControls (args depth : Nat) : Exec Nat := do
  let (levels, innermost) ← controlLevels depth 0 args
  let words ← levels.flatMapM fun id => do pure (← getArray id).items
  let controls ← arrayCreate1d Word.size words.length
  let a ← getArray controls
  setObject controls (.array { a with items := words })
  match ← attempt (tupleCopy innermost true) with
  | .error e =>
    arrayUpdateRefs (some controls) (-1)
    throw e
  | .ok flat =>
    match ← attempt (tupleWriteHandle flat 0 controls) with
    | .error e =>
      tupleUpdateRefs (some flat) (-1)
      arrayUpdateRefs (some controls) (-1)
      throw e
    | .ok () => pure flat

/-- Invokes a callable with arguments and a result tuple. -/
def invokeWith : Nat → Nat → Option Nat → Option Nat → Exec Unit
  | 0, _, _, _ => throw .tooDeep
  | fuel + 1, id, args, result => do
    let c ← getCallable id
    let r ← check c.routine
    let run := runRoutine (invokeWith fuel) r c.capture
    if c.depth = 0 then return ← run args result
    let some a := args | throw (.invalidTuple "controlled callable invoked without arguments")
    if c.depth = 1 then return ← run (some a) result
    let flat ← flattenControls a c.depth
    let outcome ← attempt (run (some flat) result)
    let controls ← tupleReadHandle flat 0
    arrayUpdateRefs (some controls) (-1)
    tupleUpdateRefs (some flat) (-1)
    check outcome

/-- Invokes a callable with arguments and a result tuple. -/
def invoke (id : Nat) (args result : Option Nat) : Exec Unit :=
  invokeWith invocationFuel id args result

/-- Runs two branches of a measurement-conditioned operation inside a fence at the layers that
measured two lists of results: the first, then the second once the first succeeded. The fence is
popped whatever the branches give. -/
def conditionally (results1 results2 : Nat) (first second : Exec Unit) : Tracing Unit := do
  let rs1 ← traced (arrayHandles results1)
  let rs2 ← traced (arrayHandles results2)
  let fence ← onTracer (Tracer.InPlace.pushFence (rs1.map ResultHandle.mk) (rs2.map ResultHandle.mk))
  let outcome ← traced (attempt (do first; second))
  onTracer (Tracer.InPlace.popFence fence)
  traced (check outcome)

/-- Traces both branches of a measurement-conditioned operation: the callables `onEqual` and
`onDifferent`, invoked without arguments. -/
def applyConditionally (results1 results2 onEqual onDifferent : Nat) : Tracing Unit :=
  conditionally results1 results2 (invoke onEqual none none) (invoke onDifferent none none)

end Machine

end QuantumRuntime
