import QuantumRuntime.Machine.Key
import QuantumRuntime.Layout.Range
import QuantumRuntime.Backend.Error
import QuantumRuntime.Trace.Layer
import QuantumRuntime.Callable.Table

/-!
# Errors of a running program

What the runtime refuses while it runs a program: objects that were released or never tracked,
counts that would go negative, missing specializations, bad ranges, indices and shapes, output
redirects restored out of order, sinks that refuse a write or a flush, leaks found at teardown, failures the program raises itself,
and errors of the backend. Arithmetic that overflows a machine word is checked and aborts the
whole program with a panic. The tracing intrinsics add the tracer's own errors and refuse to run
on a backend that does not trace.
-/

namespace QuantumRuntime

/-- Why the runtime refused a request. -/
inductive MachineError
  | released (k : ObjectKey)
  | resurrection (k : ObjectKey)
  | untracked (k : ObjectKey)
  | allocatedOverLive (k : ObjectKey)
  | negativeRefCount (k : ObjectKey) (count : Int)
  | negativeAliasCount (k : ObjectKey)
  | missingFunctor (s : Specialization)
  | range (e : RangeError)
  | indexOutOfBounds (index bound : Nat)
  | dimensionOutOfBounds (dim rank : Nat)
  | dimensionMismatch (detail : String)
  | itemSizeMismatch (expected got : Nat)
  | invalidItemSize (size : Nat)
  | arrayTooLarge (itemSize : Nat) (dims : List Nat)
  | outputRedirect (detail : String)
  | io (detail : String)
  | ownsQubits (k : ObjectKey)
  | notQubitOwner (k : ObjectKey)
  | invalidTuple (detail : String)
  | resultPending
  | leaks (keys : List ObjectKey)
  | failure (text : String)
  | backend (e : BackendError)
  | tooDeep
  | panic (text : String)
deriving DecidableEq, Repr

namespace MachineError

/-- The name of the kind of error; a backend error carries the prefix `Hal.`. -/
def kind : MachineError → String
  | released _ => "ReleasedObject"
  | resurrection _ => "Resurrection"
  | untracked _ => "UntrackedObject"
  | allocatedOverLive _ => "AllocatedOverLive"
  | negativeRefCount _ _ => "NegativeReferenceCount"
  | negativeAliasCount _ => "NegativeAliasCount"
  | missingFunctor _ => "MissingFunctor"
  | range (.zeroStep _) => "InvalidRange"
  | range (.outOfBounds _ _) => "RangeOutOfBounds"
  | indexOutOfBounds _ _ => "IndexOutOfBounds"
  | dimensionOutOfBounds _ _ => "DimensionOutOfBounds"
  | dimensionMismatch _ => "DimensionMismatch"
  | itemSizeMismatch _ _ => "ItemSizeMismatch"
  | invalidItemSize _ => "InvalidItemSize"
  | arrayTooLarge _ _ => "ArrayTooLarge"
  | outputRedirect _ => "OutputRedirect"
  | io _ => "Io"
  | ownsQubits _ => "OwnsQubits"
  | notQubitOwner _ => "NotQubitOwner"
  | invalidTuple _ => "InvalidTuple"
  | resultPending => "ResultPending"
  | leaks _ => "Leaks"
  | failure _ => "Failure"
  | backend e => "Hal." ++ e.kind
  | tooDeep => "StackOverflow"
  | panic _ => "panic"

/-- The text of a list of numbers in brackets, separated by a comma and a blank. -/
def bracketed (ns : List Nat) : String := "[" ++ ", ".intercalate (ns.map toString) ++ "]"

/-- The message of the error, when it has one; a backend error shows its own. -/
def message? : MachineError → Option String
  | released k => some s!"{k.text} has already been released"
  | resurrection k => some s!"Cannot resurrect released {k.text}"
  | untracked k => some s!"{k.text} is not tracked"
  | allocatedOverLive k => some s!"{k.text} is allocated over a live object"
  | negativeRefCount k n => some s!"Reference count of {k.text} would become {n}"
  | negativeAliasCount k => some s!"Alias count cannot be negative for {k.text}"
  | missingFunctor s => some s!"The callable doesn't provide the {s.name} specialization"
  | range e => some e.message
  | indexOutOfBounds i b => some s!"Index {i} is out of bounds (size {b})"
  | dimensionOutOfBounds d r => some s!"Dimension {d} is out of bounds for an array of rank {r}"
  | dimensionMismatch d => some ("Dimension mismatch: " ++ d)
  | itemSizeMismatch e g => some s!"Item size mismatch: expected {e}, got {g}"
  | invalidItemSize n => some s!"Invalid item size {n}"
  | arrayTooLarge n dims =>
    some ("An array of " ++ toString n ++ "-byte items with shape " ++ bracketed dims ++
      " is too large")
  | outputRedirect d => some ("Output redirect: " ++ d)
  | io d => some ("Output error: " ++ d)
  | ownsQubits k => some s!"{k.text} owns its qubits"
  | notQubitOwner k => some s!"{k.text} does not own its qubits"
  | invalidTuple d => some ("Invalid tuple: " ++ d)
  | resultPending => some "Result value is pending"
  | leaks keys => some s!"Found {keys.length} potentially leaked objects"
  | failure t => some t
  | backend e => e.message?
  | tooDeep => some "calls nest too deeply"
  | panic t => some t

end MachineError

/-- Why a tracing intrinsic refused a request. -/
inductive TracingError
  | notTracing (backend : String)
  | schedule (e : TraceError)
  | machine (e : MachineError)
deriving DecidableEq, Repr

namespace TracingError

/-- The name of the kind of error, prefixed `Tracer.`. -/
def kind : TracingError → String
  | notTracing _ => "Tracer.NotTracing"
  | schedule e => "Tracer." ++ e.kind
  | machine e => "Tracer.Runtime." ++ e.kind

/-- The message of the error. -/
def message? : TracingError → Option String
  | notTracing name => some s!"Driver '{name}' does not trace operations"
  | schedule e => some e.message
  | machine e => e.message?

end TracingError

end QuantumRuntime
