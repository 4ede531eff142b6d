import QuantumRuntime.Callable.Table

/-!
# Routines and capture hooks

The code a callable runs is one of a fixed set of routines, named as programs name them:

* `body`, `adjoint`, `controlled` and `controlled_adjoint` mark the result tuple with the byte
  `B`, `A`, `C` or `D`;
* `controls` reports the control qubits and the target of its arguments;
* `fail` fails;
* `delegate` invokes the callable held in its capture;
* `release_args` drops a reference to its argument tuple;
* `message` sends the message held in its capture;
* `trace` traces a single-qubit operation described by its capture.

A callable may also carry two hooks for its capture, one run when the capture's reference count
changes and one when its alias count does: `capture_rc` and `capture_alias` pass the change on
to the capture tuple, and `fail` refuses it.
-/

namespace QuantumRuntime

/-- The code of a callable's specialization. -/
inductive Routine
  | mark (s : Specialization)
  | controls
  | fail
  | delegate
  | releaseArgs
  | message
  | trace
deriving DecidableEq, Repr, Inhabited

namespace Routine

/-- The name of a routine. -/
def name : Routine → String
  | mark .body => "body"
  | mark .adjoint => "adjoint"
  | mark .controlled => "controlled"
  | mark .controlledAdjoint => "controlled_adjoint"
  | controls => "controls"
  | fail => "fail"
  | delegate => "delegate"
  | releaseArgs => "release_args"
  | message => "message"
  | trace => "trace"

/-- Every routine. -/
def all : List Routine :=
  [mark .body, mark .adjoint, mark .controlled, mark .controlledAdjoint, controls, fail, delegate,
    releaseArgs, message, trace]

/-- The routine of a name. -/
def ofName? (n : String) : Option Routine := all.find? fun r => r.name = n

/-- The byte a marking routine writes: `B`, `A`, `C` or `D`. -/
def markByte : Specialization → UInt8
  | .body => 0x42
  | .adjoint => 0x41
  | .controlled => 0x43
  | .controlledAdjoint => 0x44

end Routine

/-- A hook run when the count of a callable's capture changes. -/
inductive Hook
  | shareRefs
  | shareAliases
  | fail
deriving DecidableEq, Repr, Inhabited

namespace Hook

/-- The name of a hook. -/
def name : Hook → String
  | shareRefs => "capture_rc"
  | shareAliases => "capture_alias"
  | fail => "fail"

/-- The hook of a name. -/
def ofName? (n : String) : Option Hook := [shareRefs, shareAliases, fail].find? fun h => h.name = n

end Hook

end QuantumRuntime
