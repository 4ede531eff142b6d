import QuantumRuntime.Callable.Routine
import QuantumRuntime.Machine.Counts
import QuantumRuntime.Machine.Error

/-!
# Callable objects and functors

A callable is a function table with an optional capture tuple, two optional capture hooks, the
functor bits applied to it and its controlled depth. The applied bits pick the specialization
that runs: applying `Adjoint` toggles bit 0, applying `Controlled` sets bit 1 and deepens the
nesting of control arrays by one. A functor whose specialization is missing is refused; the
adjoint's bit is then toggled back, while the controlled bit is cleared again only on a callable
that was never controlled.
-/

namespace QuantumRuntime

/-- A callable object. -/
structure Callable where
  counts : Counts := {}
  table : FunctionTable Routine
  hooks : Option Hook × Option Hook := (none, none)
  capture : Option Nat := none
  applied : Nat := 0
  depth : Nat := 0
deriving DecidableEq, Repr, Inhabited

namespace Callable

/-- The hook at an index: `0` for reference counts, `1` for alias counts. -/
def hook? (c : Callable) : Nat → Except MachineError (Option Hook)
  | 0 => .ok c.hooks.1
  | 1 => .ok c.hooks.2
  | index => .error (.indexOutOfBounds index 2)

/-- Applies the adjoint functor in place, giving the callable it leaves and the outcome: bit 0 is
toggled, and toggled back when the specialization it then selects is missing. -/
def makeAdjoint (c : Callable) : Callable × Except MachineError Unit :=
  let applied := c.applied ^^^ 1
  if (c.table.get applied).isSome then ({ c with applied }, .ok ())
  else ({ c with applied := applied ^^^ 1 }, .error (.missingFunctor .adjoint))

/-- Applies the controlled functor in place, giving the callable it leaves and the outcome: bit 1
is set and the nesting deepens by one. When the specialization it then selects is missing, bit 1
is cleared again only if the callable was never controlled before. -/
def makeControlled (c : Callable) : Callable × Except MachineError Unit :=
  let applied := c.applied ||| 2
  if (c.table.get applied).isSome then ({ c with applied, depth := c.depth + 1 }, .ok ())
  else
    ({ c with applied := if c.depth = 0 then applied ^^^ 2 else applied },
      .error (.missingFunctor .controlled))

@[simp] theorem counts_makeAdjoint (c : Callable) : c.makeAdjoint.1.counts = c.counts := by
  unfold makeAdjoint
  dsimp only
  split <;> rfl

@[simp] theorem counts_makeControlled (c : Callable) : c.makeControlled.1.counts = c.counts := by
  unfold makeControlled
  dsimp only
  split <;> rfl

/-- The routine the applied functors select. -/
def routine (c : Callable) : Except MachineError Routine :=
  match c.table.get c.applied with
  | some r => .ok r
  | none => .error (.missingFunctor (Specialization.ofBits c.applied))

end Callable

end QuantumRuntime
