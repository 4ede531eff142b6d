/-!
# Function tables

A callable carries up to four specializations, indexed by the functors applied to it: bit 0 for
the adjoint and bit 1 for the controlled functor, so that `0` is the body, `1` the adjoint, `2` the
controlled and `3` the controlled adjoint specialization. Indices past three hold nothing.
-/

namespace QuantumRuntime

/-- The four specializations of a callable. -/
inductive Specialization
  | body
  | adjoint
  | controlled
  | controlledAdjoint
deriving DecidableEq, Repr, Inhabited

namespace Specialization

/-- The specialization that a set of functor bits selects. -/
def ofBits : Nat → Specialization
  | 0 => body
  | 1 => adjoint
  | 2 => controlled
  | _ => controlledAdjoint

/-- The name of a specialization. -/
def name : Specialization → String
  | body => "body"
  | adjoint => "adjoint"
  | controlled => "controlled"
  | controlledAdjoint => "controlled adjoint"

end Specialization

/-- The entries of a callable's specializations. -/
structure FunctionTable (α : Type) where
  body : Option α := none
  adjoint : Option α := none
  controlled : Option α := none
  controlledAdjoint : Option α := none
deriving DecidableEq, Repr, Inhabited

namespace FunctionTable

variable {α : Type}

/-- A table with only a body. -/
def new (body : α) : FunctionTable α := { body := some body }

/-- The entry at an index of functor bits. -/
def get (t : FunctionTable α) : Nat → Option α
  | 0 => t.body
  | 1 => t.adjoint
  | 2 => t.controlled
  | 3 => t.controlledAdjoint
  | _ => none

/-- The names of the specializations present, in index order. -/
def present (t : FunctionTable α) : List String :=
  ((List.range 4).filter fun i => (t.get i).isSome).map fun i => (Specialization.ofBits i).name

/-- The debugging text of a table: its present specializations as a list of quoted names. -/
def describe (t : FunctionTable α) : String :=
  "FunctionTable([" ++ ", ".intercalate (t.present.map fun n => "\"" ++ n ++ "\"") ++ "])"

end FunctionTable

end QuantumRuntime
