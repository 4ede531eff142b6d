import QuantumRuntime.Machine.Strings

/-!
# Messages and failure

A message is a string followed by a newline, written to the innermost sink; a sink that refuses
the write makes the message fail. A program fails with the text of a string. Output can be
redirected into a sink for as long as a body runs: the sink is restored whatever the body gives,
and an error of the body wins over an error of the restore.
-/

namespace QuantumRuntime

namespace Machine

/-- Pushes a sink; gives its number and the token that restores it. -/
def redirectOutput (s : Sink) : Exec (Nat × Redirect) :=
  modifyGet fun m => let (r, o) := m.output.push s; (r, { m with output := o })

/-- Restores a redirect; gives the sink popped. -/
def restoreOutput (r : Redirect) : Exec Nat := do
  let (sink, o) ← check ((← get).output.restore r)
  modify fun m => { m with output := o }
  pure sink

/-- Writes a string and a newline to the innermost sink. -/
def message (id : Nat) : Exec Unit := do
  let text ← stringText id
  let o ← check ((← get).output.write (text ++ "\n"))
  modify fun m => { m with output := o }

/-- Fails with the text of a string. -/
def failWith {α : Type} (id : Nat) : Exec α := do throw (.failure (← stringText id))

/-- Runs a body with output sent to a sink, then restores the sink whatever the body gives.
Gives the outcome of the body and, if the restore succeeds, the number of the sink. -/
def underRedirect {α : Type} (s : Sink) (body : Exec α) :
    Exec (Except MachineError α × Except MachineError Nat) := do
  let (sink, r) ← redirectOutput s
  let outcome ← attempt body
  let restored ← attempt (restoreOutput r)
  pure (outcome, restored.map fun _ => sink)

/-- Runs a body with output sent to a sink, then restores it. Gives the body's value and the
number of the sink. An error of the body wins over an error of the restore. -/
def withOutput {α : Type} (s : Sink) (body : Exec α) : Exec (α × Nat) := do
  let (outcome, restored) ← underRedirect s body
  let a ← check outcome
  let sink ← check restored
  pure (a, sink)

end Machine

end QuantumRuntime
