import QuantumRuntime.Machine.State
import QuantumRuntime.Decimal.Fixed

/-!
# Interned strings

Strings are interned: creating a string whose text is live gives the existing id with one more
reference, so two live strings are equal exactly when their ids are. The live strings are kept
in a table by id, and a content index maps each text to its id. A string whose count drops to
zero is removed from both, and creating its text again takes a fresh id. Strings are counted here and
not by the allocation tracker.

The conversions render numbers, booleans, Paulis, ranges, results and qubits as new strings.
-/

namespace QuantumRuntime

namespace Machine

/-- Makes a new string of a text under the next id and points the content index at it. -/
def addString (text : String) : Exec Nat := do
  let id ← freshId
  modify fun m => { m with
    byContent := (text, id) :: m.byContent.filter fun (t, _) => t ≠ text,
    strings := m.strings ++ [(id, ⟨text, 1⟩)] }
  pure id

/-- Interns a text: if the content index gives a live string for it, that string gains a
reference, and otherwise a new string is made. -/
def stringCreate (text : String) : Exec Nat := do
  let m ← get
  match m.byContent.lookup text with
  | some id =>
    if (m.strings.lookup id).isSome then
      modify fun m => { m with strings := m.strings.map fun (i, e) =>
        if i = id then (i, { e with refs := e.refs + 1 }) else (i, e) }
      pure id
    else addString text
  | none => addString text

/-- The entry of a live string. -/
def getString (id : Nat) : Exec Interned := do
  match (← get).strings.lookup id with
  | some e => pure e
  | none => throw (.released ⟨.string, id⟩)

/-- The text of a live string. -/
def stringText (id : Nat) : Exec String := do pure (← getString id).text

/-- Changes the reference count of a string; at zero the string leaves the table and the
content index. -/
def updateStringRefs (id : Option Nat) (increment : Int) : Exec Unit := do
  let some id := id | return
  if increment = 0 then return
  let e ← getString id
  let refs := (e.refs : Int) + increment
  if refs < 0 then throw (.negativeRefCount ⟨.string, id⟩ refs)
  if refs = 0 then
    modify fun m => { m with
      strings := m.strings.filter fun (i, _) => i ≠ id,
      byContent := m.byContent.filter fun (t, _) => t ≠ e.text }
  else
    modify fun m => { m with strings := m.strings.map fun (i, e) =>
      if i = id then (i, { e with refs := refs.toNat }) else (i, e) }

/-- The length of a string in bytes. -/
def stringLength (id : Nat) : Exec Nat := do pure (← stringText id).utf8ByteSize

/-- The reference count of a string. -/
def stringRefs (id : Nat) : Exec Nat := do pure (← getString id).refs

/-- Whether two strings are equal; interning makes this a comparison of ids. -/
def stringEqual (left right : Nat) : Bool := left = right

/-- Interns the concatenation of two strings. -/
def stringConcat (left right : Nat) : Exec Nat := do
  let l ← stringText left
  let r ← stringText right
  stringCreate (l ++ r)

/-- Interns the decimal text of an integer. -/
def intToString (value : Int) : Exec Nat := stringCreate (toString value)

/-- Interns the fixed-point text of a float. -/
def doubleToString (value : Float) : Exec Nat := stringCreate (FixedFormat.numbers.render value)

/-- Interns `true` or `false`. -/
def boolToString (value : Bool) : Exec Nat := stringCreate (if value then "true" else "false")

/-- Interns the name of a Pauli. -/
def pauliToString (p : Pauli) : Exec Nat := stringCreate p.name

/-- Interns the text of a range. -/
def rangeToString (r : Range) : Exec Nat := stringCreate r.text

/-- Interns `Zero` or `One` for a result; a pending result is refused. -/
def resultToString (r : ResultHandle) : Exec Nat := do
  match ← queryBackend fun b => b.outcome r with
  | .zero => stringCreate "Zero"
  | .one => stringCreate "One"
  | .pending => throw .resultPending

/-- Interns the backend's description of a qubit. -/
def qubitToString (q : Qubit) : Exec Nat := do stringCreate ((← get).backend.qubitText q)

end Machine

end QuantumRuntime
