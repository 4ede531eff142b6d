import QuantumRuntime.Handle

/-!
# Backend errors

What a backend can refuse: a backend name nobody registered, a qubit it never issued, result
values it cannot observe, a byte that encodes no Pauli operator, a feature it lacks, settings it
cannot use, or a failure of its own. A setting of the wrong type is a configuration error whose
detail comes from the settings decoder and is not kept.
-/

namespace QuantumRuntime

/-- Why a backend refused a request. -/
inductive BackendError
  | unavailable (detail : String)
  | unknownQubit (q : Qubit)
  | resultsUnavailable (detail : String)
  | invalidPauli (byte : Nat)
  | unsupported (detail : String)
  | configuration (detail : String)
  | badSetting (key : String)
  | failure (detail : String)
deriving DecidableEq, Repr

namespace BackendError

/-- The name of the kind of error. -/
def kind : BackendError → String
  | unavailable _ => "DriverUnavailable"
  | unknownQubit _ => "UnknownQubit"
  | resultsUnavailable _ => "ResultsUnavailable"
  | invalidPauli _ => "InvalidPauli"
  | unsupported _ => "Unsupported"
  | configuration _ => "Configuration"
  | badSetting _ => "Configuration"
  | failure _ => "Driver"

/-- The message of the error; a setting of the wrong type has none of its own. -/
def message? : BackendError → Option String
  | unavailable d => some ("Driver not available: " ++ d)
  | unknownQubit q => some ("Unknown qubit " ++ q.text)
  | resultsUnavailable d => some ("Results unavailable: " ++ d)
  | invalidPauli b => some ("Invalid Pauli encoding: " ++ toString b)
  | unsupported d => some ("Unsupported feature: " ++ d)
  | configuration d => some ("Configuration error: " ++ d)
  | badSetting _ => none
  | failure d => some ("Driver error: " ++ d)

end BackendError

/-- The operator a byte encodes, or the error for a byte that encodes none. -/
def Pauli.ofByte (b : Nat) : Except BackendError Pauli :=
  match Pauli.ofByte? b with
  | some p => .ok p
  | none => .error (.invalidPauli b)

end QuantumRuntime
