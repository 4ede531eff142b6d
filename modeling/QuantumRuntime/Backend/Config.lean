import QuantumRuntime.Backend.Error

/-!
# Backend configuration

A backend is chosen by name and set up with extra settings, each a value of a JSON-like
document. A backend reads the settings it knows with a typed reader; a setting that is absent
takes the backend's default, and one of the wrong type is a configuration error.
-/

namespace QuantumRuntime

/-- A value of a backend setting. A number with a fraction or an exponent is `real`; the
readers here never need its value. -/
inductive SettingValue
  | null
  | bool (b : Bool)
  | int (i : Int)
  | real
  | text (s : String)
  | list (items : List SettingValue)
  | table (entries : List (String × SettingValue))
deriving Repr, Inhabited

/-- The name of a backend and its extra settings. -/
structure BackendConfig where
  name : String
  extra : List (String × SettingValue) := []
deriving Repr, Inhabited

namespace BackendConfig

/-- Reads a setting with a typed reader: `none` when it is absent, an error when the reader
refuses its value. -/
def setting? {α : Type} (c : BackendConfig) (key : String) (read : SettingValue → Option α) :
    Except BackendError (Option α) :=
  match c.extra.lookup key with
  | none => .ok none
  | some v =>
    match read v with
    | some a => .ok (some a)
    | none => .error (.badSetting key)

end BackendConfig

namespace SettingValue

/-- A whole number within 32 signed bits. -/
def toInt32? : SettingValue → Option Int
  | int i => if -2147483648 ≤ i ∧ i ≤ 2147483647 then some i else none
  | _ => none

/-- A text. -/
def toText? : SettingValue → Option String
  | text s => some s
  | _ => none

/-- A key of a table read as a 32-bit integer: a JSON integer numeral, with no sign but a minus,
no leading zero and nothing around it. A minus zero is a JSON real, not an integer. -/
def keyInt32? (key : String) : Option Int :=
  let (negative, digits) := match key.toList with
    | '-' :: rest => (true, rest)
    | cs => (false, cs)
  match digits with
  | [] => none
  | '0' :: _ :: _ => none
  | ds =>
    if ds.all Char.isDigit then
      let m := ds.foldl (fun acc c => acc * 10 + (c.toNat - '0'.toNat)) 0
      let v : Int := if negative then -(m : Int) else m
      if negative && m = 0 then none
      else if -2147483648 ≤ v ∧ v ≤ 2147483647 then some v else none
    else none

/-- A table from 32-bit integers to texts, sorted by key. -/
def toNameTable? : SettingValue → Option (List (Int × String))
  | table entries => do
    let pairs ← entries.mapM fun (k, v) => do
      let key ← keyInt32? k
      let name ← v.toText?
      pure (key, name)
    pure (pairs.mergeSort fun a b => decide (a.1 ≤ b.1))
  | _ => none

end SettingValue

end QuantumRuntime
