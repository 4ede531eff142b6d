import QuantumRuntime.Yaml.Document
import QuantumRuntime.Config.Error
import QuantumRuntime.SortedMap

/-!
# Settings documents

A settings document is a YAML mapping from field names to values. A field that is absent keeps
its default and an unknown field is ignored, whatever its value and even when it is named twice,
but a known field named twice, a value of the wrong type, a key that is not a scalar, or a
document that is not a mapping makes the document unreadable. The empty document is the empty
mapping.

The typed readers here turn a field's value into a boolean, a 32-bit integer, a text, or a table
from 32-bit integers to texts, by the rules of `Yaml.Document`.
-/

namespace QuantumRuntime

/-- The least 32-bit signed integer. -/
def int32Min : Int := -2147483648

/-- The greatest 32-bit signed integer. -/
def int32Max : Int := 2147483647

/-- Whether an integer fits in 32 signed bits. -/
def fitsInt32 (x : Int) : Bool := decide (int32Min ≤ x) && decide (x ≤ int32Max)

/-- Reads a decimal integer the way the environment settings are read: an optional `+` or `-`,
then at least one ASCII digit, with no other character, within 32 signed bits. -/
def parseInt32? (s : String) : Option Int :=
  let (negative, body) := match s.toList with
    | '-' :: rest => (true, rest)
    | '+' :: rest => (false, rest)
    | cs => (false, cs)
  if body.isEmpty ∨ !body.all Char.isDigit then none
  else
    let magnitude := body.foldl (fun acc c => acc * 10 + (c.toNat - '0'.toNat)) 0
    let value : Int := if negative then -(magnitude : Int) else magnitude
    if fitsInt32 value then some value else none

/-- The value of a field of a settings document: the document and the position of its node. -/
structure FieldValue where
  doc : Yaml.Document
  pos : Nat

namespace FieldValue

/-- A boolean value. -/
def toBool? (v : FieldValue) : Option Bool := v.doc.bool? v.pos

/-- A 32-bit integer value. -/
def toInt32? (v : FieldValue) : Option Int := do
  let i ← v.doc.int? v.pos
  if fitsInt32 i then some i else none

/-- A text value. -/
def toText? (v : FieldValue) : Option String := v.doc.text? v.pos

/-- A table from 32-bit integers to texts, sorted by key; a later key replaces an earlier one. -/
def toNameTable? (v : FieldValue) : Option (List (Int × String)) := do
  let entries ← v.doc.entries? v.pos
  entries.foldlM (fun acc (k, val) => do
    let key ← v.doc.int? k
    if !fitsInt32 key then none
    let name ← v.doc.text? val
    pure (SortedMap.set key name acc)) []

end FieldValue

/-- Reads a settings document, whose known fields are `known`, into its fields. -/
def readSettingFields (known : List String) (doc : String) :
    Except ConfigError (List (String × FieldValue)) :=
  match Yaml.Document.load doc with
  | .error _ => .error .parse
  | .ok d =>
    let fields := (d.entries? 0).bind fun entries =>
      entries.mapM fun (k, v) => (d.text? k).map (·, FieldValue.mk d v)
    match fields with
    | none => .error .parse
    | some fields =>
      let names := (fields.map (·.1)).filter known.contains
      if names.eraseDups.length = names.length then .ok fields else .error .parse

/-- Applies the reader of a field to its value when the field is present. -/
def withField {α β : Type} (fields : List (String × FieldValue)) (name : String)
    (read : FieldValue → Option α) (set : α → β → β) (s : β) : Except ConfigError β :=
  match fields.lookup name with
  | none => .ok s
  | some v =>
    match read v with
    | some a => .ok (set a s)
    | none => .error .parse

end QuantumRuntime
