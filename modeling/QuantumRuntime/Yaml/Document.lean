import QuantumRuntime.Yaml.Parser

/-!
# Loaded documents and typed reading

Settings are read from the single document of a stream. A stream of no document at all (only
blanks and comments) reads as an empty document; a stream of two or more documents is refused.

Loading keeps the node events of the document in order and numbers its anchors: the anchor
defined when `k` distinct names are known gets number `k`, and the number leads to the position
of the anchored node; an alias becomes the number of the anchor its name last had. An alias to a
name not defined before it is refused.

Typed reading takes a node by position; an alias reads as its anchored node.

* A text is any scalar, however written, as its text.
* A boolean or an integer is a plain scalar, whatever its tag, or a literal block scalar tagged
  `!!bool` or `!!int`. A boolean is `true` or `false` with an optional capital or all capitals;
  an integer is decimal (no leading zero), or `0x`, `0o`, `0b` digits, with an optional sign, and
  fits in 64 bits.
* A mapping gives its entries; the empty document and the empty plain scalar read as the empty
  mapping.
-/

namespace QuantumRuntime

namespace Yaml

/-- A node event of a loaded document. `void` is the empty document. -/
inductive Item
  | void
  | scalar (tag : Option String) (value : String) (style : ScalarStyle)
  | alias (id : Nat)
  | sequenceStart
  | sequenceEnd
  | mappingStart
  | mappingEnd
deriving DecidableEq, Repr, Inhabited

/-- A loaded document: its node events, and the position each anchor number leads to. -/
structure Document where
  items : Array Item
  targets : List (Nat × Nat)
deriving Repr, Inhabited

/-- Sets the value of a key in an association list, in place when the key is there. -/
def setAssoc {α β : Type} [BEq α] (xs : List (α × β)) (k : α) (v : β) : List (α × β) :=
  if (xs.lookup k).isSome then xs.map fun (k', v') => if k' == k then (k', v) else (k', v')
  else xs ++ [(k, v)]

namespace Document

/-- Loads the node events of one document, numbering anchors and resolving alias names. -/
def ofEvents (events : List Event) : Except SyntaxError Document :=
  let rec go : List Event → List (String × Nat) → Document → Except SyntaxError Document
    | [], _, d => .ok d
    | e :: rest, anchors, d =>
      let pos := d.items.size
      let mark (anchor : Option String) : List (String × Nat) × List (Nat × Nat) :=
        match anchor with
        | some name =>
          let id := anchors.length
          (setAssoc anchors name id, setAssoc d.targets id pos)
        | none => (anchors, d.targets)
      let add (anchor : Option String) (i : Item) : Except SyntaxError Document :=
        let (anchors, targets) := mark anchor
        go rest anchors { items := d.items.push i, targets }
      match e with
      | .alias name =>
        match anchors.lookup name with
        | some id => go rest anchors { d with items := d.items.push (.alias id) }
        | none => .error ⟨"an alias of an unknown anchor", {}⟩
      | .scalar anchor tag value style => add anchor (.scalar tag value style)
      | .sequenceStart anchor _ => add anchor .sequenceStart
      | .mappingStart anchor _ => add anchor .mappingStart
      | .sequenceEnd => go rest anchors { d with items := d.items.push .sequenceEnd }
      | .mappingEnd => go rest anchors { d with items := d.items.push .mappingEnd }
      | _ => go rest anchors d
  go events [] { items := #[], targets := [] }

/-- The node events of each document of a stream's events. -/
def documents (events : List Event) : List (List Event) :=
  let rec go : List Event → Option (List Event) → List (List Event) → List (List Event)
    | [], _, acc => acc.reverse
    | .documentStart :: rest, _, acc => go rest (some []) acc
    | .documentEnd :: rest, some cur, acc => go rest none (cur.reverse :: acc)
    | e :: rest, some cur, acc => go rest (some (e :: cur)) acc
    | _ :: rest, none, acc => go rest none acc
  go events none []

/-- Loads the single document of a stream. -/
def load (input : String) : Except SyntaxError Document := do
  let events ← parseStream input
  match documents events with
  | [] => pure { items := #[.void], targets := [] }
  | [doc] => ofEvents doc
  | _ => throw ⟨"a stream of more than one document", {}⟩

/-- The position of the node an item stands for: an alias stands for its anchored node. -/
def resolve (d : Document) (i : Nat) : Nat :=
  match d.items[i]? with
  | some (.alias id) => (d.targets.lookup id).getD i
  | _ => i

/-- The position after the node at `i`. -/
def nodeEnd (d : Document) (i : Nat) : Nat :=
  let rec go : Nat → Nat → Nat → Nat
    | 0, j, _ => j
    | fuel + 1, j, depth =>
      match d.items[j]? with
      | some .sequenceStart | some .mappingStart => go fuel (j + 1) (depth + 1)
      | some .sequenceEnd | some .mappingEnd =>
        if depth ≤ 1 then j + 1 else go fuel (j + 1) (depth - 1)
      | some _ => go fuel (j + 1) depth
      | none => j
  match d.items[i]? with
  | some .sequenceStart | some .mappingStart => go d.items.size (i + 1) 1
  | _ => i + 1

/-- The scalar a node is, after following an alias. -/
def scalar? (d : Document) (i : Nat) : Option (Option String × String × ScalarStyle) :=
  match d.items[d.resolve i]? with
  | some (.scalar tag value style) => some (tag, value, style)
  | _ => none

/-- A node read as a text: any scalar. -/
def text? (d : Document) (i : Nat) : Option String :=
  (d.scalar? i).map fun (_, value, _) => value

/-- The text of a scalar that may stand for a value of the core type named `type`: a plain
scalar, or a literal block scalar tagged with that type. -/
def typedText? (d : Document) (type : String) (i : Nat) : Option String :=
  match d.scalar? i with
  | some (_, value, .plain) => some value
  | some (some tag, value, .literal) => if tag = "tag:yaml.org,2002:" ++ type then some value
    else none
  | _ => none

/-- The boolean a text spells. -/
def boolOfText? : String → Option Bool
  | "true" | "True" | "TRUE" => some true
  | "false" | "False" | "FALSE" => some false
  | _ => none

/-- A node read as a boolean. -/
def bool? (d : Document) (i : Nat) : Option Bool := d.typedText? "bool" i >>= boolOfText?

/-- Reads digits in a base, with an optional sign in front, within 64 signed bits. -/
def int64InBase? (base : Nat) (s : List Char) : Option Int :=
  let (negative, digits) := match s with
    | '+' :: rest => (false, rest)
    | '-' :: rest => (true, rest)
    | cs => (false, cs)
  if digits.isEmpty then none
  else do
    let m ← digits.foldlM (fun acc ch => do
      let v ← hexValue? ch
      if v < base then some (acc * base + v) else none) 0
    let v : Int := if negative then -(m : Int) else m
    if -9223372036854775808 ≤ v ∧ v ≤ 9223372036854775807 then some v else none

/-- A number read in a base stays within 64 signed bits. -/
theorem int64InBase?_range {base : Nat} {s : List Char} {v : Int}
    (h : int64InBase? base s = some v) : -9223372036854775808 ≤ v ∧ v ≤ 9223372036854775807 := by
  unfold int64InBase? at h
  split at h
  simp only [List.isEmpty_iff, Option.bind_eq_bind] at h
  split at h
  · cases h
  · rw [Option.bind_eq_some_iff] at h
    obtain ⟨_, _, hv⟩ := h
    have within : ∀ w : Int,
        (if -9223372036854775808 ≤ w ∧ w ≤ 9223372036854775807 then some w else none) = some v →
          -9223372036854775808 ≤ v ∧ v ≤ 9223372036854775807 := by
      intro w hw
      split at hw
      · cases hw
        assumption
      · cases hw
    exact within _ hv

/-- Whether a text is a leading zero followed by more digits, with an optional sign: such a text
is not a number. -/
def zeroPadded (s : List Char) : Bool :=
  let body := match s with
    | '+' :: rest | '-' :: rest => rest
    | cs => cs
  match body with
  | '0' :: d :: rest => (d :: rest).all Char.isDigit
  | _ => false

/-- The integer a text spells: `0x`, `0o` or `0b` digits after an optional sign, or decimal
digits after an optional sign without a leading zero; within 64 signed bits. -/
def intOfText? (text : String) : Option Int :=
  let s := text.toList
  let unsigned := match s with
    | '+' :: rest => rest
    | cs => cs
  let signed := match s with
    | '+' :: c :: _ => c = '+' || c = '-'
    | _ => false
  let startsSigned : List Char → Bool
    | c :: _ => c = '+' || c = '-'
    | [] => false
  let radix (p : Char) (base : Nat) : Option (Option Int) :=
    match unsigned with
    | '0' :: q :: rest =>
      if q = p then
        if startsSigned rest then some none
        else (int64InBase? base rest).map some
      else none
    | _ =>
      match s with
      | '-' :: '0' :: q :: rest => if q = p then (int64InBase? base ('-' :: rest)).map some else none
      | _ => none
  if signed then none
  else match radix 'x' 16 with
    | some r => r
    | none => match radix 'o' 8 with
      | some r => r
      | none => match radix 'b' 2 with
        | some r => r
        | none => if zeroPadded s then none else int64InBase? 10 unsigned

/-- A node read as an integer of 64 bits. -/
def int? (d : Document) (i : Nat) : Option Int := d.typedText? "int" i >>= intOfText?

/-- A node read as a mapping: the positions of its keys and values. The empty document and the
empty plain scalar are the empty mapping. -/
def entries? (d : Document) (i : Nat) : Option (List (Nat × Nat)) :=
  let j := d.resolve i
  let rec go : Nat → Nat → List (Nat × Nat) → Option (List (Nat × Nat))
    | 0, _, _ => none
    | fuel + 1, k, acc =>
      match d.items[k]? with
      | some .mappingEnd => some acc.reverse
      | some _ =>
        let v := d.nodeEnd k
        go fuel (d.nodeEnd v) ((k, v) :: acc)
      | none => none
  match d.items[j]? with
  | some .mappingStart => go d.items.size (j + 1) []
  | some .void => some []
  | some (.scalar _ "" .plain) => some []
  | _ => none

end Document

end Yaml

end QuantumRuntime
