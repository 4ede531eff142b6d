import QuantumRuntime.Yaml.Token

/-!
# Events of a YAML stream

The parser turns tokens into events: the stream and its documents open and close, and every node
of a document is a scalar, an alias, or a sequence or mapping that opens and later closes. A node
may carry an anchor and a tag; a tag here is already resolved against the document's tag
handles.
-/

namespace QuantumRuntime

namespace Yaml

/-- An event of a YAML stream. -/
inductive Event
  | streamStart
  | streamEnd
  | documentStart
  | documentEnd
  | alias (name : String)
  | scalar (anchor tag : Option String) (value : String) (style : ScalarStyle)
  | sequenceStart (anchor tag : Option String)
  | sequenceEnd
  | mappingStart (anchor tag : Option String)
  | mappingEnd
deriving DecidableEq, Repr, Inhabited

/-- The empty plain scalar that stands for a node left out. -/
def Event.emptyScalar : Event := .scalar none none "" .plain

end Yaml

end QuantumRuntime
