import QuantumRuntime.Yaml.Cursor

/-!
# Tokens of a YAML stream

The scanner cuts a stream into tokens: the stream's ends, directives, document markers, the
indicators of block and flow collections, anchors, aliases, tags and scalars. Block collections
have no brackets in the text; the scanner makes their start and end tokens from the indentation.
A scalar token remembers how it was written.

A stream that cannot be scanned or parsed is refused with a `SyntaxError` that says where.
-/

namespace QuantumRuntime

namespace Yaml

/-- How a scalar was written. -/
inductive ScalarStyle
  | plain
  | singleQuoted
  | doubleQuoted
  | literal
  | folded
deriving DecidableEq, Repr, Inhabited

/-- A token of a YAML stream. -/
inductive Token
  | streamStart
  | streamEnd
  | versionDirective (major minor : Nat)
  | tagDirective (handle tagPrefix : String)
  | documentStart
  | documentEnd
  | blockSequenceStart
  | blockMappingStart
  | blockEnd
  | flowSequenceStart
  | flowSequenceEnd
  | flowMappingStart
  | flowMappingEnd
  | blockEntry
  | flowEntry
  | key
  | value
  | alias (name : String)
  | anchor (name : String)
  | tag (handle suffix : String)
  | scalar (text : String) (style : ScalarStyle)
deriving DecidableEq, Repr, Inhabited

/-- Why a stream was refused, and where. -/
structure SyntaxError where
  problem : String
  mark : Mark
deriving DecidableEq, Repr, Inhabited

end Yaml

end QuantumRuntime
