import QuantumRuntime.Yaml.Scanner
import QuantumRuntime.Yaml.Event

/-!
# The YAML parser

The parser reads tokens and gives events, one per step, following the grammar of YAML streams:
a stream is a run of documents; a document is optional directives, an optional `---`, one node
and an optional `...`; a node is an alias, or optional properties (an anchor and a tag, in either
order) before a scalar, a flow or block collection, or nothing at all.

Where the grammar lets a node be left out (a key without a value, a `-` without an entry, a
document without content), the parser gives the empty plain scalar. A block sequence may stand
at the indentation of the mapping it is the value of.

The parser is a state machine with a stack of states to return to, one per open collection. A
tag is resolved against the handles of its document: `!` and `!!` (`tag:yaml.org,2002:`) unless
a `%TAG` directive redefines them; an undefined handle is refused.
-/

namespace QuantumRuntime

namespace Yaml

/-- Where the parser stands in the grammar. -/
inductive ParseState
  | streamStart
  | implicitDocumentStart
  | documentStart
  | documentContent
  | documentEnd
  | blockNode
  | blockNodeOrIndentlessSequence
  | flowNode
  | blockSequenceFirstEntry
  | blockSequenceEntry
  | indentlessSequenceEntry
  | blockMappingFirstKey
  | blockMappingKey
  | blockMappingValue
  | flowSequenceFirstEntry
  | flowSequenceEntry
  | flowSequenceEntryMappingKey
  | flowSequenceEntryMappingValue
  | flowSequenceEntryMappingEnd
  | flowMappingFirstKey
  | flowMappingKey
  | flowMappingValue
  | flowMappingEmptyValue
  | finished
deriving DecidableEq, Repr, Inhabited

/-- The state of the parser: the tokens left, the current state, the states to return to, and
the tag handles of the current document. -/
structure Parser where
  tokens : List Token
  state : ParseState := .streamStart
  states : List ParseState := []
  tagDirectives : List (String × String) := []
deriving Repr, Inhabited

namespace Parser

/-- The next token; past the last one, the stream end. -/
def peek (p : Parser) : Token := p.tokens.headD .streamEnd

/-- Consumes the next token. -/
def skip (p : Parser) : Parser := { p with tokens := p.tokens.tail }

/-- Returns to the state on top of the stack. -/
def pop (p : Parser) : Parser :=
  { p with state := p.states.headD .finished, states := p.states.tail }

/-- Remembers a state to return to. -/
def push (p : Parser) (s : ParseState) : Parser := { p with states := s :: p.states }

/-- Moves to a state. -/
def goTo (p : Parser) (s : ParseState) : Parser := { p with state := s }

/-- The refusal at the next token. -/
def refuse {α : Type} (_ : Parser) (problem : String) : Except SyntaxError α :=
  .error ⟨problem, {}⟩

/-- The handles every document knows. -/
def defaultTagDirectives : List (String × String) :=
  [("!", "!"), ("!!", "tag:yaml.org,2002:")]

/-- Reads the directives before a document: at most one `%YAML`, of version 1.1 or 1.2, and
`%TAG` directives of distinct handles; then adds the default handles not redefined. -/
def processDirectives (p : Parser) : Except SyntaxError Parser :=
  let rec go : Nat → Bool → Parser → Except SyntaxError Parser
    | 0, _, p => .ok p
    | fuel + 1, seenVersion, p =>
      match p.peek with
      | .versionDirective major minor =>
        if seenVersion then p.refuse "a second %YAML directive"
        else if major ≠ 1 || (minor ≠ 1 && minor ≠ 2) then p.refuse "an incompatible YAML version"
        else go fuel true p.skip
      | .tagDirective handle tagPrefix =>
        if (p.tagDirectives.lookup handle).isSome then p.refuse "a second %TAG directive"
        else go fuel seenVersion
          { p.skip with tagDirectives := p.tagDirectives ++ [(handle, tagPrefix)] }
      | _ => .ok p
  (go (p.tokens.length + 1) false p).map fun p =>
    { p with tagDirectives := p.tagDirectives ++ defaultTagDirectives.filter fun (h, _) =>
        (p.tagDirectives.lookup h).isNone }

/-- Resolves a tag's handle against the document's handles. -/
def resolveTag (p : Parser) : Option (String × String) → Except SyntaxError (Option String)
  | none => .ok none
  | some (handle, suffix) =>
    if handle.isEmpty then .ok (some suffix)
    else match p.tagDirectives.lookup handle with
      | some tagPrefix => .ok (some (tagPrefix ++ suffix))
      | none => p.refuse "an undefined tag handle"

/-- Reads the properties of a node: an anchor and a tag, in either order. -/
def properties (p : Parser) : Option String × Option (String × String) × Parser :=
  match p.peek with
  | .anchor a =>
    match p.skip.peek with
    | .tag h s => (some a, some (h, s), p.skip.skip)
    | _ => (some a, none, p.skip)
  | .tag h s =>
    match p.skip.peek with
    | .anchor a => (some a, some (h, s), p.skip.skip)
    | _ => (none, some (h, s), p.skip)
  | _ => (none, none, p)

/-- Reads a node, or its start when it is a collection. In block context (`block`) block
collections may start; `indentless` lets a block sequence start without deeper indentation. -/
def parseNode (p : Parser) (block indentless : Bool) : Except SyntaxError (Event × Parser) := do
  if let .alias name := p.peek then return (.alias name, p.skip.pop)
  let (anchor, tagParts, p) := p.properties
  let tag ← p.resolveTag tagParts
  match p.peek with
  | .blockEntry =>
    if indentless then pure (.sequenceStart anchor tag, p.goTo .indentlessSequenceEntry)
    else if anchor.isSome || tag.isSome then pure (.scalar anchor tag "" .plain, p.pop)
    else p.refuse "a node without content"
  | .scalar value style => pure (.scalar anchor tag value style, p.skip.pop)
  | .flowSequenceStart => pure (.sequenceStart anchor tag, p.goTo .flowSequenceFirstEntry)
  | .flowMappingStart => pure (.mappingStart anchor tag, p.goTo .flowMappingFirstKey)
  | .blockSequenceStart =>
    if block then pure (.sequenceStart anchor tag, p.goTo .blockSequenceFirstEntry)
    else if anchor.isSome || tag.isSome then pure (.scalar anchor tag "" .plain, p.pop)
    else p.refuse "a node without content"
  | .blockMappingStart =>
    if block then pure (.mappingStart anchor tag, p.goTo .blockMappingFirstKey)
    else if anchor.isSome || tag.isSome then pure (.scalar anchor tag "" .plain, p.pop)
    else p.refuse "a node without content"
  | _ =>
    if anchor.isSome || tag.isSome then pure (.scalar anchor tag "" .plain, p.pop)
    else p.refuse "a node without content"

/-- Whether a token is one of the given kinds, compared by constructor. -/
def isTokenIn (t : Token) (kinds : List Token) : Bool := kinds.contains t

/-- Starts a document, or ends the stream. `implicit` is set before the first document, which
may go without `---`; later documents may be preceded by extra `...` markers. -/
def documentStartStep (p : Parser) (implicit : Bool) : Except SyntaxError (Event × Parser) := do
  let p := if implicit then p else
    let rec dropEnds : List Token → List Token
      | .documentEnd :: rest => dropEnds rest
      | ts => ts
    { p with tokens := dropEnds p.tokens }
  let opensExplicitly := match p.peek with
    | .versionDirective _ _ | .tagDirective _ _ | .documentStart | .streamEnd => true
    | _ => false
  if implicit && !opensExplicitly then
    let p ← p.processDirectives
    pure (.documentStart, (p.push .documentEnd).goTo .blockNode)
  else if p.peek ≠ .streamEnd then
    let p ← p.processDirectives
    if p.peek ≠ .documentStart then p.refuse "a document without its '---'"
    else pure (.documentStart, ((p.push .documentEnd).goTo .documentContent).skip)
  else pure (.streamEnd, (p.goTo .finished).skip)

/-- One step of the parser: the next event and the state after it. -/
def step (p : Parser) : Except SyntaxError (Event × Parser) :=
  match p.state with
  | .streamStart =>
    if p.peek = .streamStart then pure (.streamStart, (p.goTo .implicitDocumentStart).skip)
    else p.refuse "a stream without its start"
  | .implicitDocumentStart => p.documentStartStep true
  | .documentStart => p.documentStartStep false
  | .documentContent =>
    match p.peek with
    | .versionDirective _ _ | .tagDirective _ _ | .documentStart | .documentEnd | .streamEnd =>
      pure (Event.emptyScalar, p.pop)
    | _ => p.parseNode true false
  | .documentEnd =>
    let p := if p.peek = .documentEnd then p.skip else p
    pure (.documentEnd, { p with tagDirectives := [], state := .documentStart })
  | .blockNode => p.parseNode true false
  | .blockNodeOrIndentlessSequence => p.parseNode true true
  | .flowNode => p.parseNode false false
  | .blockSequenceFirstEntry => blockSequenceEntry p.skip
  | .blockSequenceEntry => blockSequenceEntry p
  | .indentlessSequenceEntry =>
    if p.peek = .blockEntry then
      let p := p.skip
      if isTokenIn p.peek [.blockEntry, .key, .value, .blockEnd] then
        pure (Event.emptyScalar, p.goTo .indentlessSequenceEntry)
      else (p.push .indentlessSequenceEntry).parseNode true false
    else pure (.sequenceEnd, p.pop)
  | .blockMappingFirstKey => blockMappingKey p.skip
  | .blockMappingKey => blockMappingKey p
  | .blockMappingValue =>
    if p.peek = .value then
      let p := p.skip
      if isTokenIn p.peek [.key, .value, .blockEnd] then
        pure (Event.emptyScalar, p.goTo .blockMappingKey)
      else (p.push .blockMappingKey).parseNode true true
    else pure (Event.emptyScalar, p.goTo .blockMappingKey)
  | .flowSequenceFirstEntry => flowSequenceEntry p.skip true
  | .flowSequenceEntry => flowSequenceEntry p false
  | .flowSequenceEntryMappingKey =>
    if isTokenIn p.peek [.value, .flowEntry, .flowSequenceEnd] then
      pure (Event.emptyScalar, p.goTo .flowSequenceEntryMappingValue)
    else (p.push .flowSequenceEntryMappingValue).parseNode false false
  | .flowSequenceEntryMappingValue =>
    if p.peek = .value then
      let p := p.skip
      if isTokenIn p.peek [.flowEntry, .flowSequenceEnd] then
        pure (Event.emptyScalar, p.goTo .flowSequenceEntryMappingEnd)
      else (p.push .flowSequenceEntryMappingEnd).parseNode false false
    else pure (Event.emptyScalar, p.goTo .flowSequenceEntryMappingEnd)
  | .flowSequenceEntryMappingEnd => pure (.mappingEnd, p.goTo .flowSequenceEntry)
  | .flowMappingFirstKey => flowMappingKey p.skip true
  | .flowMappingKey => flowMappingKey p false
  | .flowMappingValue =>
    if p.peek = .value then
      let p := p.skip
      if isTokenIn p.peek [.flowEntry, .flowMappingEnd] then
        pure (Event.emptyScalar, p.goTo .flowMappingKey)
      else (p.push .flowMappingKey).parseNode false false
    else pure (Event.emptyScalar, p.goTo .flowMappingKey)
  | .flowMappingEmptyValue => pure (Event.emptyScalar, p.goTo .flowMappingKey)
  | .finished => p.refuse "a stream read past its end"
where
  /-- An entry of a block sequence, or its end. -/
  blockSequenceEntry (p : Parser) : Except SyntaxError (Event × Parser) :=
    match p.peek with
    | .blockEntry =>
      let p := p.skip
      if isTokenIn p.peek [.blockEntry, .blockEnd] then
        pure (Event.emptyScalar, p.goTo .blockSequenceEntry)
      else (p.push .blockSequenceEntry).parseNode true false
    | .blockEnd => pure (.sequenceEnd, p.pop.skip)
    | _ => p.refuse "a block sequence entry without its '-'"
  /-- A key of a block mapping, or its end. -/
  blockMappingKey (p : Parser) : Except SyntaxError (Event × Parser) :=
    match p.peek with
    | .key =>
      let p := p.skip
      if isTokenIn p.peek [.key, .value, .blockEnd] then
        pure (Event.emptyScalar, p.goTo .blockMappingValue)
      else (p.push .blockMappingValue).parseNode true true
    | .blockEnd => pure (.mappingEnd, p.pop.skip)
    | _ => p.refuse "a block mapping without its key"
  /-- An entry of a flow sequence, or its end; an entry `k: v` is a one-pair mapping. -/
  flowSequenceEntry (p : Parser) (first : Bool) : Except SyntaxError (Event × Parser) := do
    let p ← if first || p.peek = .flowSequenceEnd then pure p
      else if p.peek = .flowEntry then pure p.skip
      else p.refuse "a flow sequence without ',' or ']'"
    match p.peek with
    | .flowSequenceEnd => pure (.sequenceEnd, p.pop.skip)
    | .key => pure (.mappingStart none none, (p.goTo .flowSequenceEntryMappingKey).skip)
    | _ => (p.push .flowSequenceEntry).parseNode false false
  /-- A key of a flow mapping, or its end. -/
  flowMappingKey (p : Parser) (first : Bool) : Except SyntaxError (Event × Parser) := do
    let p ← if first || p.peek = .flowMappingEnd then pure p
      else if p.peek = .flowEntry then pure p.skip
      else p.refuse "a flow mapping without its ',' or closing brace"
    match p.peek with
    | .flowMappingEnd => pure (.mappingEnd, p.pop.skip)
    | .key =>
      let p := p.skip
      if isTokenIn p.peek [.value, .flowEntry, .flowMappingEnd] then
        pure (Event.emptyScalar, p.goTo .flowMappingValue)
      else (p.push .flowMappingValue).parseNode false false
    | _ => (p.push .flowMappingEmptyValue).parseNode false false

end Parser

/-- Parses tokens into the events of the whole stream. A step gives an event and consumes at most
a bounded number of steps without a token, so eight rounds per token bound the run. -/
def parseTokens (tokens : List Token) : Except SyntaxError (List Event) :=
  let rec go : Nat → Parser → List Event → Except SyntaxError (List Event)
    | 0, _, _ => .error ⟨"the parser ran past its bound", {}⟩
    | fuel + 1, p, acc =>
      if p.state = .finished then .ok acc.reverse
      else do
        let (e, p) ← p.step
        go fuel p (e :: acc)
  go (8 * (tokens.length + 1)) { tokens } []

/-- Parses a stream into its events. -/
def parseStream (input : String) : Except SyntaxError (List Event) :=
  scan input >>= parseTokens

end Yaml

end QuantumRuntime
