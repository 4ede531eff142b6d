import QuantumRuntime.Yaml.Property

/-!
# The YAML scanner

The scanner turns a stream into tokens. Besides reading the tokens that stand in the text, it
makes the tokens that only the layout shows:

* Indentation. In block context every collection opens at a column; a deeper column opens a
  block sequence (at `- `) or a block mapping (at a key), and a line that returns to a shallower
  column closes every collection deeper than it with a block end.
* Simple keys. A key may be written without `?`: a scalar, alias, tag or flow collection followed
  on the same line, within 1024 characters, by `:`. When the `:` comes, the scanner puts the key
  token (and, in block context, the start of a mapping) before the token where the key began. Each
  flow level remembers at most one place where such a key may begin; at the indentation of a block
  mapping a key is required there, and a line that never brings its `:` is refused.

Tabs may separate tokens inside a line, but not indent a block line. A byte order mark is skipped
where a line begins.

The scanner reads the whole stream at once; `scan` gives every token from the stream's start to
its end, or the first refusal.
-/

namespace QuantumRuntime

namespace Yaml

/-- A place where a simple key may begin: whether it still may, whether a key is required there,
the number of the token it begins at, and its mark. -/
structure SimpleKey where
  possible : Bool := false
  required : Bool := false
  tokenNumber : Nat := 0
  mark : Mark := {}
deriving Repr, Inhabited

/-- The state of the scanner. `indent` is the column of the innermost block collection (`-1`
outside all), `indents` the columns of the enclosing ones, and `simpleKeys` the possible simple
key of each flow level, innermost first. -/
structure Scanner where
  cursor : Cursor
  tokens : List Token := [.streamStart]
  indent : Int := -1
  indents : List Int := []
  flowLevel : Nat := 0
  simpleKeyAllowed : Bool := true
  simpleKeys : List SimpleKey := [{}]
  ended : Bool := false
deriving Repr, Inhabited

namespace Scanner

/-- Appends a token. -/
def emit (s : Scanner) (t : Token) : Scanner := { s with tokens := s.tokens ++ [t] }

/-- Puts a token before the token numbered `n`. -/
def insertAt (s : Scanner) (n : Nat) (t : Token) : Scanner :=
  { s with tokens := s.tokens.take n ++ t :: s.tokens.drop n }

/-- Whether the scanner is inside a flow collection. -/
def inFlow (s : Scanner) : Bool := s.flowLevel ≠ 0

/-- The possible simple key of the innermost flow level. -/
def topKey (s : Scanner) : SimpleKey := s.simpleKeys.headD {}

/-- Replaces the possible simple key of the innermost flow level. -/
def setTopKey (s : Scanner) (k : SimpleKey) : Scanner :=
  { s with simpleKeys := k :: s.simpleKeys.tail }

/-- Gives up the possible simple key of the innermost flow level; a required one is refused. -/
def removeSimpleKey (s : Scanner) : Except SyntaxError Scanner :=
  let k := s.topKey
  if k.possible && k.required then .error ⟨"a required key without its ':'", k.mark⟩
  else .ok (s.setTopKey { k with possible := false })

/-- Remembers that a simple key may begin at the next token, if one may begin here. -/
def saveSimpleKey (s : Scanner) : Except SyntaxError Scanner :=
  if s.simpleKeyAllowed then do
    let required := !s.inFlow && s.indent = (s.cursor.mark.column : Int)
    let key : SimpleKey :=
      { possible := true, required, tokenNumber := s.tokens.length, mark := s.cursor.mark }
    let s ← s.removeSimpleKey
    pure (s.setTopKey key)
  else .ok s

/-- Gives up the possible simple keys that can no longer be keys: those on an earlier line and
those more than 1024 characters back. A required one is refused. -/
def staleSimpleKeys (s : Scanner) : Except SyntaxError Scanner := do
  let m := s.cursor.mark
  let keys ← s.simpleKeys.mapM fun k =>
    if k.possible && (k.mark.line < m.line || k.mark.index + 1024 < m.index) then
      if k.required then .error ⟨"a required key without its ':'", k.mark⟩
      else .ok { k with possible := false }
    else .ok k
  pure { s with simpleKeys := keys }

/-- Enters a flow collection. -/
def increaseFlowLevel (s : Scanner) : Scanner :=
  { s with simpleKeys := {} :: s.simpleKeys, flowLevel := s.flowLevel + 1 }

/-- Leaves a flow collection. -/
def decreaseFlowLevel (s : Scanner) : Scanner :=
  if s.inFlow then { s with flowLevel := s.flowLevel - 1, simpleKeys := s.simpleKeys.tail }
  else s

/-- In block context, opens a collection at `column` if it is deeper than the current one: the
start token goes before token `number`, or at the end. -/
def rollIndent (s : Scanner) (column : Int) (number : Option Nat) (t : Token) : Scanner :=
  if !s.inFlow && s.indent < column then
    let s := { s with indents := s.indent :: s.indents, indent := column }
    match number with
    | some n => s.insertAt n t
    | none => s.emit t
  else s

/-- In block context, closes every collection deeper than `column`. -/
def unrollIndent (column : Int) (s : Scanner) : Scanner :=
  let rec go : List Int → Scanner → Scanner
    | [], s => s
    | i :: rest, s =>
      if column < s.indent then
        go rest { s with tokens := s.tokens ++ [.blockEnd], indent := i, indents := rest }
      else s
  if s.inFlow then s else go s.indents s

/-- Steps over blanks, comments and line breaks up to the next token. A tab is skipped only
inside a flow collection or where no simple key may begin; a line break in block context lets a
simple key begin. -/
def skipToToken (s : Scanner) : Scanner :=
  let rec go : Nat → Scanner → Scanner
    | 0, s => s
    | fuel + 1, s =>
      let c := s.cursor
      let c := if c.mark.column = 0 && isChar '\uFEFF' c.peek then c.skip else c
      let tabs := s.inFlow || !s.simpleKeyAllowed
      let c := c.skipWhile fun ch => ch = ' ' || (tabs && ch = '\t')
      let c := if isChar '#' c.peek then c.skipWhile fun ch => !isBreak ch else c
      if breakAhead c.peek then
        go fuel { s with cursor := c.skipLine,
                         simpleKeyAllowed := if s.inFlow then s.simpleKeyAllowed else true }
      else { s with cursor := c }
  go (s.cursor.rest.length + 1) s

/-! ## Fetching one token -/

/-- Ends the stream: closes every block collection. -/
def fetchStreamEnd (s : Scanner) : Except SyntaxError Scanner := do
  let s ← (unrollIndent (-1) s).removeSimpleKey
  pure { (s.emit .streamEnd) with simpleKeyAllowed := false, ended := true }

/-- Reads a directive. -/
def fetchDirective (s : Scanner) : Except SyntaxError Scanner := do
  let s ← (unrollIndent (-1) s).removeSimpleKey
  let (t, c) ← scanDirective s.cursor
  pure { (s.emit t) with cursor := c, simpleKeyAllowed := false }

/-- Reads a document marker. -/
def fetchDocumentIndicator (s : Scanner) (t : Token) : Except SyntaxError Scanner := do
  let s ← (unrollIndent (-1) s).removeSimpleKey
  pure { (s.emit t) with cursor := s.cursor.skipN 3, simpleKeyAllowed := false }

/-- Reads `[` or `{`. -/
def fetchFlowStart (s : Scanner) (t : Token) : Except SyntaxError Scanner := do
  let s ← s.saveSimpleKey
  let s := s.increaseFlowLevel
  pure { (s.emit t) with cursor := s.cursor.skip, simpleKeyAllowed := true }

/-- Reads `]` or `}`. -/
def fetchFlowEnd (s : Scanner) (t : Token) : Except SyntaxError Scanner := do
  let s ← s.removeSimpleKey
  let s := s.decreaseFlowLevel
  pure { (s.emit t) with cursor := s.cursor.skip, simpleKeyAllowed := false }

/-- Reads `,`. -/
def fetchFlowEntry (s : Scanner) : Except SyntaxError Scanner := do
  let s ← s.removeSimpleKey
  pure { (s.emit .flowEntry) with cursor := s.cursor.skip, simpleKeyAllowed := true }

/-- Reads `-` before a blank; in block context it may open a sequence. -/
def fetchBlockEntry (s : Scanner) : Except SyntaxError Scanner := do
  let s ← if s.inFlow then pure s
    else if !s.simpleKeyAllowed then
      throw ⟨"a block sequence entry where none may stand", s.cursor.mark⟩
    else pure (s.rollIndent s.cursor.mark.column none .blockSequenceStart)
  let s ← s.removeSimpleKey
  pure { (s.emit .blockEntry) with cursor := s.cursor.skip, simpleKeyAllowed := true }

/-- Reads `?`; in block context it may open a mapping. -/
def fetchKey (s : Scanner) : Except SyntaxError Scanner := do
  let s ← if s.inFlow then pure s
    else if !s.simpleKeyAllowed then
      throw ⟨"a mapping key where none may stand", s.cursor.mark⟩
    else pure (s.rollIndent s.cursor.mark.column none .blockMappingStart)
  let s ← s.removeSimpleKey
  pure { (s.emit .key) with cursor := s.cursor.skip, simpleKeyAllowed := !s.inFlow }

/-- Reads `:`. After a possible simple key it puts the key token where the key began; otherwise
the value follows an explicit key or none. -/
def fetchValue (s : Scanner) : Except SyntaxError Scanner := do
  let k := s.topKey
  let s ← if k.possible then
      let s := s.insertAt k.tokenNumber .key
      let s := s.rollIndent k.mark.column (some k.tokenNumber) .blockMappingStart
      pure { (s.setTopKey { k with possible := false }) with simpleKeyAllowed := false }
    else if s.inFlow then pure { s with simpleKeyAllowed := false }
    else if !s.simpleKeyAllowed then
      throw ⟨"a mapping value where none may stand", s.cursor.mark⟩
    else
      let s := s.rollIndent s.cursor.mark.column none .blockMappingStart
      pure { s with simpleKeyAllowed := true }
  pure { (s.emit .value) with cursor := s.cursor.skip }

/-- Reads an anchor or an alias, which may begin a simple key. -/
def fetchAnchor (s : Scanner) (isAlias : Bool) : Except SyntaxError Scanner := do
  let s ← s.saveSimpleKey
  let (name, c) ← scanAnchorName s.cursor
  let t := if isAlias then Token.alias name else Token.anchor name
  pure { (s.emit t) with cursor := c, simpleKeyAllowed := false }

/-- Reads a tag, which may begin a simple key. -/
def fetchTag (s : Scanner) : Except SyntaxError Scanner := do
  let s ← s.saveSimpleKey
  let (t, c) ← scanTag s.inFlow s.cursor
  pure { (s.emit t) with cursor := c, simpleKeyAllowed := false }

/-- Reads a block scalar. -/
def fetchBlockScalar (s : Scanner) (literal : Bool) : Except SyntaxError Scanner := do
  let s ← s.removeSimpleKey
  let (t, c) ← scanBlockScalar literal s.indent s.cursor
  pure { (s.emit t) with cursor := c, simpleKeyAllowed := true }

/-- Reads a quoted scalar, which may begin a simple key. -/
def fetchQuoted (s : Scanner) (single : Bool) : Except SyntaxError Scanner := do
  let s ← s.saveSimpleKey
  let (t, c) ← scanQuoted single s.cursor
  pure { (s.emit t) with cursor := c, simpleKeyAllowed := false }

/-- Reads a plain scalar, which may begin a simple key. -/
def fetchPlain (s : Scanner) : Except SyntaxError Scanner := do
  let s ← s.saveSimpleKey
  let (t, c, afterBreak) ← scanPlain s.inFlow s.indent s.cursor
  pure { (s.emit t) with cursor := c, simpleKeyAllowed := afterBreak }

/-- Whether a plain scalar may begin at the cursor: not at a blank or an indicator, though `-`
may begin one before a non-blank, and in block context so may `?` and `:`. -/
def startsPlain (flow : Bool) (c : Cursor) : Bool :=
  match c.peek with
  | none => false
  | some ch =>
    !(isBlank ch || isBreak ch || ['-', '?', ':', ',', '[', ']', '\x7b', '\x7d', '#', '&', '*', '!',
        '|', '>', '\'', '"', '%', '@', '\x60'].contains ch) ||
      (ch = '-' && !blankAhead (c.peekAt 1)) ||
      (!flow && (ch = '?' || ch = ':') && !blankzAhead (c.peekAt 1))

/-- Reads the next token, with the tokens the layout makes before it. -/
def fetchNext (s : Scanner) : Except SyntaxError Scanner := do
  let s ← (skipToToken s).staleSimpleKeys
  let s := unrollIndent s.cursor.mark.column s
  let c := s.cursor
  let next := c.peekAt 1
  match c.peek with
  | none => fetchStreamEnd s
  | some ch =>
    if c.mark.column = 0 && ch = '%' then fetchDirective s
    else if c.atDocumentIndicator && ch = '-' then fetchDocumentIndicator s .documentStart
    else if c.atDocumentIndicator && ch = '.' then fetchDocumentIndicator s .documentEnd
    else if ch = '[' then fetchFlowStart s .flowSequenceStart
    else if ch = '\x7b' then fetchFlowStart s .flowMappingStart
    else if ch = ']' then fetchFlowEnd s .flowSequenceEnd
    else if ch = '\x7d' then fetchFlowEnd s .flowMappingEnd
    else if ch = ',' then fetchFlowEntry s
    else if ch = '-' && blankzAhead next then fetchBlockEntry s
    else if ch = '?' && (s.inFlow || blankzAhead next) then fetchKey s
    else if ch = ':' && (s.inFlow || blankzAhead next) then fetchValue s
    else if ch = '*' then fetchAnchor s true
    else if ch = '&' then fetchAnchor s false
    else if ch = '!' then fetchTag s
    else if ch = '|' && !s.inFlow then fetchBlockScalar s true
    else if ch = '>' && !s.inFlow then fetchBlockScalar s false
    else if ch = '\'' then fetchQuoted s true
    else if ch = '"' then fetchQuoted s false
    else if startsPlain s.inFlow c then fetchPlain s
    else throw ⟨"a character that cannot start any token", c.mark⟩

end Scanner

/-- Scans a whole stream into its tokens, from the stream start to the stream end. Every token
but the last reads at least one character, so the stream's length bounds the rounds. A stream
holding a character that is not printable is refused. -/
def scan (input : String) : Except SyntaxError (List Token) :=
  let cs := input.toList
  let rec go : Nat → Scanner → Except SyntaxError (List Token)
    | 0, s => .error (outOfInput s.cursor)
    | fuel + 1, s =>
      if s.ended then .ok s.tokens
      else do
        let s ← s.fetchNext
        go fuel s
  match cs.find? fun ch => !isPrintable ch with
  | some _ => .error ⟨"a character that may not appear in a stream", {}⟩
  | none => go (cs.length + 2) { cursor := { rest := cs } }

end Yaml

end QuantumRuntime
