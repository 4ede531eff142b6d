import QuantumRuntime.Yaml.Token

/-!
# Scanning scalars

The three ways of writing a scalar on one or more lines.

* A plain scalar runs up to `: ` or a comment, and in a flow collection up to a flow indicator.
  It may go on over lines indented deeper than the enclosing block; a tab may not indent it.
* A quoted scalar runs to its closing quote. In single quotes a doubled quote stands for one; in
  double quotes a backslash starts an escape, and a backslash at the end of a line joins the
  next line without a blank.
* A block scalar (`|` literal, `>` folded) takes the lines indented at least as deep as its first
  line; its header may fix that indentation and say how the final line breaks are kept.

Plain and quoted scalars fold their line breaks the same way (`Folding.join`): one break reads
as a space, a break followed by empty lines reads as those empty lines, and the Unicode line and
paragraph separators are kept as written. Blanks at the end of a line are dropped.

Every loop here reads at least one character per round, so the number of characters left bounds
it; the loops take that bound as fuel.
-/

namespace QuantumRuntime

namespace Yaml

/-- The refusal given when a loop runs out of its bound, which reading always stays within. -/
def outOfInput (c : Cursor) : SyntaxError := ⟨"the scanner ran past its bound", c.mark⟩

/-- The text of a scalar read so far, with the blanks and breaks after it that join the text only
if more of the scalar follows. -/
structure Folding where
  text : String := ""
  leadingBreak : String := ""
  trailingBreaks : String := ""
  whitespaces : String := ""
  leadingBlanks : Bool := false
deriving Repr, Inhabited

namespace Folding

/-- Joins the pending blanks and breaks to the text: after a line feed, a single break is a
space and further breaks are kept; a Unicode separator is kept with the breaks after it; blanks
within a line are kept as written. -/
def join (f : Folding) : Folding :=
  if f.leadingBlanks then
    if f.leadingBreak = "\n" then
      if f.trailingBreaks.isEmpty then
        { f with text := f.text.push ' ', leadingBreak := "", leadingBlanks := false }
      else
        { f with text := f.text ++ f.trailingBreaks, trailingBreaks := "", leadingBreak := "",
                 leadingBlanks := false }
    else
      { f with text := f.text ++ f.leadingBreak ++ f.trailingBreaks, leadingBreak := "",
               trailingBreaks := "", leadingBlanks := false }
  else if f.whitespaces.isEmpty then f
  else { f with text := f.text ++ f.whitespaces, whitespaces := "" }

end Folding

/-- Reads the blanks and line breaks after some characters of a plain or quoted scalar. Blanks
before the first break are pending whitespace; the first break is kept apart from the breaks
after it; blanks after a break are indentation and are dropped. A plain scalar refuses a tab that
indents a line less than `indent`. -/
def scalarBlanks (plain : Bool) (indent : Int) (start : Mark) :
    Nat → Cursor → Folding → Except SyntaxError (Cursor × Folding)
  | 0, c, _ => .error (outOfInput c)
  | fuel + 1, c, f =>
    match c.peek with
    | some ch =>
      if isBlank ch then
        if plain && f.leadingBlanks && (c.mark.column : Int) < indent && ch = '\t' then
          .error ⟨"a tab indents a plain scalar", start⟩
        else if f.leadingBlanks then scalarBlanks plain indent start fuel c.skip f
        else scalarBlanks plain indent start fuel c.skip { f with whitespaces := f.whitespaces.push ch }
      else if isBreak ch then
        let (b, c') := c.readLine
        if f.leadingBlanks then
          scalarBlanks plain indent start fuel c' { f with trailingBreaks := f.trailingBreaks ++ b }
        else
          scalarBlanks plain indent start fuel c'
            { f with whitespaces := "", leadingBreak := b, leadingBlanks := true }
      else .ok (c, f)
    | none => .ok (c, f)

/-! ## Plain scalars -/

/-- Reads the characters of a plain scalar up to a blank, a break or an indicator that ends it:
`:` before a blank, and in a flow collection `,`, `[`, `]`, `{` and `}`. In a flow collection a
`:` right before a flow indicator or `?` is refused. -/
def plainChars (flow : Bool) (start : Mark) :
    Nat → Cursor → Folding → Except SyntaxError (Cursor × Folding)
  | 0, c, _ => .error (outOfInput c)
  | fuel + 1, c, f =>
    match c.peek with
    | none => .ok (c, f)
    | some ch =>
      if isBlank ch || isBreak ch then .ok (c, f)
      else if flow && ch = ':' && isOneOf [',', '?', '[', ']', '\x7b', '\x7d'] (c.peekAt 1) then
        .error ⟨"a ':' in a plain scalar before a flow indicator", start⟩
      else if (ch = ':' && blankzAhead (c.peekAt 1)) ||
          (flow && [',', '[', ']', '\x7b', '\x7d'].contains ch) then .ok (c, f)
      else
        let f := f.join
        plainChars flow start fuel c.skip { f with text := f.text.push ch }

/-- Reads the lines of a plain scalar: it ends at a document marker, a comment, an indicator, or
a line indented less than `indent` outside flow collections. -/
def plainLines (flow : Bool) (indent : Int) (start : Mark) :
    Nat → Cursor → Folding → Except SyntaxError (Cursor × Folding)
  | 0, c, _ => .error (outOfInput c)
  | fuel + 1, c, f =>
    if c.atDocumentIndicator || isChar '#' c.peek then .ok (c, f)
    else do
      let (c, f) ← plainChars flow start (c.rest.length + 1) c f
      if !(blankAhead c.peek || breakAhead c.peek) then return (c, f)
      let (c, f) ← scalarBlanks true indent start (c.rest.length + 1) c f
      if !flow && (c.mark.column : Int) < indent then return (c, f)
      plainLines flow indent start fuel c f

/-- Scans a plain scalar inside a block indented to `blockIndent` (or in a flow collection).
Also tells whether it ended after a line break, where a simple key may start. -/
def scanPlain (flow : Bool) (blockIndent : Int) (c : Cursor) :
    Except SyntaxError (Token × Cursor × Bool) := do
  let (c', f) ← plainLines flow (blockIndent + 1) c.mark (c.rest.length + 1) c {}
  pure (.scalar f.text .plain, c', f.leadingBlanks)

/-! ## Quoted scalars -/

/-- The text of a one-character escape of a double-quoted scalar. -/
def simpleEscape : Char → Option String
  | '0' => some (Char.ofNat 0).toString
  | 'a' => some (Char.ofNat 7).toString
  | 'b' => some (Char.ofNat 8).toString
  | 't' => some "\t"
  | '\t' => some "\t"
  | 'n' => some "\n"
  | 'v' => some (Char.ofNat 11).toString
  | 'f' => some (Char.ofNat 12).toString
  | 'r' => some "\r"
  | 'e' => some (Char.ofNat 27).toString
  | ' ' => some " "
  | '"' => some "\""
  | '/' => some "/"
  | '\'' => some "'"
  | '\\' => some "\\"
  | 'N' => some (Char.ofNat 0x85).toString
  | '_' => some (Char.ofNat 0xA0).toString
  | 'L' => some (Char.ofNat 0x2028).toString
  | 'P' => some (Char.ofNat 0x2029).toString
  | _ => none

/-- The number of hexadecimal digits of a code escape: `x`, `u` and `U` take 2, 4 and 8. -/
def codeEscapeWidth : Char → Option Nat
  | 'x' => some 2
  | 'u' => some 4
  | 'U' => some 8
  | _ => none

/-- The value of `n` hexadecimal digits at the cursor. -/
def hexDigitsAt (c : Cursor) (n : Nat) : Option Nat :=
  (List.range n).foldlM (fun acc k => (hexValue? =<< c.peekAt k).map (acc * 16 + ·)) 0

/-- Reads the characters of a quoted scalar up to a blank, a break, its closing quote or an
escaped line break, which sets the pending break. -/
def quotedChars (single : Bool) (start : Mark) :
    Nat → Cursor → Folding → Except SyntaxError (Cursor × Folding)
  | 0, c, _ => .error (outOfInput c)
  | fuel + 1, c, f =>
    match c.peek with
    | none => .ok (c, f)
    | some ch =>
      if isBlank ch || isBreak ch then .ok (c, f)
      else if single && ch = '\'' && isChar '\'' (c.peekAt 1) then
        quotedChars single start fuel c.skip.skip { f with text := f.text.push '\'' }
      else if ch = (if single then '\'' else '"') then .ok (c, f)
      else if !single && ch = '\\' && breakAhead (c.peekAt 1) then
        .ok (c.skip.skipLine, { f with leadingBlanks := true })
      else if !single && ch = '\\' then
        match c.peekAt 1 with
        | none => .error ⟨"an unknown escape in a double-quoted scalar", start⟩
        | some e =>
          match simpleEscape e with
          | some s => quotedChars single start fuel c.skip.skip { f with text := f.text ++ s }
          | none =>
            match codeEscapeWidth e with
            | none => .error ⟨"an unknown escape in a double-quoted scalar", start⟩
            | some n =>
              let c := c.skip.skip
              match hexDigitsAt c n with
              | none => .error ⟨"a code escape without its hexadecimal digits", start⟩
              | some v =>
                if (0xD800 ≤ v ∧ v ≤ 0xDFFF) ∨ 0x10FFFF < v then
                  .error ⟨"a code escape of no Unicode character", start⟩
                else
                  quotedChars single start fuel (c.skipN n)
                    { f with text := f.text.push (Char.ofNat v) }
      else quotedChars single start fuel c.skip { f with text := f.text.push ch }

/-- Reads the lines of a quoted scalar up to its closing quote, which it leaves unread. A
document marker or the end of the stream inside the quotes is refused. -/
def quotedLines (single : Bool) (start : Mark) :
    Nat → Cursor → Folding → Except SyntaxError (Cursor × Folding)
  | 0, c, _ => .error (outOfInput c)
  | fuel + 1, c, f =>
    if c.atDocumentIndicator then .error ⟨"a document marker inside a quoted scalar", start⟩
    else if c.peek = none then .error ⟨"the stream ends inside a quoted scalar", start⟩
    else do
      let (c, f) ← quotedChars single start (c.rest.length + 1) c { f with leadingBlanks := false }
      if isChar (if single then '\'' else '"') c.peek then return (c, f)
      let (c, f) ← scalarBlanks false 0 start (c.rest.length + 1) c f
      quotedLines single start fuel c f.join

/-- Scans a single- or double-quoted scalar. -/
def scanQuoted (single : Bool) (c : Cursor) : Except SyntaxError (Token × Cursor) := do
  let (c', f) ← quotedLines single c.mark (c.rest.length + 1) c.skip {}
  pure (.scalar f.text (if single then .singleQuoted else .doubleQuoted), c'.skip)

/-! ## Block scalars -/

/-- How a block scalar keeps its final line breaks: `strip` drops them all, `clip` keeps one,
`keep` keeps them all. -/
inductive Chomping
  | strip
  | clip
  | keep
deriving DecidableEq, Repr, Inhabited

/-- The chomping indicator a character stands for. -/
def Chomping.ofChar? : Char → Option Chomping
  | '-' => some .strip
  | '+' => some .keep
  | _ => none

/-- Reads the header of a block scalar after its `|` or `>`: a chomping indicator and an
indentation digit from 1 to 9, in either order, each optional. -/
def blockHeader (start : Mark) (c : Cursor) : Except SyntaxError (Chomping × Nat × Cursor) :=
  let digit (c : Cursor) : Except SyntaxError (Option Nat × Cursor) :=
    match c.peek with
    | some '0' => .error ⟨"a block scalar indented by 0", start⟩
    | some ch => if '1' ≤ ch && ch ≤ '9' then .ok (some (ch.toNat - '0'.toNat), c.skip)
      else .ok (none, c)
    | none => .ok (none, c)
  match c.peek.bind Chomping.ofChar? with
  | some chomp => do
    let (d, c) ← digit c.skip
    pure (chomp, d.getD 0, c)
  | none => do
    let (d, c) ← digit c
    match c.peek.bind Chomping.ofChar? with
    | some chomp => pure (chomp, d.getD 0, c.skip)
    | none => pure (.clip, d.getD 0, c)

/-- Steps over the indentation of a block scalar line: spaces up to `indent`, or all spaces while
the indentation is not fixed (`indent = 0`). -/
def blockIndentation (indent : Nat) (c : Cursor) : Cursor :=
  let rec go : Nat → Cursor → Cursor
    | 0, c => c
    | fuel + 1, c =>
      if (indent = 0 || c.mark.column < indent) && isChar ' ' c.peek then go fuel c.skip else c
  go c.rest.length c

/-- Reads the indentation and the empty lines before the next line of a block scalar, collecting
the breaks. While the indentation is not fixed it becomes the deepest indentation of the empty
lines, at least one more than `blockIndent` and at least one. A tab in the indentation is
refused. -/
def blockBreaks (start : Mark) (blockIndent : Int) :
    Nat → Nat → Nat → Cursor → String → Except SyntaxError (Nat × Cursor × String)
  | 0, _, _, c, _ => .error (outOfInput c)
  | fuel + 1, indent, deepest, c, breaks =>
    let c := blockIndentation indent c
    let deepest := max deepest c.mark.column
    if (indent = 0 || c.mark.column < indent) && isChar '\t' c.peek then
      .error ⟨"a tab indents a block scalar", start⟩
    else if breakAhead c.peek then
      let (b, c) := c.readLine
      blockBreaks start blockIndent fuel indent deepest c (breaks ++ b)
    else
      let indent :=
        if indent = 0 then max (max deepest (blockIndent + 1).toNat) 1 else indent
      .ok (indent, c, breaks)

/-- What a block scalar has read: its text, the break that ended the last line, the empty lines
after it, and whether the last line began with a blank. -/
structure BlockText where
  text : String := ""
  leadingBreak : String := ""
  trailingBreaks : String := ""
  leadingBlank : Bool := false
deriving Repr, Inhabited

/-- Reads the lines of a block scalar indented to `indent`. A folded scalar joins two lines by a
space when neither begins with a blank and no empty line stands between them. -/
def blockLines (literal : Bool) (indent : Nat) (start : Mark) (blockIndent : Int) :
    Nat → Cursor → BlockText → Except SyntaxError (Cursor × BlockText)
  | 0, c, _ => .error (outOfInput c)
  | fuel + 1, c, s =>
    if c.mark.column = indent && c.peek.isSome then do
      let trailingBlank := blankAhead c.peek
      let text :=
        if !literal && s.leadingBreak = "\n" && !s.leadingBlank && !trailingBlank then
          if s.trailingBreaks.isEmpty then s.text.push ' ' else s.text
        else s.text ++ s.leadingBreak
      let text := text ++ s.trailingBreaks
      let leadingBlank := blankAhead c.peek
      let (line, c) := c.readWhile fun ch => !isBreak ch
      let (b, c) := c.readLine
      let (_, c, breaks) ← blockBreaks start blockIndent (c.rest.length + 1) indent 0 c ""
      blockLines literal indent start blockIndent fuel c
        { text := text ++ line, leadingBreak := b, trailingBreaks := breaks, leadingBlank }
    else .ok (c, s)

/-- Scans a literal (`|`) or folded (`>`) block scalar inside a block indented to
`blockIndent`. -/
def scanBlockScalar (literal : Bool) (blockIndent : Int) (c : Cursor) :
    Except SyntaxError (Token × Cursor) := do
  let start := c.mark
  let (chomp, increment, c) ← blockHeader start c.skip
  let c := c.skipBlanksAndComment
  if !breakzAhead c.peek then
    throw ⟨"a block scalar header followed by more than a comment", start⟩
  let c := c.skipLine
  let indent := if increment = 0 then 0
    else if 0 ≤ blockIndent then blockIndent.toNat + increment else increment
  let (indent, c, breaks) ← blockBreaks start blockIndent (c.rest.length + 1) indent 0 c ""
  let (c, s) ← blockLines literal indent start blockIndent (c.rest.length + 1) c
    { trailingBreaks := breaks }
  let text := match chomp with
    | .strip => s.text
    | .clip => s.text ++ s.leadingBreak
    | .keep => s.text ++ s.leadingBreak ++ s.trailingBreaks
  pure (.scalar text (if literal then .literal else .folded), c)

end Yaml

end QuantumRuntime
