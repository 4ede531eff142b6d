import QuantumRuntime.Yaml.Char

/-!
# Reading position in a YAML stream

A cursor holds the characters not read yet and the mark of the next one: its index in the stream,
counted in bytes of the UTF-8 text, and its line and its column, counted in lines and characters,
all from zero. Stepping over a character moves one column on and the index on by the character's
width; stepping over a line break starts the next line, and a carriage return followed by a line
feed is one break of two bytes. The index is what bounds how far back a simple key may start.

Line breaks inside scalars are normalised as they are read: a carriage return, a line feed, both
together, and the next-line character each read as a line feed, while the Unicode line and
paragraph separators are kept.
-/

namespace QuantumRuntime

namespace Yaml

/-- A position in a stream. -/
structure Mark where
  index : Nat := 0
  line : Nat := 0
  column : Nat := 0
deriving DecidableEq, Repr, Inhabited

/-- The mark after the character `ch` of a line. -/
def Mark.next (m : Mark) (ch : Char) : Mark :=
  { m with index := m.index + ch.utf8Size, column := m.column + 1 }

/-- The mark at the start of the next line, after a break of `width` bytes. -/
def Mark.newline (m : Mark) (width : Nat) : Mark :=
  { index := m.index + width, line := m.line + 1, column := 0 }

/-- The unread part of a stream and the mark of its first character. -/
structure Cursor where
  rest : List Char
  mark : Mark := {}
deriving Repr, Inhabited

namespace Cursor

/-- The next character, or `none` at the end of the stream. -/
def peek (c : Cursor) : Option Char := c.rest.head?

/-- The character `k` places ahead. -/
def peekAt (c : Cursor) (k : Nat) : Option Char := c.rest[k]?

/-- Steps over one character of a line. -/
def skip (c : Cursor) : Cursor :=
  match c.rest with
  | [] => c
  | ch :: r => { rest := r, mark := c.mark.next ch }

/-- Steps over `n` characters of a line. -/
def skipN (c : Cursor) : Nat → Cursor
  | 0 => c
  | n + 1 => c.skip.skipN n

/-- Steps over a line break, if one comes next. -/
def skipLine (c : Cursor) : Cursor :=
  match c.rest with
  | '\r' :: '\n' :: r => { rest := r, mark := c.mark.newline 2 }
  | ch :: r => if isBreak ch then { rest := r, mark := c.mark.newline ch.utf8Size } else c
  | [] => c

/-- Reads a line break in its normal form, with the cursor after it; no break reads as the
empty text. -/
def readLine (c : Cursor) : String × Cursor :=
  match c.rest with
  | ch :: _ =>
    if ch = '\r' || ch = '\n' || ch = '\x85' then ("\n", c.skipLine)
    else if isBreak ch then (ch.toString, c.skipLine)
    else ("", c)
  | [] => ("", c)

/-- Whether a document marker, `---` or `...` followed by a blank or a break, starts here at the
beginning of a line. -/
def atDocumentIndicator (c : Cursor) : Bool :=
  c.mark.column = 0 &&
    match c.rest with
    | a :: b :: d :: _ =>
      ((a = '-' && b = '-' && d = '-') || (a = '.' && b = '.' && d = '.')) &&
        blankzAhead (c.peekAt 3)
    | _ => false

/-- Steps over characters while they satisfy a test. -/
def skipWhile (p : Char → Bool) (c : Cursor) : Cursor :=
  let rec go : Nat → Cursor → Cursor
    | 0, c => c
    | fuel + 1, c =>
      match c.peek with
      | some ch => if p ch then go fuel c.skip else c
      | none => c
  go c.rest.length c

/-- Reads characters while they satisfy a test. -/
def readWhile (p : Char → Bool) (c : Cursor) : String × Cursor :=
  let rec go : Nat → String → Cursor → String × Cursor
    | 0, s, c => (s, c)
    | fuel + 1, s, c =>
      match c.peek with
      | some ch => if p ch then go fuel (s.push ch) c.skip else (s, c)
      | none => (s, c)
  go c.rest.length "" c

/-- Steps over blanks, then over a comment up to the end of its line. -/
def skipBlanksAndComment (c : Cursor) : Cursor :=
  let c := c.skipWhile isBlank
  if isChar '#' c.peek then c.skipWhile fun ch => !isBreak ch else c

theorem length_rest_skip (c : Cursor) : c.skip.rest.length = c.rest.length - 1 := by
  rcases c with ⟨_ | ⟨ch, r⟩, m⟩ <;> simp [skip]

end Cursor

end Yaml

end QuantumRuntime
