import QuantumRuntime.Yaml.Scalar

/-!
# Scanning node properties and directives

Anchors (`&name`), aliases (`*name`) and tags give a node its properties; directives (`%YAML`,
`%TAG`) open a document.

* An anchor or alias name is a non-empty run of name characters, followed by a blank, a break,
  the end, or one of `?:,]}%@` and the backquote.
* A tag is verbatim (`!<uri>`), a handle and a suffix (`!!str`, `!e!tag`), or a primary tag
  (`!local`); a lone `!` is the non-specific tag. A tag ends at a blank or a break, or at `,`
  in a flow collection. Tag characters are URI characters, where `%` starts escaped octets of a
  UTF-8 character; an escaped character outside ASCII stands as the replacement character, since
  only ASCII tags are ever compared. Tags and tag prefixes are NUL-terminated texts: an escaped
  NUL (`%00`) ends the tag there, and what follows it is scanned but not kept.
* `%YAML` takes a version `major.minor` of at most nine digits each; `%TAG` a handle and a
  prefix. Any other directive is refused, and so is anything after a directive but a comment.
-/

namespace QuantumRuntime

namespace Yaml

/-- Scans an anchor (`&`) or an alias (`*`) name after its indicator. -/
def scanAnchorName (c : Cursor) : Except SyntaxError (String × Cursor) :=
  let start := c.mark
  let (name, c) := c.skip.readWhile isWordChar
  if name.isEmpty ||
      !(blankzAhead c.peek || isOneOf ['?', ':', ',', ']', '\x7d', '%', '@', '\x60'] c.peek) then
    .error ⟨"an anchor or alias without a proper name", start⟩
  else .ok (name, c)

/-- Whether a character may stand in a tag; in a verbatim tag or a directive prefix also `,`,
`[` and `]`. -/
def isUriChar (verbatim : Bool) (c : Char) : Bool :=
  isWordChar c || [';', '/', '?', ':', '@', '&', '=', '+', '$', '.', '%', '!', '~', '*', '\'',
    '(', ')'].contains c || (verbatim && [',', '[', ']'].contains c)

/-- The number of octets of a UTF-8 character, from its first octet. -/
def utf8Width (octet : Nat) : Nat :=
  if octet < 0x80 then 1
  else if octet / 32 = 6 then 2
  else if octet / 16 = 14 then 3
  else if octet / 8 = 30 then 4
  else 0

/-- Reads the escaped octets of one UTF-8 character, `%hh` each. -/
def uriEscape (start : Mark) (c : Cursor) : Except SyntaxError (Char × Cursor) :=
  let octet (c : Cursor) : Option Nat :=
    if isChar '%' c.peek then do
      let hi ← c.peekAt 1 >>= hexValue?
      let lo ← c.peekAt 2 >>= hexValue?
      pure (hi * 16 + lo)
    else none
  match octet c with
  | none => .error ⟨"a tag escape without its octet", start⟩
  | some first =>
    let width := utf8Width first
    if width = 0 then .error ⟨"a tag escape with a bad first octet", start⟩
    else
      let rec trailing : Nat → Cursor → Except SyntaxError Cursor
        | 0, c => .ok c
        | n + 1, c =>
          match octet c with
          | some o => if o / 64 = 2 then trailing n (c.skipN 3)
            else .error ⟨"a tag escape with a bad trailing octet", start⟩
          | none => .error ⟨"a tag escape without its octet", start⟩
      (trailing (width - 1) (c.skipN 3)).map fun c =>
        (if width = 1 then Char.ofNat first else Char.ofNat 0xFFFD, c)

/-- The text up to its first NUL character, the text a NUL-terminated string holds. -/
def beforeNul (s : String) : String := String.ofList (s.toList.takeWhile (· != '\x00'))

/-- What a NUL-terminated string holds has no NUL in it. -/
theorem nul_not_mem_beforeNul (s : String) : '\x00' ∉ (beforeNul s).toList := by
  intro h
  simp only [beforeNul, String.toList_ofList] at h
  have hall := List.all_takeWhile (p := fun x => x != '\x00') (l := s.toList)
  rw [List.all_eq_true] at hall
  simp at hall
  exact hall _ h rfl

/-- Scans the characters of a tag after `head`, decoding escapes; the tag may not be empty, though
it may hold only text after a NUL. The result stops at its first NUL. -/
def scanTagUri (verbatim : Bool) (head : String) (start : Mark) (c : Cursor) :
    Except SyntaxError (String × Cursor) :=
  let rec go : Nat → String → Cursor → Except SyntaxError (String × Cursor)
    | 0, s, c => .ok (s, c)
    | fuel + 1, s, c =>
      match c.peek with
      | some '%' => do
        let (ch, c) ← uriEscape start c
        go fuel (s.push ch) c
      | some ch => if isUriChar verbatim ch then go fuel (s.push ch) c.skip else .ok (s, c)
      | none => .ok (s, c)
  match go (c.rest.length + 1) "" c with
  | .ok (s, c') =>
    if s.isEmpty && head.isEmpty then .error ⟨"a tag without its characters", start⟩
    else .ok (beforeNul ((head.drop 1).toString ++ s), c')
  | .error e => .error e

/-- Scans a tag handle: `!`, then name characters, then a closing `!` if there is one. In a
directive the handle must be `!` or be closed. -/
def scanTagHandle (directive : Bool) (start : Mark) (c : Cursor) :
    Except SyntaxError (String × Cursor) :=
  if !isChar '!' c.peek then .error ⟨"a tag handle without its '!'", start⟩
  else
    let (name, c) := c.skip.readWhile isWordChar
    if isChar '!' c.peek then .ok ("!" ++ name ++ "!", c.skip)
    else if directive && !name.isEmpty then .error ⟨"a tag directive handle not closed", start⟩
    else .ok ("!" ++ name, c)

/-- Scans a tag into its handle and suffix. -/
def scanTag (flow : Bool) (c : Cursor) : Except SyntaxError (Token × Cursor) := do
  let start := c.mark
  let (handle, suffix, c) ←
    if isChar '<' (c.peekAt 1) then do
      let (suffix, c) ← scanTagUri true "" start (c.skipN 2)
      if !isChar '>' c.peek then throw ⟨"a verbatim tag without its '>'", start⟩
      pure ("", suffix, c.skip)
    else do
      let (handle, c) ← scanTagHandle false start c
      if 1 < handle.length && handle.back = '!' then
        let (suffix, c) ← scanTagUri false "" start c
        pure (handle, suffix, c)
      else
        let (suffix, c) ← scanTagUri false handle start c
        if suffix.isEmpty then pure ("", "!", c) else pure ("!", suffix, c)
  if blankzAhead c.peek || (flow && isChar ',' c.peek) then pure (.tag handle suffix, c)
  else throw ⟨"a tag followed by more than a blank", start⟩

/-- Scans the number of a version directive, at most nine digits. -/
def scanVersionNumber (start : Mark) (c : Cursor) : Except SyntaxError (Nat × Cursor) :=
  let (digits, c) := c.readWhile Char.isDigit
  if digits.isEmpty then .error ⟨"a version directive without its number", start⟩
  else if 9 < digits.length then .error ⟨"a version number too long", start⟩
  else .ok (digits.foldl (fun acc ch => acc * 10 + (ch.toNat - '0'.toNat)) 0, c)

/-- Scans a directive from its `%` to the end of its line. -/
def scanDirective (c : Cursor) : Except SyntaxError (Token × Cursor) := do
  let start := c.mark
  let (name, c) := c.skip.readWhile isWordChar
  if name.isEmpty then throw ⟨"a directive without its name", start⟩
  if !blankzAhead c.peek then throw ⟨"a directive name followed by more than a blank", start⟩
  let (token, c) ←
    if name = "YAML" then do
      let (major, c) ← scanVersionNumber start (c.skipWhile isBlank)
      if !isChar '.' c.peek then throw ⟨"a version directive without its '.'", start⟩
      let (minor, c) ← scanVersionNumber start c.skip
      pure (Token.versionDirective major minor, c)
    else if name = "TAG" then do
      let (handle, c) ← scanTagHandle true start (c.skipWhile isBlank)
      if !blankAhead c.peek then throw ⟨"a tag directive without a blank after its handle", start⟩
      let (tagPrefix, c) ← scanTagUri true "" start (c.skipWhile isBlank)
      if !blankzAhead c.peek then throw ⟨"a tag directive prefix followed by more", start⟩
      pure (Token.tagDirective handle tagPrefix, c)
    else throw ⟨"an unknown directive", start⟩
  let c := c.skipBlanksAndComment
  if !breakzAhead c.peek then throw ⟨"a directive followed by more than a comment", start⟩
  pure (token, c.skipLine)

end Yaml

end QuantumRuntime
