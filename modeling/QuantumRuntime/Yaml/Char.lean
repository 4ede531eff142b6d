/-!
# Characters of a YAML stream

The character classes the YAML scanner decides by. Line breaks are the line feed, the carriage
return, and the three Unicode breaks (next line, line separator, paragraph separator); blanks are
the space and the tab. Names of anchors and tag handles use ASCII letters, digits, `_` and `-`.

A stream may only hold printable characters: the tab, the line feed, the carriage return, ASCII
from the space to the tilde, the next-line character, and the Unicode planes apart from the
surrogates and the two non-characters at the end of the basic plane.

The scanner looks ahead with `Option Char`, where `none` is the end of the stream; the classes
with a `z` in their name also hold at the end.
-/

namespace QuantumRuntime

namespace Yaml

/-- Whether a character breaks a line. -/
def isBreak (c : Char) : Bool :=
  c = '\n' || c = '\r' || c = '\x85' || c = '\u2028' || c = '\u2029'

/-- Whether a character is a blank: a space or a tab. -/
def isBlank (c : Char) : Bool := c = ' ' || c = '\t'

/-- Whether a character may appear in an anchor name or a tag handle. -/
def isWordChar (c : Char) : Bool :=
  ('0' ≤ c && c ≤ '9') || ('A' ≤ c && c ≤ 'Z') || ('a' ≤ c && c ≤ 'z') || c = '_' || c = '-'

/-- The value of a hexadecimal digit. -/
def hexValue? (c : Char) : Option Nat :=
  if '0' ≤ c && c ≤ '9' then some (c.toNat - '0'.toNat)
  else if 'a' ≤ c && c ≤ 'f' then some (c.toNat - 'a'.toNat + 10)
  else if 'A' ≤ c && c ≤ 'F' then some (c.toNat - 'A'.toNat + 10)
  else none

/-- A hexadecimal digit is worth less than sixteen. -/
theorem hexValue?_lt {c : Char} {v : Nat} (h : hexValue? c = some v) : v < 16 := by
  have h0 : ('0' : Char).toNat = 48 := rfl
  have h9 : ('9' : Char).toNat = 57 := rfl
  have ha : ('a' : Char).toNat = 97 := rfl
  have hf : ('f' : Char).toNat = 102 := rfl
  have hA : ('A' : Char).toNat = 65 := rfl
  have hF : ('F' : Char).toNat = 70 := rfl
  unfold hexValue? at h
  split at h
  · next hc =>
    injection h with h
    simp only [Bool.and_eq_true, decide_eq_true_eq, Char.le_def, UInt32.le_iff_toNat_le,
      Char.toNat_val] at hc
    omega
  · split at h
    · next hc =>
      injection h with h
      simp only [Bool.and_eq_true, decide_eq_true_eq, Char.le_def, UInt32.le_iff_toNat_le,
        Char.toNat_val] at hc
      omega
    · split at h
      · next hc =>
        injection h with h
        simp only [Bool.and_eq_true, decide_eq_true_eq, Char.le_def, UInt32.le_iff_toNat_le,
          Char.toNat_val] at hc
        omega
      · simp at h

/-- Whether a character may appear in a stream at all. -/
def isPrintable (c : Char) : Bool :=
  let n := c.toNat
  n = 0x09 || n = 0x0A || n = 0x0D || (0x20 ≤ n && n ≤ 0x7E) || n = 0x85 ||
    (0xA0 ≤ n && n ≤ 0xD7FF) || (0xE000 ≤ n && n ≤ 0xFFFD) || (0x10000 ≤ n && n ≤ 0x10FFFF)

/-- Whether the look-ahead is a given character. -/
def isChar (c : Char) : Option Char → Bool
  | some d => d = c
  | none => false

/-- Whether the look-ahead is one of the given characters. -/
def isOneOf (cs : List Char) : Option Char → Bool
  | some d => cs.contains d
  | none => false

/-- Whether the look-ahead is a line break. -/
def breakAhead : Option Char → Bool
  | some c => isBreak c
  | none => false

/-- Whether the look-ahead is a blank. -/
def blankAhead : Option Char → Bool
  | some c => isBlank c
  | none => false

/-- Whether the look-ahead is a line break or the end of the stream. -/
def breakzAhead : Option Char → Bool
  | some c => isBreak c
  | none => true

/-- Whether the look-ahead is a blank, a line break or the end of the stream. -/
def blankzAhead : Option Char → Bool
  | some c => isBlank c || isBreak c
  | none => true

/-- Whether the look-ahead is a character of names. -/
def wordAhead : Option Char → Bool
  | some c => isWordChar c
  | none => false

theorem breakzAhead_of_breakAhead {c : Option Char} (h : breakAhead c = true) :
    breakzAhead c = true := by
  cases c <;> simp_all [breakAhead, breakzAhead]

theorem blankzAhead_of_breakzAhead {c : Option Char} (h : breakzAhead c = true) :
    blankzAhead c = true := by
  cases c <;> simp_all [breakzAhead, blankzAhead]

end Yaml

end QuantumRuntime
