/-!
# Blank characters

Settings read from the environment are trimmed of blank characters at both ends. A character is
blank when it has the Unicode `White_Space` property: the ASCII controls tab to carriage return,
space, next line, no-break space, Ogham space mark, the spaces from en quad to hair space, line and
paragraph separators, narrow no-break space, medium mathematical space and ideographic space.

The main statement is `isBlank_of_isWhitespace`: every ASCII blank is blank here too.
-/

namespace QuantumRuntime

/-- Whether a character has the Unicode `White_Space` property. -/
def isBlank (c : Char) : Bool :=
  let n := c.toNat
  (0x09 ≤ n && n ≤ 0x0D) || n == 0x20 || n == 0x85 || n == 0xA0 || n == 0x1680 ||
    (0x2000 ≤ n && n ≤ 0x200A) || n == 0x2028 || n == 0x2029 || n == 0x202F || n == 0x205F ||
    n == 0x3000

/-- Removes blank characters from both ends of a text. -/
def trimBlank (s : String) : String :=
  String.ofList ((s.toList.dropWhile isBlank).reverse.dropWhile isBlank).reverse

/-- Every character that core counts as whitespace is blank. -/
theorem isBlank_of_isWhitespace (c : Char) (h : c.isWhitespace = true) : isBlank c = true := by
  simp only [Char.isWhitespace, Bool.or_eq_true, decide_eq_true_eq] at h
  simp only [isBlank, Bool.or_eq_true, Bool.and_eq_true, decide_eq_true_eq, beq_iff_eq]
  rcases h with ((h | h) | h) | h <;> subst h <;> decide

end QuantumRuntime
