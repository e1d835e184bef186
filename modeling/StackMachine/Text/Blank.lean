/-!
# Blanks

The characters that separate words: the blanks of ASCII, the space separators, the line
and paragraph separators, and the byte order mark. The next-line control, the Mongolian
vowel separator and the zero width space are not among them.
-/

namespace StackMachine.Text

/-- Whether a character separates words. -/
def isBlank (c : Char) : Bool :=
  let n := c.toNat
  (0x09 ≤ n && n ≤ 0x0D) || n == 0x20 || n == 0xA0 || n == 0x1680
    || (0x2000 ≤ n && n ≤ 0x200A) || n == 0x2028 || n == 0x2029 || n == 0x202F
    || n == 0x205F || n == 0x3000 || n == 0xFEFF

end StackMachine.Text
