/-!
# Blanks and delimiters

Blanks are the characters with the Unicode property White_Space. They separate
tokens. Together with the two parentheses and the two quotes they are the
characters at which an unescaped symbol ends.
-/

namespace Lisp.Text

/-- The Unicode property White_Space, as code points. -/
def isBlank (c : Char) : Bool :=
  let n := c.toNat
  (0x09 ≤ n && n ≤ 0x0D) || n == 0x20 || n == 0x85 || n == 0xA0 || n == 0x1680
    || (0x2000 ≤ n && n ≤ 0x200A) || n == 0x2028 || n == 0x2029 || n == 0x202F
    || n == 0x205F || n == 0x3000

/-- The characters at which a symbol or a numeral ends. -/
def isDelimiter (c : Char) : Bool :=
  isBlank c || c == '(' || c == ')' || c == '\x22' || c == '\x27'

/-- The text without the blanks at either end. -/
def trim (text : String) : String :=
  let inner := text.toList.dropWhile isBlank
  String.ofList (inner.reverse.dropWhile isBlank).reverse

theorem isBlank_of_isWhitespace {c : Char} (h : c.isWhitespace = true) : isBlank c = true := by
  simp only [Char.isWhitespace, Bool.or_eq_true, decide_eq_true_eq] at h
  rcases h with ((rfl | rfl) | rfl) | rfl <;> decide

example : isBlank '\x0b' = true ∧ isBlank '\u200a' = true ∧ isBlank '\u200b' = false := by
  decide

end Lisp.Text
