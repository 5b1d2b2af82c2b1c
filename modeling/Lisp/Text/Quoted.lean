/-!
# Quoted text

A text between double quotes. Writing escapes the double quote, the backslash
and every character below the space, five of them by a letter and the others by
their code in hexadecimal. Reading knows four escapes only: a backslash, a
double quote, `n` and `t`. It takes every other character between the quotes as
it stands.
-/

namespace Lisp.Text.Quoted

/-- A hexadecimal digit, lower case. -/
def hexDigit (n : Nat) : Char :=
  if n < 10 then Char.ofNat (48 + n) else Char.ofNat (87 + n)

/-- How one character is written between double quotes. -/
def encodeChar (c : Char) : List Char :=
  if c = '\x22' then ['\\', '\x22']
  else if c = '\\' then ['\\', '\\']
  else if c = '\x08' then ['\\', 'b']
  else if c = '\x0c' then ['\\', 'f']
  else if c = '\n' then ['\\', 'n']
  else if c = '\r' then ['\\', 'r']
  else if c = '\t' then ['\\', 't']
  else if c.toNat < 0x20 then
    ['\\', 'u', '0', '0', hexDigit (c.toNat / 16), hexDigit (c.toNat % 16)]
  else [c]

/-- The text with its escapes, without the quotes around it. -/
def encode (cs : List Char) : List Char := cs.flatMap encodeChar

/-- A text written between double quotes. -/
def literal (cs : List Char) : List Char := '\x22' :: (encode cs ++ ['\x22'])

/-- What a character after a backslash stands for when a literal is read. -/
def unescape? (c : Char) : Option Char :=
  if c = '\\' then some '\\'
  else if c = '\x22' then some '\x22'
  else if c = 'n' then some '\n'
  else if c = 't' then some '\t'
  else none

example : String.ofList (literal ['a', '\n', '\x22', '\x01']) = "\"a\\n\\\"\\u0001\"" := by
  decide

end Lisp.Text.Quoted
