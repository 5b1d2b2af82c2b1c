import Lisp.Text.Blank
import Lisp.Decimal.Numeral

/-!
# The spelling of symbols

A symbol may have any name. It is written so that the reader finds the same
name again. A delimiter or a backslash gets a backslash in front. A bar that
opens a closed run `|...|` is copied together with the run, for the reader
keeps such runs verbatim; any other bar is escaped. A name that needs no escape
and yet would be read as a number, as `nil`, as `t` or as the dot of a dotted
list gets a backslash at its beginning.
-/

namespace Lisp.Symbol

open Lisp.Text Lisp.Decimal

/-- How many characters after an opening bar belong to its run, the closing bar
included. A backslash keeps the character after it from closing the run. -/
def runLength? : List Char → Option Nat
  | [] => none
  | '|' :: _ => some 1
  | '\\' :: _ :: rest => (runLength? rest).map (· + 2)
  | '\\' :: [] => none
  | _ :: rest => (runLength? rest).map (· + 1)

/-- Whether a character needs a backslash outside a run. A semicolon would open
a comment at the beginning of a name only. -/
def needsEscape (first : Bool) (c : Char) : Bool :=
  isDelimiter c || c == '\\' || c == '|' || (first && c == ';')

/-- Escapes a name. The first argument counts the characters that still belong
to a closed run, the second tells whether nothing has been written yet. -/
def escapeFrom : Nat → Bool → List Char → List Char
  | _, _, [] => []
  | n + 1, _, c :: rest => c :: escapeFrom n false rest
  | 0, first, c :: rest =>
    match (if c = '|' then runLength? rest else none) with
    | some n => c :: escapeFrom n false rest
    | none =>
      if needsEscape first c then '\\' :: c :: escapeFrom 0 false rest
      else c :: escapeFrom 0 false rest

/-- Whether a name without escapes would be read as something else. -/
def readsAsOther (name : List Char) : Bool :=
  spellsNumber name || name == ['n', 'i', 'l'] || name == ['t'] || name == ['.']

/-- How a symbol of a given name is written. -/
def spelling (name : List Char) : List Char :=
  let escaped := escapeFrom 0 true name
  if escaped = name ∧ readsAsOther name then '\\' :: escaped else escaped

example : spelling "a b".toList = "a\\ b".toList := by decide

example : spelling "|a b|c|".toList = "|a b|c\\|".toList := by decide

example : spelling "1e5".toList = "\\1e5".toList := by decide

end Lisp.Symbol
