/-!
# Places in a text

A position names a character by its byte offset in UTF-8, its line and its
column. Lines and columns count from one, and a column counts characters, not
bytes. CR, LF and CR LF each end one line.

A place remembers, beside the position of the next character, whether the
character before it was a CR and where that character stood. Moving past a
character needs nothing else, so a place is a function of the characters that
have been passed.
-/

namespace Lisp

/-- Byte offset from zero, line and column from one. -/
structure Position where
  offset : Nat
  line : Nat
  col : Nat
  deriving DecidableEq, Repr, Inhabited

/-- Where the next character stands, and what was passed just before it. -/
structure Place where
  position : Position
  afterReturn : Bool
  last : Position
  deriving DecidableEq, Repr, Inhabited

namespace Place

/-- The place before the first character of a text. -/
def start : Place where
  position := ⟨0, 1, 1⟩
  afterReturn := false
  last := ⟨0, 1, 1⟩

/-- The place after one more character. An LF that follows a CR belongs to the
line break already counted, and moves neither line nor column. -/
def past (p : Place) (c : Char) : Place :=
  let offset := p.position.offset + c.utf8Size
  if c = '\r' then
    ⟨⟨offset, p.position.line + 1, 1⟩, true, p.position⟩
  else if c = '\n' then
    if p.afterReturn then
      ⟨⟨offset, p.position.line, p.position.col⟩, false, p.position⟩
    else
      ⟨⟨offset, p.position.line + 1, 1⟩, false, p.position⟩
  else
    ⟨⟨offset, p.position.line, p.position.col + 1⟩, false, p.position⟩

/-- The place after a run of characters. -/
def pastAll (p : Place) (cs : List Char) : Place :=
  cs.foldl past p

@[simp] theorem pastAll_nil (p : Place) : p.pastAll [] = p := rfl

@[simp] theorem pastAll_cons (p : Place) (c : Char) (cs : List Char) :
    p.pastAll (c :: cs) = (p.past c).pastAll cs := rfl

theorem pastAll_append (p : Place) (as bs : List Char) :
    p.pastAll (as ++ bs) = (p.pastAll as).pastAll bs := by
  simp [pastAll]

@[simp] theorem last_past (p : Place) (c : Char) : (p.past c).last = p.position := by
  unfold past
  split
  · rfl
  · split
    · split <;> rfl
    · rfl

@[simp] theorem offset_past (p : Place) (c : Char) :
    (p.past c).position.offset = p.position.offset + c.utf8Size := by
  unfold past
  split
  · rfl
  · split
    · split <;> rfl
    · rfl

end Place

/-- A text that is being read: the characters still ahead, and their place. -/
structure Cursor where
  rest : List Char
  place : Place

namespace Cursor

/-- A cursor before the first character of a text. -/
def ofText (text : String) : Cursor := ⟨text.toList, Place.start⟩

/-- The next character, which stays ahead. -/
def peek? (c : Cursor) : Option Char := c.rest.head?

def atEnd (c : Cursor) : Bool := c.rest.isEmpty

/-- Bytes still ahead. -/
def bytesAhead (c : Cursor) : Nat := c.rest.foldl (fun n x => n + x.utf8Size) 0

/-- Takes one character. -/
def bump? (c : Cursor) : Option (Char × Cursor) :=
  match c.rest with
  | [] => none
  | x :: rest => some (x, ⟨rest, c.place.past x⟩)

/-- Takes characters until the given number of bytes has been passed, or the
text ends. A character that straddles the mark is taken whole. -/
def advance (c : Cursor) (bytes : Nat) : Cursor :=
  go (c.place.position.offset + bytes) c.rest c.place
where
  go (target : Nat) : List Char → Place → Cursor
    | [], p => ⟨[], p⟩
    | x :: rest, p =>
      if p.position.offset < target then go target rest (p.past x) else ⟨x :: rest, p⟩

end Cursor

example : (Place.start.pastAll ['a', '\r', '\n', 'b']).position = ⟨4, 2, 2⟩ := by decide

example : (Place.start.pastAll ['\n', '\r', '\r']).position = ⟨3, 4, 1⟩ := by decide

end Lisp
