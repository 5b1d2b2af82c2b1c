import Lisp.Datum.Basic
import Lisp.Token.Scan

/-!
# Reading data from tokens

Reading keeps a stack of open frames, the innermost first. A list frame holds
the elements read so far; a mark frame waits for its one operand. A finished
expression goes to the innermost frame. It closes a mark frame at once and is
handed on, marked, to the next one; with no frame left it is a form of the text.

A list is improper when its last element but one is a bare dot that stands
directly in it, and its last element is not one. A dot needs an element before
it. Anywhere else a dot is an ordinary symbol.
-/

namespace Lisp

/-- How many lists and marks may be open at once. -/
def maxNesting : Nat := 1000

/-- An element of an open list, and whether it was written as a bare dot. -/
structure Element where
  datum : Datum
  isDot : Bool

/-- A list or a mark that is still open. The elements of a list stand in
reverse. -/
inductive Frame where
  | list (opened : Position) (elements : List Element)
  | mark (opened : Position) (mark : Mark)

/-- A form of a text and the position of its first character. -/
structure Form where
  datum : Datum
  position : Position

namespace Frame

/-- The list of reversed elements before a given end. -/
def build (elements : List Element) (tail : Datum) : Datum :=
  elements.foldl (fun rest e => Datum.cons e.datum rest) tail

/-- The expression that a closing parenthesis completes. -/
def close (elements : List Element) (closing : Position) : Except ReadError Datum :=
  match elements with
  | last :: dot :: front =>
    if dot.isDot && !last.isDot then
      if front.isEmpty then .error (.malformed closing .missingLeft)
      else .ok (build front last.datum)
    else .ok (build elements .nil)
  | _ => .ok (build elements .nil)

/-- Hands a finished expression to the innermost frame. -/
def deliver (datum : Datum) (position : Position) (isDot : Bool) :
    List Frame → List Frame × Option Form
  | [] => ([], some ⟨datum, position⟩)
  | .list opened elements :: rest => (.list opened (⟨datum, isDot⟩ :: elements) :: rest, none)
  | .mark opened m :: rest => deliver (Datum.marked m datum) opened false rest

/-- Opens a frame, unless too many are open. -/
def push (frame : Frame) (at_ : Position) (stack : List Frame) :
    Except ReadError (List Frame × Option Form) :=
  if maxNesting ≤ stack.length then .error (.malformed at_ (.tooDeep maxNesting))
  else .ok (frame :: stack, none)

/-- One token: the frames that are open afterwards, and the form of the text
that it completes, if it does. -/
def step (stack : List Frame) (token : Token) : Except ReadError (List Frame × Option Form) :=
  match token.lexeme with
  | .comment _ => .ok (stack, none)
  | .leftParen => push (.list token.first []) token.first stack
  | .mark m => push (.mark token.first m) token.first stack
  | .rightParen =>
    match stack with
    | [] => .error (.malformed token.last .unmatchedClose)
    | .mark opened m :: _ => .error (.malformed opened (.missingOperand m))
    | .list opened elements :: rest => do
      let datum ← close elements token.last
      return deliver datum opened false rest
  | .integer _ n => .ok (deliver (.integer n) token.first false stack)
  | .float _ x => .ok (deliver (.float x) token.first false stack)
  | .string s => .ok (deliver (.string s) token.first false stack)
  | .symbol name escaped =>
    let datum : Datum :=
      if escaped then .symbol name
      else if name = "nil" then .nil
      else if name = "t" then .bool true
      else .symbol name
    .ok (deliver datum token.first token.lexeme.isDot stack)

/-- What is missing when the text ends inside a frame. An open list is reported
at the last token of the text. -/
def missing (last : Position) : Frame → ReadError
  | .list _ _ => .unterminated last .list
  | .mark opened m => .unterminated opened (.operand m)

end Frame

/-- Reading in progress: the open frames, the end of the last token, the forms
so far, and the error that ended it. -/
structure Reader where
  stack : List Frame
  last : Position
  forms : Array Form
  error? : Option ReadError

namespace Reader

/-- Before the first token. -/
def start : Reader := ⟨[], Place.start.position, #[], none⟩

/-- One token. After an error nothing changes any more. -/
def feed (r : Reader) (token : Token) : Reader :=
  match r.error? with
  | some _ => r
  | none =>
    match Frame.step r.stack token with
    | .error e => { r with error? := some e }
    | .ok (stack, form?) => ⟨stack, token.last, r.forms ++ form?.toList, none⟩

def feedAll (r : Reader) (tokens : List Token) : Reader := tokens.foldl feed r

theorem feedAll_append (r : Reader) (as bs : List Token) :
    r.feedAll (as ++ bs) = (r.feedAll as).feedAll bs := by
  simp [feedAll]

end Reader

/-- The forms of a text up to its end or to the first error. -/
structure Reading where
  forms : List Form
  error? : Option ReadError

namespace Reading

/-- Reads scanned tokens. The error that comes first in the text ends the
reading. -/
def ofTokens (ts : Tokens) : Reading :=
  let r := Reader.start.feedAll ts.tokens
  ⟨r.forms.toList, r.error? <|> ts.error? <|> r.stack.head?.map (Frame.missing r.last)⟩

/-- Reads a whole text. -/
def ofText (text : String) : Reading := ofTokens (Tokens.ofText text)

/-- The only form of a text, or `nil` if there is none. -/
def single (r : Reading) : Except ReadError Datum :=
  match r.forms, r.error? with
  | [], none => .ok .nil
  | [form], none => .ok form.datum
  | _ :: second :: _, _ => .error (.malformed second.position .severalForms)
  | _, some e => .error e

end Reading

/-- Reads a text that holds at most one expression. -/
def Datum.ofText? (text : String) : Except ReadError Datum := (Reading.ofText text).single

end Lisp
