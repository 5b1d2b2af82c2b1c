import Lisp.Token.Basic
import Lisp.Text.Blank
import Lisp.Text.Quoted
import Lisp.Error

/-!
# Scanning a text for tokens

Scanning passes over the text once, one character at a time. Between characters
it remembers what it is in the middle of: nothing, a comment, a string, an
atom, a run between bars, or the character after a backslash. A token is
emitted with the character that ends it, which may at once begin or be the next
one. After an error nothing more is emitted.
-/

namespace Lisp

open Text

/-- What a scan is in the middle of. The characters read so far stand in
reverse, and `first` is where the token began. -/
inductive Mode where
  | between
  | hash (first : Position)
  | comment (first : Position) (text : List Char)
  | string (first : Position) (text : List Char)
  | stringEscape (first : Position) (text : List Char)
  | atom (first : Position) (text : List Char) (escaped : Bool)
  | atomEscape (first : Position) (text : List Char)
  | run (first : Position) (text : List Char)
  | runEscape (first : Position) (text : List Char)
  | failed (error : ReadError)

namespace Mode

/-- A character that belongs to no token yet, at a given position. -/
def begin (here : Position) (c : Char) : List Token × Mode :=
  if isBlank c then ([], between)
  else if c = '(' then ([⟨.leftParen, here, here⟩], between)
  else if c = ')' then ([⟨.rightParen, here, here⟩], between)
  else if c = '\x27' then ([⟨.mark .quote, here, here⟩], between)
  else if c = ';' then ([], comment here [c])
  else if c = '\x22' then ([], string here [])
  else if c = '#' then ([], hash here)
  else if c = '\\' then ([], atomEscape here [])
  else if c = '|' then ([], run here [c])
  else ([], atom here [c] false)

/-- The token of an atom. -/
def atomToken (first last : Position) (text : List Char) (escaped : Bool) : Token :=
  ⟨.ofAtom text.reverse escaped, first, last⟩

/-- The next character inside an atom. -/
def continueAtom (p : Place) (first : Position) (text : List Char) (escaped : Bool) (c : Char) :
    List Token × Mode :=
  if isDelimiter c then
    let (tokens, mode) := begin p.position c
    (atomToken first p.last text escaped :: tokens, mode)
  else if c = '\\' then ([], atomEscape first text)
  else if c = '|' then ([], run first (c :: text))
  else ([], atom first (c :: text) escaped)

/-- One character: the tokens that it completes, and what the scan is in the
middle of afterwards. -/
def step (mode : Mode) (p : Place) (c : Char) : List Token × Mode :=
  match mode with
  | between => begin p.position c
  | hash first =>
    if c = '\x27' then ([⟨.mark .function, first, p.position⟩], between)
    else continueAtom p first ['#'] false c
  | comment first text =>
    if c = '\n' ∨ c = '\r' then
      ([⟨.comment (String.ofList text.reverse), first, p.last⟩], between)
    else ([], comment first (c :: text))
  | string first text =>
    if c = '\x22' then ([⟨.string (String.ofList text.reverse), first, p.position⟩], between)
    else if c = '\\' then ([], stringEscape first text)
    else ([], string first (c :: text))
  | stringEscape first text =>
    match Quoted.unescape? c with
    | some d => ([], string first (d :: text))
    | none => ([], failed (.malformed p.position (.unexpectedEscape c)))
  | atom first text escaped => continueAtom p first text escaped c
  | atomEscape first text => ([], atom first (c :: text) true)
  | run first text =>
    if c = '|' then ([], atom first (c :: text) true)
    else if c = '\\' then ([], runEscape first (c :: text))
    else ([], run first (c :: text))
  | runEscape first text => ([], run first (c :: text))
  | failed error => ([], failed error)

/-- The end of the text: the token that it completes, or what is missing. -/
def finish (mode : Mode) (p : Place) : List Token × Option ReadError :=
  match mode with
  | between => ([], none)
  | hash first => ([atomToken first p.last ['#'] false], none)
  | comment first text => ([⟨.comment (String.ofList text.reverse), first, p.last⟩], none)
  | string _ _ => ([], some (.unterminated p.last .string))
  | stringEscape _ _ => ([], some (.unterminated p.last .escape))
  | atom first text escaped => ([atomToken first p.last text escaped], none)
  | atomEscape _ _ => ([], some (.unterminated p.last .escape))
  | run _ _ => ([], some (.unterminated p.last .run))
  | runEscape _ _ => ([], some (.unterminated p.last .escape))
  | failed error => ([], some error)

end Mode

/-- A scan in progress: where it is, what it is in the middle of, and the
tokens so far. -/
structure Scan where
  place : Place
  mode : Mode
  tokens : Array Token

namespace Scan

/-- Before the first character. -/
def start : Scan := ⟨Place.start, .between, #[]⟩

def feed (s : Scan) (c : Char) : Scan :=
  let (tokens, mode) := s.mode.step s.place c
  ⟨s.place.past c, mode, s.tokens ++ tokens⟩

def feedAll (s : Scan) (cs : List Char) : Scan := cs.foldl feed s

theorem feedAll_append (s : Scan) (as bs : List Char) :
    s.feedAll (as ++ bs) = (s.feedAll as).feedAll bs := by
  simp [feedAll]

@[simp] theorem place_feedAll (s : Scan) (cs : List Char) :
    (s.feedAll cs).place = s.place.pastAll cs := by
  induction cs generalizing s with
  | nil => rfl
  | cons c cs ih => exact ih (s.feed c)

end Scan

/-- The tokens of a text up to its end or to the first error. -/
structure Tokens where
  tokens : List Token
  error? : Option ReadError

/-- Scans a whole text. -/
def Tokens.ofText (text : String) : Tokens :=
  let scan := Scan.start.feedAll text.toList
  let (tokens, error?) := scan.mode.finish scan.place
  ⟨(scan.tokens ++ tokens).toList, error?⟩

end Lisp
