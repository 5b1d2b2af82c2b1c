import Lisp.Proofs.Completion
import Lisp.Proofs.Positions

/-!
# Texts below other lines

Scanning and reading look at the characters of a text, and copy positions without looking
at them. A text below other lines is therefore scanned and read as on its own, and only the
positions in what comes out are different: their offsets and their lines go up by the bytes
and the lines above, and their columns stay.

What was read before matters only if it left something open. Then the place of the token
before is not looked at either, because it is reported for a list that is open at the end.
-/

namespace Lisp

open Text

variable {f : Position → Position}

/-- Where a position of a text is when whole lines stand above the text. -/
def Position.below (above : List Char) (p : Position) : Position :=
  ⟨(Position.behind above).offset + p.offset, lineBreaks none above + p.line, p.col⟩

/-- No characters, or lines of which the last ends in LF. -/
def Text.WholeLines (cs : List Char) : Prop := ∀ c, cs.getLast? = some c → c = '\n'

def ReadError.moved (f : Position → Position) : ReadError → ReadError
  | malformed position cause => malformed (f position) cause
  | unterminated position cause => unterminated (f position) cause

def Token.moved (f : Position → Position) (t : Token) : Token := ⟨t.lexeme, f t.first, f t.last⟩

def Tokens.moved (f : Position → Position) (ts : Tokens) : Tokens :=
  ⟨ts.tokens.map (.moved f), ts.error?.map (.moved f)⟩

def Form.moved (f : Position → Position) (form : Form) : Form := ⟨form.datum, f form.position⟩

def Frame.moved (f : Position → Position) : Frame → Frame
  | list opened elements => list (f opened) elements
  | mark opened m => mark (f opened) m

def Place.moved (f : Position → Position) (p : Place) : Place :=
  ⟨f p.position, p.afterReturn, f p.last⟩

def Mode.moved (f : Position → Position) : Mode → Mode
  | between => between
  | hash first => hash (f first)
  | comment first text => comment (f first) text
  | string first text => string (f first) text
  | stringEscape first text => stringEscape (f first) text
  | atom first text escaped => atom (f first) text escaped
  | atomEscape first text => atomEscape (f first) text
  | run first text => run (f first) text
  | runEscape first text => runEscape (f first) text
  | failed error => failed (error.moved f)

theorem Place.past_below (above : List Char) (p : Place) (c : Char) :
    (p.moved (.below above)).past c = (p.past c).moved (.below above) := by
  unfold past
  by_cases return_ : c = '\r'
  · simp [return_, moved, Position.below, Nat.add_assoc]
  · by_cases feed : c = '\n'
    · cases p with
      | mk position afterReturn last =>
        cases afterReturn <;> simp [feed, moved, Position.below, Nat.add_assoc]
    · simp [return_, feed, moved, Position.below, Nat.add_assoc]

namespace Mode

theorem begin_moved (here : Position) (c : Char) :
    begin (f here) c = Prod.map (List.map (.moved f)) (.moved f) (begin here c) := by
  simp only [begin, apply_ite (Prod.map _ _)]
  rfl

theorem continueAtom_moved (p : Place) (first : Position) (text : List Char) (escaped : Bool)
    (c : Char) :
    continueAtom (p.moved f) (f first) text escaped c =
      Prod.map (List.map (.moved f)) (.moved f) (continueAtom p first text escaped c) := by
  have begun := begin_moved (f := f) p.position c
  simp only [continueAtom, apply_ite (Prod.map _ _)]
  rw [show (p.moved f).position = f p.position from rfl, begun]
  rfl

/-- A step copies the positions of its mode and of its place. -/
theorem step_moved (mode : Mode) (p : Place) (c : Char) :
    (mode.moved f).step (p.moved f) c =
      Prod.map (List.map (.moved f)) (.moved f) (mode.step p c) := by
  cases mode with
  | between => exact begin_moved p.position c
  | atom first text escaped => exact continueAtom_moved p first text escaped c
  | hash first =>
    simp only [step, moved, apply_ite (Prod.map _ _), continueAtom_moved]
    rfl
  | stringEscape first text =>
    simp only [step, moved]
    cases Quoted.unescape? c <;> rfl
  | _ =>
    simp only [step, moved, apply_ite (Prod.map _ _)]
    rfl

theorem finish_moved (mode : Mode) (p : Place) :
    (mode.moved f).finish (p.moved f) =
      Prod.map (List.map (.moved f)) (Option.map (.moved f)) (mode.finish p) := by
  cases mode <;> rfl

theorem tokensOf_below (above : List Char) (mode : Mode) (p : Place) (cs : List Char) :
    (mode.moved (.below above)).tokensOf (p.moved (.below above)) cs =
      (mode.tokensOf p cs).moved (.below above) := by
  induction cs generalizing mode p with
  | nil =>
    rw [tokensOf_nil, tokensOf_nil, finish_moved]
    rfl
  | cons c cs ih =>
    rw [tokensOf_cons, tokensOf_cons, step_moved, Place.past_below, Prod.map_snd, ih]
    simp [Tokens.moved, Tokens.precededBy]

/-- Between two tokens it does not matter where the last character was. -/
theorem tokensOf_between_congr {p q : Place} (position : p.position = q.position)
    (afterReturn : p.afterReturn = q.afterReturn) (cs : List Char) :
    between.tokensOf p cs = between.tokensOf q cs := by
  cases cs with
  | nil => rfl
  | cons c cs =>
    have past : p.past c = q.past c := by rw [Place.past, Place.past, position, afterReturn]
    rw [tokensOf_cons, tokensOf_cons, past, step, step, position]

/-- A text is scanned below whole lines as it is on its own. -/
theorem tokensOf_behind {above : List Char} (lines : WholeLines above) (cs : List Char) :
    between.tokensOf (Place.behind above) cs =
      (between.tokensOf Place.start cs).moved (.below above) := by
  have column : charsInLine above = 0 ∧ above.getLast? ≠ some '\r' := by
    rcases List.eq_nil_or_concat above with rfl | ⟨front, c, rfl⟩
    · exact ⟨rfl, nofun⟩
    · obtain rfl := lines c (by simp)
      simp [charsInLine_concat]
  rw [← tokensOf_below]
  refine tokensOf_between_congr ?_ (by simp [Place.behind, Place.moved, Place.start, column.2]) cs
  simp [Place.behind, Place.moved, Place.start, Position.below, Position.behind, column.1,
    Nat.add_comm]

end Mode

namespace Frame

theorem deliver_moved (d : Datum) (at_ : Position) (isDot : Bool) (stack : List Frame) :
    deliver d (f at_) isDot (stack.map (.moved f)) =
      Prod.map (List.map (.moved f)) (Option.map (.moved f)) (deliver d at_ isDot stack) := by
  induction stack generalizing d at_ isDot with
  | nil => rfl
  | cons frame rest ih =>
    cases frame with
    | list opened elements => rfl
    | mark opened m => exact ih _ opened false

theorem push_moved (frame : Frame) (at_ : Position) (stack : List Frame) :
    push (frame.moved f) (f at_) (stack.map (.moved f)) =
      ((push frame at_ stack).map
        (Prod.map (List.map (.moved f)) (Option.map (.moved f)))).mapError (.moved f) := by
  unfold push
  rw [List.length_map]
  split <;> rfl

theorem close_moved (elements : List Element) (closing : Position) :
    close elements (f closing) = (close elements closing).mapError (.moved f) := by
  unfold close
  repeat' split
  all_goals rfl

/-- So does a step of a reading. -/
theorem step_moved (stack : List Frame) (t : Token) :
    step (stack.map (.moved f)) (t.moved f) =
      ((step stack t).map
        (Prod.map (List.map (.moved f)) (Option.map (.moved f)))).mapError (.moved f) := by
  have same : (t.moved f).lexeme = t.lexeme := rfl
  rcases t.lexeme.kinds with ⟨d, hd⟩ | comment | opening | ⟨m, mark⟩ | closing
  · rw [step_of_datum? hd, step_of_datum? (same ▸ hd)]
    exact congrArg Except.ok (deliver_moved d t.first _ stack)
  · rw [step_of_isComment comment, step_of_isComment (same ▸ comment)]
    rfl
  · rw [step_of_leftParen opening, step_of_leftParen (same ▸ opening)]
    exact push_moved (.list t.first []) t.first stack
  · rw [step_of_mark mark, step_of_mark (same ▸ mark)]
    exact push_moved (.mark t.first m) t.first stack
  · rw [step_of_rightParen closing, step_of_rightParen (same ▸ closing)]
    cases stack with
    | nil => rfl
    | cons frame rest =>
      cases frame with
      | mark opened m => rfl
      | list opened elements =>
        have closed := close_moved (f := f) elements t.last
        simp only [List.map_cons, moved]
        rw [show (t.moved f).last = f t.last from rfl, closed]
        cases close elements t.last with
        | error e => rfl
        | ok d => exact congrArg Except.ok (deliver_moved d opened false rest)

theorem missing_moved {stack : List Frame} {p q : Position} (same : stack = [] ∨ p = f q) :
    (stack.map (.moved f)).head?.map (missing p) =
      (stack.head?.map (missing q)).map (.moved f) := by
  rcases same with rfl | rfl
  · rfl
  · cases stack with
    | nil => rfl
    | cons frame rest => cases frame <;> rfl

end Frame

/-- What one reading has beyond the forms read before it is what another has at other
positions. The last token is of no account while nothing is open. -/
structure Reader.Follows (f : Position → Position) (before : Array Form) (b a : Reader) :
    Prop where
  stack : b.stack = a.stack.map (.moved f)
  forms : b.forms = before ++ a.forms.map (.moved f)
  error : b.error? = a.error?.map (.moved f)
  last : a.stack = [] ∨ b.last = f a.last

theorem Reader.Follows.feed {before : Array Form} {b a : Reader} (h : Follows f before b a)
    (t : Token) : Follows f before (b.feed (t.moved f)) (a.feed t) := by
  obtain ⟨stack, forms, error, last⟩ := h
  have moved := Frame.step_moved (f := f) a.stack t
  rw [← stack] at moved
  cases failed : a.error? with
  | some e =>
    rw [failed, Option.map_some] at error
    rw [feed_of_error failed, feed_of_error error]
    exact ⟨stack, forms, by rw [error, failed]; rfl, last⟩
  | none =>
    rw [failed, Option.map_none] at error
    cases step : Frame.step a.stack t with
    | error e =>
      rw [step] at moved
      rw [feed_of_step_error failed step, feed_of_step_error error moved]
      exact ⟨stack, forms, rfl, last⟩
    | ok next =>
      rw [step] at moved
      rw [feed_of_step_ok failed step, feed_of_step_ok error moved]
      obtain ⟨frames, form⟩ := next
      refine ⟨rfl, ?_, rfl, .inr rfl⟩
      cases form <;> simp [forms]

theorem Reader.Follows.feedAll {before : Array Form} {b a : Reader} (h : Follows f before b a)
    (ts : List Token) : Follows f before (b.feedAll (ts.map (.moved f))) (a.feedAll ts) := by
  induction ts generalizing b a with
  | nil => exact h
  | cons t ts ih => exact ih (h.feed t)

/-- Behind tokens after which nothing is open, tokens are read as they are on their own. -/
theorem Reading.ofTokens_moved {ts : List Token} (quiet : (Reader.start.feedAll ts).error? = none)
    (closed : (Reader.start.feedAll ts).stack = []) (later : Tokens) :
    ofTokens ((later.moved f).precededBy ts) =
      ⟨(Reader.start.feedAll ts).forms.toList ++ (ofTokens later).forms.map (.moved f),
        (ofTokens later).error?.map (.moved f)⟩ := by
  have begun : Reader.Follows f (Reader.start.feedAll ts).forms (Reader.start.feedAll ts) .start :=
    ⟨closed, by simp [Reader.start], quiet, .inl rfl⟩
  obtain ⟨stack, forms, error, last⟩ := begun.feedAll later.tokens
  rw [ofTokens_precededBy]
  simp only [Tokens.moved, forms, error, stack, ofTokens, Option.orElse_eq_orElse,
    Option.orElse_eq_or, Array.toList_append, Array.toList_map, Option.map_or]
  rw [Frame.missing_moved last]

end Lisp
