import Lisp.Text.Place

/-!
# Positions

Where a character stands is a function of the characters before it: their bytes, the line
breaks among them, and how many of them come after the last CR or LF. Every CR counts as
a line break, and so does every LF that does not directly follow a CR. A place, which is
carried along from character to character, is at every moment the place behind the
characters that were passed.
-/

namespace Lisp

namespace Text

/-- How many lines end in a text. `before` is the character directly before the text, if
there is one. -/
def lineBreaks (before : Option Char) : List Char → Nat
  | [] => 0
  | c :: cs =>
    (if c = '\r' ∨ c = '\n' ∧ before ≠ some '\r' then 1 else 0) + lineBreaks (some c) cs

theorem lineBreaks_append (before : Option Char) (as bs : List Char) :
    lineBreaks before (as ++ bs) =
      lineBreaks before as + lineBreaks (as.getLast?.or before) bs := by
  induction as generalizing before with
  | nil => simp [lineBreaks]
  | cons c as ih =>
    rw [List.cons_append, lineBreaks, ih, lineBreaks, List.getLast?_cons]
    cases as.getLast? <;> simp [Nat.add_assoc]

/-- How many characters of a text come after its last CR or LF. -/
def charsInLine (cs : List Char) : Nat :=
  (cs.reverse.takeWhile fun c => c ≠ '\r' ∧ c ≠ '\n').length

theorem charsInLine_concat (cs : List Char) (c : Char) :
    charsInLine (cs ++ [c]) = if c = '\r' ∨ c = '\n' then 0 else charsInLine cs + 1 := by
  rw [charsInLine, List.reverse_concat, List.takeWhile_cons, charsInLine]
  by_cases return_ : c = '\r'
  · simp [return_]
  · by_cases feed : c = '\n' <;> simp [return_, feed]

end Text

open Text

/-- The position of a character with given characters before it. -/
def Position.behind (cs : List Char) : Position where
  offset := (String.ofList cs).utf8ByteSize
  line := 1 + lineBreaks none cs
  col := 1 + charsInLine cs

@[simp] theorem Position.behind_nil : Position.behind [] = ⟨0, 1, 1⟩ := rfl

theorem Position.offset_behind_append (as bs : List Char) :
    (Position.behind (as ++ bs)).offset =
      (Position.behind as).offset + (Position.behind bs).offset := by
  simp [Position.behind]

theorem Position.offset_le_append (as bs : List Char) :
    (Position.behind as).offset ≤ (Position.behind (as ++ bs)).offset := by
  rw [offset_behind_append]
  exact Nat.le_add_right _ _

theorem Position.offset_lt_append (as : List Char) {bs : List Char} (some_ : bs ≠ []) :
    (Position.behind as).offset < (Position.behind (as ++ bs)).offset := by
  obtain ⟨b, bs, rfl⟩ := List.exists_cons_of_ne_nil some_
  have wide := Char.utf8Size_pos b
  rw [offset_behind_append]
  simp only [behind, String.ofList_cons, String.utf8ByteSize_append, String.utf8ByteSize_singleton]
  omega

/-- The position after one more character. -/
theorem Position.behind_concat (cs : List Char) (c : Char) :
    Position.behind (cs ++ [c]) =
      ⟨(Position.behind cs).offset + c.utf8Size,
        (Position.behind cs).line +
          (if c = '\r' ∨ c = '\n' ∧ cs.getLast? ≠ some '\r' then 1 else 0),
        if c = '\r' ∨ c = '\n' then 1 else (Position.behind cs).col + 1⟩ := by
  rw [behind, charsInLine_concat, lineBreaks_append, Option.or_none, behind, Position.mk.injEq]
  refine ⟨by simp, by simp [lineBreaks, Nat.add_assoc], ?_⟩
  split <;> simp [Nat.add_assoc]

/-- A line begins after every CR. -/
theorem Position.col_behind {cs : List Char} (return_ : cs.getLast? = some '\r') :
    (Position.behind cs).col = 1 := by
  obtain ⟨front, rfl⟩ := List.getLast?_eq_some_iff.mp return_
  simp [behind_concat]

namespace Place

/-- The place behind given characters. -/
def behind (cs : List Char) : Place where
  position := .behind cs
  afterReturn := cs.getLast? = some '\r'
  last := .behind cs.dropLast

theorem behind_nil : behind [] = start := rfl

theorem past_behind (cs : List Char) (c : Char) : (behind cs).past c = behind (cs ++ [c]) := by
  have passed : behind (cs ++ [c]) =
      ⟨.behind (cs ++ [c]), decide (c = '\r'), .behind cs⟩ := by
    simp [behind]
  rw [passed, Position.behind_concat, past]
  by_cases return_ : c = '\r'
  · simp [return_, behind]
  · by_cases feed : c = '\n'
    · by_cases second : cs.getLast? = some '\r'
      · simp [feed, second, behind, Position.col_behind second]
      · simp [feed, second, behind]
    · simp [return_, feed, behind]

/-- Going along characters leads behind them. -/
theorem pastAll_behind (cs more : List Char) :
    (behind cs).pastAll more = behind (cs ++ more) := by
  induction more generalizing cs with
  | nil => simp
  | cons c more ih => rw [pastAll_cons, past_behind, ih, List.append_assoc, List.singleton_append]

end Place

end Lisp
