import Lisp.Proofs.Relocation

/-!
# One text below the other

A text that is read without an error leaves nothing open at the end of its last line. What
stands on the lines below is read as it is on its own, so that the forms of both texts
follow each other, and an error of the second one is the error of both.

A text that ends in a line break can be read without an error and still have a token open,
but only behind a backslash, which makes the line break part of a symbol.
-/

namespace Lisp

open Text

namespace Mode

/-- The end of a line completes the same tokens as the end of the text, unless something is
missing there. -/
theorem step_newline {mode : Mode} {p : Place} (complete : (mode.finish p).2 = none) :
    mode.step p '\n' = ((mode.finish p).1, between) := by
  cases mode with
  | between => rfl
  | hash first => rfl
  | comment first text => rfl
  | atom first text escaped => rfl
  | _ => cases complete

theorem scan_newline {mode : Mode} {p : Place} {cs : List Char}
    (complete : (mode.tokensOf p cs).error? = none) :
    mode.scan p (cs ++ ['\n']) = ((mode.tokensOf p cs).tokens, between) := by
  have ended : (mode.scan p cs).2.step (p.pastAll cs) '\n' = _ := step_newline complete
  rw [scan_append, scan_cons, ended]
  simp [tokensOf_eq]

theorem tokensOf_newline {mode : Mode} {p : Place} {cs : List Char}
    (complete : (mode.tokensOf p cs).error? = none) :
    mode.tokensOf p (cs ++ ['\n']) = mode.tokensOf p cs := by
  rw [tokensOf_eq, scan_newline complete, finish, List.append_nil, ← complete]

/-- Nothing is missing behind the end of a line only where no token is open, unless a
backslash stands before it. -/
theorem between_of_newline {mode : Mode} {p q : Place}
    (complete : ((mode.step p '\n').2.finish q).2 = none)
    (bare : ∀ first text, mode ≠ atomEscape first text) : (mode.step p '\n').2 = between := by
  cases mode with
  | between => rfl
  | hash first => rfl
  | comment first text => rfl
  | atom first text escaped => rfl
  | atomEscape first text => exact absurd rfl (bare first text)
  | _ => cases complete

theorem backslash_of_step {mode : Mode} {p : Place} {c : Char} {first : Position}
    {text : List Char} (escape : (mode.step p c).2 = atomEscape first text) : c = '\\' := by
  have begun : ∀ here, (begin here c).2 = atomEscape first text → c = '\\' := by
    intro here h
    unfold begin at h
    repeat' split at h
    all_goals first | assumption | cases h
  have continued : ∀ first' text' escaped,
      (continueAtom p first' text' escaped c).2 = atomEscape first text → c = '\\' := by
    intro first' text' escaped h
    unfold continueAtom at h
    split at h
    · exact begun p.position h
    · repeat' split at h
      all_goals first | assumption | cases h
  cases mode with
  | between => exact begun p.position escape
  | atom first' text' escaped => exact continued first' text' escaped escape
  | hash first' =>
    simp only [step] at escape
    split at escape
    · cases escape
    · exact continued first' ['#'] false escape
  | _ =>
    simp only [step] at escape
    repeat' split at escape
    all_goals cases escape

/-- A scan waits for the character after a backslash only behind a backslash. -/
theorem backslash_of_scan {p : Place} {cs : List Char} {first : Position} {text : List Char}
    (escape : (between.scan p cs).2 = atomEscape first text) : cs.getLast? = some '\\' := by
  rcases List.eq_nil_or_concat cs with rfl | ⟨front, c, rfl⟩
  · cases escape
  · rw [List.concat_eq_append, scan_append] at escape
    simp [backslash_of_step escape]

end Mode

namespace Reading

theorem ofTokens_complete_iff (ts : Tokens) :
    (ofTokens ts).error? = none ↔
      (Reader.start.feedAll ts.tokens).error? = none ∧ ts.error? = none ∧
        (Reader.start.feedAll ts.tokens).stack = [] := by
  simp [ofTokens]

/-- Whole lines after which neither a token nor an expression is open. -/
structure SelfContained (text : String) : Prop where
  lines : WholeLines text.toList
  mode : (Mode.between.scan Place.start text.toList).2 = .between
  complete : (ofText text).error? = none

/-- What stands on the lines below is read as it is on its own. -/
theorem SelfContained.ofText_append {text : String} (h : SelfContained text) (more : String) :
    ofText (text ++ more) =
      ⟨(ofText text).forms ++ (ofText more).forms.map (.moved (.below text.toList)),
        (ofText more).error?.map (.moved (.below text.toList))⟩ := by
  have scanned : Tokens.ofText text =
      ⟨(Mode.between.scan Place.start text.toList).1, none⟩ := by
    rw [Tokens.ofText_eq_tokensOf, Mode.tokensOf_eq, h.mode]
    simp [Mode.finish]
  obtain ⟨quiet, -, closed⟩ := (ofTokens_complete_iff _).mp h.complete
  rw [scanned] at quiet closed
  rw [Reading.ofText_append, h.mode, ← Place.behind_nil, Place.pastAll_behind, List.nil_append,
    Mode.tokensOf_behind h.lines, ← Tokens.ofText_eq_tokensOf, Place.behind_nil,
    ofTokens_moved quiet closed]
  simp [ofText, ofTokens, scanned]

theorem wholeLines_newline (text : String) : WholeLines (text ++ "\n").toList := by
  simp [WholeLines]

/-- The end of its last line leaves nothing open in a text that is complete, and adds
nothing to it. -/
theorem selfContained_newline {text : String} (complete : (ofText text).error? = none) :
    SelfContained (text ++ "\n") ∧ ofText (text ++ "\n") = ofText text := by
  obtain ⟨-, scanned, -⟩ := (ofTokens_complete_iff _).mp complete
  rw [Tokens.ofText_eq_tokensOf] at scanned
  have line : (text ++ "\n").toList = text.toList ++ ['\n'] := String.toList_append
  have same : ofText (text ++ "\n") = ofText text := by
    rw [ofText, ofText, Tokens.ofText_eq_tokensOf, Tokens.ofText_eq_tokensOf, line,
      Mode.tokensOf_newline scanned]
  refine ⟨⟨wholeLines_newline text, ?_, by rw [same, complete]⟩, same⟩
  rw [line, Mode.scan_newline scanned]

/-- A line that does not end in a backslash leaves nothing open if it completes a text. -/
theorem selfContained_of_line {text : String} (complete : (ofText (text ++ "\n")).error? = none)
    (bare : text.toList.getLast? ≠ some '\\') : SelfContained (text ++ "\n") := by
  obtain ⟨-, scanned, -⟩ := (ofTokens_complete_iff _).mp complete
  have line : (text ++ "\n").toList = text.toList ++ ['\n'] := String.toList_append
  have last : (Mode.between.scan Place.start (text ++ "\n").toList).2 =
      ((Mode.between.scan Place.start text.toList).2.step (Place.start.pastAll text.toList)
        '\n').2 := by
    rw [line, Mode.scan_append]
    rfl
  rw [Tokens.ofText_eq_tokensOf, Mode.tokensOf_eq, last] at scanned
  refine ⟨wholeLines_newline text, ?_, complete⟩
  rw [last]
  exact Mode.between_of_newline scanned fun first held escape =>
    bare (Mode.backslash_of_scan escape)

end Reading

end Lisp
