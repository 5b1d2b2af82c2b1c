import Lisp.Proofs.ConsecutiveTexts
import Lisp.CommandLine
import Mathlib.Data.List.TakeWhile

/-!
# Lines of the console

The console reads the lines that it has collected again with every new line. It evaluates
them as soon as they are complete, and then begins anew. It can only be wrong about where
an input ends if more lines would have changed what was read, and after a complete input
they do not: nothing is open at the end of its last line. A line that is skipped because it
is blank holds no token.

So however a text is broken into lines, its forms are evaluated once and in order, as if all
of it had been read at once.
-/

namespace Lisp

open Text

namespace Mode

theorem scan_blanks {cs : List Char} (blank : ∀ c ∈ cs, isBlank c = true) (p : Place) :
    between.scan p cs = ([], between) := by
  induction cs generalizing p with
  | nil => rfl
  | cons c cs ih =>
    have skipped : between.step p c = ([], between) := by
      simp [step, begin, blank c List.mem_cons_self]
    rw [scan_cons, skipped, ih fun d mem => blank d (List.mem_cons_of_mem c mem)]
    rfl

end Mode

theorem Text.blank_of_trim {text : String} (empty : trim text = "") :
    ∀ c ∈ text.toList, isBlank c = true := by
  have inner : ∀ c ∈ text.toList.dropWhile isBlank, isBlank c = true := by
    have nothing := congrArg String.toList empty
    simpa [trim, List.dropWhile_eq_nil_iff] using nothing
  intro c mem
  rw [← List.takeWhile_append_dropWhile (p := isBlank) (l := text.toList)] at mem
  rcases List.mem_append.mp mem with before | behind
  · exact List.mem_takeWhile_imp before
  · exact inner c behind

namespace Reading

/-- A text after which nothing is open hands over to what stands below. -/
theorem SelfContained.hands_over {text more : String} (h : SelfContained text)
    (complete : (ofText (text ++ more)).error? = none) :
    (ofText more).error? = none ∧
      (ofText (text ++ more)).forms.map Form.datum =
        (ofText text).forms.map Form.datum ++ (ofText more).forms.map Form.datum := by
  rw [h.ofText_append] at complete ⊢
  refine ⟨Option.map_eq_none_iff.mp complete, ?_⟩
  simp [Form.moved, Function.comp_def]

/-- A blank line has no form. -/
theorem selfContained_blank {line : String} (blank : trim line = "") :
    SelfContained (line ++ "\n") ∧ (ofText (line ++ "\n")).forms = [] := by
  have scanned := Mode.scan_blanks (blank_of_trim blank) Place.start
  have nothing : ofText line = ⟨[], none⟩ := by
    rw [ofText, Tokens.ofText_eq_tokensOf, Mode.tokensOf_eq, scanned]
    rfl
  have complete : (ofText line).error? = none := by rw [nothing]
  obtain ⟨contained, same⟩ := selfContained_newline complete
  exact ⟨contained, by rw [same, nothing]⟩

/-- A text that can be completed has not failed for good. -/
theorem unterminated_of_append {text more : String} {e : ReadError}
    (complete : (ofText (text ++ more)).error? = none) (error : (ofText text).error? = some e) :
    ∃ position cause, e = .unterminated position cause := by
  rw [ofText_append] at complete
  rcases error?_ofText text with ⟨e', failed, _⟩ | ⟨_, e', failed, _⟩ | ⟨_, _, ended⟩
  · rw [ofTokens_precededBy] at complete
    simp [Reader.feedAll_of_error failed, failed] at complete
  · rw [failed] at complete
    simp [Mode.tokensOf_eq, Mode.scan_failed, Mode.finish, ofTokens_complete_iff] at complete
  · exact ended e error

end Reading

/-- Evaluating two runs of data is evaluating the first and then the second. -/
theorem Session.showData_append (s : Session) (showValue : Bool) (ds es : List Datum) :
    s.showData showValue (ds ++ es) =
      let first := s.showData showValue ds
      let others := first.session.showData showValue es
      ⟨first.result && others.result, others.session, first.emissions ++ others.emissions⟩ := by
  induction ds generalizing s with
  | nil => rfl
  | cons d ds ih =>
    simp only [List.cons_append, showData, ih, Bool.and_assoc, List.append_assoc]

namespace Console

/-- The text of lines, each of which ends in LF. -/
def joined : List String → String
  | [] => ""
  | line :: rest => line ++ "\n" ++ joined rest

def commands : List String := [":help", ":env", ":quit", ":exit"]

/-- A text that the console keeps until more lines complete it. -/
structure Unfinished (text : String) : Prop where
  ended : text = "" ∨ ∃ position cause,
    (Reading.ofText text).error? = some (.unterminated position cause)
  bare : text.toList.getLast? ≠ some '\\'

theorem unfinished_empty : Unfinished "" := ⟨.inl rfl, by simp⟩

/-- What a line is when it is neither skipped nor a command. -/
theorem enterLine_cases (c : Console) {line : String}
    (free : c.pending = "" → trim line ∉ commands) :
    c.pending = "" ∧ trim line = "" ∧ c.enterLine line = (c, []) ∨
      c.enterLine line = c.continueInput line := by
  by_cases fresh : c.pending = ""
  · have allowed := free fresh
    rw [enterLine, if_pos (String.isEmpty_iff.mpr fresh)]
    split
    · rename_i blank
      exact .inl ⟨fresh, blank, rfl⟩
    · simp_all [commands]
    · simp_all [commands]
    · simp_all [commands]
    · simp_all [commands]
    · exact .inr rfl
  · simp [enterLine, String.isEmpty_iff, fresh]

/-- One line: what it completes is evaluated, and the rest of the text has the forms that
are left. -/
theorem enterLine_step {c : Console} (unfinished : Unfinished c.pending) {line rest : String}
    (bare : line.toList.getLast? ≠ some '\\') (free : c.pending = "" → trim line ∉ commands)
    (complete : (Reading.ofText (c.pending ++ (line ++ "\n" ++ rest))).error? = none) :
    ∃ data pending,
      c.enterLine line =
        ({ c with session := (c.session.showData true data).session, pending },
          (c.session.showData true data).emissions) ∧
      Unfinished pending ∧ (Reading.ofText (pending ++ rest)).error? = none ∧
      (Reading.ofText (c.pending ++ (line ++ "\n" ++ rest))).forms.map Form.datum =
        data ++ (Reading.ofText (pending ++ rest)).forms.map Form.datum := by
  rcases enterLine_cases c free with ⟨fresh, blank, skipped⟩ | entered
  · obtain ⟨contained, none_read⟩ := Reading.selfContained_blank blank
    rw [fresh, String.empty_append] at complete ⊢
    obtain ⟨left, forms⟩ := contained.hands_over complete
    refine ⟨[], "", ?_, unfinished_empty, left, ?_⟩
    · rw [skipped, ← fresh]
      rfl
    · rw [forms, none_read]
      rfl
  · have whole : c.pending ++ (line ++ "\n" ++ rest) = c.pending ++ line ++ "\n" ++ rest := by
      simp only [String.append_assoc]
    have ended : (c.pending ++ line).toList.getLast? ≠ some '\\' := by
      rw [String.toList_append, List.getLast?_append]
      cases last : line.toList.getLast? with
      | none => simpa using unfinished.bare
      | some d => rwa [last] at bare
    rw [whole] at complete ⊢
    cases error : (Reading.ofText (c.pending ++ line ++ "\n")).error? with
    | none =>
      have contained := Reading.selfContained_of_line error ended
      obtain ⟨left, forms⟩ := contained.hands_over complete
      refine ⟨_, "", ?_, unfinished_empty, left, forms⟩
      rw [entered, continueInput]
      simp only [error]
    | some e =>
      obtain ⟨position, cause, rfl⟩ := Reading.unterminated_of_append complete error
      refine ⟨[], c.pending ++ line ++ "\n", ?_, ⟨.inr ⟨_, _, error⟩, by simp⟩, complete, rfl⟩
      rw [entered, continueInput]
      simp only [error]
      rfl

/-- A run: the lines are evaluated as the whole text is. -/
theorem enterLines_eq {c : Console} (stays : c.closed = false) (unfinished : Unfinished c.pending)
    {lines : List String} (bare : ∀ line ∈ lines, line.toList.getLast? ≠ some '\\')
    (free : ∀ before line after, lines = before ++ line :: after →
      (c.enterLines before).1.pending = "" → trim line ∉ commands)
    (complete : (Reading.ofText (c.pending ++ joined lines)).error? = none) :
    let step := c.session.showData true
      ((Reading.ofText (c.pending ++ joined lines)).forms.map Form.datum)
    c.enterLines lines = ({ c with session := step.session, pending := "" }, step.emissions) := by
  -- Along the lines, what is left to evaluate are the forms of the pending text and the rest.
  induction lines generalizing c with
  | nil =>
    rw [joined, String.append_empty] at complete
    obtain fresh | ⟨_, _, error⟩ := unfinished.ended
    · obtain ⟨session, pending, closed⟩ := c
      obtain rfl : pending = "" := fresh
      rfl
    · cases complete.symm.trans error
  | cons line lines ih =>
    obtain ⟨bare, others⟩ := List.forall_mem_cons.mp bare
    obtain ⟨data, pending, entered, unfinished', left, forms⟩ :=
      enterLine_step unfinished bare (free [] line lines rfl) complete
    have unrolled : ∀ more, c.enterLines (line :: more) =
        (((c.enterLine line).1.enterLines more).1,
          (c.enterLine line).2 ++ ((c.enterLine line).1.enterLines more).2) := by
      intro more
      rw [enterLines, stays]
      rfl
    have later := ih (c := (c.enterLine line).1) (by rw [entered]; exact stays)
      (by rw [entered]; exact unfinished') others
      (fun before next after same => by
        have now := free (line :: before) next after (by rw [same, List.cons_append])
        rwa [unrolled] at now)
      (by rw [entered]; exact left)
    intro step
    rw [unrolled, later, entered]
    simp only [step, joined, forms, Session.showData_append]

theorem linesOf_go_append {cs : List Char} (unbroken : '\n' ∉ cs) (read rest : List Char) :
    CommandLine.linesOf.go read (cs ++ rest) =
      CommandLine.linesOf.go (cs.reverse ++ read) rest := by
  induction cs generalizing read with
  | nil => rfl
  | cons c cs ih =>
    obtain ⟨other, unbroken⟩ := not_or.mp (List.mem_cons.not.mp unbroken)
    rw [List.cons_append, CommandLine.linesOf.go, ih unbroken (c :: read)]
    · simp
    · exact fun same => other same.symm

/-- Lines without line breaks are the lines of their text. -/
theorem linesOf_joined {lines : List String}
    (unbroken : ∀ line ∈ lines, '\n' ∉ line.toList ∧ '\r' ∉ line.toList) :
    CommandLine.linesOf (joined lines) = lines := by
  unfold CommandLine.linesOf
  induction lines with
  | nil => rfl
  | cons line lines ih =>
    obtain ⟨⟨feed, return_⟩, others⟩ := List.forall_mem_cons.mp unbroken
    have text : (joined (line :: lines)).toList =
        line.toList ++ ('\n' :: (joined lines).toList) := by
      simp [joined]
    rw [text, linesOf_go_append feed, List.append_nil, CommandLine.linesOf.go, ih others]
    · simp
    · intro before same
      exact return_ (List.mem_reverse.mp (same ▸ List.mem_cons_self))

/-- However a text is broken into lines that do not end in a backslash, the console evaluates
its forms once each and in order, reporting and passing over failures, and is then ready for
a new input. No command may stand where an input begins. If the lines are those of the whole
input, nothing else is shown between the banner and the farewell. -/
theorem enterLines_joined (s : Session) {lines : List String}
    (bare : ∀ line ∈ lines, line.toList.getLast? ≠ some '\\')
    (free : ∀ before line after, lines = before ++ line :: after →
      ((Console.mk s "" false).enterLines before).1.pending = "" → trim line ∉ commands)
    (complete : (Reading.ofText (joined lines)).error? = none) :
    let step := s.showData true ((Reading.ofText (joined lines)).forms.map Form.datum)
    (Console.mk s "" false).enterLines lines =
        (Console.mk step.session "" false, step.emissions) ∧
      ((∀ line ∈ lines, '\n' ∉ line.toList ∧ '\r' ∉ line.toList) →
        CommandLine.runConsole s (joined lines) = banner ++ step.emissions ++ farewell) := by
  have whole := enterLines_eq (c := Console.mk s "" false) rfl unfinished_empty bare free
  simp only [String.empty_append] at whole
  have entered := whole complete
  refine ⟨entered, fun unbroken => ?_⟩
  rw [CommandLine.runConsole, linesOf_joined unbroken, entered]
  rfl

/-- A list over three lines, one of them empty, and a form that fails. -/
def brokenLines : List String := ["(list 1", "", "2) (car 1)", "; done", "3"]

theorem enterLines_brokenLines :
    (∀ line ∈ brokenLines, line.toList.getLast? ≠ some '\\' ∧ trim line ∉ commands) ∧
      (∀ line ∈ brokenLines, '\n' ∉ line.toList ∧ '\r' ∉ line.toList) ∧
      (Reading.ofText (joined brokenLines)).error? = none ∧
      ((Console.mk {} "" false).enterLines brokenLines).1.pending = "" ∧
      CommandLine.runConsole {} (joined brokenLines) =
        banner ++ [.outLine "(1 2)", .report (.parameters "car" (.wrongType 0 .list "integer")),
          .outLine "3"] ++ farewell := by
  have plain : ∀ line ∈ brokenLines, line.toList.getLast? ≠ some '\\' ∧ trim line ∉ commands := by
    decide +kernel
  have complete : (Reading.ofText (joined brokenLines)).error? = none := by decide +kernel
  have unbroken : ∀ line ∈ brokenLines, '\n' ∉ line.toList ∧ '\r' ∉ line.toList := by
    decide +kernel
  obtain ⟨entered, shown⟩ := enterLines_joined {} (fun line mem => (plain line mem).1)
    (fun before line after same _ => (plain line (same ▸ by simp)).2) complete
  refine ⟨plain, unbroken, complete, by rw [entered], ?_⟩
  rw [shown unbroken]
  decide +kernel

end Console

end Lisp
