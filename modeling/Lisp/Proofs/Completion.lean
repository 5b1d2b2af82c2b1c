import Lisp.Proofs.Atoms
import Lisp.Proofs.Delivery

/-!
# Texts that end too early

A reading that fails tells whether more text could help. If the text merely
ends too early then it can be completed: what the scan is in the middle of is
brought to its end, the marks that wait get an operand, and each open list is
closed behind one more element, so that a dot never stands before its last one.
Any other failure is final, because the token that caused it was complete and
later characters change neither it nor anything before it.
-/

namespace Lisp

namespace Mode

/-- Characters that bring what a scan is in the middle of to its end. -/
def closing : Mode → List Char
  | between => []
  | hash _ => [' ']
  | comment _ _ => ['\n']
  | string _ _ => ['\x22']
  | stringEscape _ _ => ['n', '\x22']
  | atom _ _ _ => [' ']
  | atomEscape _ _ => ['n', ' ']
  | run _ _ => ['|', ' ']
  | runEscape _ _ => ['n', '|', ' ']
  | failed _ => []

theorem scan_closing (mode : Mode) (p : Place) (sound : ∀ e, mode ≠ failed e) :
    (mode.scan p mode.closing).2 = between ∧
      ∀ t ∈ (mode.scan p mode.closing).1, t.lexeme.Harmless := by
  have blank : Text.isBlank ' ' = true := by decide
  have delimiter : Text.isDelimiter ' ' = true := by decide
  cases mode with
  | between => exact ⟨rfl, by simp [closing]⟩
  | failed e => exact absurd rfl (sound e)
  | comment first text =>
    refine ⟨by simp [closing, scan_cons, step], ?_⟩
    intro t ht
    obtain rfl : t = _ := List.mem_singleton.mp (by simpa [closing, scan_cons, step] using ht)
    exact Or.inl rfl
  | string first text =>
    refine ⟨by simp [closing, scan_cons, step], ?_⟩
    intro t ht
    obtain rfl : t = _ := List.mem_singleton.mp (by simpa [closing, scan_cons, step] using ht)
    exact Or.inr ⟨_, rfl⟩
  | stringEscape first text =>
    refine ⟨by simp [closing, scan_cons, step, Text.Quoted.unescape?], ?_⟩
    intro t ht
    obtain rfl : t = _ := List.mem_singleton.mp
      (by simpa [closing, scan_cons, step, Text.Quoted.unescape?] using ht)
    exact Or.inr ⟨_, rfl⟩
  | _ =>
    refine ⟨by simp [closing, scan_cons, step, continueAtom, begin, blank, delimiter], ?_⟩
    intro t ht
    obtain rfl : t = _ := List.mem_singleton.mp
      (by simpa [closing, scan_cons, step, continueAtom, begin, blank, delimiter] using ht)
    exact harmless_atomToken _ _ _ _

/-- An escape that means nothing is the only failure of a scan in its middle. -/
theorem malformed_of_step {mode : Mode} {p : Place} {c : Char} {e : ReadError}
    (sound : ∀ e, mode ≠ failed e) (h : (mode.step p c).2 = failed e) :
    ∃ position cause, e = .malformed position cause := by
  have begun : ∀ here, (begin here c).2 ≠ failed e := by
    intro here
    unfold begin
    repeat' split
    all_goals simp
  have continued : ∀ first text escaped, (continueAtom p first text escaped c).2 ≠ failed e := by
    intro first text escaped
    unfold continueAtom
    split
    · exact begun p.position
    · split
      · simp
      · split <;> simp
  cases mode with
  | between => exact absurd h (begun p.position)
  | failed e' => exact absurd rfl (sound e')
  | atom first text escaped => exact absurd h (continued first text escaped)
  | hash first =>
    simp only [step] at h
    split at h
    · cases h
    · exact absurd h (continued first ['#'] false)
  | stringEscape first text =>
    simp only [step] at h
    split at h
    · cases h
    · cases h
      exact ⟨_, _, rfl⟩
  | atomEscape first text => cases h
  | runEscape first text => cases h
  | comment first text =>
    simp only [step] at h
    split at h <;> cases h
  | string first text =>
    simp only [step] at h
    repeat' split at h
    all_goals cases h
  | run first text =>
    simp only [step] at h
    repeat' split at h
    all_goals cases h

theorem scan_failed (e : ReadError) (p : Place) (cs : List Char) :
    (failed e).scan p cs = ([], failed e) := by
  induction cs generalizing p with
  | nil => rfl
  | cons c cs ih => simp [scan_cons, step, ih]

theorem malformed_of_scan {mode : Mode} {p : Place} {cs : List Char} {e : ReadError}
    (sound : ∀ e, mode ≠ failed e) (h : (mode.scan p cs).2 = failed e) :
    ∃ position cause, e = .malformed position cause := by
  induction cs generalizing mode p with
  | nil => exact absurd h (sound e)
  | cons c cs ih =>
    rw [scan_cons] at h
    cases next : (mode.step p c).2 with
    | failed e' =>
      rw [next, scan_failed] at h
      cases h
      exact malformed_of_step sound next
    | _ =>
      rw [next] at h
      exact ih (by simp) h

/-- The end of a text is an error that more text may mend, unless the scan has
failed before. -/
theorem unterminated_of_finish {mode : Mode} {p : Place} {e : ReadError}
    (sound : ∀ e, mode ≠ failed e) (h : (mode.finish p).2 = some e) :
    ∃ position cause, e = .unterminated position cause := by
  cases mode with
  | failed e' => exact absurd rfl (sound e')
  | string first text => exact ⟨_, _, (Option.some.inj h).symm⟩
  | stringEscape first text => exact ⟨_, _, (Option.some.inj h).symm⟩
  | atomEscape first text => exact ⟨_, _, (Option.some.inj h).symm⟩
  | run first text => exact ⟨_, _, (Option.some.inj h).symm⟩
  | runEscape first text => exact ⟨_, _, (Option.some.inj h).symm⟩
  | _ => cases h

end Mode

namespace Frame

/-- How many of the open frames are lists. -/
def openLists : List Frame → Nat
  | [] => 0
  | .list _ _ :: rest => openLists rest + 1
  | .mark _ _ :: rest => openLists rest

/-- No mark waits, and the last element of the innermost list is not a dot. -/
def Settled : List Frame → Prop
  | [] => True
  | .list _ (e :: _) :: _ => e.isDot = false
  | _ => False

theorem settled_deliver (d : Datum) (position : Position) (stack : List Frame) :
    Settled (deliver d position false stack).1 := by
  induction stack generalizing d position with
  | nil => trivial
  | cons frame rest ih =>
    cases frame with
    | list opened elements => rfl
    | mark opened m => exact ih _ _

theorem openLists_deliver (d : Datum) (position : Position) (isDot : Bool)
    (stack : List Frame) :
    openLists (deliver d position isDot stack).1 = openLists stack := by
  induction stack generalizing d position isDot with
  | nil => rfl
  | cons frame rest ih =>
    cases frame with
    | list opened elements => rfl
    | mark opened m => exact ih _ _ _

theorem eq_nil_of_settled {stack : List Frame} (settled : Settled stack)
    (none_open : openLists stack = 0) : stack = [] := by
  cases stack with
  | nil => rfl
  | cons frame rest =>
    cases frame with
    | list opened elements => simp [openLists] at none_open
    | mark opened m => exact absurd settled id

end Frame

namespace Reader

/-- An atom on its own settles the open frames. -/
theorem settled_feed_datum {r : Reader} {t : Token} {d : Datum} (quiet : r.error? = none)
    (h : t.lexeme.datum? = some d) (bare : t.lexeme.isDot = false) :
    (r.feed t).error? = none ∧ Frame.Settled (r.feed t).stack ∧
      Frame.openLists (r.feed t).stack = Frame.openLists r.stack := by
  rw [feed_of_datum? quiet h, bare]
  exact ⟨rfl, Frame.settled_deliver d t.first r.stack,
    Frame.openLists_deliver d t.first false r.stack⟩

/-- One more element and a parenthesis close the innermost list. -/
theorem settled_feed_close {r : Reader} {t u : Token} {d : Datum} {n : Nat}
    (quiet : r.error? = none) (settled : Frame.Settled r.stack)
    (lists : Frame.openLists r.stack = n + 1) (h : t.lexeme.datum? = some d)
    (bare : t.lexeme.isDot = false) (closing : u.lexeme = .rightParen) :
    ((r.feed t).feed u).error? = none ∧ Frame.Settled ((r.feed t).feed u).stack ∧
      Frame.openLists ((r.feed t).feed u).stack = n := by
  obtain ⟨stack, last, forms, error?⟩ := r
  cases stack with
  | nil => simp [Frame.openLists] at lists
  | cons frame rest =>
    cases frame with
    | mark opened m => exact absurd settled id
    | list opened elements =>
      cases elements with
      | nil => exact absurd settled id
      | cons e elements =>
        have notDot : e.isDot = false := settled
        have closed : Frame.close (⟨d, false⟩ :: e :: elements) u.last =
            .ok (Frame.build (⟨d, false⟩ :: e :: elements) .nil) := by
          simp [Frame.close, notDot]
        have step : Frame.step (.list opened (⟨d, false⟩ :: e :: elements) :: rest) u =
            .ok (Frame.deliver (Frame.build (⟨d, false⟩ :: e :: elements) .nil)
              opened false rest) := by
          simp only [Frame.step, closing, closed]
          rfl
        rw [feed_of_datum? quiet h, bare, feed_of_step_ok rfl step]
        refine ⟨rfl, Frame.settled_deliver _ _ _, ?_⟩
        rw [Frame.openLists_deliver]
        simpa [Frame.openLists] using lists

end Reader

/-- Closes a number of lists behind an operand for the marks that wait. Before
each parenthesis stands one more element. -/
def closingLists : Nat → List Char
  | 0 => ['n', 'i', 'l', ' ']
  | n + 1 => closingLists n ++ ['n', 'i', 'l', ' ', ')']

namespace Mode

theorem scan_nilWord (p : Place) :
    ∃ t : Token, t.lexeme = .symbol "nil" false ∧
      between.scan p ['n', 'i', 'l', ' '] = ([t], between) := by
  have plain : ∀ c ∈ ['n', 'i', 'l'], Text.isPlain c = true := List.all_eq_true.mp rfl
  have word := scan_plain plain (by decide) (by decide) p
  refine ⟨atomToken p.position (p.pastAll ['n', 'i', 'l']).last ['l', 'i', 'n'] false, rfl, ?_⟩
  rw [show ['n', 'i', 'l', ' '] = ['n', 'i', 'l'] ++ [' '] from rfl, scan_append, word]
  have blank : between.step (p.pastAll ['n', 'i', 'l']) ' ' = ([], between) := rfl
  simp only [scan_cons, scan_nil, step_atom_delimiter (show Text.isDelimiter ' ' = true by decide),
    blank]
  rfl

theorem scan_nilClose (p : Place) :
    ∃ t u : Token, t.lexeme = .symbol "nil" false ∧ u.lexeme = .rightParen ∧
      between.scan p ['n', 'i', 'l', ' ', ')'] = ([t, u], between) := by
  obtain ⟨t, word, scanned⟩ := scan_nilWord p
  let here : Position := (p.pastAll ['n', 'i', 'l', ' ']).position
  refine ⟨t, ⟨.rightParen, here, here⟩, word, rfl, ?_⟩
  rw [show ['n', 'i', 'l', ' ', ')'] = ['n', 'i', 'l', ' '] ++ [')'] from rfl,
    scan_append, scanned]
  rfl

/-- Characters that settle the frames of a reading and close all its lists. -/
theorem closingLists_closes (n : Nat) {r : Reader} (quiet : r.error? = none)
    (lists : Frame.openLists r.stack = n) (p : Place) :
    (between.scan p (closingLists n)).2 = between ∧
      (r.feedAll (between.scan p (closingLists n)).1).error? = none ∧
      (r.feedAll (between.scan p (closingLists n)).1).stack = [] := by
  suffices all : ∀ k m, k + m = n →
      (between.scan p (closingLists k)).2 = between ∧
        (r.feedAll (between.scan p (closingLists k)).1).error? = none ∧
        Frame.Settled (r.feedAll (between.scan p (closingLists k)).1).stack ∧
        Frame.openLists (r.feedAll (between.scan p (closingLists k)).1).stack = m by
    obtain ⟨mode, error, settled, none_open⟩ := all n 0 rfl
    exact ⟨mode, error, Frame.eq_nil_of_settled settled none_open⟩
  intro k
  induction k with
  | zero =>
    intro m total
    obtain ⟨t, word, scanned⟩ := scan_nilWord p
    have settled := Reader.settled_feed_datum (t := t) (d := .nil) quiet
      (by rw [word]; rfl) (by rw [word]; rfl)
    rw [closingLists, scanned]
    exact ⟨rfl, settled.1, settled.2.1, by rw [Reader.feedAll_cons, Reader.feedAll_nil]; omega⟩
  | succ k ih =>
    intro m total
    obtain ⟨mode, error, settled, lists⟩ := ih (m + 1) (by omega)
    obtain ⟨t, u, word, paren, scanned⟩ := scan_nilClose (p.pastAll (closingLists k))
    have closed := Reader.settled_feed_close (t := t) (u := u) (d := .nil) error settled lists
      (by rw [word]; rfl) (by rw [word]; rfl) paren
    rw [closingLists, scan_append, mode, scanned, Reader.feedAll_append]
    exact ⟨rfl, closed⟩

end Mode

namespace Reading

theorem ofTokens_precededBy (later : Tokens) (ts : List Token) :
    ofTokens (later.precededBy ts) =
      let r := (Reader.start.feedAll ts).feedAll later.tokens
      ⟨r.forms.toList,
        r.error? <|> later.error? <|> r.stack.head?.map (Frame.missing r.last)⟩ := by
  simp [ofTokens, Reader.feedAll_append]

/-- Where a reading stands after the characters of a text: the tokens that are
complete, and what the scan is in the middle of. -/
theorem ofText_append (text more : String) :
    ofText (text ++ more) =
      ofTokens (((Mode.between.scan Place.start text.toList).2.tokensOf
        (Place.start.pastAll text.toList) more.toList).precededBy
          (Mode.between.scan Place.start text.toList).1) := by
  rw [ofText, Tokens.ofText_eq_tokensOf, String.toList_append, Mode.tokensOf_append]

/-- How a reading can have failed: at a token, in the scan, or at the end of its
text, where the failure is of a kind of its own. -/
theorem error?_ofText (text : String) :
    let scanned := Mode.between.scan Place.start text.toList
    let r := Reader.start.feedAll scanned.1
    (∃ e, r.error? = some e ∧ (ofText text).error? = some e) ∨
      (r.error? = none ∧ ∃ e, scanned.2 = .failed e ∧ (ofText text).error? = some e) ∨
      (r.error? = none ∧ (∀ e, scanned.2 ≠ .failed e) ∧
        ∀ e, (ofText text).error? = some e →
          ∃ position cause, e = .unterminated position cause) := by
  intro scanned r
  have whole := ofText_append text ""
  rw [String.append_empty, String.toList_empty, Mode.tokensOf_nil, ofTokens_precededBy] at whole
  cases error : r.error? with
  | some e =>
    refine Or.inl ⟨e, rfl, ?_⟩
    rw [whole]
    simp only
    rw [Reader.feedAll_of_error error, error]
    rfl
  | none =>
    have quiet := Reader.error?_feedAll_harmless error
      (Mode.harmless_finish scanned.2 (Place.start.pastAll text.toList))
    obtain ⟨missing?, total, missing⟩ : ∃ missing? : Option ReadError,
        (ofText text).error? =
          (scanned.2.finish (Place.start.pastAll text.toList)).2.or missing? ∧
        ∀ e, missing? = some e → ∃ position cause, e = .unterminated position cause := by
      simp only [r, scanned] at quiet
      rw [whole]
      simp only [quiet, Option.orElse_eq_orElse, Option.orElse_eq_or, Option.none_or]
      refine ⟨_, rfl, ?_⟩
      intro e he
      obtain ⟨frame, _, rfl⟩ := Option.map_eq_some_iff.mp he
      cases frame with
      | list opened elements => exact ⟨_, _, rfl⟩
      | mark opened m => exact ⟨_, _, rfl⟩
    by_cases failed : ∃ e, scanned.2 = .failed e
    · obtain ⟨e, he⟩ := failed
      refine Or.inr (Or.inl ⟨rfl, e, he, ?_⟩)
      rw [total, he]
      rfl
    · have sound : ∀ e, scanned.2 ≠ .failed e := fun e he => failed ⟨e, he⟩
      refine Or.inr (Or.inr ⟨rfl, sound, ?_⟩)
      intro e he
      rw [total] at he
      cases unfinished : (scanned.2.finish (Place.start.pastAll text.toList)).2 with
      | some e' =>
        rw [unfinished] at he
        obtain rfl : e' = e := Option.some.inj he
        exact Mode.unterminated_of_finish sound unfinished
      | none =>
        rw [unfinished] at he
        exact missing e he

/-- Unless it has failed, a reading can be completed from any point on. -/
theorem exists_completion {mode : Mode} {ts : List Token}
    (quiet : (Reader.start.feedAll ts).error? = none) (sound : ∀ e, mode ≠ .failed e)
    (p : Place) :
    ∃ cs, (ofTokens ((mode.tokensOf p cs).precededBy ts)).error? = none := by
  obtain ⟨ended, harmless⟩ := mode.scan_closing p sound
  let r := (Reader.start.feedAll ts).feedAll (mode.scan p mode.closing).1
  have settled : r.error? = none := Reader.error?_feedAll_harmless quiet harmless
  obtain ⟨last, error, stack⟩ :=
    Mode.closingLists_closes (Frame.openLists r.stack) settled rfl (p.pastAll mode.closing)
  refine ⟨mode.closing ++ (closingLists (Frame.openLists r.stack) ++ []), ?_⟩
  rw [Mode.tokensOf_append, ended, Mode.tokensOf_append, last, Tokens.precededBy_precededBy,
    Tokens.precededBy_precededBy, ofTokens_precededBy, Mode.tokensOf_nil]
  simp only [Reader.feedAll_append, Mode.finish, Reader.feedAll_nil]
  simp only [r] at error stack
  rw [error, stack]
  rfl

/-- The two kinds of errors tell what more text can do. If a text ends too early
then some continuation leaves no error; after any other error every
continuation reads as the same forms with the same error at the same place. -/
theorem error_kinds (text : String) :
    (∀ position cause, (ofText text).error? = some (.unterminated position cause) →
      ∃ more : String, (ofText (text ++ more)).error? = none) ∧
    (∀ position cause, (ofText text).error? = some (.malformed position cause) →
      ∀ more : String, ofText (text ++ more) = ofText text) := by
  have start : ∀ e, Mode.between ≠ .failed e := by simp
  rcases error?_ofText text with ⟨e, failed, error⟩ | ⟨quiet, e, failed, error⟩ |
    ⟨quiet, sound, ended⟩
  · constructor
    · intro position cause h
      obtain ⟨_, _, rfl⟩ := Reader.malformed_of_feedAll rfl failed
      rw [error] at h
      cases h
    · intro position cause h more
      have whole := ofText_append text ""
      rw [String.append_empty] at whole
      rw [whole, ofText_append, ofTokens_precededBy, ofTokens_precededBy]
      simp only [Reader.feedAll_of_error failed, failed]
      rfl
  · constructor
    · intro position cause h
      obtain ⟨_, _, rfl⟩ := Mode.malformed_of_scan start failed
      rw [error] at h
      cases h
    · intro position cause h more
      have whole := ofText_append text ""
      rw [String.append_empty] at whole
      rw [whole, ofText_append, failed]
      simp [Mode.tokensOf, Mode.scan_failed, Mode.finish]
  · constructor
    · intro position cause h
      obtain ⟨cs, complete⟩ := exists_completion quiet sound (Place.start.pastAll text.toList)
      refine ⟨String.ofList cs, ?_⟩
      rw [ofText_append, String.toList_ofList]
      exact complete
    · intro position cause h
      obtain ⟨_, _, different⟩ := ended _ h
      cases different

/-- Both kinds occur: a string under a mark that was left open, and a list that
begins with a dot. -/
theorem error_kinds_occur :
    ((ofText "(a '\"b").error? = some (.unterminated ⟨5, 1, 6⟩ .string) ∧
      ∃ more : String, (ofText ("(a '\"b" ++ more)).error? = none) ∧
    ((ofText "(. b) c").error? = some (.malformed ⟨4, 1, 5⟩ .missingLeft) ∧
      ∀ more : String, ofText ("(. b) c" ++ more) = ofText "(. b) c") := by
  have open_string : (ofText "(a '\"b").error? = some (.unterminated ⟨5, 1, 6⟩ .string) := by
    decide +kernel
  have leading_dot : (ofText "(. b) c").error? = some (.malformed ⟨4, 1, 5⟩ .missingLeft) := by
    decide +kernel
  exact ⟨⟨open_string, (error_kinds "(a '\"b").1 _ _ open_string⟩,
    leading_dot, (error_kinds "(. b) c").2 _ _ leading_dot⟩

end Reading

end Lisp
