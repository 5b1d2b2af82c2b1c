import Lisp.Datum.Reading

/-!
# One token of a reading

A token either is an expression by itself, or opens or closes something, or is a
comment. Only the tokens of the second kind can be refused. An expression that
is finished, be it one token or a closed list, is accepted in the same way: it
goes to the innermost frame, through all marks that wait for it.

An error ends a reading. Nothing after it is looked at, and it always is one
that no further text can mend.
-/

namespace Lisp

/-- The expression that a token is by itself, if it is one. -/
def Lexeme.datum? : Lexeme → Option Datum
  | .integer _ n => some (.integer n)
  | .float _ x => some (.float x)
  | .string s => some (.string s)
  | .symbol name escaped =>
    some <|
      if escaped then .symbol name
      else if name = "nil" then .nil
      else if name = "t" then .bool true
      else .symbol name
  | _ => none

def Lexeme.isComment : Lexeme → Bool
  | .comment _ => true
  | _ => false

/-- A token that no reading refuses. -/
def Lexeme.Harmless (l : Lexeme) : Prop := l.isComment = true ∨ ∃ d, l.datum? = some d

/-- A token is an expression by itself, a comment, or opens or closes something. -/
theorem Lexeme.kinds (l : Lexeme) :
    (∃ d, l.datum? = some d) ∨ l.isComment = true ∨ l = .leftParen ∨ (∃ m, l = .mark m) ∨
      l = .rightParen := by
  cases l <;> simp [datum?, isComment]

theorem Lexeme.datum?_ofAtom (cs : List Char) (escaped : Bool) :
    ∃ d, (Lexeme.ofAtom cs escaped).datum? = some d := by
  unfold Lexeme.ofAtom
  dsimp only
  split
  · exact ⟨_, rfl⟩
  · split
    · exact ⟨_, rfl⟩
    · split <;> exact ⟨_, rfl⟩

theorem Lexeme.harmless_ofAtom (cs : List Char) (escaped : Bool) :
    (Lexeme.ofAtom cs escaped).Harmless := Or.inr (Lexeme.datum?_ofAtom cs escaped)

theorem Mode.harmless_atomToken (first last : Position) (text : List Char) (escaped : Bool) :
    (Mode.atomToken first last text escaped).lexeme.Harmless :=
  Lexeme.harmless_ofAtom text.reverse escaped

/-- What is emitted at the end of a text is a comment or an atom. -/
theorem Mode.harmless_finish (mode : Mode) (p : Place) :
    ∀ t ∈ (mode.finish p).1, t.lexeme.Harmless := by
  intro t ht
  cases mode with
  | comment first text =>
    obtain rfl : t = _ := List.mem_singleton.mp ht
    exact Or.inl rfl
  | hash first =>
    obtain rfl : t = _ := List.mem_singleton.mp ht
    exact harmless_atomToken _ _ _ _
  | atom first text escaped =>
    obtain rfl : t = _ := List.mem_singleton.mp ht
    exact harmless_atomToken _ _ _ _
  | _ => simp [Mode.finish] at ht

namespace Frame

/-- An expression that is one token goes to the innermost frame. -/
theorem step_of_datum? {t : Token} {d : Datum} (h : t.lexeme.datum? = some d)
    (stack : List Frame) :
    step stack t = .ok (deliver d t.first t.lexeme.isDot stack) := by
  cases hl : t.lexeme with
  | integer text n =>
    obtain rfl : _ = d := Option.some.inj (by simpa [hl, Lexeme.datum?] using h)
    simp [step, hl, Lexeme.isDot]
  | float text x =>
    obtain rfl : _ = d := Option.some.inj (by simpa [hl, Lexeme.datum?] using h)
    simp [step, hl, Lexeme.isDot]
  | string s =>
    obtain rfl : _ = d := Option.some.inj (by simpa [hl, Lexeme.datum?] using h)
    simp [step, hl, Lexeme.isDot]
  | symbol name escaped =>
    obtain rfl : _ = d := Option.some.inj (by simpa [hl, Lexeme.datum?] using h)
    simp [step, hl]
  | _ => simp [hl, Lexeme.datum?] at h

theorem step_of_mark {t : Token} {m : Mark} (h : t.lexeme = .mark m) (stack : List Frame) :
    step stack t = push (.mark t.first m) t.first stack := by
  simp [step, h]

theorem step_of_leftParen {t : Token} (h : t.lexeme = .leftParen) (stack : List Frame) :
    step stack t = push (.list t.first []) t.first stack := by
  simp [step, h]

theorem step_of_rightParen {t : Token} (h : t.lexeme = .rightParen) (stack : List Frame) :
    step stack t = match stack with
      | [] => .error (.malformed t.last .unmatchedClose)
      | .mark opened m :: _ => .error (.malformed opened (.missingOperand m))
      | .list opened elements :: rest =>
        (close elements t.last).map fun d => deliver d opened false rest := by
  cases stack with
  | nil => simp [step, h]
  | cons frame rest =>
    cases frame with
    | mark opened m => simp [step, h]
    | list opened elements =>
      simp only [step, h]
      cases close elements t.last <;> rfl

theorem push_of_lt {stack : List Frame} (room : stack.length < maxNesting) (frame : Frame)
    (at_ : Position) : push frame at_ stack = .ok (frame :: stack, none) := by
  simp [push, Nat.not_le.mpr room]

theorem push_of_le {stack : List Frame} (full : maxNesting ≤ stack.length) (frame : Frame)
    (at_ : Position) : push frame at_ stack = .error (.malformed at_ (.tooDeep maxNesting)) := by
  simp [push, full]

theorem step_of_isComment {t : Token} (h : t.lexeme.isComment = true) (stack : List Frame) :
    step stack t = .ok (stack, none) := by
  cases hl : t.lexeme with
  | comment text => simp [step, hl]
  | _ => simp [hl, Lexeme.isComment] at h

theorem step_of_harmless {t : Token} (h : t.lexeme.Harmless) (stack : List Frame) :
    ∃ next, step stack t = .ok next := by
  rcases h with comment | ⟨d, hd⟩
  · exact ⟨_, step_of_isComment comment stack⟩
  · exact ⟨_, step_of_datum? hd stack⟩

theorem push_eq_ok {frame : Frame} {at_ : Position} {stack : List Frame}
    {next : List Frame × Option Form} (ok : push frame at_ stack = .ok next) :
    stack.length < maxNesting ∧ next = (frame :: stack, none) := by
  by_cases full : maxNesting ≤ stack.length
  · rw [push_of_le full] at ok
    cases ok
  · have room := Nat.lt_of_not_le full
    rw [push_of_lt room] at ok
    exact ⟨room, (Except.ok.inj ok).symm⟩

/-- What a token that is not refused does: it is handed over as an expression, it is skipped,
it opens a frame, or it closes a list. -/
theorem step_cases {stack : List Frame} {t : Token} {next : List Frame × Option Form}
    (ok : step stack t = .ok next) :
    (∃ d, t.lexeme.datum? = some d ∧ next = deliver d t.first t.lexeme.isDot stack) ∨
    (t.lexeme.isComment = true ∧ next = (stack, none)) ∨
    (t.lexeme = .leftParen ∧ stack.length < maxNesting ∧
      next = (.list t.first [] :: stack, none)) ∨
    (∃ m, t.lexeme = .mark m ∧ stack.length < maxNesting ∧
      next = (.mark t.first m :: stack, none)) ∨
    (t.lexeme = .rightParen ∧ ∃ opened elements rest d, stack = .list opened elements :: rest ∧
      close elements t.last = .ok d ∧ next = deliver d opened false rest) := by
  rcases t.lexeme.kinds with ⟨d, datum⟩ | comment | paren | ⟨m, mark⟩ | paren
  · rw [step_of_datum? datum] at ok
    exact .inl ⟨d, datum, (Except.ok.inj ok).symm⟩
  · rw [step_of_isComment comment] at ok
    exact .inr (.inl ⟨comment, (Except.ok.inj ok).symm⟩)
  · rw [step_of_leftParen paren] at ok
    exact .inr (.inr (.inl ⟨paren, push_eq_ok ok⟩))
  · rw [step_of_mark mark] at ok
    exact .inr (.inr (.inr (.inl ⟨m, mark, push_eq_ok ok⟩)))
  · rw [step_of_rightParen paren] at ok
    cases stack with
    | nil => cases ok
    | cons frame rest =>
      cases frame with
      | mark opened m => cases ok
      | list opened elements =>
        cases closed : close elements t.last with
        | error e => simp only [closed, Except.map, reduceCtorEq] at ok
        | ok d =>
          simp only [closed, Except.map, Except.ok.injEq] at ok
          exact .inr (.inr (.inr (.inr ⟨paren, opened, elements, rest, d, rfl, closed, ok.symm⟩)))

/-- An expression that leaves no frame open is a form of the text. -/
theorem form_of_deliver {d : Datum} {at_ : Position} {isDot : Bool} {stack : List Frame}
    (closed : (deliver d at_ isDot stack).1 = []) :
    ∃ form, (deliver d at_ isDot stack).2 = some form := by
  induction stack generalizing d at_ isDot with
  | nil => exact ⟨_, rfl⟩
  | cons frame rest ih =>
    cases frame with
    | list opened elements => cases closed
    | mark opened m => exact ih closed

/-- A token that leaves no frame open where one was completes a form. -/
theorem form_of_step {stack : List Frame} {t : Token} {next : List Frame × Option Form}
    (h : step stack t = .ok next) (opened : stack ≠ []) (closed : next.1 = []) :
    ∃ form, next.2 = some form := by
  rcases step_cases h with ⟨d, -, rfl⟩ | ⟨-, rfl⟩ | ⟨-, -, rfl⟩ | ⟨m, -, -, rfl⟩ |
    ⟨-, _, _, rest, d, -, -, rfl⟩
  · exact form_of_deliver closed
  · exact absurd closed opened
  · cases closed
  · cases closed
  · exact form_of_deliver closed

/-- Every error of a step is final. -/
theorem malformed_of_step {stack : List Frame} {t : Token} {e : ReadError}
    (h : step stack t = .error e) : ∃ position cause, e = .malformed position cause := by
  have pushed : ∀ frame at_, push frame at_ stack = .error e →
      ∃ position cause, e = .malformed position cause := by
    intro frame at_ hp
    unfold push at hp
    split at hp
    · cases hp
      exact ⟨_, _, rfl⟩
    · cases hp
  have closed : ∀ elements closing, close elements closing = .error e →
      ∃ position cause, e = .malformed position cause := by
    intro elements closing hc
    unfold close at hc
    split at hc
    · split at hc
      · split at hc
        · cases hc
          exact ⟨_, _, rfl⟩
        · cases hc
      · cases hc
    · cases hc
  unfold step at h
  split at h
  case h_4 =>
    split at h
    · cases h
      exact ⟨_, _, rfl⟩
    · cases h
      exact ⟨_, _, rfl⟩
    · rename_i opened elements rest
      cases hc : close elements t.last with
      | error e' =>
        rw [hc] at h
        cases h
        exact closed _ _ hc
      | ok d =>
        rw [hc] at h
        cases h
  case h_2 => exact pushed _ _ h
  case h_3 => exact pushed _ _ h
  all_goals cases h

end Frame

namespace Reader

/-- Takes in a finished expression that began at `first` and ended at `last`. -/
def accept (r : Reader) (d : Datum) (first last : Position) (isDot : Bool) : Reader :=
  let (stack, form?) := Frame.deliver d first isDot r.stack
  ⟨stack, last, r.forms ++ form?.toList, none⟩

@[simp] theorem feedAll_nil (r : Reader) : r.feedAll [] = r := rfl

@[simp] theorem feedAll_cons (r : Reader) (t : Token) (ts : List Token) :
    r.feedAll (t :: ts) = (r.feed t).feedAll ts := rfl

theorem feed_of_error {r : Reader} {e : ReadError} (h : r.error? = some e) (t : Token) :
    r.feed t = r := by
  simp [feed, h]

theorem feedAll_of_error {r : Reader} {e : ReadError} (h : r.error? = some e)
    (ts : List Token) : r.feedAll ts = r := by
  induction ts with
  | nil => rfl
  | cons t ts ih => rw [feedAll_cons, feed_of_error h, ih]

theorem feed_of_step_ok {r : Reader} {t : Token} {next : List Frame × Option Form}
    (quiet : r.error? = none) (h : Frame.step r.stack t = .ok next) :
    r.feed t = ⟨next.1, t.last, r.forms ++ next.2.toList, none⟩ := by
  simp [feed, quiet, h]

/-- A token that completes no form. -/
theorem feed_of_step_none {r : Reader} {t : Token} {stack : List Frame}
    (quiet : r.error? = none) (h : Frame.step r.stack t = .ok (stack, none)) :
    r.feed t = ⟨stack, t.last, r.forms, none⟩ := by
  rw [feed_of_step_ok quiet h]
  simp

theorem feed_of_step_error {r : Reader} {t : Token} {e : ReadError}
    (quiet : r.error? = none) (h : Frame.step r.stack t = .error e) :
    r.feed t = { r with error? := some e } := by
  simp [feed, quiet, h]

theorem feed_of_datum? {r : Reader} {t : Token} {d : Datum} (quiet : r.error? = none)
    (h : t.lexeme.datum? = some d) : r.feed t = r.accept d t.first t.last t.lexeme.isDot :=
  feed_of_step_ok quiet (Frame.step_of_datum? h r.stack)

/-- A reading that has not failed does not fail at comments and atoms. -/
theorem error?_feedAll_harmless {r : Reader} (quiet : r.error? = none) {ts : List Token}
    (harmless : ∀ t ∈ ts, t.lexeme.Harmless) : (r.feedAll ts).error? = none := by
  induction ts generalizing r with
  | nil => exact quiet
  | cons t ts ih =>
    obtain ⟨next, hn⟩ := Frame.step_of_harmless (harmless t List.mem_cons_self) r.stack
    rw [feedAll_cons, feed_of_step_ok quiet hn]
    exact ih rfl fun u hu => harmless u (List.mem_cons_of_mem t hu)

/-- What ends a reading before the end of its text is final. -/
theorem malformed_of_feedAll {r : Reader} {ts : List Token} {e : ReadError}
    (quiet : r.error? = none) (h : (r.feedAll ts).error? = some e) :
    ∃ position cause, e = .malformed position cause := by
  induction ts generalizing r with
  | nil =>
    rw [feedAll_nil, quiet] at h
    cases h
  | cons t ts ih =>
    rw [feedAll_cons] at h
    cases hs : Frame.step r.stack t with
    | error e' =>
      rw [feed_of_step_error quiet hs, feedAll_of_error rfl] at h
      cases h
      exact Frame.malformed_of_step hs
    | ok next =>
      rw [feed_of_step_ok quiet hs] at h
      exact ih rfl h

/-- Forms that have been read remain. -/
theorem forms_size_le (r : Reader) (ts : List Token) :
    r.forms.size ≤ (r.feedAll ts).forms.size := by
  induction ts generalizing r with
  | nil => exact Nat.le_refl _
  | cons t ts ih =>
    refine Nat.le_trans ?_ (ih (r.feed t))
    cases failed : r.error? with
    | some e => simp [feed_of_error failed]
    | none =>
      cases hs : Frame.step r.stack t with
      | error e => simp [feed_of_step_error failed hs]
      | ok next =>
        rw [feed_of_step_ok failed hs]
        cases next.2 <;> simp

/-- A reading that comes to the end of all open frames has read one more form. -/
theorem forms_size_lt {r : Reader} {ts : List Token} (opened : r.stack ≠ [])
    (closed : (r.feedAll ts).stack = []) : r.forms.size < (r.feedAll ts).forms.size := by
  induction ts generalizing r with
  | nil => exact absurd closed opened
  | cons t ts ih =>
    cases failed : r.error? with
    | some e =>
      rw [feedAll_of_error failed] at closed
      exact absurd closed opened
    | none =>
      cases hs : Frame.step r.stack t with
      | error e =>
        rw [feedAll_cons, feed_of_step_error failed hs, feedAll_of_error rfl] at closed
        exact absurd closed opened
      | ok next =>
        have fed := feed_of_step_ok failed hs
        rw [feedAll_cons] at closed ⊢
        by_cases ended : next.1 = []
        · obtain ⟨form, completed⟩ := Frame.form_of_step hs opened ended
          have more : r.forms.size < (r.feed t).forms.size := by simp [fed, completed]
          exact Nat.lt_of_lt_of_le more (forms_size_le _ _)
        · have stays : r.forms.size ≤ (r.feed t).forms.size := forms_size_le r [t]
          exact Nat.lt_of_le_of_lt stays (ih (by rwa [fed]) closed)

end Reader

end Lisp
