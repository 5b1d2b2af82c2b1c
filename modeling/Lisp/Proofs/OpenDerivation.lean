import Lisp.Proofs.GrammarReading

/-!
# The derivation that a reading stands for

The frames of a reading are a half-built derivation. Each token either extends
this derivation or is refused, and an expression that is complete goes where the
derivation expects one. So the invariant of a reading is that its tokens fall
into complete expressions and the beginning of one more, whose open lists and
marks are the frames.

This holds of every rule for as long as each list that is closed has a meaning
under it. The meaning need not be the one that is read, so the elements in the
frames may be others than those in the derivation. A token that is refused is the
first with which no derivation goes on: everything before it can be completed,
and nothing that includes it.
-/

namespace Lisp

namespace Grammar

variable {rule : DotRule}

/-- Two readings of an expression, handed to frames that differ in nothing else,
leave such frames. -/
theorem Akin.deliver {stack stack' : List Frame} (h : Akin stack stack') {d d' : Datum}
    {isDot : Bool} (dot : isDot = true → d' = d) (at_ : Position) :
    Akin (Frame.deliver d at_ isDot stack).1 (Frame.deliver d' at_ isDot stack').1 := by
  induction h generalizing d d' isDot at_ with
  | nil => exact .nil
  | @mark opened m stack stack' _ ih => exact ih (by simp) opened
  | list twins akin _ => exact .list (.cons ⟨rfl, dot⟩ twins) akin

/-- Handing an expression to the open frames extends the derivation that they
stand for, and finishes it if they all were marks. -/
theorem Opened.deliver {ts us : List Token} {stack : List Frame} {t : Token} {d : Datum}
    (opened : Opened rule ts stack)
    (h : Expression rule stack.length (t :: us) d) :
    (∃ stack', Frame.deliver d t.first (isBareDot (t :: us)) stack = (stack', none) ∧
      Opened rule (ts ++ t :: us) stack') ∨
    (∃ d' u vs, Frame.deliver d t.first (isBareDot (t :: us)) stack =
        ([], some ⟨d', u.first⟩) ∧
      ts ++ t :: us = u :: vs ∧ Expression rule 0 (u :: vs) d') := by
  induction opened generalizing t us d with
  | nil => exact Or.inr ⟨d, t, us, rfl, rfl, h⟩
  | @mark ts stack v m opened isMark room ih =>
    have marked := ih (.marked isMark room h)
    rw [isBareDot_cons_of_ne_nil v (List.cons_ne_nil t us)] at marked
    simpa [Frame.deliver] using marked
  | @list ts vs stack v es opened isParen room elements ih =>
    have extended := opened.list isParen room (elements.snoc h)
    refine Or.inl ⟨_, rfl, ?_⟩
    simpa using extended

/-- Tokens that fall into complete expressions and the beginning of one more,
which leaves the frames of `stack` open, however often their elements are read. -/
def Derived (rule : DotRule) (ts : List Token) (stack : List Frame) : Prop :=
  ∃ complete begun forms stack', ts = complete ++ begun ∧ Forms rule complete forms ∧
    Opened rule begun stack' ∧ Akin stack' stack

theorem Derived.deliver {complete begun us : List Token} {forms : List Form}
    {stack stack' : List Frame} {t : Token} {d d' : Datum} (front : Forms rule complete forms)
    (opened : Opened rule begun stack) (akin : Akin stack stack')
    (h : Expression rule stack.length (t :: us) d)
    (dot : isBareDot (t :: us) = true → d' = d) :
    Derived rule (complete ++ (begun ++ t :: us))
      (Frame.deliver d' t.first (isBareDot (t :: us)) stack').1 := by
  have delivered := akin.deliver dot t.first
  rcases opened.deliver h with ⟨next, same, extended⟩ | ⟨d'', u, vs, same, split, whole⟩
  · rw [same] at delivered
    exact ⟨complete, _, forms, next, rfl, front, extended, delivered⟩
  · rw [same] at delivered
    rw [split]
    exact ⟨_, [], _, [], (List.append_nil _).symm, front.snoc whole, .nil, delivered⟩

/-- Whether a token is refused does not depend on how elements have been read. -/
theorem Refused.akin (flagged : Flagged rule) {last : Position} {stack stack' : List Frame}
    {rest : List Token} {e : ReadError} (akin : Akin stack stack')
    (h : Refused rule last stack rest e) : Refused rule last stack' rest e := by
  cases h with
  | unmatchedClose close =>
    cases akin
    exact .unmatchedClose close
  | missingOperand close =>
    cases akin with
    | mark _ => exact .missingOperand close
  | missingLeft close dotted =>
    cases akin with
    | list twins _ =>
      obtain ⟨x', _, lasts, rest, rfl⟩ := List.forall₂_cons_left_iff.mp twins
      obtain ⟨dot', _, dots, none_left, rfl⟩ := List.forall₂_cons_left_iff.mp rest
      obtain rfl := List.forall₂_nil_left_iff.mp none_left
      exact .missingLeft close (flagged.flags dots.flag lasts.flag dotted)
  | tooDeep opens full => exact .tooDeep opens (akin.length_eq ▸ full)
  | openList =>
    cases akin with
    | list _ _ => exact .openList
  | openMark =>
    cases akin with
    | mark _ => exact .openMark

/-- One token extends the derivation that a reading stands for, or is refused. -/
theorem Derived.step (flagged : Flagged rule) {ts : List Token} {r : Reader}
    (quiet : r.error? = none) (h : Derived rule ts r.stack) {t : Token}
    (word : t.lexeme.isComment = false) (headed : ∀ es, r.Closes es t → ¬ Headless rule es) :
    (∃ next, Frame.step r.stack t = .ok next ∧ Derived rule (ts ++ [t]) next.1) ∨
    ∃ e, Frame.step r.stack t = .error e ∧
      ∀ last rest, Refused rule last r.stack (t :: rest) e := by
  obtain ⟨complete, begun, forms, stack', rfl, front, opened, akin⟩ := h
  rw [List.append_assoc]
  by_cases atom : ∃ d, t.lexeme.datum? = some d
  · obtain ⟨d, hd⟩ := atom
    have delivered := Derived.deliver front opened akin (.atom hd) fun _ => rfl
    exact Or.inl ⟨_, Frame.step_of_datum? hd _, delivered⟩
  · cases kind : t.lexeme with
    | leftParen =>
      rw [Frame.step_of_leftParen kind]
      by_cases room : r.stack.length < maxNesting
      · have extended := opened.list kind (akin.length_eq ▸ room) .nil
        exact Or.inl ⟨_, Frame.push_of_lt room _ _, complete, _, forms, _, rfl, front, extended,
          .list .nil akin⟩
      · have full := Nat.le_of_not_lt room
        exact Or.inr ⟨_, Frame.push_of_le full _ _, fun _ _ => .tooDeep (Or.inl kind) full⟩
    | mark m =>
      rw [Frame.step_of_mark kind]
      by_cases room : r.stack.length < maxNesting
      · have extended := opened.mark kind (akin.length_eq ▸ room)
        exact Or.inl ⟨_, Frame.push_of_lt room _ _, complete, _, forms, _, rfl, front, extended,
          .mark akin⟩
      · have full := Nat.le_of_not_lt room
        exact Or.inr ⟨_, Frame.push_of_le full _ _, fun _ _ => .tooDeep (Or.inr ⟨m, kind⟩) full⟩
    | rightParen =>
      generalize frames : r.stack = stack at akin ⊢
      cases opened with
      | nil =>
        cases akin
        exact Or.inr ⟨_, by simp [Frame.step, kind], fun _ _ => .unmatchedClose kind⟩
      | mark _ _ _ =>
        cases akin
        exact Or.inr ⟨_, by simp [Frame.step, kind], fun _ _ => .missingOperand kind⟩
      | @list ts us stack' u es opened isParen room elements =>
        cases akin with
        | @list _ _ before _ stack twins akin =>
        obtain ⟨es', rfl⟩ : ∃ es', before = es'.reverse := ⟨before.reverse, by simp⟩
        replace twins := List.forall₂_reverse_iff.mp twins
        have headedList : ¬ Headless rule es' :=
          headed es' ⟨quiet, kind, u.first, stack, frames⟩
        rcases Frame.close_cases es' t.last with
          ⟨d', closed, listed'⟩ | ⟨dot, x, rfl, strict, refused⟩
        · obtain ⟨d, listed⟩ := Listed.exists_of_strict flagged twins listed' headedList
          have whole : Expression rule stack'.length (u :: (us ++ [t])) d :=
            .list isParen room elements kind listed
          have bare : isBareDot (u :: (us ++ [t])) = false :=
            isBareDot_cons_of_ne_nil u (by simp)
          have step : Frame.step (.list u.first es'.reverse :: stack) t =
              .ok (Frame.deliver d' u.first false stack) := by
            simp only [Frame.step, kind, closed]
            rfl
          have unmarked : isBareDot (u :: (us ++ [t])) = true → d' = d := by simp [bare]
          have delivered := Derived.deliver front opened akin whole unmarked
          rw [bare] at delivered
          exact Or.inl ⟨_, step, by simpa using delivered⟩
        · have step : Frame.step (.list u.first [x, dot] :: stack) t =
              .error (.malformed t.last .missingLeft) := by
            simp only [List.reverse_cons, List.reverse_nil, List.nil_append,
              List.singleton_append] at refused
            simp only [Frame.step, kind, refused]
            rfl
          exact Or.inr ⟨_, step, fun _ _ => .missingLeft kind (flagged.strict strict)⟩
    | comment text => simp [kind, Lexeme.isComment] at word
    | integer text n => exact absurd ⟨_, by rw [kind]; rfl⟩ atom
    | float text x => exact absurd ⟨_, by rw [kind]; rfl⟩ atom
    | string text => exact absurd ⟨_, by rw [kind]; rfl⟩ atom
    | symbol name escaped => exact absurd ⟨_, by rw [kind]; rfl⟩ atom

/-- A reading stands for a derivation for as long as each list that it closes has
a meaning and no token is refused. -/
theorem Derived.run (flagged : Flagged rule) {ts before : List Token} {r : Reader}
    (words : ∀ t ∈ ts, t.lexeme.isComment = false) (quiet : r.error? = none)
    (headed : r.Clear (Headless rule) ts) (h : Derived rule before r.stack) :
    ((r.feedAll ts).error? = none ∧ Derived rule (before ++ ts) (r.feedAll ts).stack) ∨
    ∃ e front t rest, ts = front ++ t :: rest ∧
      r.feedAll ts = { r.feedAll front with error? := some e } ∧
      Derived rule (before ++ front) (r.feedAll front).stack ∧
      ∀ last, Refused rule last (r.feedAll front).stack (t :: rest) e := by
  induction ts generalizing before r with
  | nil => exact Or.inl ⟨quiet, by simpa using h⟩
  | cons t ts ih =>
    obtain ⟨headedNow, headedLater⟩ := headed
    have word := words t List.mem_cons_self
    rcases h.step flagged quiet word headedNow with ⟨next, step, derived⟩ | ⟨e, step, refused⟩
    · have fed := Reader.feed_of_step_ok quiet step
      have extended : Derived rule (before ++ [t]) (r.feed t).stack := by rwa [fed]
      have later := ih (fun u hu => words u (List.mem_cons_of_mem t hu)) (by rw [fed])
        headedLater extended
      rw [Reader.feedAll_cons]
      rcases later with done | ⟨e, front, u, rest, rfl, stopped, split, refused⟩
      · exact Or.inl (by simpa using done)
      · exact Or.inr ⟨e, t :: front, u, rest, rfl, stopped, by simpa using split, refused⟩
    · have failed := Reader.feed_of_step_error quiet step
      refine Or.inr ⟨e, [], t, ts, rfl, ?_, by simpa using h, fun last => refused last ts⟩
      rw [Reader.feedAll_cons, failed, Reader.feedAll_of_error rfl, Reader.feedAll_nil]

/-- What the grammar refuses is refused by the frames, unless it closes a list
that has a meaning under the strict rule only. -/
theorem Refused.step {r : Reader} {last : Position} {t : Token} {rest : List Token}
    {e : ReadError} (h : Refused rule last r.stack (t :: rest) e) (quiet : r.error? = none)
    (headed : ∀ es, r.Closes es t → ¬ Headless rule es) : Frame.step r.stack t = .error e := by
  generalize frames : r.stack = stack at h ⊢
  cases h with
  | unmatchedClose close => simp [Frame.step, close]
  | missingOperand close => simp [Frame.step, close]
  | @missingLeft _ _ opened dot x stack close dotted =>
    have strict : strictDot dot x := by
      by_contra notStrict
      exact headed [dot, x] ⟨quiet, close, opened, stack, frames⟩
        ⟨dot, x, rfl, dotted, notStrict⟩
    simp only [Frame.step, close, Frame.close, strict.1, strict.2]
    rfl
  | tooDeep opens full =>
    rcases opens with paren | ⟨m, mark⟩
    · rw [Frame.step_of_leftParen paren, Frame.push_of_le full]
    · rw [Frame.step_of_mark mark, Frame.push_of_le full]

/-- No derivation goes on with a refused token. -/
theorem Refused.not_viable (flagged : Flagged rule) {complete begun rest : List Token}
    {forms : List Form} {stack : List Frame} {last : Position} {t : Token} {e : ReadError}
    (front : Forms rule complete forms) (opened : Opened rule begun stack)
    (h : Refused rule last stack (t :: rest) e)
    (headed : Reader.start.Clear (Headless rule) (complete ++ begun ++ [t])) :
    ¬ Viable rule (complete ++ begun ++ [t]) := by
  rintro ⟨more, sentence, derived⟩
  obtain ⟨last₁, stack₁, forms₁, read, akin, -, -, -⟩ := Opened.read_after flagged front opened
  obtain ⟨last₂, stack₂, forms₂, whole, -, -, -, -⟩ := Opened.read_after flagged derived .nil
  have headedLast := ((Reader.clear_append _ _ _).mp headed).2
  rw [read] at headedLast
  have refused := Refused.step (r := ⟨stack₁, last₁, forms₁.toArray, none⟩)
    (h.akin flagged akin) rfl headedLast.1
  have failed := Reader.feed_of_step_error rfl refused
  rw [List.append_nil, List.append_assoc (complete ++ begun), Reader.feedAll_append, read,
    List.singleton_append, Reader.feedAll_cons, failed, Reader.feedAll_of_error rfl] at whole
  cases congrArg Reader.error? whole

/-- Every beginning of a derivation can be completed, by one more element and a
parenthesis for each open list. -/
theorem Opened.exists_expression {begun us : List Token} {stack : List Frame} {d : Datum}
    (flagged : Flagged rule) (opened : Opened rule begun stack)
    (h : Expression rule stack.length us d) (bare : isBareDot us = false) :
    ∃ more d', Expression rule 0 (begun ++ us ++ more) d' := by
  induction opened generalizing us d with
  | nil => exact ⟨[], d, by simpa using h⟩
  | @mark ts stack t m opened isMark room ih =>
    have marked := ih (.marked isMark room h) (isBareDot_cons_of_ne_nil t h.ne_nil)
    simpa using marked
  | @list ts vs stack t es opened isParen room elements ih =>
    let filler : Token := ⟨.symbol "nil" false, t.first, t.last⟩
    let closing : Token := ⟨.rightParen, t.first, t.last⟩
    have filled : Elements rule (stack.length + 1) (vs ++ us ++ [filler])
        (es ++ [⟨d, isBareDot us⟩] ++ [⟨.nil, isBareDot [filler]⟩]) :=
      (elements.snoc h).snoc (.atom rfl)
    have proper : Listed rule (es ++ [⟨d, isBareDot us⟩] ++ [⟨.nil, isBareDot [filler]⟩]) _ :=
      .proper fun front dot last split dotted => by
        rw [List.append_assoc] at split
        have ends := (List.append_inj' split rfl).2
        obtain ⟨rfl, -⟩ : _ = dot ∧ _ := by simpa using ends
        exact absurd (flagged.bare dotted) (by simp [bare])
    have extended : Expression rule stack.length (t :: (vs ++ us ++ [filler] ++ [closing])) _ :=
      .list isParen room filled rfl proper
    obtain ⟨more, d', whole⟩ := ih extended (isBareDot_cons_of_ne_nil t (by simp))
    refine ⟨filler :: closing :: more, d', ?_⟩
    simpa using whole

theorem Opened.viable (flagged : Flagged rule) {complete begun : List Token}
    {forms : List Form} {stack : List Frame} (front : Forms rule complete forms)
    (opened : Opened rule begun stack) : Viable rule (complete ++ begun) := by
  let filler : Token := ⟨.symbol "nil" false, ⟨0, 1, 1⟩, ⟨0, 1, 1⟩⟩
  have single : Expression rule stack.length [filler] .nil := .atom rfl
  obtain ⟨more, d, whole⟩ := opened.exists_expression flagged single rfl
  cases tokens : begun ++ [filler] ++ more with
  | nil => simp at tokens
  | cons t us =>
    rw [tokens] at whole
    have sentence := front.snoc whole
    rw [← tokens] at sentence
    exact ⟨filler :: more, _, by simpa using sentence⟩

end Grammar

end Lisp
