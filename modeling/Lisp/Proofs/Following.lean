import Lisp.Proofs.OpenDerivation
import Lisp.Proofs.Parentheses

/-!
# When reading follows a grammar

A reading of the tokens of a text follows the grammar with a rule as long as it
does not show that lists are closed on which the rule strays. Such a list shows
at once if the rule gives it no meaning: the grammar has an error where reading
goes on. Otherwise it shows when the form in which it stands is complete, for
this form has another meaning under the rule. A list on which the rule strays
remains unseen only if the text goes wrong before that.
-/

namespace Lisp

theorem Reader.last_feedAll {r : Reader} {ts : List Token}
    (quiet : (r.feedAll ts).error? = none) :
    (r.feedAll ts).last = (ts.getLast?.map Token.last).getD r.last := by
  induction ts generalizing r with
  | nil => rfl
  | cons t ts ih =>
    rw [feedAll_cons] at quiet ⊢
    have fed : (r.feed t).last = t.last := by
      cases failed : r.error? with
      | some e =>
        rw [feed_of_error failed, feedAll_of_error failed, failed] at quiet
        cases quiet
      | none =>
        cases step : Frame.step r.stack t with
        | ok next => rw [feed_of_step_ok failed step]
        | error e =>
          rw [feed_of_step_error failed step, feedAll_of_error rfl] at quiet
          cases quiet
    rw [ih quiet, fed]
    cases ts with
    | nil => rfl
    | cons u us =>
      rw [List.getLast?_cons_cons, List.getLast?_eq_some_getLast (List.cons_ne_nil u us)]
      rfl

namespace Grammar

variable {rule : DotRule}

/-- Comments change nothing in a reading but the end of its last token. -/
theorem feedAll_code (ts : List Token) {r r' : Reader} (stack : r.stack = r'.stack)
    (forms : r.forms = r'.forms) (error : r.error? = r'.error?) :
    (r.feedAll (code ts)).stack = (r'.feedAll ts).stack ∧
      (r.feedAll (code ts)).forms = (r'.feedAll ts).forms ∧
      (r.feedAll (code ts)).error? = (r'.feedAll ts).error? := by
  induction ts generalizing r r' with
  | nil => exact ⟨stack, forms, error⟩
  | cons t ts ih =>
    cases failed : r'.error? with
    | some e =>
      rw [Reader.feedAll_of_error (error.trans failed), Reader.feedAll_of_error failed]
      exact ⟨stack, forms, error⟩
    | none =>
      cases kind : t.lexeme.isComment with
      | true =>
        have skip : code (t :: ts) = code ts := by simp [code, kind]
        have fed := Reader.feed_of_step_none failed (Frame.step_of_isComment kind r'.stack)
        rw [skip, Reader.feedAll_cons, fed]
        exact ih stack forms (error.trans failed)
      | false =>
        have keep : code (t :: ts) = t :: code ts := by simp [code, kind]
        rw [keep, Reader.feedAll_cons, Reader.feedAll_cons]
        cases step : Frame.step r'.stack t with
        | ok next =>
          have same : Frame.step r.stack t = .ok next := by rw [stack, step]
          rw [Reader.feed_of_step_ok failed step,
            Reader.feed_of_step_ok (error.trans failed) same]
          exact ih rfl (by simp [forms]) rfl
        | error e =>
          have same : Frame.step r.stack t = .error e := by rw [stack, step]
          rw [Reader.feed_of_step_error failed step,
            Reader.feed_of_step_error (error.trans failed) same]
          exact ih stack forms rfl

/-- Lists that are closed and on which a rule strays do not show: the rule gives
them a meaning, and no form is complete after them. -/
def Unseen (rule : DotRule) (ts : List Token) : Prop :=
  ∀ front t rest es, code ts = front ++ t :: rest →
    (Reader.start.feedAll front).Closes es t → Strays rule es →
      ¬ Headless rule es ∧ (Reader.start.feedAll front).forms.size =
        (Reader.start.feedAll (code ts)).forms.size

theorem Unseen.headed {ts : List Token} (unseen : Unseen rule ts) :
    Reader.start.Clear (Headless rule) (code ts) :=
  (Reader.clear_iff _ _).mpr fun front t rest es split closes headless =>
    (unseen front t rest es split closes headless.strays).1 headless

/-- No list on which the rule strays stands in a complete form. -/
theorem Unseen.clear_complete (flagged : Flagged rule) {ts complete rest : List Token}
    {forms : List Form} (unseen : Unseen rule ts) (split : code ts = complete ++ rest)
    (h : Forms rule complete forms) : Reader.start.Clear (Strays rule) complete := by
  refine (Reader.clear_iff _ _).mpr fun front t us es inside closes strays => ?_
  obtain ⟨_, _, _, -, -, -, ⟨_, read⟩, -⟩ := Opened.read_after flagged h .nil
  have opened : (Reader.start.feedAll front).stack ≠ [] := by
    obtain ⟨-, -, at_, stack, frames⟩ := closes
    simp [frames]
  have closed : ((Reader.start.feedAll front).feedAll (t :: us)).stack = [] := by
    rw [← Reader.feedAll_append, ← inside, read]
  have more := Reader.forms_size_lt opened closed
  have later := Reader.forms_size_le (Reader.start.feedAll complete) rest
  rw [← Reader.feedAll_append, ← inside] at more
  rw [← Reader.feedAll_append, ← split] at later
  have same := (unseen front t (us ++ rest) es (by simp [split, inside]) closes strays).2
  omega

/-- The complete forms of a text are those that have been read. -/
theorem Unseen.forms_eq (flagged : Flagged rule) {ts complete begun rest : List Token}
    {forms : List Form} {stack : List Frame} (unseen : Unseen rule ts)
    (split : code ts = complete ++ begun ++ rest) (front : Forms rule complete forms)
    (opened : Opened rule begun stack) :
    (Reader.start.feedAll (complete ++ begun)).forms.toList = forms := by
  obtain ⟨_, _, forms', read, -, -, -, same⟩ := Opened.read_after flagged front opened
  rw [List.append_assoc] at split
  obtain rfl := same.mpr (unseen.clear_complete flagged split front)
  rw [read]

/-- A reading in which no list shows on which the rule strays follows the
grammar. -/
theorem follows_of_unseen (flagged : Flagged rule) {ts : List Token}
    (unseen : Unseen rule ts) : Follows rule ts (Reading.ofTokens ⟨ts, none⟩) := by
  have start : Derived rule [] Reader.start.stack := ⟨[], [], [], [], rfl, .nil, .nil, .nil⟩
  have run := Derived.run flagged (fun _ => isComment_of_mem_code) rfl unseen.headed start
  obtain ⟨stack, yielded, error⟩ := feedAll_code ts (r := Reader.start) rfl rfl rfl
  have accepted : ∀ forms, Forms rule (code ts) forms →
      (Reading.ofTokens ⟨ts, none⟩).forms = forms ∧
        (Reading.ofTokens ⟨ts, none⟩).error? = none := by
    intro forms h
    have split : code ts = code ts ++ [] ++ [] := by simp
    have same := unseen.forms_eq flagged split h .nil
    obtain ⟨_, _, _, -, -, -, ⟨_, read⟩, -⟩ := Opened.read_after flagged h .nil
    rw [List.append_nil] at same
    rw [yielded] at same
    rw [read] at stack error
    simp [Reading.ofTokens, same, ← stack, ← error]
  constructor
  · refine fun forms => ⟨accepted forms, ?_⟩
    rintro ⟨rfl, finished⟩
    rcases run with ⟨quiet, complete, begun, forms, stack', split, front, opened, akin⟩ |
      ⟨e, _, _, _, _, stopped, _⟩
    · rw [error] at quiet
      have closed : (Reader.start.feedAll ts).stack = [] := by
        simpa [Reading.ofTokens, quiet] using finished
      rw [stack, closed] at akin
      cases akin
      rw [opened.eq_nil, List.nil_append, List.append_nil] at split
      rw [← split] at front
      rw [(accepted forms front).1]
      exact front
    · rw [stopped] at error
      simp [Reading.ofTokens, ← error] at finished
  · intro e failed
    rcases run with ⟨quiet, complete, begun, forms, stack', split, front, opened, akin⟩ |
      ⟨e', before, t, rest, all, stopped, ⟨complete, begun, forms, stack', split, front, opened,
        akin⟩, refused⟩
    · rw [List.nil_append] at split
      have whole : code ts = complete ++ begun ++ [] := by rw [split, List.append_nil]
      have same := unseen.forms_eq flagged whole front opened
      rw [← split, yielded] at same
      rw [error] at quiet
      rw [stack] at akin
      refine ⟨complete, begun, [], stack', whole, by rwa [Reading.ofTokens, same], opened, ?_,
        opened.viable flagged front, by simp⟩
      have last := Reader.last_feedAll quiet
      apply Refused.akin flagged akin.symm
      cases hs : (Reader.start.feedAll ts).stack with
      | nil => simp [Reading.ofTokens, quiet, hs] at failed
      | cons frame stack =>
        obtain rfl : Frame.missing (Reader.start.feedAll ts).last frame = e := by
          simpa [Reading.ofTokens, quiet, hs] using failed
        rw [last]
        cases frame with
        | list opened elements => exact .openList
        | mark opened m => exact .openMark
    · rw [List.nil_append] at split
      have whole : code ts = complete ++ begun ++ t :: rest := by rw [all, split]
      have same := unseen.forms_eq flagged whole front opened
      rw [stopped] at yielded error
      obtain rfl : e' = e := by simpa [Reading.ofTokens, ← error] using failed
      have yields : (Reader.start.feedAll before).forms = (Reader.start.feedAll ts).forms :=
        yielded
      rw [← split, yields] at same
      have refusedThere := (refused ⟨0, 1, 1⟩).akin flagged akin.symm
      refine ⟨complete, begun, t :: rest, stack', whole, by rwa [Reading.ofTokens, same], opened,
        (refused _).akin flagged akin.symm, opened.viable flagged front, ?_⟩
      rintro u more next
      obtain ⟨rfl, rfl⟩ : t = u ∧ rest = more := by simpa using next
      have taken : code ts = complete ++ begun ++ [t] ++ rest := by simp [all, split]
      have headed := unseen.headed
      rw [taken] at headed
      exact Refused.not_viable flagged front opened refusedThere
        ((Reader.clear_append _ _ _).mp headed).1

/-- If a reading without an error follows the grammar then it closes no list on
which the rule strays. -/
theorem clear_of_follows (flagged : Flagged rule) {ts : List Token}
    (h : Follows rule ts (Reading.ofTokens ⟨ts, none⟩))
    (finished : (Reading.ofTokens ⟨ts, none⟩).error? = none) :
    Reader.start.Clear (Strays rule) (code ts) := by
  have derived := (h.accepted _).mpr ⟨rfl, finished⟩
  obtain ⟨_, _, forms, -, -, -, ⟨_, read⟩, same⟩ := Opened.read_after flagged derived .nil
  obtain ⟨-, yielded, -⟩ := feedAll_code ts (r := Reader.start) rfl rfl rfl
  rw [read] at yielded
  apply same.mp
  simp [Reading.ofTokens, ← yielded]

/-- Reading goes on where it closes a list on which a rule strays. -/
theorem step_of_strays {r : Reader} {es : List Element} {t : Token} (closes : r.Closes es t)
    (strays : Strays rule es) : ∃ next, Frame.step r.stack t = .ok next := by
  obtain ⟨-, close, opened, stack, frames⟩ := closes
  rcases Frame.close_cases es t.last with ⟨d, closed, -⟩ | ⟨dot, x, rfl, strict, -⟩
  · refine ⟨Frame.deliver d opened false stack, ?_⟩
    simp only [Frame.step, close, frames, closed]
    rfl
  · obtain ⟨front, dot', x', same, -, notStrict⟩ := strays
    have split : [] ++ [dot, x] = front ++ [dot', x'] := same
    obtain ⟨-, ends⟩ := List.append_inj' split rfl
    obtain ⟨rfl, rfl⟩ : dot = dot' ∧ x = x' := by simpa using ends
    exact absurd strict notStrict

/-- The token at which the grammar refuses a reading with an error closes no list
without a meaning: this list would be reported at its own parenthesis, and
reading, which goes on there, reports something else. -/
theorem Refused.headed {r : Reader} {last : Position} {t : Token} {rest : List Token}
    {e : ReadError} (h : Refused rule last r.stack (t :: rest) e)
    (failed : (∃ at_ cause, e = .malformed at_ cause) → (r.feedAll (t :: rest)).error? = some e)
    (apart : ∀ u ∈ rest, t.Apart u) : ∀ es, r.Closes es t → ¬ Headless rule es := by
  intro es closes headless
  obtain ⟨next, step⟩ := step_of_strays closes headless.strays
  obtain ⟨quiet, close, opened, stack, frames⟩ := closes
  obtain ⟨dot, x, rfl, -, -⟩ := headless
  have named : e = .malformed t.last .missingLeft := by
    rw [frames] at h
    cases h with
    | missingLeft _ _ => rfl
    | tooDeep opens _ => simp [close] at opens
  have error := failed ⟨_, _, named⟩
  rw [named, Reader.feedAll_cons, Reader.feed_of_step_ok quiet step] at error
  obtain ⟨u, later, alsoClose, same⟩ := Reader.missingLeft_of_feedAll rfl error
  exact apart u later close alsoClose same.symm

/-- What a text still misses at its end is not malformed. -/
theorem error?_of_malformed {ts : List Token} {at_ : Position} {cause : Malformation}
    (failed : (Reading.ofTokens ⟨ts, none⟩).error? = some (.malformed at_ cause)) :
    (Reader.start.feedAll ts).error? = some (.malformed at_ cause) := by
  cases ended : (Reader.start.feedAll ts).error? with
  | some e => simpa [Reading.ofTokens, ended] using failed
  | none =>
    cases hs : (Reader.start.feedAll ts).stack with
    | nil => simp [Reading.ofTokens, ended, hs] at failed
    | cons frame rest =>
      cases frame <;> simp [Reading.ofTokens, ended, hs, Frame.missing] at failed

/-- A reading with an error that follows the grammar stops where the grammar says:
the complete expressions have been read as they are derived, the beginning of one
more has been read, and the next token fails. -/
theorem Follows.stops (flagged : Flagged rule) {ts : List Token}
    (apart : ts.Pairwise Token.Apart) (h : Follows rule ts (Reading.ofTokens ⟨ts, none⟩))
    {e : ReadError} (failed : (Reading.ofTokens ⟨ts, none⟩).error? = some e) :
    ∃ complete begun rest, code ts = complete ++ begun ++ rest ∧
      Reader.start.Clear (Strays rule) complete ∧
      Reader.start.Clear (Headless rule) (complete ++ begun) ∧
      (Reader.start.feedAll (code ts)).forms.size = (Reader.start.feedAll complete).forms.size ∧
      (Reader.start.feedAll (complete ++ begun)).error? = none ∧
      ∀ t more, rest = t :: more →
        Frame.step (Reader.start.feedAll (complete ++ begun)).stack t = .error e := by
  obtain ⟨complete, begun, rest, stack, split, front, opened, refused, -, -⟩ := h.refused e failed
  obtain ⟨last, stack', forms, read, akin, headed, ⟨_, first⟩, same⟩ :=
    Opened.read_after flagged front opened
  obtain ⟨-, yielded, error⟩ := feedAll_code ts (r := Reader.start) rfl rfl rfl
  have refusedHere := refused.akin flagged akin
  have stops : ∀ t more, rest = t :: more → Frame.step stack' t = .error e := by
    rintro t more rfl
    have malformed : (∃ at_ cause, e = .malformed at_ cause) →
        ((Reader.mk stack' last forms.toArray none).feedAll (t :: more)).error? = some e := by
      rintro ⟨at_, cause, rfl⟩
      rw [← read, ← Reader.feedAll_append, ← split, error]
      exact error?_of_malformed failed
    have words : (code ts).Pairwise Token.Apart := apart.sublist List.filter_sublist
    rw [split] at words
    have later := (List.pairwise_cons.mp (List.pairwise_append.mp words).2.1).1
    exact Refused.step (r := ⟨stack', last, forms.toArray, none⟩) refusedHere rfl
      (Refused.headed (r := ⟨stack', last, forms.toArray, none⟩) refusedHere malformed later)
  have ended : (Reader.start.feedAll (code ts)).forms = forms.toArray := by
    rw [split, Reader.feedAll_append, read]
    cases rest with
    | nil => rfl
    | cons t more =>
      rw [Reader.feedAll_cons, Reader.feed_of_step_error rfl (stops t more rfl),
        Reader.feedAll_of_error rfl]
  refine ⟨complete, begun, rest, split, same.mp ?_, headed, by rw [ended, first], by rw [read],
    by rwa [read]⟩
  rw [yielded] at ended
  simp [Reading.ofTokens, ended]

/-- A token of two runs of tokens stands in the first or in the second. -/
theorem split_cases {ts us front after : List Token} {t : Token}
    (h : ts ++ us = front ++ t :: after) :
    (∃ inner, ts = front ++ t :: inner) ∨
      ∃ inner, front = ts ++ inner ∧ us = inner ++ t :: after := by
  rcases List.append_eq_append_iff.mp h with ⟨inner, rfl, later⟩ | ⟨inner, rfl, later⟩
  · exact Or.inr ⟨inner, rfl, later⟩
  · cases inner with
    | nil => exact Or.inr ⟨[], by simp, by simpa using later.symm⟩
    | cons u inner =>
      obtain ⟨rfl, -⟩ : t = u ∧ _ := by simpa using later
      exact Or.inl ⟨inner, rfl⟩

/-- In a reading that follows the grammar no list shows on which the rule strays. -/
theorem unseen_of_follows (flagged : Flagged rule) {ts : List Token}
    (apart : ts.Pairwise Token.Apart) (h : Follows rule ts (Reading.ofTokens ⟨ts, none⟩)) :
    Unseen rule ts := by
  intro front t after es split closes strays
  cases failed : (Reading.ofTokens ⟨ts, none⟩).error? with
  | none =>
    have clear := (Reader.clear_iff _ _).mp (clear_of_follows flagged h failed)
    exact absurd strays (clear front t after es split closes)
  | some e =>
    obtain ⟨complete, begun, rest, parts, clear, headed, yielded, quiet, stops⟩ :=
      h.stops flagged apart failed
    rw [parts] at split
    rcases split_cases split with ⟨inner, early⟩ | ⟨inner, rfl, late⟩
    · have meaning := (Reader.clear_iff _ _).mp headed front t inner es early closes
      refine ⟨meaning, ?_⟩
      rcases split_cases early with ⟨inner', inside⟩ | ⟨inner', rfl, -⟩
      · exact absurd strays ((Reader.clear_iff _ _).mp clear front t inner' es inside closes)
      · have before := Reader.forms_size_le (Reader.start.feedAll complete) inner'
        have behind := Reader.forms_size_le (Reader.start.feedAll (complete ++ inner')) (t :: after)
        rw [← Reader.feedAll_append] at before behind
        rw [← split, ← parts] at behind
        omega
    · cases inner with
      | nil =>
        rw [List.append_nil] at closes
        obtain ⟨next, goesOn⟩ := step_of_strays closes strays
        cases goesOn.symm.trans (stops t after late)
      | cons u inner =>
        have error := Reader.feed_of_step_error quiet (stops u _ late)
        have still := closes.1
        rw [Reader.feedAll_append, Reader.feedAll_cons, error, Reader.feedAll_of_error rfl] at still
        cases still

/-- A reading of tokens whose closing parentheses are apart follows the grammar
exactly if no list shows on which the rule strays. -/
theorem follows_iff_unseen (flagged : Flagged rule) {ts : List Token}
    (apart : ts.Pairwise Token.Apart) :
    Follows rule ts (Reading.ofTokens ⟨ts, none⟩) ↔ Unseen rule ts :=
  ⟨unseen_of_follows flagged apart, follows_of_unseen flagged⟩

end Grammar

end Lisp
