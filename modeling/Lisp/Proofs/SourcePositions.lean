import Lisp.Proofs.Tiling

/-!
# Positions that are reported

A reading makes up no positions. Those of its frames, its forms and its errors are the
positions of tokens, or the beginning of the text. Together with the tiling this says of
every position in a token or in an error that it is the position of a character of the
text, and where that character stands.
-/

namespace Lisp

open Text

/-- Where a frame was opened. -/
def Frame.opened : Frame → Position
  | .list opened _ => opened
  | .mark opened _ => opened

variable {P : Position → Prop}

namespace Frame

/-- What holds of the positions of open frames, and of those of a form if there is one. -/
def Reports (P : Position → Prop) (next : List Frame × Option Form) : Prop :=
  (∀ f ∈ next.1, P f.opened) ∧ ∀ form, next.2 = some form → P form.position

theorem reports_deliver {stack : List Frame} (frames : ∀ f ∈ stack, P f.opened) (d : Datum)
    {at_ : Position} (here : P at_) (isDot : Bool) : Reports P (deliver d at_ isDot stack) := by
  induction stack generalizing d at_ isDot with
  | nil => exact ⟨nofun, fun form same => Option.some.inj same ▸ here⟩
  | cons frame rest ih =>
    obtain ⟨first, others⟩ := List.forall_mem_cons.mp frames
    cases frame with
    | list opened elements => exact ⟨List.forall_mem_cons.mpr ⟨first, others⟩, nofun⟩
    | mark opened m => exact ih others _ first false

theorem reports_push {frame : Frame} {at_ : Position} {stack : List Frame}
    {next : List Frame × Option Form} (frames : ∀ f ∈ stack, P f.opened) (opened : P frame.opened)
    (ok : push frame at_ stack = .ok next) : Reports P next := by
  unfold push at ok
  split at ok
  · cases ok
  · cases ok
    exact ⟨List.forall_mem_cons.mpr ⟨opened, frames⟩, nofun⟩

theorem position_of_push {frame : Frame} {at_ : Position} {stack : List Frame} {e : ReadError}
    (failed : push frame at_ stack = .error e) : e.position = at_ := by
  unfold push at failed
  split at failed <;> cases failed
  rfl

theorem position_of_close {elements : List Element} {closing : Position} {e : ReadError}
    (failed : close elements closing = .error e) : e.position = closing := by
  unfold close at failed
  repeat' split at failed
  all_goals cases failed
  rfl

/-- What a step makes of the frames, or the error that it reports, is at positions of the
frames or of the token. -/
theorem reports_step {stack : List Frame} {t : Token} (frames : ∀ f ∈ stack, P f.opened)
    (first : P t.first) (last : P t.last) :
    (∀ next, step stack t = .ok next → Reports P next) ∧
      ∀ e, step stack t = .error e → P e.position := by
  rcases t.lexeme.kinds with ⟨d, hd⟩ | comment | opening | ⟨m, mark⟩ | closing
  · rw [step_of_datum? hd]
    exact ⟨fun next ok => Except.ok.inj ok ▸ reports_deliver frames d first _, nofun⟩
  · rw [step_of_isComment comment]
    exact ⟨fun next ok => Except.ok.inj ok ▸ ⟨frames, nofun⟩, nofun⟩
  · rw [step_of_leftParen opening]
    exact ⟨fun next => reports_push frames first, fun e failed => position_of_push failed ▸ first⟩
  · rw [step_of_mark mark]
    exact ⟨fun next => reports_push frames first, fun e failed => position_of_push failed ▸ first⟩
  · rw [step_of_rightParen closing]
    cases stack with
    | nil => exact ⟨nofun, fun e failed => Except.error.inj failed ▸ last⟩
    | cons frame rest =>
      obtain ⟨opened, others⟩ := List.forall_mem_cons.mp frames
      cases frame with
      | mark opened_ m => exact ⟨nofun, fun e failed => Except.error.inj failed ▸ opened⟩
      | list opened_ elements =>
        cases closed : close elements t.last with
        | ok d =>
          simp only [closed, Except.map]
          exact ⟨fun next ok => Except.ok.inj ok ▸ reports_deliver others d opened _, nofun⟩
        | error e =>
          simp only [closed, Except.map]
          exact ⟨nofun, fun e' failed => Except.error.inj failed ▸ position_of_close closed ▸ last⟩

end Frame

namespace Reader

/-- What holds of all positions that a reading keeps. -/
structure Reports (P : Position → Prop) (r : Reader) : Prop where
  frames : ∀ f ∈ r.stack, P f.opened
  last : P r.last
  forms : ∀ form ∈ r.forms, P form.position
  error : ∀ e, r.error? = some e → P e.position

theorem Reports.feed {r : Reader} (h : r.Reports P) {t : Token} (first : P t.first)
    (last : P t.last) : (r.feed t).Reports P := by
  cases failed : r.error? with
  | some e => rwa [feed_of_error failed]
  | none =>
    obtain ⟨ok, error⟩ := Frame.reports_step h.frames first last
    cases step : Frame.step r.stack t with
    | error e =>
      rw [feed_of_step_error failed step]
      exact ⟨h.frames, h.last, h.forms, fun e' same => Option.some.inj same ▸ error e step⟩
    | ok next =>
      obtain ⟨frames, form⟩ := ok next step
      rw [feed_of_step_ok failed step]
      refine ⟨frames, last, fun f mem => ?_, nofun⟩
      rcases List.mem_append.mp (Array.toList_appendList ▸ Array.mem_toList_iff.mpr mem)
        with old | new
      · exact h.forms f (Array.mem_toList_iff.mp old)
      · exact form f (Option.mem_toList.mp new)

theorem Reports.feedAll {r : Reader} (h : r.Reports P) {ts : List Token}
    (tokens : ∀ t ∈ ts, P t.first ∧ P t.last) : (r.feedAll ts).Reports P := by
  induction ts generalizing r with
  | nil => exact h
  | cons t ts ih =>
    obtain ⟨first, last⟩ := tokens t List.mem_cons_self
    exact ih (h.feed first last) fun u mem => tokens u (List.mem_cons_of_mem t mem)

end Reader

namespace Reading

/-- The positions of forms and of the error are among those of the tokens, of the error of
the scan, and the beginning of the text. -/
theorem reports_ofTokens {ts : Tokens} (start : P Place.start.position)
    (tokens : ∀ t ∈ ts.tokens, P t.first ∧ P t.last)
    (error : ∀ e, ts.error? = some e → P e.position) :
    (∀ form ∈ (ofTokens ts).forms, P form.position) ∧
      ∀ e, (ofTokens ts).error? = some e → P e.position := by
  have begun : Reader.start.Reports P := ⟨nofun, start, by simp [Reader.start], nofun⟩
  have read := begun.feedAll tokens
  refine ⟨fun form mem => read.forms form (by simpa [ofTokens] using mem), fun e found => ?_⟩
  simp only [ofTokens, Option.orElse_eq_orElse, Option.orElse_eq_or, Option.or_eq_some_iff] at found
  rcases found with first | ⟨_, scan | ⟨_, missing⟩⟩
  · exact read.error e first
  · exact error e scan
  · obtain ⟨frame, top, rfl⟩ := Option.map_eq_some_iff.mp missing
    cases frame with
    | list opened elements => exact read.last
    | mark opened m => exact read.frames _ (List.mem_of_head? top)

/-- So is the position of what is wrong with a text that is to hold one expression. -/
theorem reports_single {r : Reading} (forms : ∀ form ∈ r.forms, P form.position)
    (error : ∀ e, r.error? = some e → P e.position) {e : ReadError} (failed : r.single = .error e) :
    P e.position := by
  obtain ⟨fs, error?⟩ := r
  unfold single at failed
  split at failed
  · cases failed
  · cases failed
  · cases failed
    rename_i first second rest _
    exact forms second (by simp_all)
  · cases failed
    exact error e ‹_›

end Reading

theorem Token.Covers.first_le {t : Token} {before span : List Char} (h : t.Covers before span) :
    t.first.offset ≤ t.last.offset := by
  rw [h.first, h.last]
  exact Position.offset_le_append _ _

theorem Token.Covers.isIn {t : Token} {before span : List Char} (h : t.Covers before span)
    (after : List Char) :
    t.first.IsIn (before ++ span ++ after) ∧ t.last.IsIn (before ++ span ++ after) := by
  refine ⟨⟨before, ?_, h.first⟩, ⟨before ++ span.dropLast, ?_, h.last⟩⟩
  · exact (List.prefix_append before span).trans (List.prefix_append _ after)
  · exact ((List.prefix_append_right_inj before).mpr (List.dropLast_prefix span)).trans
      (List.prefix_append _ after)

/-- The characters before the end of the last token, and all characters if there is no
error, are in the part of the text that the tokens tile. -/
theorem Tokens.blank_or_inside {text : String} {before after : List Char} {c : Char}
    (here : text.toList = before ++ c :: after)
    (scanned : (ofText text).error? = none ∨
      ∃ t ∈ (ofText text).tokens, (Position.behind before).offset < t.first.offset) :
    isBlank c = true ∨ ∃ t ∈ (ofText text).tokens, t.Contains (.behind before) := by
  obtain ⟨front, rest, split, tiled, ended, _⟩ := tiled_ofText text
  have beyond : ∀ m, before = front ++ m → rest = m ++ c :: after → False := by
    rintro m rfl rfl
    rcases scanned with complete | ⟨t, mem, later⟩
    · simpa using ended complete
    · obtain ⟨_, _, _, _, covers⟩ := tiled.covered t mem
      have shorter := Position.offset_le_append front m
      have inside := tiled.ends_before t mem
      have forward := covers.first_le
      omega
  rcases List.append_eq_append_iff.mp (split.symm.trans here) with ⟨m, same, left⟩ | ⟨m, same, left⟩
  · exact absurd (beyond m same left) id
  · cases m with
    | nil => exact absurd (beyond [] (by simpa using same.symm) left.symm) id
    | cons d m =>
      obtain ⟨rfl, _⟩ := List.cons.inj left
      exact tiled.blank_or_inside same

/-- Tokens tile their text. Their spans follow each other without overlap, and a character
outside of all spans is blank. A token has the text of its span unless it was decoded. Its
positions, and those of the errors of a scan or of a reading, are positions of characters of
the text, or the end of the text. -/
theorem Tokens.tile_text (text : String) :
    let scanned := ofText text
    (scanned.tokens.Pairwise fun t u => t.last.offset < u.first.offset) ∧
      (∀ t ∈ scanned.tokens, ∃ before span after,
        text.toList = before ++ span ++ after ∧ t.Covers before span) ∧
      (∀ before c after, text.toList = before ++ c :: after →
        (scanned.error? = none ∨
          ∃ t ∈ scanned.tokens, (Position.behind before).offset < t.first.offset) →
        (∀ t ∈ scanned.tokens, ¬ t.Contains (.behind before)) → isBlank c = true) ∧
      ∀ e, scanned.error? = some e ∨ (Reading.ofText text).error? = some e ∨
          Datum.ofText? text = .error e →
        e.position.IsIn text.toList := by
  obtain ⟨front, rest, split, tiled, _, error⟩ := tiled_ofText text
  have covered : ∀ t ∈ (ofText text).tokens, ∃ before span after,
      text.toList = before ++ span ++ after ∧ t.Covers before span := by
    intro t mem
    obtain ⟨before, span, after, rfl, covers⟩ := tiled.covered t mem
    exact ⟨before, span, after ++ rest, by rw [split, List.append_assoc], covers⟩
  have start : Place.start.position.IsIn text.toList := ⟨[], List.nil_prefix, rfl⟩
  have inside : ∀ t ∈ (ofText text).tokens,
      t.first.IsIn text.toList ∧ t.last.IsIn text.toList := by
    intro t mem
    obtain ⟨before, span, after, same, covers⟩ := covered t mem
    exact same ▸ covers.isIn after
  obtain ⟨forms, read⟩ := Reading.reports_ofTokens
    (P := fun p => p.IsIn text.toList) start inside error
  refine ⟨tiled.ordered, covered, fun before c after here scanned outside => ?_, fun e failed => ?_⟩
  · rcases blank_or_inside here scanned with blank | ⟨t, mem, inside⟩
    · exact blank
    · exact absurd inside (outside t mem)
  · rcases failed with scan | reading | single
    · exact error e scan
    · exact read e reading
    · exact Reading.reports_single (P := fun p => p.IsIn text.toList) forms read single

/-- An LF after a CR is outside of all tokens, and the missing end of a list is reported at
the last token, in the second line. -/
theorem Tokens.tile_broken_list :
    isBlank '\n' = true ∧ (⟨6, 2, 2⟩ : Position).IsIn "(é\r\n b".toList := by
  obtain ⟨_, _, blank, positions⟩ := tile_text "(é\r\n b"
  have complete : (ofText "(é\r\n b").error? = none := by decide +kernel
  have missing : (Reading.ofText "(é\r\n b").error? = some (.unterminated ⟨6, 2, 2⟩ .list) := by
    decide +kernel
  have outside : ∀ t ∈ (ofText "(é\r\n b").tokens,
      ¬ t.Contains (.behind ['(', 'é', '\r']) := by decide +kernel
  exact ⟨blank ['(', 'é', '\r'] '\n' [' ', 'b'] (by decide +kernel) (.inl complete) outside,
    positions _ (.inr (.inl missing))⟩

end Lisp
