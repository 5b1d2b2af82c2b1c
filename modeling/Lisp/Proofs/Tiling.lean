import Lisp.Proofs.Completion
import Lisp.Proofs.Positions

/-!
# Tokens tile their text

The characters of a text that have been scanned consist of the spans of the tokens, with
blanks between them, and of the characters of a token that is not complete yet. One
character of the text leads from such a state to the next.
-/

namespace Lisp

open Text

def Lexeme.isString : Lexeme → Bool
  | .string _ => true
  | _ => false

/-- Whether a token stands for a run of characters behind others. Its text is that run,
unless it was decoded. -/
structure Token.Covers (t : Token) (before span : List Char) : Prop where
  nonempty : span ≠ []
  first : t.first = .behind before
  last : t.last = .behind (before ++ span.dropLast)
  text : t.lexeme.isString = false → t.lexeme.isEscaped = false → t.lexeme.text.toList = span

/-- Whether a position lies between the first and the last character of a token. -/
def Token.Contains (t : Token) (p : Position) : Prop :=
  t.first.offset ≤ p.offset ∧ p.offset ≤ t.last.offset

instance (t : Token) (p : Position) : Decidable (t.Contains p) :=
  inferInstanceAs (Decidable (_ ∧ _))

/-- Whether a text consists of the spans of tokens, one after the other, and of blanks. -/
inductive Tiled : List Char → List Token → Prop where
  | start : Tiled [] []
  | blank {cs : List Char} {ts : List Token} {c : Char} (before : Tiled cs ts)
      (blank : isBlank c = true) : Tiled (cs ++ [c]) ts
  | token {cs span : List Char} {ts : List Token} {t : Token} (before : Tiled cs ts)
      (covers : t.Covers cs span) : Tiled (cs ++ span) (ts ++ [t])

/-- Whether a position is that of a character of a text, or its end. -/
def Position.IsIn (p : Position) (cs : List Char) : Prop :=
  ∃ before, before <+: cs ∧ p = .behind before

/-- What a mode remembers of the characters of a token that is not complete. -/
def Mode.Holds (before span : List Char) : Mode → Prop
  | between => span = []
  | hash first => first = .behind before ∧ span = ['#']
  | comment first text => first = .behind before ∧ span ≠ [] ∧ text.reverse = span
  | string first _ => first = .behind before ∧ span ≠ []
  | stringEscape first _ => first = .behind before ∧ span ≠ []
  | atom first text escaped =>
    first = .behind before ∧ span ≠ [] ∧ (escaped = false → text.reverse = span)
  | atomEscape first _ => first = .behind before ∧ span ≠ []
  | run first _ => first = .behind before ∧ span ≠ []
  | runEscape first _ => first = .behind before ∧ span ≠ []
  | failed e => e.position.IsIn (before ++ span)

/-- What holds when characters have been scanned, and tokens were complete. -/
def Mode.Scanned (read : List Char) (ts : List Token) (mode : Mode) : Prop :=
  ∃ before span, read = before ++ span ∧ Tiled before ts ∧ mode.Holds before span

theorem Lexeme.text_ofAtom (cs : List Char) (escaped : Bool) :
    (Lexeme.ofAtom cs escaped).text = String.ofList cs := by
  unfold Lexeme.ofAtom
  dsimp only
  split
  · rfl
  · split
    · rfl
    · split <;> rfl

theorem Position.IsIn.append {p : Position} {cs : List Char} (h : p.IsIn cs) (more : List Char) :
    p.IsIn (cs ++ more) := by
  obtain ⟨before, within, rfl⟩ := h
  exact ⟨before, within.trans (List.prefix_append cs more), rfl⟩

namespace Mode

variable {read before span : List Char} {ts : List Token}

/-- The last character of a token that was begun is the one passed last. -/
theorem last_behind (some_ : span ≠ []) :
    (Place.behind (before ++ span)).last = .behind (before ++ span.dropLast) := by
  rw [Place.behind, List.dropLast_append_of_ne_nil some_]

theorem covers_single {c : Char} {l : Lexeme} (text : l.text.toList = [c]) :
    Token.Covers ⟨l, .behind read, .behind read⟩ read [c] where
  nonempty := List.cons_ne_nil c []
  first := rfl
  last := by simp
  text _ _ := text

theorem covers_atomToken {text : List Char} {escaped : Bool} (some_ : span ≠ [])
    (same : escaped = false → text.reverse = span) :
    (atomToken (.behind before) (Place.behind (before ++ span)).last text escaped).Covers
      before span where
  nonempty := some_
  first := rfl
  last := last_behind some_
  text _ verbatim := by
    rw [atomToken, Lexeme.text_ofAtom, String.toList_ofList]
    refine same ?_
    cases escaped with
    | false => rfl
    | true => cases verbatim

/-- A character behind complete tokens. -/
theorem scanned_begin (tiled : Tiled read ts) (c : Char) :
    Scanned (read ++ [c]) (ts ++ (begin (.behind read) c).1) (begin (.behind read) c).2 := by
  have single : ∀ {l : Lexeme}, l.text.toList = [c] →
      Scanned (read ++ [c]) (ts ++ [⟨l, .behind read, .behind read⟩]) between := fun text =>
    ⟨read ++ [c], [], (List.append_nil _).symm, tiled.token (covers_single text), rfl⟩
  have opened : ∀ {mode : Mode}, mode.Holds read [c] → Scanned (read ++ [c]) (ts ++ []) mode :=
    fun holds => ⟨read, [c], rfl, by rwa [List.append_nil], holds⟩
  unfold begin
  split
  · rename_i blank
    rw [List.append_nil]
    exact ⟨read ++ [c], [], (List.append_nil _).symm, tiled.blank blank, rfl⟩
  split
  · exact single (by simp_all [Lexeme.text])
  split
  · exact single (by simp_all [Lexeme.text])
  split
  · exact single (by simp_all [Lexeme.text, Mark.sign])
  split
  · exact opened ⟨rfl, List.cons_ne_nil c [], rfl⟩
  split
  · exact opened ⟨rfl, List.cons_ne_nil c []⟩
  split
  · rename_i sharp
    exact opened ⟨rfl, by rw [sharp]⟩
  split
  · exact opened ⟨rfl, List.cons_ne_nil c []⟩
  split
  · exact opened ⟨rfl, List.cons_ne_nil c []⟩
  · exact opened ⟨rfl, List.cons_ne_nil c [], fun _ => rfl⟩

/-- A character behind an atom. -/
theorem scanned_continueAtom {text : List Char} {escaped : Bool} (tiled : Tiled before ts)
    (some_ : span ≠ []) (same : escaped = false → text.reverse = span) (c : Char) :
    let next := continueAtom (.behind (before ++ span)) (.behind before) text escaped c
    Scanned (before ++ span ++ [c]) (ts ++ next.1) next.2 := by
  have opened : ∀ {mode : Mode}, mode.Holds before (span ++ [c]) →
      Scanned (before ++ span ++ [c]) (ts ++ []) mode :=
    fun holds => ⟨before, span ++ [c], List.append_assoc _ _ _, by rwa [List.append_nil], holds⟩
  have more : span ++ [c] ≠ [] := by simp
  intro next
  have ended := scanned_begin (tiled.token (covers_atomToken some_ same)) c
  rw [List.append_assoc ts] at ended
  unfold next continueAtom
  split
  · exact ended
  split
  · exact opened ⟨rfl, more⟩
  split
  · exact opened ⟨rfl, more⟩
  · exact opened ⟨rfl, more, fun plain => by rw [List.reverse_cons, same plain]⟩

/-- One character leads from a state of a scan to the next. -/
theorem Scanned.step {mode : Mode} (h : mode.Scanned read ts) (c : Char) :
    (mode.step (.behind read) c).2.Scanned (read ++ [c])
      (ts ++ (mode.step (.behind read) c).1) := by
  obtain ⟨before, span, rfl, tiled, holds⟩ := h
  have grown : ∀ {mode : Mode}, mode.Holds before (span ++ [c]) →
      Scanned (before ++ span ++ [c]) (ts ++ []) mode :=
    fun holds => ⟨before, span ++ [c], List.append_assoc _ _ _, by rwa [List.append_nil], holds⟩
  have ended : ∀ {t : Token}, t.Covers before (span ++ [c]) →
      Scanned (before ++ span ++ [c]) (ts ++ [t]) between := fun covers =>
    ⟨before ++ (span ++ [c]), [], by simp, tiled.token covers, rfl⟩
  have more : span ++ [c] ≠ [] := by simp
  cases mode with
  | between =>
    obtain rfl : span = [] := holds
    rw [List.append_nil]
    exact scanned_begin (by simpa using tiled) c
  | hash first =>
    obtain ⟨rfl, rfl⟩ := holds
    simp only [Mode.step]
    split
    · rename_i quote
      subst quote
      exact ended ⟨more, rfl, by simp [Place.behind], fun _ _ => String.toList_ofList⟩
    · exact scanned_continueAtom tiled (List.cons_ne_nil _ _) (fun _ => rfl) c
  | comment first text =>
    obtain ⟨rfl, some_, rfl⟩ := holds
    simp only [Mode.step]
    split
    · rename_i break_
      have covers : Token.Covers ⟨.comment (String.ofList text.reverse), .behind before,
          (Place.behind (before ++ text.reverse)).last⟩ before text.reverse :=
        ⟨some_, rfl, last_behind some_, fun _ _ => String.toList_ofList⟩
      refine ⟨_, [], (List.append_nil _).symm, (tiled.token covers).blank ?_, rfl⟩
      rcases break_ with rfl | rfl <;> decide
    · exact grown ⟨rfl, more, by simp⟩
  | string first text =>
    obtain ⟨rfl, some_⟩ := holds
    simp only [Mode.step]
    split
    · exact ended ⟨more, rfl, by simp [Place.behind], fun other => Bool.noConfusion other⟩
    split
    · exact grown ⟨rfl, more⟩
    · exact grown ⟨rfl, more⟩
  | stringEscape first text =>
    obtain ⟨rfl, some_⟩ := holds
    simp only [Mode.step]
    split
    · exact grown ⟨rfl, more⟩
    · exact grown ⟨before ++ span, by simp, rfl⟩
  | atom first text escaped =>
    obtain ⟨rfl, some_, same⟩ := holds
    exact scanned_continueAtom tiled some_ same c
  | run first text =>
    obtain ⟨rfl, some_⟩ := holds
    simp only [Mode.step]
    split
    · exact grown ⟨rfl, more, fun plain => Bool.noConfusion plain⟩
    split
    · exact grown ⟨rfl, more⟩
    · exact grown ⟨rfl, more⟩
  | atomEscape first text =>
    exact grown ⟨holds.1, more, fun plain => Bool.noConfusion plain⟩
  | runEscape first text => exact grown ⟨holds.1, more⟩
  | failed e =>
    have within : (Mode.failed e).Holds before (span ++ [c]) := by
      rw [Holds, ← List.append_assoc]
      exact Position.IsIn.append holds [c]
    exact grown within

theorem Scanned.scan {mode : Mode} (h : mode.Scanned read ts) (cs : List Char) :
    (mode.scan (.behind read) cs).2.Scanned (read ++ cs)
      (ts ++ (mode.scan (.behind read) cs).1) := by
  induction cs generalizing mode read ts with
  | nil => simpa using h
  | cons c cs ih =>
    have later := ih (h.step c)
    rw [scan_cons, Place.past_behind]
    simpa using later

/-- The end of the text completes what was begun, or is an error. -/
theorem Scanned.finish {mode : Mode} (h : mode.Scanned read ts) :
    ∃ before rest, read = before ++ rest ∧ Tiled before (ts ++ (mode.finish (.behind read)).1) ∧
      ((mode.finish (.behind read)).2 = none → rest = []) ∧
      ∀ e, (mode.finish (.behind read)).2 = some e → e.position.IsIn read := by
  obtain ⟨before, span, rfl, tiled, holds⟩ := h
  have last : (Place.behind (before ++ span)).last.IsIn (before ++ span) :=
    ⟨_, List.dropLast_prefix _, rfl⟩
  have whole : ∀ {t : Token}, t.Covers before span →
      ∃ front rest, before ++ span = front ++ rest ∧ Tiled front (ts ++ [t]) ∧
        ((none : Option ReadError) = none → rest = []) ∧
        ∀ e, (none : Option ReadError) = some e → e.position.IsIn (before ++ span) :=
    fun covers => ⟨before ++ span, [], (List.append_nil _).symm, tiled.token covers,
      fun _ => rfl, nofun⟩
  have broken : ∀ {e : ReadError}, e.position.IsIn (before ++ span) →
      ∃ front rest, before ++ span = front ++ rest ∧ Tiled front (ts ++ []) ∧
        (some e = none → rest = []) ∧
        ∀ e', some e = some e' → e'.position.IsIn (before ++ span) :=
    fun within => ⟨before, span, rfl, by rwa [List.append_nil], nofun,
      fun _ same => Option.some.inj same ▸ within⟩
  cases mode with
  | between =>
    obtain rfl : span = [] := holds
    exact ⟨before, [], rfl, by simpa [Mode.finish] using tiled, fun _ => rfl, nofun⟩
  | hash first =>
    obtain ⟨rfl, rfl⟩ := holds
    exact whole (covers_atomToken (List.cons_ne_nil _ _) fun _ => rfl)
  | comment first text =>
    obtain ⟨rfl, some_, rfl⟩ := holds
    exact whole ⟨some_, rfl, last_behind some_, fun _ _ => String.toList_ofList⟩
  | atom first text escaped =>
    obtain ⟨rfl, some_, same⟩ := holds
    exact whole (covers_atomToken some_ same)
  | failed e => exact broken holds
  | _ => exact broken last

end Mode

/-- A text is tiled by its tokens, up to its end or to the token that an error breaks off,
and the error is at a position of the text. -/
theorem Tokens.tiled_ofText (text : String) :
    ∃ before rest, text.toList = before ++ rest ∧ Tiled before (ofText text).tokens ∧
      ((ofText text).error? = none → rest = []) ∧
      ∀ e, (ofText text).error? = some e → e.position.IsIn text.toList := by
  have start : Mode.between.Scanned [] [] := ⟨[], [], rfl, .start, rfl⟩
  have scanned := start.scan text.toList
  rw [ofText_eq_tokensOf, Mode.tokensOf, ← Place.behind_nil, Place.pastAll_behind]
  simpa using scanned.finish

namespace Tiled

variable {cs : List Char} {ts : List Token}

theorem ends_before (h : Tiled cs ts) : ∀ t ∈ ts, t.last.offset < (Position.behind cs).offset := by
  induction h with
  | start => exact nofun
  | @blank cs ts c _ _ ih =>
    intro t mem
    exact Nat.lt_of_lt_of_le (ih t mem) (Position.offset_le_append cs [c])
  | @token cs span ts t _ covers ih =>
    intro u mem
    rcases List.mem_append.mp mem with earlier | new
    · exact Nat.lt_of_lt_of_le (ih u earlier) (Position.offset_le_append cs span)
    · obtain rfl := List.mem_singleton.mp new
      rw [covers.last, ← List.dropLast_concat_getLast covers.nonempty, ← List.append_assoc,
        List.dropLast_concat]
      exact Position.offset_lt_append _ (List.cons_ne_nil _ _)

/-- Every token ends before the next one begins. -/
theorem ordered (h : Tiled cs ts) : ts.Pairwise fun t u => t.last.offset < u.first.offset := by
  induction h with
  | start => exact .nil
  | blank _ _ ih => exact ih
  | token before covers ih =>
    refine List.pairwise_append.mpr ⟨ih, List.pairwise_singleton _ _, fun t mem u new => ?_⟩
    obtain rfl := List.mem_singleton.mp new
    rw [covers.first]
    exact before.ends_before t mem

theorem covered (h : Tiled cs ts) :
    ∀ t ∈ ts, ∃ before span after, cs = before ++ span ++ after ∧ t.Covers before span := by
  induction h with
  | start => exact nofun
  | @blank cs ts c _ _ ih =>
    intro t mem
    obtain ⟨before, span, after, rfl, covers⟩ := ih t mem
    exact ⟨before, span, after ++ [c], List.append_assoc _ _ _, covers⟩
  | @token cs span ts t _ covers ih =>
    intro u mem
    rcases List.mem_append.mp mem with earlier | new
    · obtain ⟨front, inside, after, rfl, covered⟩ := ih u earlier
      exact ⟨front, inside, after ++ span, List.append_assoc _ _ _, covered⟩
    · obtain rfl := List.mem_singleton.mp new
      exact ⟨cs, span, [], (List.append_nil _).symm, covers⟩

/-- A character that is no blank belongs to a token. -/
theorem blank_or_inside (h : Tiled cs ts) {before after : List Char} {c : Char}
    (here : cs = before ++ c :: after) :
    isBlank c = true ∨ ∃ t ∈ ts, t.Contains (.behind before) := by
  induction h generalizing after with
  | start => simp at here
  | @blank cs ts d _ blank ih =>
    rcases List.eq_nil_or_concat after with rfl | ⟨front, last, rfl⟩
    · obtain ⟨_, same⟩ := List.append_inj' here rfl
      obtain rfl := List.singleton_inj.mp same
      exact .inl blank
    · have split : cs ++ [d] = (before ++ c :: front) ++ [last] := by simpa using here
      exact ih (List.append_inj' split rfl).1
  | @token cs span ts t _ covers ih =>
    have within : ∀ m rest, before = cs ++ m → span = m ++ c :: rest →
        ∃ u ∈ ts ++ [t], u.Contains (.behind before) := by
      rintro m rest rfl rfl
      refine ⟨t, List.mem_append_right ts (List.mem_singleton_self t), ?_, ?_⟩
      · rw [covers.first]
        exact Position.offset_le_append cs m
      · rw [covers.last, List.dropLast_append_of_ne_nil (List.cons_ne_nil c rest),
          ← List.append_assoc]
        exact Position.offset_le_append _ _
    rcases List.append_eq_append_iff.mp here with ⟨m, rfl, split⟩ | ⟨m, rfl, split⟩
    · exact .inr (within m after rfl split)
    · cases m with
      | nil => exact .inr (within [] after (by simp) split.symm)
      | cons d m =>
        obtain ⟨rfl, _⟩ := List.cons.inj split
        refine (ih rfl).imp_right fun ⟨u, mem, inside⟩ => ?_
        exact ⟨u, List.mem_append_left _ mem, inside⟩

end Tiled

end Lisp
