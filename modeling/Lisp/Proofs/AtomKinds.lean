import Lisp.Proofs.AtomScanning
import Lisp.Proofs.Tiling

/-!
# What runs of plain characters are

A text without delimiters, backslashes and bars that does not begin with a semicolon is one
token. It is a number if the grammar of numerals takes it, an integer if it has the form of
one and its value fits into 64 bits, and a symbol otherwise.

A token that was scanned as a number can therefore be read as one again, in every text. Nor
can an atom be empty, since none begins with a character that ends one. So of the errors that
a reader of tokens has to provide for two can never be reported: an atom without characters,
and a number that is not one.
-/

namespace Lisp

open Text Decimal

/-- Runs of characters that stand for themselves, and do not begin a comment. -/
structure Text.IsRun (cs : List Char) : Prop where
  nonempty : cs ≠ []
  plain : ∀ c ∈ cs, isPlain c = true
  noComment : cs.head? ≠ some ';'

instance (cs : List Char) : Decidable (IsRun cs) :=
  decidable_of_iff (cs ≠ [] ∧ cs.all isPlain = true ∧ cs.head? ≠ some ';')
    ⟨fun h => ⟨h.1, List.all_eq_true.mp h.2.1, h.2.2⟩,
      fun h => ⟨h.1, List.all_eq_true.mpr h.2, h.3⟩⟩

/-- A run is one token, also behind a number sign. -/
theorem Tokens.ofText_run {text : String} (run : IsRun text.toList) :
    ∃ first last, ofText text = ⟨[⟨.ofAtom text.toList false, first, last⟩], none⟩ := by
  obtain ⟨nonempty, plain, noComment⟩ := run
  rw [ofText_eq_tokensOf]
  cases chars : text.toList with
  | nil => exact absurd chars nonempty
  | cons c cs =>
    rw [chars] at plain noComment
    have semicolon : c ≠ ';' := fun same => noComment (by rw [same]; rfl)
    obtain ⟨-, rest⟩ := List.forall_mem_cons.mp plain
    have scanned : Mode.between.tokensOf Place.start (c :: cs) =
        (Mode.atom Place.start.position (c :: cs).reverse false).tokensOf
          (Place.start.pastAll (c :: cs)) [] := by
      by_cases sharp : c = '#'
      · subst sharp
        have quote : cs.head? ≠ some '\x27' := by
          intro quote
          exact absurd (rest _ (List.mem_of_head? quote)) (by decide)
        have begun : Mode.between.step Place.start '#' = ([], .hash Place.start.position) := rfl
        rw [Mode.tokensOf_cons, begun, Mode.tokensOf_hash quote, Mode.tokensOf_eq,
          Mode.scan_atom_plain rest]
        simp [Mode.tokensOf_nil, Tokens.precededBy]
      · rw [Mode.tokensOf_eq, Mode.scan_plain plain semicolon sharp]
        rfl
    rw [scanned, Mode.tokensOf_atom endsAtom_nil, Mode.atomToken, List.reverse_reverse]
    exact ⟨_, _, rfl⟩

/-- The kind of an atom by the grammar. -/
theorem Lexeme.atomKind?_iff (cs : List Char) :
    ((Lexeme.ofAtom cs false).atomKind? = some .integer ↔
        cs ∈ Pattern.integer.matches' ∧ FitsWord (integerValue cs)) ∧
      ((Lexeme.ofAtom cs false).atomKind? = some .float ↔
        ¬ (cs ∈ Pattern.integer.matches' ∧ FitsWord (integerValue cs)) ∧
          cs ∈ Pattern.float.matches') ∧
      ((Lexeme.ofAtom cs false).atomKind? = some .symbol ↔
        ¬ (cs ∈ Pattern.integer.matches' ∧ FitsWord (integerValue cs)) ∧
          cs ∉ Pattern.float.matches') := by
  rw [atomKind?_ofAtom, ← int64?_isSome, ← Numeral.read?_isSome]
  by_cases integer : (int64? cs).isSome = true
  · simp [integer]
  by_cases numeral : (Numeral.read? cs).isSome = true
  · simp [integer, numeral]
  · simp [integer, numeral]

theorem Lexeme.isEscaped_ofAtom (cs : List Char) : (Lexeme.ofAtom cs false).isEscaped = false := by
  unfold ofAtom
  dsimp only
  repeat' split
  all_goals first
    | contradiction
    | rfl

/-! ### Every text -/

/-- Whether a token that was scanned as a number can be read as that number. -/
def Lexeme.IsReadable : Lexeme → Prop
  | .integer text n => int64? text.toList = some n
  | .float text _ => text.toList ∈ Pattern.float.matches' ∧ spellsNumber text.toList = true
  | _ => True

theorem Lexeme.isReadable_ofAtom (cs : List Char) (escaped : Bool) :
    (Lexeme.ofAtom cs escaped).IsReadable := by
  have word : ((Numeral.read? cs).bind Numeral.toInt?).bind word64? = int64? cs := by
    rw [Numeral.read?_bind_toInt?, int64?]
  unfold ofAtom
  dsimp only
  split
  · trivial
  split
  · trivial
  rename_i n numeral
  rw [numeral, Option.bind_some] at word
  have float : cs ∈ Pattern.float.matches' := by
    rw [← Numeral.read?_isSome, numeral]
    rfl
  split
  · rename_i w integer
    rw [IsReadable, String.toList_ofList, ← word, integer]
  · rw [IsReadable, String.toList_ofList]
    exact ⟨float, by simp [spellsNumber, numeral]⟩

/-- Whether the cause of an error is one that reading knows. -/
def ReadError.isKnown : ReadError → Bool
  | .malformed _ (.other _) => false
  | .unterminated _ (.other _) => false
  | _ => true

/-- How the messages begin that are never reported. -/
def unreported : List (List Char) := ["Unexpected c".toList, "Malformed nu".toList]

theorem take_toList_append {front : String} (long : 12 ≤ front.toList.length) (back : String) :
    (front ++ back).toList.take 12 = front.toList.take 12 := by
  rw [String.toList_append, List.take_append_of_le_length long]

/-- The message of an error with a known cause is none of those. -/
theorem ReadError.message_reported {e : ReadError} (known : e.isKnown = true) :
    e.message ≠ "Unexpected character" ∧ ∀ shown, e.message ≠ "Malformed number: " ++ shown := by
  have reported : e.message.toList.take 12 ∉ unreported := by
    cases e with
    | malformed position cause =>
      change cause.message.toList.take 12 ∉ unreported
      cases cause with
      | other message => cases known
      | missingOperand m => cases m <;> decide
      | unexpectedEscape c =>
        have long : 12 ≤ "Unexpected escaped char: ".toList.length := by decide
        have split : (Malformation.unexpectedEscape c).message =
            "Unexpected escaped char: " ++ String.singleton c := rfl
        rw [split, take_toList_append long]
        decide
      | tooDeep limit =>
        have long : 12 ≤ "Expression too deeply nested (max depth: ".toList.length := by decide
        have split : (Malformation.tooDeep limit).message =
            "Expression too deeply nested (max depth: " ++ (toString limit ++ ")") :=
          String.append_assoc ..
        rw [split, take_toList_append long]
        decide
      | _ => decide
    | unterminated position cause =>
      change cause.message.toList.take 12 ∉ unreported
      cases cause with
      | other message => cases known
      | operand m => cases m <;> decide
      | _ => decide
  constructor
  · intro same
    rw [same] at reported
    exact reported (by decide)
  · intro shown same
    have long : 12 ≤ "Malformed number: ".toList.length := by decide
    rw [same, take_toList_append long] at reported
    exact reported (by decide)

namespace Mode

/-- Whether a scan has not failed, or failed for a cause that reading knows. -/
def isKnown : Mode → Bool
  | failed e => e.isKnown
  | _ => true

/-- What one step, or the end of a text, emits: numbers that can be read. -/
def Emits (ts : List Token) : Prop := ∀ t ∈ ts, t.lexeme.IsReadable

theorem emits_nil : Emits [] := nofun

theorem emits_single {t : Token} (h : t.lexeme.IsReadable) : Emits [t] := by
  intro u mem
  obtain rfl := List.mem_singleton.mp mem
  exact h

theorem known_begin (here : Position) (c : Char) :
    Emits (begin here c).1 ∧ (begin here c).2.isKnown = true := by
  unfold begin
  repeat' split
  all_goals first
    | exact ⟨emits_nil, rfl⟩
    | exact ⟨emits_single trivial, rfl⟩

/-- No atom begins with a character that ends one. -/
theorem begin_of_isDelimiter {c : Char} (delimiter : isDelimiter c = true) (here : Position) :
    (begin here c).2 = between ∨ (begin here c).2 = string here [] := by
  simp only [isDelimiter, Bool.or_eq_true, beq_iff_eq] at delimiter
  rcases delimiter with (((blank | rfl) | rfl) | rfl) | rfl
  · exact .inl (by simp [begin, blank])
  · exact .inl rfl
  · exact .inl rfl
  · exact .inr rfl
  · exact .inl rfl

theorem isReadable_atomToken (first last : Position) (text : List Char) (escaped : Bool) :
    (atomToken first last text escaped).lexeme.IsReadable :=
  Lexeme.isReadable_ofAtom text.reverse escaped

theorem known_continueAtom (p : Place) (first : Position) (text : List Char) (escaped : Bool)
    (c : Char) :
    Emits (continueAtom p first text escaped c).1 ∧
      (continueAtom p first text escaped c).2.isKnown = true := by
  unfold continueAtom
  split
  · obtain ⟨emits, known⟩ := known_begin p.position c
    exact ⟨List.forall_mem_cons.mpr ⟨isReadable_atomToken _ _ _ _, emits⟩, known⟩
  repeat' split
  all_goals exact ⟨emits_nil, rfl⟩

theorem known_step {mode : Mode} (h : mode.isKnown = true) (p : Place) (c : Char) :
    Emits (mode.step p c).1 ∧ (mode.step p c).2.isKnown = true := by
  cases mode with
  | between => exact known_begin p.position c
  | hash first =>
    simp only [step]
    split
    · exact ⟨emits_single trivial, rfl⟩
    · exact known_continueAtom p first _ _ c
  | atom first text escaped => exact known_continueAtom p first text escaped c
  | stringEscape first text =>
    simp only [step]
    split
    · exact ⟨emits_nil, rfl⟩
    · exact ⟨emits_nil, rfl⟩
  | failed e => exact ⟨emits_nil, h⟩
  | _ =>
    simp only [step]
    repeat' split
    all_goals first
      | exact ⟨emits_nil, rfl⟩
      | exact ⟨emits_single trivial, rfl⟩

theorem known_scan {mode : Mode} (h : mode.isKnown = true) (p : Place) (cs : List Char) :
    Emits (mode.scan p cs).1 ∧ (mode.scan p cs).2.isKnown = true := by
  induction cs generalizing mode p with
  | nil => exact ⟨emits_nil, h⟩
  | cons c cs ih =>
    obtain ⟨first, next⟩ := known_step h p c
    obtain ⟨others, last⟩ := ih next (p.past c)
    exact ⟨List.forall_mem_append.mpr ⟨first, others⟩, last⟩

theorem known_finish {mode : Mode} (h : mode.isKnown = true) (p : Place) :
    Emits (mode.finish p).1 ∧ ∀ e, (mode.finish p).2 = some e → e.isKnown = true := by
  cases mode with
  | hash first => exact ⟨emits_single (isReadable_atomToken _ _ _ _), nofun⟩
  | atom first text escaped => exact ⟨emits_single (isReadable_atomToken _ _ _ _), nofun⟩
  | comment first text => exact ⟨emits_single trivial, nofun⟩
  | between => exact ⟨emits_nil, nofun⟩
  | failed e => exact ⟨emits_nil, fun e' same => Option.some.inj same ▸ h⟩
  | _ => exact ⟨emits_nil, fun e same => Option.some.inj same ▸ rfl⟩

end Mode

/-- The numbers among the tokens of a text can be read, and the error of a scan is known. -/
theorem Tokens.known_ofText (text : String) :
    Mode.Emits (ofText text).tokens ∧ ∀ e, (ofText text).error? = some e → e.isKnown = true := by
  have start : Mode.between.isKnown = true := rfl
  obtain ⟨emits, known⟩ := Mode.known_scan start Place.start text.toList
  obtain ⟨last, error⟩ := Mode.known_finish known (Place.start.pastAll text.toList)
  rw [ofText_eq_tokensOf, Mode.tokensOf_eq]
  exact ⟨List.forall_mem_append.mpr ⟨emits, last⟩, error⟩

/-! ### Reading -/

namespace Frame

theorem isKnown_of_push {frame : Frame} {at_ : Position} {stack : List Frame} {e : ReadError}
    (failed : push frame at_ stack = .error e) : e.isKnown = true := by
  unfold push at failed
  split at failed <;> cases failed
  rfl

theorem isKnown_of_close {elements : List Element} {closing : Position} {e : ReadError}
    (failed : close elements closing = .error e) : e.isKnown = true := by
  unfold close at failed
  repeat' split at failed
  all_goals cases failed
  rfl

theorem isKnown_of_step {stack : List Frame} {t : Token} {e : ReadError}
    (failed : step stack t = .error e) : e.isKnown = true := by
  unfold step at failed
  split at failed
  case h_2 => exact isKnown_of_push failed
  case h_3 => exact isKnown_of_push failed
  case h_4 =>
    split at failed
    · cases failed
      rfl
    · cases failed
      rfl
    · rename_i opened elements rest
      cases closed : close elements t.last with
      | error e' =>
        rw [closed] at failed
        cases failed
        exact isKnown_of_close closed
      | ok d =>
        rw [closed] at failed
        cases failed
  all_goals cases failed

end Frame

theorem Reader.isKnown_of_feedAll {r : Reader} {ts : List Token} {e : ReadError}
    (quiet : r.error? = none) (failed : (r.feedAll ts).error? = some e) : e.isKnown = true := by
  induction ts generalizing r with
  | nil =>
    rw [feedAll_nil, quiet] at failed
    cases failed
  | cons t ts ih =>
    rw [feedAll_cons] at failed
    cases step : Frame.step r.stack t with
    | error e' =>
      rw [feed_of_step_error quiet step, feedAll_of_error rfl] at failed
      cases failed
      exact Frame.isKnown_of_step step
    | ok next =>
      rw [feed_of_step_ok quiet step] at failed
      exact ih rfl failed

namespace Reading

theorem isKnown_ofText {text : String} {e : ReadError}
    (failed : (ofText text).error? = some e) : e.isKnown = true := by
  simp only [ofText, ofTokens, Option.orElse_eq_orElse, Option.orElse_eq_or,
    Option.or_eq_some_iff] at failed
  rcases failed with read | ⟨_, scan | ⟨_, missing⟩⟩
  · exact Reader.isKnown_of_feedAll rfl read
  · exact (Tokens.known_ofText text).2 e scan
  · obtain ⟨frame, -, rfl⟩ := Option.map_eq_some_iff.mp missing
    cases frame with
    | list opened elements => rfl
    | mark opened m => rfl

theorem isKnown_of_single {text : String} {e : ReadError}
    (failed : Datum.ofText? text = .error e) : e.isKnown = true := by
  unfold Datum.ofText? single at failed
  split at failed
  · cases failed
  · cases failed
  · cases failed
    rfl
  · rename_i e' error _
    cases failed
    exact isKnown_ofText error

end Reading

/-- Every run of plain characters is one token with this text. It is an integer exactly if it
has the form of one and its value fits into 64 bits, a float exactly if it is no such integer
and the grammar takes it, and a symbol otherwise; one pass over its characters tells as much.
In every text, what was scanned as a number can be read as this number, no atom begins with a
character that ends one, and no error is that of an empty atom or of a malformed number. -/
theorem Tokens.atom_kinds :
    (∀ text : String, IsRun text.toList →
      ∃ t, ofText text = ⟨[t], none⟩ ∧ t.lexeme.text = text ∧ t.lexeme.isEscaped = false ∧
        t.lexeme.atomKind? = some (AtomKind.of text.toList) ∧
        (t.lexeme.atomKind? = some .integer ↔
          text.toList ∈ Pattern.integer.matches' ∧ FitsWord (integerValue text.toList)) ∧
        (t.lexeme.atomKind? = some .float ↔
          ¬ (text.toList ∈ Pattern.integer.matches' ∧ FitsWord (integerValue text.toList)) ∧
            text.toList ∈ Pattern.float.matches') ∧
        (t.lexeme.atomKind? = some .symbol ↔
          ¬ (text.toList ∈ Pattern.integer.matches' ∧ FitsWord (integerValue text.toList)) ∧
            text.toList ∉ Pattern.float.matches')) ∧
    (∀ text : String,
      (∀ t ∈ (ofText text).tokens, t.lexeme.IsReadable) ∧
      ∀ e, (ofText text).error? = some e ∨ (Reading.ofText text).error? = some e ∨
          Datum.ofText? text = .error e →
        e.message ≠ "Unexpected character" ∧
          ∀ shown, e.message ≠ "Malformed number: " ++ shown) ∧
    ∀ here c, isDelimiter c = true →
      (Mode.begin here c).2 = .between ∨ (Mode.begin here c).2 = .string here [] := by
  refine ⟨fun text run => ?_, fun text => ⟨(known_ofText text).1, fun e failed => ?_⟩,
    fun here c delimiter => Mode.begin_of_isDelimiter delimiter here⟩
  · obtain ⟨first, last, read⟩ := ofText_run run
    refine ⟨_, read, ?_, ?_, ?_, Lexeme.atomKind?_iff text.toList⟩
    · rw [Lexeme.text_ofAtom, String.ofList_toList]
    · exact Lexeme.isEscaped_ofAtom text.toList
    · rw [Lexeme.atomKind?_ofAtom, AtomKind.of_eq]
  · refine ReadError.message_reported ?_
    rcases failed with scan | reading | single
    · exact (known_ofText text).2 e scan
    · exact Reading.isKnown_ofText reading
    · exact Reading.isKnown_of_single single

/-- The least integer of 64 bits is one, the one below it is a float, and an exponent mark
without digits makes a symbol. -/
theorem Tokens.atom_kinds_of_runs :
    (∃ t, ofText "-9223372036854775808" = ⟨[t], none⟩ ∧
        t.lexeme.atomKind? = some .integer) ∧
      (∃ t, ofText "-9223372036854775809" = ⟨[t], none⟩ ∧ t.lexeme.atomKind? = some .float) ∧
      ∃ t, ofText "1.e+" = ⟨[t], none⟩ ∧ t.lexeme.atomKind? = some .symbol := by
  obtain ⟨kinds, -, -⟩ := atom_kinds
  refine ⟨?_, ?_, ?_⟩
  · obtain ⟨t, read, -, -, -, integer, -⟩ := kinds "-9223372036854775808" (by decide +kernel)
    exact ⟨t, read, integer.mpr (int64?_isSome.mp (by decide +kernel))⟩
  · obtain ⟨t, read, -, -, -, -, float, -⟩ := kinds "-9223372036854775809" (by decide +kernel)
    have beyond : ¬ FitsWord (integerValue "-9223372036854775809".toList) := by decide +kernel
    exact ⟨t, read, float.mpr ⟨fun h => beyond h.2, Numeral.read?_isSome.mp (by decide +kernel)⟩⟩
  · obtain ⟨t, read, -, -, -, -, -, symbol⟩ := kinds "1.e+" (by decide +kernel)
    have unread : ¬ (Numeral.read? "1.e+".toList).isSome = true := by decide +kernel
    have noInteger : ¬ (int64? "1.e+".toList).isSome = true := by decide +kernel
    exact ⟨t, read, symbol.mpr ⟨fun h => noInteger (int64?_isSome.mpr h),
      fun h => unread (Numeral.read?_isSome.mpr h)⟩⟩

end Lisp
