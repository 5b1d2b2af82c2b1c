import Lisp.Proofs.Completion
import Lisp.Proofs.Positions
import Lisp.Proofs.Spelling

/-!
# Which printed strings can be read

Writing escapes every character below the space, and reading knows the escapes of two of
them, LF and tab. A string of other characters is read back from its printed form. The first
character of another kind ends the scan: what is printed for it begins with an escape that
reading refuses, and no token is complete by then.
-/

namespace Lisp

open Text

namespace Text.Quoted

/-- The characters that are read back from what is written for them. -/
def IsLegible (c : Char) : Prop := c = '\n' ∨ c = '\t' ∨ 0x20 ≤ c.toNat

instance (c : Char) : Decidable (IsLegible c) := inferInstanceAs (Decidable (_ ∨ _))

/-- The letter behind the backslash with which the other characters are written. -/
def controlLetter (c : Char) : Char :=
  if c = '\x08' then 'b' else if c = '\x0c' then 'f' else if c = '\r' then 'r' else 'u'

theorem unescape?_controlLetter (c : Char) : unescape? (controlLetter c) = none := by
  unfold controlLetter
  repeat' split
  all_goals decide

theorem encodeChar_of_not_isLegible {c : Char} (h : ¬ IsLegible c) :
    ∃ rest, encodeChar c = '\\' :: controlLetter c :: rest := by
  obtain ⟨feed, tab, control⟩ : c ≠ '\n' ∧ c ≠ '\t' ∧ ¬ 0x20 ≤ c.toNat := by
    simpa [IsLegible] using h
  have other : ∀ d : Char, 0x20 ≤ d.toNat → c ≠ d := by
    rintro d visible rfl
    exact control visible
  have below : c.toNat < 0x20 := Nat.lt_of_not_le control
  by_cases back : c = '\x08'
  · exact ⟨_, by subst back; rfl⟩
  by_cases page : c = '\x0c'
  · exact ⟨_, by subst page; rfl⟩
  by_cases return_ : c = '\r'
  · exact ⟨_, by subst return_; rfl⟩
  refine ⟨['0', '0', hexDigit (c.toNat / 16), hexDigit (c.toNat % 16)], ?_⟩
  simp [encodeChar, controlLetter, other '\x22' (by decide), other '\\' (by decide), back, page,
    feed, return_, tab, below]

end Text.Quoted

open Text.Quoted

/-- Between double quotes, the first character that is not legible. -/
theorem Mode.scan_encode_illegible {front back : List Char} {c : Char}
    (legible : ∀ d ∈ front, IsLegible d) (h : ¬ IsLegible c) (first : Position)
    (text : List Char) (p : Place) :
    (string first text).scan p (encode (front ++ c :: back)) =
      ([], failed (.malformed (p.pastAll (encode front ++ ['\\'])).position
        (.unexpectedEscape (controlLetter c)))) := by
  obtain ⟨rest, written⟩ := encodeChar_of_not_isLegible h
  have split : encode (front ++ c :: back) =
      encode front ++ '\\' :: controlLetter c :: (rest ++ encode back) := by
    simp [encode, written]
  rw [split, scan_append, scan_encode legible, scan_cons, scan_cons, Place.pastAll_append]
  simp [step, unescape?_controlLetter, scan_failed]

theorem Sexp.toList_text_string (s : String) :
    (Sexp.text (.string s : Datum)).toList = literal s.toList := by
  simp [Sexp.text, Sexp.write, Sexp.writeAtom]

/-- A string of legible characters is one token, and is read as this string. -/
theorem Tokens.ofText_legible {s : String} (legible : ∀ c ∈ s.toList, IsLegible c) :
    (∃ t, ofText (Sexp.text (.string s : Datum)) = ⟨[t], none⟩ ∧ t.lexeme = .string s) ∧
      Datum.ofText? (Sexp.text (.string s : Datum)) = .ok (.string s) := by
  obtain ⟨t, p', read, lexeme⟩ := Mode.tokensOf_literal legible Place.start []
  have scanned : ofText (Sexp.text (.string s : Datum)) = ⟨[t], none⟩ := by
    rw [ofText_eq_tokensOf, Sexp.toList_text_string, ← List.append_nil (literal s.toList), read]
    rfl
  rw [String.ofList_toList] at lexeme
  refine ⟨⟨t, scanned, lexeme⟩, ?_⟩
  have datum : t.lexeme.datum? = some (.string s) := by rw [lexeme]; rfl
  rw [Datum.ofText?, Reading.ofText, scanned, Reading.ofTokens, Reader.feedAll_cons,
    Reader.feed_of_datum? rfl datum]
  rfl

/-- A character that is not legible, behind legible ones, ends the scan of a string. -/
theorem Tokens.ofText_illegible {s : String} {front back : List Char} {c : Char}
    (whole : s.toList = front ++ c :: back) (legible : ∀ d ∈ front, IsLegible d)
    (h : ¬ IsLegible c) :
    ofText (Sexp.text (.string s : Datum)) =
      ⟨[], some (.malformed (.behind ('\x22' :: (encode front ++ ['\\'])))
        (.unexpectedEscape (controlLetter c)))⟩ := by
  have opened : Mode.between.step Place.start '\x22' =
      ([], .string Place.start.position []) := rfl
  have place : (Place.start.past '\x22').pastAll (encode front ++ ['\\']) =
      .behind ('\x22' :: (encode front ++ ['\\'])) := by
    rw [← Place.behind_nil, Place.past_behind, Place.pastAll_behind]
    rfl
  rw [ofText_eq_tokensOf, Sexp.toList_text_string, whole, literal, Mode.tokensOf_cons, opened,
    Mode.tokensOf_append, Mode.scan_encode_illegible legible h, place]
  simp [Mode.tokensOf, Mode.scan_failed, Mode.finish, precededBy, Place.behind]

/-- A string is read back from its printed form, as one token and as an expression, exactly
when all its characters are legible. Otherwise the first one that is not ends the scan, with
the letter that stands behind its backslash. -/
theorem Tokens.string_rereads_iff (s : String) :
    ((∃ t, ofText (Sexp.text (.string s : Datum)) = ⟨[t], none⟩ ∧ t.lexeme = .string s) ↔
        ∀ c ∈ s.toList, IsLegible c) ∧
      (Datum.ofText? (Sexp.text (.string s : Datum)) = .ok (.string s) ↔
        ∀ c ∈ s.toList, IsLegible c) ∧
      ∀ front c back, s.toList = front ++ c :: back → (∀ d ∈ front, IsLegible d) →
        ¬ IsLegible c →
        ofText (Sexp.text (.string s : Datum)) =
          ⟨[], some (.malformed (.behind ('\x22' :: (encode front ++ ['\\'])))
            (.unexpectedEscape (controlLetter c)))⟩ := by
  -- Every string is legible or has a first character that is not.
  by_cases legible : ∀ c ∈ s.toList, IsLegible c
  · obtain ⟨token, datum⟩ := ofText_legible legible
    refine ⟨iff_of_true token legible, iff_of_true datum legible, ?_⟩
    intro front c back whole _ h
    exact absurd (legible c (by simp [whole])) h
  · obtain ⟨c, found⟩ : ∃ c, s.toList.find? (¬ IsLegible ·) = some c := by
      rw [← Option.isSome_iff_exists, List.find?_isSome]
      simpa using legible
    obtain ⟨h, front, back, whole, before⟩ := List.find?_eq_some_iff_append.mp found
    have ended := ofText_illegible whole (by simpa using before) (by simpa using h)
    refine ⟨iff_of_false ?_ legible, iff_of_false ?_ legible, fun _ _ _ => ofText_illegible⟩
    · rintro ⟨t, read, -⟩
      rw [ended] at read
      cases read
    · intro read
      rw [Datum.ofText?, Reading.ofText, ended] at read
      cases read

/-- A CR is written with an escape that reading does not know. -/
theorem Tokens.not_string_rereads_return :
    ¬ ∀ s : String,
      ∃ t, ofText (Sexp.text (.string s : Datum)) = ⟨[t], none⟩ ∧ t.lexeme = .string s := by
  intro rereads
  obtain ⟨t, read, -⟩ := rereads "\r"
  have nothing : (ofText (Sexp.text (.string "\r" : Datum))).tokens.length = 0 := by
    decide +kernel
  rw [read] at nothing
  cases nothing

end Lisp
