import Lisp.Proofs.Delivery
import Lisp.Proofs.Numerals

/-!
# Printed symbols and strings

A scan of the spelling of a name collects the characters of the name. Inside a
closed run the spelling is the name itself; outside, every character is plain,
opens a closed run, or has a backslash before it. An atom that is not marked as
escaped in the end was written without a backslash and without a bar, so that
its spelling is the name, and the name then reads as nothing else.
-/

namespace Lisp

open Text Lisp.Symbol

theorem Symbol.readsAsOther_eq_false {c : Char} (special : c = '|' ∨ c = '\\')
    (cs : List Char) : readsAsOther (c :: cs) = false := by
  have numeral : Decimal.Numeral.read? (c :: cs) = none := by
    apply Decimal.Numeral.read?_eq_none <;> rcases special with rfl | rfl <;> decide
  rcases special with rfl | rfl
  all_goals
    simp [readsAsOther, Decimal.spellsNumber, numeral, Decimal.splitSign]

/-- A name that reads as nothing else is read as the symbol of this name. -/
theorem Lexeme.ofAtom_of_not_readsAsOther {cs : List Char} (h : readsAsOther cs = false) :
    ofAtom cs false = .symbol (String.ofList cs) false := by
  have numeral : Decimal.Numeral.read? cs = none := by
    simp only [readsAsOther, Decimal.spellsNumber, Bool.or_eq_false_iff] at h
    simpa using h.1.1.1.1
  simp [ofAtom, numeral]

/-- The spelling of a name begins with a closed run, with a backslash, or with a
plain character. -/
theorem Symbol.escapeFrom_cons (beginning : Bool) (c : Char) (cs : List Char) :
    (∃ n, c = '|' ∧ runLength? cs = some n ∧
      escapeFrom 0 beginning (c :: cs) = '|' :: escapeFrom n false cs) ∨
    escapeFrom 0 beginning (c :: cs) = '\\' :: c :: escapeFrom 0 false cs ∨
    (isPlain c = true ∧ (beginning = true → c ≠ ';') ∧
      escapeFrom 0 beginning (c :: cs) = c :: escapeFrom 0 false cs) := by
  by_cases run : ∃ n, c = '|' ∧ runLength? cs = some n
  · obtain ⟨n, rfl, length⟩ := run
    exact Or.inl ⟨n, rfl, length, by simp [escapeFrom, length]⟩
  · have outside : (if c = '|' then runLength? cs else none) = none := by
      split
      · rename_i bar
        cases length : runLength? cs with
        | none => rfl
        | some n => exact absurd ⟨n, bar, length⟩ run
      · rfl
    cases needs : needsEscape beginning c with
    | true => exact Or.inr (Or.inl (by simp [escapeFrom, outside, needs]))
    | false =>
      refine Or.inr (Or.inr ⟨?_, ?_, by simp [escapeFrom, outside, needs]⟩)
      · simp only [needsEscape, Bool.or_eq_false_iff] at needs
        exact isPlain_iff.mpr ⟨needs.1.1.1, by simpa using needs.1.1.2, by simpa using needs.1.2⟩
      · rintro rfl rfl
        exact absurd needs (by decide)

/-- A character is no backslash if none of the cases of a backslash applies. -/
theorem Symbol.ne_backslash {c : Char} {rest : List Char}
    (followed : ∀ d ds, c = '\\' → rest = d :: ds → False) (alone : c = '\\' → rest = [] → False) :
    c ≠ '\\' := by
  rintro rfl
  cases rest with
  | nil => exact alone rfl rfl
  | cons d ds => exact followed d ds rfl rfl

namespace Mode

theorem step_atom_bar (first : Position) (text : List Char) (escaped : Bool) (p : Place) :
    (atom first text escaped).step p '|' = ([], run first ('|' :: text)) := by
  have delimiter : isDelimiter '|' = false := by decide
  simp [step, continueAtom, delimiter]

theorem step_atom_backslash (first : Position) (text : List Char) (escaped : Bool) (p : Place) :
    (atom first text escaped).step p '\\' = ([], atomEscape first text) := by
  have delimiter : isDelimiter '\\' = false := by decide
  simp [step, continueAtom, delimiter]

mutual

/-- Inside an atom, the spelling of the rest of a name. If the atom stays without
an escape then the rest is spelled as it stands. -/
theorem scan_escapeFrom (cs : List Char) (first : Position) (text : List Char)
    (escaped : Bool) (p : Place) :
    ∃ escaped', (atom first text escaped).scan p (escapeFrom 0 false cs) =
        ([], atom first (cs.reverse ++ text) escaped') ∧
      (escaped' = false → escaped = false ∧ escapeFrom 0 false cs = cs) := by
  cases cs with
  | nil => exact ⟨escaped, by simp [escapeFrom], by simp [escapeFrom]⟩
  | cons c cs =>
    rcases escapeFrom_cons false c cs with ⟨n, rfl, length, written⟩ | written | ⟨plain, -, written⟩
    · have rest := scan_escapeFrom_run cs n length first ('|' :: text) (p.past '|')
      refine ⟨true, ?_, by simp⟩
      rw [written, scan_cons, step_atom_bar, rest]
      simp
    · obtain ⟨escaped', rest, kept⟩ :=
        scan_escapeFrom cs first (c :: text) true ((p.past '\\').past c)
      obtain rfl : escaped' = true := by
        cases escaped' with
        | true => rfl
        | false => exact absurd (kept rfl).1 (by simp)
      refine ⟨true, ?_, by simp⟩
      rw [written, scan_cons, step_atom_backslash, scan_cons]
      simp [step, rest]
    · obtain ⟨escaped', rest, kept⟩ := scan_escapeFrom cs first (c :: text) escaped (p.past c)
      refine ⟨escaped', ?_, ?_⟩
      · rw [written, scan_cons, step_atom_plain plain, rest]
        simp
      · intro unescaped
        rw [written, (kept unescaped).2]
        exact ⟨(kept unescaped).1, rfl⟩
termination_by cs.length

/-- Inside a closed run, which is spelled as it stands, and behind it. -/
theorem scan_escapeFrom_run (cs : List Char) (n : Nat) (length : runLength? cs = some n)
    (first : Position) (text : List Char) (p : Place) :
    (run first text).scan p (escapeFrom n false cs) =
      ([], atom first (cs.reverse ++ text) true) := by
  unfold runLength? at length
  split at length
  · cases length
  · rename_i rest
    obtain rfl : 1 = n := Option.some.inj length
    obtain ⟨escaped', behind, kept⟩ :=
      scan_escapeFrom rest first ('|' :: text) true (p.past '|')
    obtain rfl : escaped' = true := by
      cases escaped' with
      | true => rfl
      | false => exact absurd (kept rfl).1 (by simp)
    rw [escapeFrom, scan_cons]
    simp [step, behind]
  · rename_i c rest
    obtain ⟨m, shorter, rfl⟩ := Option.map_eq_some_iff.mp length
    have behind :=
      scan_escapeFrom_run rest m shorter first (c :: '\\' :: text) ((p.past '\\').past c)
    rw [escapeFrom, escapeFrom, scan_cons, scan_cons]
    simp [step, behind]
  · cases length
  · rename_i c rest bar backslash alone
    have notBar : c ≠ '|' := bar
    have notBackslash := ne_backslash backslash alone
    obtain ⟨m, shorter, rfl⟩ := Option.map_eq_some_iff.mp length
    have behind := scan_escapeFrom_run rest m shorter first (c :: text) (p.past c)
    rw [escapeFrom, scan_cons]
    simp [step, notBar, notBackslash, behind]
termination_by cs.length

end

/-- The atom that the spelling of the rest of a name completes. -/
theorem tokensOf_escapeFrom {rest : List Char} (ended : EndsAtom rest) (cs : List Char)
    (first : Position) (text : List Char) (escaped : Bool) (p : Place) :
    ∃ escaped' last p', (atom first text escaped).tokensOf p (escapeFrom 0 false cs ++ rest) =
        (between.tokensOf p' rest).precededBy
          [atomToken first last (cs.reverse ++ text) escaped'] ∧
      (escaped' = false → escaped = false ∧ escapeFrom 0 false cs = cs) := by
  obtain ⟨escaped', read, kept⟩ := scan_escapeFrom cs first text escaped p
  let p' := p.pastAll (escapeFrom 0 false cs)
  refine ⟨escaped', p'.last, p', ?_, kept⟩
  rw [tokensOf_append, read, tokensOf_atom ended]
  rfl

/-- A name behind a backslash. -/
theorem tokensOf_backslash {rest : List Char} (ended : EndsAtom rest) (c : Char)
    (cs : List Char) (p : Place) :
    ∃ last p', between.tokensOf p ('\\' :: c :: (escapeFrom 0 false cs ++ rest)) =
      (between.tokensOf p' rest).precededBy
        [atomToken p.position last (c :: cs).reverse true] := by
  obtain ⟨escaped', last, p', read, kept⟩ :=
    tokensOf_escapeFrom ended cs p.position [c] true ((p.past '\\').past c)
  obtain rfl : escaped' = true := by
    cases escaped' with
    | true => rfl
    | false => exact absurd (kept rfl).1 (by simp)
  have backslash : between.step p '\\' = ([], atomEscape p.position []) := by
    have blank : isBlank '\\' = false := by decide
    simp [step, begin, blank]
  refine ⟨last, p', ?_⟩
  rw [tokensOf_cons, backslash, tokensOf_cons]
  simpa [step] using read

theorem head?_escapeFrom {rest : List Char} (ended : EndsAtom rest) (cs : List Char) :
    (escapeFrom 0 false cs ++ rest).head? ≠ some '\x27' := by
  cases cs with
  | nil =>
    intro quote
    exact (ended _ quote).2 rfl
  | cons c cs =>
    rcases escapeFrom_cons false c cs with ⟨n, -, -, written⟩ | written | ⟨plain, -, written⟩
    · simp [written]
    · simp [written]
    · rw [written]
      rintro quote
      obtain rfl : c = '\x27' := Option.some.inj quote
      exact absurd plain (by decide)

/-- A name that begins with a plain character. -/
theorem tokensOf_plain {rest : List Char} (ended : EndsAtom rest) {c : Char}
    (plain : isPlain c = true) (semicolon : c ≠ ';') (cs : List Char) (p : Place) :
    between.tokensOf p (c :: (escapeFrom 0 false cs ++ rest)) =
      (atom p.position [c] false).tokensOf (p.past c) (escapeFrom 0 false cs ++ rest) := by
  rw [tokensOf_cons]
  by_cases sharp : c = '#'
  · subst sharp
    have hashed : between.step p '#' = ([], hash p.position) := by
      have blank : isBlank '#' = false := by decide
      simp [step, begin, blank]
    rw [hashed, Tokens.precededBy_nil, tokensOf_hash (head?_escapeFrom ended cs)]
  · have begun : between.step p c = ([], atom p.position [c] false) :=
      begin_plain plain semicolon sharp p.position
    rw [begun, Tokens.precededBy_nil]

end Mode

theorem Lexeme.symbol_ofAtom {cs : List Char} {escaped : Bool}
    (h : escaped = false → readsAsOther cs = false) :
    (ofAtom cs escaped).datum? = some (.symbol (String.ofList cs)) ∧
      (ofAtom cs escaped).isDot = false := by
  cases escaped with
  | true => exact ⟨rfl, rfl⟩
  | false =>
    have other := h rfl
    have name : ∀ text : List Char, cs ≠ text → String.ofList cs ≠ String.ofList text := by
      intro text different same
      exact different (by simpa using congrArg String.toList same)
    simp only [readsAsOther, Bool.or_eq_false_iff, beq_eq_false_iff_ne] at other
    have notNil := name _ other.1.1.2
    have notT := name _ other.1.2
    have notDot := name _ other.2
    rw [ofAtom_of_not_readsAsOther (h rfl)]
    simp [datum?, isDot, notNil, notT, notDot]

/-- The spelling of a name is read as the symbol of this name. -/
theorem Mode.tokensOf_spelling {rest : List Char} (ended : EndsAtom rest) {name : List Char}
    (nonempty : name ≠ []) (p : Place) :
    ∃ t p', between.tokensOf p (spelling name ++ rest) =
        (between.tokensOf p' rest).precededBy [t] ∧
      t.lexeme.datum? = some (.symbol (String.ofList name)) ∧ t.lexeme.isDot = false := by
  have found : ∀ X : List Char, (∃ last p' escaped, between.tokensOf p X =
        (between.tokensOf p' rest).precededBy [atomToken p.position last name.reverse escaped] ∧
        (escaped = false → readsAsOther name = false)) →
      ∃ t p', between.tokensOf p X = (between.tokensOf p' rest).precededBy [t] ∧
        t.lexeme.datum? = some (.symbol (String.ofList name)) ∧ t.lexeme.isDot = false := by
    rintro X ⟨last, p', escaped, read, other⟩
    refine ⟨_, p', read, ?_⟩
    rw [atomToken, List.reverse_reverse]
    exact Lexeme.symbol_ofAtom other
  apply found
  cases name with
  | nil => exact absurd rfl nonempty
  | cons c cs =>
    by_cases clash : escapeFrom 0 true (c :: cs) = c :: cs ∧ readsAsOther (c :: cs) = true
    · have written : spelling (c :: cs) = '\\' :: c :: escapeFrom 0 false cs := by
        have ordinary : ¬ (c = '|' ∨ c = '\\') := fun special => by
          rw [readsAsOther_eq_false special] at clash
          exact absurd clash.2 (by simp)
        rw [spelling, if_pos clash]
        rcases escapeFrom_cons true c cs with ⟨n, bar, -, -⟩ | escape | ⟨-, -, kept⟩
        · exact absurd (Or.inl bar) ordinary
        · rw [escape] at clash
          injection clash.1 with backslash
          exact absurd (Or.inr backslash.symm) ordinary
        · rw [kept]
      obtain ⟨last, p', read⟩ := tokensOf_backslash ended c cs p
      rw [written]
      exact ⟨last, p', true, read, by simp⟩
    · have written : spelling (c :: cs) = escapeFrom 0 true (c :: cs) := by
        rw [spelling, if_neg clash]
      rw [written]
      rcases escapeFrom_cons true c cs with ⟨n, rfl, length, opened⟩ | escape | ⟨plain, first, kept⟩
      · have bar : between.step p '|' = ([], run p.position ['|']) := by
          have blank : isBlank '|' = false := by decide
          simp [step, begin, blank]
        let p' := (p.past '|').pastAll (escapeFrom n false cs)
        rw [opened, List.cons_append, tokensOf_cons, bar, tokensOf_append,
          scan_escapeFrom_run cs n length, tokensOf_atom ended]
        exact ⟨p'.last, p', true, by simp [p'], by simp⟩
      · obtain ⟨last, p', read⟩ := tokensOf_backslash ended c cs p
        rw [escape]
        exact ⟨last, p', true, read, by simp⟩
      · obtain ⟨escaped, last, p', read, same⟩ :=
          tokensOf_escapeFrom ended cs p.position [c] false (p.past c)
        rw [kept, List.cons_append, tokensOf_plain ended plain (first rfl), read]
        refine ⟨last, p', escaped, by simp, fun unescaped => ?_⟩
        rw [kept, (same unescaped).2] at clash
        simpa using clash

/-- A legible character is written as an escape that is read as this character,
or as it stands. -/
theorem Text.Quoted.encodeChar_cases {c : Char} (legible : c = '\n' ∨ c = '\t' ∨ 0x20 ≤ c.toNat) :
    (∃ e, encodeChar c = ['\\', e] ∧ unescape? e = some c) ∨
      (encodeChar c = [c] ∧ c ≠ '\x22' ∧ c ≠ '\\') := by
  by_cases quote : c = '\x22'
  · exact Or.inl ⟨'\x22', by simp [encodeChar, quote], by simp [unescape?, quote]⟩
  by_cases backslash : c = '\\'
  · exact Or.inl ⟨'\\', by simp [encodeChar, backslash], by simp [unescape?, backslash]⟩
  rcases legible with rfl | rfl | visible
  · exact Or.inl ⟨'n', rfl, rfl⟩
  · exact Or.inl ⟨'t', rfl, rfl⟩
  · have other : ∀ d : Char, d.toNat < 0x20 → c ≠ d := by
      rintro d control rfl
      omega
    refine Or.inr ⟨?_, quote, backslash⟩
    have plain : ¬ c.toNat < 0x20 := by omega
    simp [encodeChar, quote, backslash, plain, other '\x08' (by decide),
      other '\x0c' (by decide), other '\n' (by decide), other '\r' (by decide),
      other '\t' (by decide)]

/-- Between double quotes, the encoding of characters that can be decoded. -/
theorem Mode.scan_encode {cs : List Char}
    (legible : ∀ c ∈ cs, c = '\n' ∨ c = '\t' ∨ 0x20 ≤ c.toNat) (first : Position)
    (text : List Char) (p : Place) :
    (string first text).scan p (Quoted.encode cs) = ([], string first (cs.reverse ++ text)) := by
  induction cs generalizing text p with
  | nil => rfl
  | cons c cs ih =>
    have rest := fun q => ih (fun d hd => legible d (List.mem_cons_of_mem c hd)) (c :: text) q
    have split : Quoted.encode (c :: cs) = Quoted.encodeChar c ++ Quoted.encode cs := by
      simp [Quoted.encode]
    have one : (string first text).scan p (Quoted.encodeChar c) =
        ([], string first (c :: text)) := by
      rcases Quoted.encodeChar_cases (legible c List.mem_cons_self) with
        ⟨e, written, decoded⟩ | ⟨written, quote, backslash⟩
      · simp [written, scan_cons, step, decoded]
      · simp [written, scan_cons, step, quote, backslash]
    rw [split, scan_append, one, rest]
    simp

/-- A string that is written between double quotes is read as this string. -/
theorem Mode.tokensOf_literal {cs : List Char}
    (legible : ∀ c ∈ cs, c = '\n' ∨ c = '\t' ∨ 0x20 ≤ c.toNat) (p : Place)
    (rest : List Char) :
    ∃ t p', between.tokensOf p (Quoted.literal cs ++ rest) =
        (between.tokensOf p' rest).precededBy [t] ∧
      t.lexeme = .string (String.ofList cs) := by
  have opened : between.step p '\x22' = ([], string p.position []) := by
    have blank : isBlank '\x22' = false := by decide
    simp [step, begin, blank]
  have written : Quoted.literal cs ++ rest = '\x22' :: (Quoted.encode cs ++ '\x22' :: rest) := by
    simp [Quoted.literal]
  let q := (p.past '\x22').pastAll (Quoted.encode cs)
  rw [written, tokensOf_cons, opened, tokensOf_append, scan_encode legible, tokensOf_cons]
  exact ⟨⟨.string (String.ofList cs), p.position, q.position⟩, q.past '\x22',
    by simp [step, q], rfl⟩

end Lisp
