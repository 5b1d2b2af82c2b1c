import Lisp.Proofs.Spelling
import Mathlib.Data.List.Infix

/-!
# Where a run between bars ends

Before a symbol is written, its name is searched for the end of a run that a bar opens; when
it is read, the run ends where the scan leaves it. Both take the character behind a backslash
as part of the run, whatever it is, and so both find the same end. What is read up to there
is added to the name as it stands, the bars and the backslashes with it. A run of which the
search finds no end is never left, and the text then ends too early.
-/

namespace Lisp

namespace Symbol

/-- The length in bytes of the closed run at the beginning of a text, if there is one. -/
def runBytes? : List Char → Option Nat
  | '|' :: rest =>
    (runLength? rest).map fun n => (String.ofList ('|' :: rest.take n)).utf8ByteSize
  | _ => none

theorem runLength?_ordinary {c : Char} (bar : c ≠ '|') (backslash : c ≠ '\\') (rest : List Char) :
    runLength? (c :: rest) = (runLength? rest).map (· + 1) := by
  rw [runLength?]
  · exact bar
  · exact fun _ _ same => absurd same backslash
  · exact fun same => absurd same backslash

theorem runLength?_le {cs : List Char} {n : Nat} (closed : runLength? cs = some n) :
    n ≤ cs.length := by
  fun_induction runLength? cs generalizing n with
  | case1 => cases closed
  | case2 rest =>
    obtain rfl := Option.some.inj closed
    exact Nat.succ_le_succ (Nat.zero_le _)
  | case3 c rest ih =>
    obtain ⟨k, inner, rfl⟩ := Option.map_eq_some_iff.mp closed
    exact Nat.add_le_add_right (ih inner) 2
  | case4 => cases closed
  | case5 c rest _ _ _ ih =>
    obtain ⟨k, inner, rfl⟩ := Option.map_eq_some_iff.mp closed
    exact Nat.add_le_add_right (ih inner) 1

/-- What stands behind a closed run does not matter. -/
theorem runLength?_append {cs : List Char} {n : Nat} (closed : runLength? cs = some n)
    (more : List Char) : runLength? (cs ++ more) = some n := by
  fun_induction runLength? cs generalizing n with
  | case1 => cases closed
  | case2 rest => exact closed
  | case3 c rest ih =>
    obtain ⟨k, inner, rfl⟩ := Option.map_eq_some_iff.mp closed
    simp [runLength?, ih inner]
  | case4 => cases closed
  | case5 c rest bar followed alone ih =>
    obtain ⟨k, inner, rfl⟩ := Option.map_eq_some_iff.mp closed
    rw [List.cons_append, runLength?_ordinary bar (ne_backslash followed alone), ih inner]
    rfl

/-- A run is not closed before its end. -/
theorem runLength?_of_shorter {cs front : List Char} {n : Nat} (closed : runLength? cs = some n)
    (within : front <+: cs) (short : front.length < n) : runLength? front = none := by
  obtain ⟨back, rfl⟩ := within
  cases earlier : runLength? front with
  | none => rfl
  | some k =>
    obtain rfl : k = n := Option.some.inj ((runLength?_append earlier back).symm.trans closed)
    exact absurd (runLength?_le earlier) (Nat.not_le.mpr short)

end Symbol

open Lisp.Symbol

namespace Mode

/-- Whether a scan is in the middle of a run between bars. -/
def InRun : Mode → Prop
  | run _ _ => True
  | runEscape _ _ => True
  | _ => False

/-- Where an atom begins and which characters it has so far, in reverse, if the next character
may be one of an atom. -/
def atomSoFar? (p : Place) : Mode → Option (Position × List Char)
  | between => some (p.position, [])
  | hash first => some (first, ['#'])
  | atom first text _ => some (first, text)
  | _ => none

/-- A scan leaves a run with the last of the characters and not before. -/
structure ClosesRun (mode : Mode) (p : Place) (cs : List Char) : Prop where
  nonempty : cs ≠ []
  within : ∀ front, front <+: cs → front ≠ [] → front ≠ cs → (mode.scan p front).2.InRun
  left : ¬ (mode.scan p cs).2.InRun

variable {mode : Mode} {p : Place} {first : Position} {text : List Char}

/-- A bar opens a run wherever an atom may begin or go on. -/
theorem step_bar (here : mode.atomSoFar? p = some (first, text)) :
    mode.step p '|' = ([], run first ('|' :: text)) := by
  cases mode with
  | between => cases here; rfl
  | hash first => cases here; rfl
  | atom first text escaped => cases here; exact step_atom_bar first text escaped p
  | _ => cases here

/-- The end of a text inside a run is an error that more text may mend. -/
theorem InRun.finish (inRun : mode.InRun) (p : Place) :
    ∃ position cause, mode.finish p = ([], some (.unterminated position cause)) := by
  cases mode with
  | run first text => exact ⟨_, _, rfl⟩
  | runEscape first text => exact ⟨_, _, rfl⟩
  | _ => cases inRun

theorem step_run_ordinary {c : Char} (bar : c ≠ '|') (backslash : c ≠ '\\') (first : Position)
    (text : List Char) (p : Place) : (run first text).step p c = ([], run first (c :: text)) := by
  simp [step, bar, backslash]

/-- A scan stays in a run that is not closed. -/
theorem scan_run_open {cs : List Char} (unclosed : runLength? cs = none) (first : Position)
    (text : List Char) (p : Place) :
    ∃ last : Mode, (run first text).scan p cs = ([], last) ∧ last.InRun := by
  fun_induction runLength? cs generalizing text p with
  | case1 => exact ⟨run first text, rfl, trivial⟩
  | case2 rest => cases unclosed
  | case3 c rest ih =>
    obtain ⟨last, scanned, inRun⟩ := ih (Option.map_eq_none_iff.mp unclosed) (c :: '\\' :: text)
      ((p.past '\\').past c)
    exact ⟨last, by simp [scan_cons, step, scanned], inRun⟩
  | case4 => exact ⟨runEscape first ('\\' :: text), rfl, trivial⟩
  | case5 c rest bar followed alone ih =>
    obtain ⟨last, scanned, inRun⟩ := ih (Option.map_eq_none_iff.mp unclosed) (c :: text) (p.past c)
    have ordinary := step_run_ordinary bar (ne_backslash followed alone) first text p
    exact ⟨last, by rw [scan_cons, ordinary, scanned]; rfl, inRun⟩

/-- A scan of a closed run adds its characters to the atom. -/
theorem scan_run_closed {cs : List Char} {n : Nat} (closed : runLength? cs = some n)
    (first : Position) (text : List Char) (p : Place) :
    (run first text).scan p (cs.take n) =
      ([], atom first ((cs.take n).reverse ++ text) true) := by
  fun_induction runLength? cs generalizing n text p with
  | case1 => cases closed
  | case2 rest =>
    obtain rfl := Option.some.inj closed
    rfl
  | case3 c rest ih =>
    obtain ⟨k, inner, rfl⟩ := Option.map_eq_some_iff.mp closed
    have behind := ih inner (c :: '\\' :: text) ((p.past '\\').past c)
    simp [scan_cons, step, behind]
  | case4 => cases closed
  | case5 c rest bar followed alone ih =>
    obtain ⟨k, inner, rfl⟩ := Option.map_eq_some_iff.mp closed
    have ordinary := step_run_ordinary bar (ne_backslash followed alone) first text p
    rw [List.take_succ_cons, scan_cons, ordinary, ih inner]
    simp

section Bar

variable (here : mode.atomSoFar? p = some (first, text))
include here

theorem scan_bar (cs : List Char) :
    mode.scan p ('|' :: cs) = (run first ('|' :: text)).scan (p.past '|') cs := by
  rw [scan_cons, step_bar here]
  rfl

/-- A bar and characters behind it leave a scan in a run if they close none. -/
theorem inRun_of_open {cs : List Char} (unclosed : runLength? cs = none) :
    (mode.scan p ('|' :: cs)).2.InRun := by
  obtain ⟨last, scanned, inRun⟩ := scan_run_open unclosed first ('|' :: text) (p.past '|')
  rw [scan_bar here, scanned]
  exact inRun

/-- The run that a search finds is the one that a scan reads. -/
theorem closesRun_of_closed {rest : List Char} {n : Nat} (closed : runLength? rest = some n) :
    mode.ClosesRun p ('|' :: rest.take n) ∧
      mode.scan p ('|' :: rest.take n) =
        ([], atom first (('|' :: rest.take n).reverse ++ text) true) := by
  have scanned : mode.scan p ('|' :: rest.take n) =
      ([], atom first (('|' :: rest.take n).reverse ++ text) true) := by
    rw [scan_bar here, scan_run_closed closed]
    simp
  refine ⟨⟨List.cons_ne_nil _ _, fun front within some_ other => ?_, ?_⟩, scanned⟩
  · obtain ⟨inside, rfl, inner⟩ := (List.prefix_cons_iff.mp within).resolve_left some_
    have proper : inside ≠ rest.take n := fun same => other (congrArg _ same)
    have short : inside.length < (rest.take n).length :=
      lt_of_le_of_ne inner.length_le fun same => proper (inner.eq_of_length same)
    exact inRun_of_open here (runLength?_of_shorter closed (inner.trans (List.take_prefix n rest))
      (short.trans_le (List.length_take_le n rest)))
  · rw [scanned]
    exact id

/-- Of the beginnings of a text only one is a run that is closed by its last character. -/
theorem ClosesRun.eq_of_closed {rest cs : List Char} {n : Nat}
    (closed : runLength? rest = some n) (within : cs <+: '|' :: rest)
    (closes : mode.ClosesRun p cs) :
    cs = '|' :: rest.take n := by
  obtain ⟨found, -⟩ := closesRun_of_closed here closed
  have inner : '|' :: rest.take n <+: '|' :: rest :=
    (List.prefix_cons_inj '|').mpr (List.take_prefix n rest)
  by_contra other
  rcases List.prefix_or_prefix_of_prefix within inner with shorter | longer
  · exact closes.left (found.within cs shorter closes.nonempty other)
  · exact found.left (closes.within _ longer found.nonempty fun same => other same.symm)

/-- A scan stays in a run of which the search finds no end. -/
theorem inRun_of_beginning {rest cs : List Char} (unclosed : runLength? rest = none)
    (within : cs <+: '|' :: rest) (nonempty : cs ≠ []) : (mode.scan p cs).2.InRun := by
  obtain ⟨inside, rfl, back, rfl⟩ := (List.prefix_cons_iff.mp within).resolve_left nonempty
  have still : runLength? inside = none := by
    cases earlier : runLength? inside with
    | none => rfl
    | some k => exact absurd ((runLength?_append earlier back).symm.trans unclosed) (by simp)
  exact inRun_of_open here still

/-- Wherever an atom may begin or go on, the search finds a run of some number of bytes exactly
if that many bytes of the text are the run that the scan closes. These are then added to the
atom as they stand. The search finds no end exactly if the scan stays in the run up to the end
of the text, which more text may mend. -/
theorem closesRun_iff (rest : List Char) :
    (∀ n, runBytes? ('|' :: rest) = some n ↔
      ∃ cs, cs <+: '|' :: rest ∧ (String.ofList cs).utf8ByteSize = n ∧ mode.ClosesRun p cs) ∧
    (∀ cs, cs <+: '|' :: rest → mode.ClosesRun p cs →
      mode.scan p cs = ([], atom first (cs.reverse ++ text) true)) ∧
    (runBytes? ('|' :: rest) = none ↔
      (∀ cs, cs <+: '|' :: rest → cs ≠ [] → (mode.scan p cs).2.InRun) ∧
        ∃ position cause,
          mode.tokensOf p ('|' :: rest) = ⟨[], some (.unterminated position cause)⟩) := by
  cases search : runLength? rest with
  | some n =>
    have found : runBytes? ('|' :: rest) =
        some (String.ofList ('|' :: rest.take n)).utf8ByteSize := by
      rw [runBytes?, search]
      rfl
    have inner : '|' :: rest.take n <+: '|' :: rest :=
      (List.prefix_cons_inj '|').mpr (List.take_prefix n rest)
    obtain ⟨closes, scanned⟩ := closesRun_of_closed here search
    refine ⟨fun k => ⟨fun bytes => ?_, ?_⟩, fun cs within closes' => ?_, ?_⟩
    · exact ⟨_, inner, Option.some.inj (found.symm.trans bytes), closes⟩
    · rintro ⟨cs, within, rfl, closes'⟩
      rw [closes'.eq_of_closed here search within, found]
    · rw [closes'.eq_of_closed here search within, scanned]
    · refine iff_of_false (by simp [found]) fun ⟨stays, _⟩ => ?_
      exact closes.left (stays _ inner closes.nonempty)
  | none =>
    have found : runBytes? ('|' :: rest) = none := by
      rw [runBytes?, search]
      rfl
    have stays : ∀ cs, cs <+: '|' :: rest → cs ≠ [] → (mode.scan p cs).2.InRun :=
      fun _ => inRun_of_beginning here search
    refine ⟨fun k => iff_of_false (by simp [found]) ?_, fun cs within closes => ?_,
      iff_of_true found ⟨stays, ?_⟩⟩
    · rintro ⟨cs, within, -, closes⟩
      exact closes.left (stays cs within closes.nonempty)
    · exact absurd (stays cs within closes.nonempty) closes.left
    · obtain ⟨last, scanned, inRun⟩ := scan_run_open search first ('|' :: text) (p.past '|')
      obtain ⟨position, cause, ended⟩ := inRun.finish (p.pastAll ('|' :: rest))
      refine ⟨position, cause, ?_⟩
      rw [tokensOf_eq, scan_bar here, scanned, ended]
      rfl

end Bar

/-- In an atom that was begun, an escaped bar inside a run does not close it. -/
theorem closesRun_behind_escaped_bar :
    let begun := atom Place.start.position ['x'] false
    let p := Place.start.past 'x'
    begun.atomSoFar? p = some (Place.start.position, ['x']) ∧
      runBytes? "|é\\|b|c".toList = some 7 ∧
      (∃ cs, cs <+: "|é\\|b|c".toList ∧ (String.ofList cs).utf8ByteSize = 7 ∧
        begun.ClosesRun p cs) ∧
      runBytes? "|a\\".toList = none ∧
      ∃ position cause,
        begun.tokensOf p "|a\\".toList = ⟨[], some (.unterminated position cause)⟩ := by
  intro begun p
  have here : begun.atomSoFar? p = some (Place.start.position, ['x']) := rfl
  have closed : runBytes? "|é\\|b|c".toList = some 7 := by decide +kernel
  have unclosed : runBytes? "|a\\".toList = none := by decide +kernel
  obtain ⟨ends, -, -⟩ := closesRun_iff here "é\\|b|c".toList
  obtain ⟨-, -, fails⟩ := closesRun_iff here "a\\".toList
  exact ⟨here, closed, (ends 7).mp closed, unclosed, (fails.mp unclosed).2⟩

end Mode

end Lisp
