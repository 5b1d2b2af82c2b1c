import Lisp.Proofs.Scanning

/-!
# Scanning atoms

Inside an atom every character that is no delimiter, no backslash and no bar
stands for itself. The atom ends before a delimiter or at the end of the text,
and what follows is scanned as if it stood alone. A number sign begins an atom
unless a quote follows it.
-/

namespace Lisp

open Text

/-- A character that stands for itself inside an atom. -/
def Text.isPlain (c : Char) : Bool := !isDelimiter c && c != '\\' && c != '|'

/-- Characters at whose beginning an atom ends, and which do not make a mark of
a number sign before them. -/
def Text.EndsAtom (rest : List Char) : Prop :=
  ∀ c, rest.head? = some c → isDelimiter c = true ∧ c ≠ '\x27'

@[simp] theorem Text.endsAtom_nil : EndsAtom [] := by
  intro c h
  cases h

@[simp] theorem Text.endsAtom_blank (rest : List Char) : EndsAtom (' ' :: rest) := by
  intro c h
  obtain rfl : ' ' = c := Option.some.inj h
  decide

@[simp] theorem Text.endsAtom_close (rest : List Char) : EndsAtom (')' :: rest) := by
  intro c h
  obtain rfl : ')' = c := Option.some.inj h
  decide

theorem Text.isPlain_iff {c : Char} :
    isPlain c = true ↔ isDelimiter c = false ∧ c ≠ '\\' ∧ c ≠ '|' := by
  simp [isPlain, and_assoc]

theorem Text.isDelimiter_eq_false_iff {c : Char} :
    isDelimiter c = false ↔
      isBlank c = false ∧ c ≠ '(' ∧ c ≠ ')' ∧ c ≠ '\x22' ∧ c ≠ '\x27' := by
  simp [isDelimiter, and_assoc]

namespace Mode

theorem step_atom_plain {c : Char} (plain : isPlain c = true) (first : Position)
    (text : List Char) (escaped : Bool) (p : Place) :
    (atom first text escaped).step p c = ([], atom first (c :: text) escaped) := by
  obtain ⟨delimiter, backslash, bar⟩ := isPlain_iff.mp plain
  simp [step, continueAtom, delimiter, backslash, bar]

theorem scan_atom_plain {cs : List Char} (plain : ∀ c ∈ cs, isPlain c = true)
    (first : Position) (text : List Char) (escaped : Bool) (p : Place) :
    (atom first text escaped).scan p cs = ([], atom first (cs.reverse ++ text) escaped) := by
  induction cs generalizing text p with
  | nil => rfl
  | cons c cs ih =>
    have rest := ih (fun d hd => plain d (List.mem_cons_of_mem c hd)) (c :: text) (p.past c)
    rw [scan_cons, step_atom_plain (plain c List.mem_cons_self), rest]
    simp

theorem begin_plain {c : Char} (plain : isPlain c = true) (semicolon : c ≠ ';')
    (sharp : c ≠ '#') (here : Position) : begin here c = ([], atom here [c] false) := by
  obtain ⟨delimiter, backslash, bar⟩ := isPlain_iff.mp plain
  obtain ⟨blank, opening, closing, double, quote⟩ := isDelimiter_eq_false_iff.mp delimiter
  simp [begin, blank, opening, closing, quote, semicolon, double, sharp, backslash, bar]

/-- A run of plain characters is one atom. -/
theorem scan_plain {c : Char} {cs : List Char} (plain : ∀ d ∈ c :: cs, isPlain d = true)
    (semicolon : c ≠ ';') (sharp : c ≠ '#') (p : Place) :
    between.scan p (c :: cs) = ([], atom p.position (c :: cs).reverse false) := by
  have head : between.step p c = ([], atom p.position [c] false) :=
    begin_plain (plain c List.mem_cons_self) semicolon sharp p.position
  rw [scan_cons, head,
    scan_atom_plain (fun d hd => plain d (List.mem_cons_of_mem c hd)) p.position [c] false]
  simp

/-- A delimiter completes the atom before it and is scanned anew. -/
theorem step_atom_delimiter {c : Char} (delimiter : isDelimiter c = true) (first : Position)
    (text : List Char) (escaped : Bool) (p : Place) :
    (atom first text escaped).step p c =
      (atomToken first p.last text escaped :: (between.step p c).1, (between.step p c).2) := by
  simp [step, continueAtom, delimiter]

theorem tokensOf_atom {rest : List Char} (ended : EndsAtom rest) (first : Position)
    (text : List Char) (escaped : Bool) (p : Place) :
    (atom first text escaped).tokensOf p rest =
      (between.tokensOf p rest).precededBy [atomToken first p.last text escaped] := by
  cases rest with
  | nil => rfl
  | cons c cs =>
    rw [tokensOf_cons, tokensOf_cons, step_atom_delimiter (ended c rfl).1]
    simp

theorem tokensOf_hash {cs : List Char} (quote : cs.head? ≠ some '\x27') (first : Position)
    (p : Place) : (hash first).tokensOf p cs = (atom first ['#'] false).tokensOf p cs := by
  apply tokensOf_congr
  · intro c hc
    have other : c ≠ '\x27' := by
      rintro rfl
      exact quote hc
    simp [step, other]
  · rfl

end Mode

end Lisp
