import Lisp.Proofs.NumericGrammar

/-!
# Telling an atom's kind in one pass

An atom can be classified while its characters are passed, with three flags: whether there
was a point, whether there was an exponent mark, and whether the character before was one.
What looks like a number must still be read as one, since the flags do not count digits; and
the words `inf` and `nan`, which are read as numbers too, have letters that no number has.
Together the two tests take the texts of the grammar, and make of an atom what reading it as
a numeral makes of it.
-/

namespace Lisp

open Decimal

/-- What an atom without escapes is. -/
inductive AtomKind where
  | integer
  | float
  | symbol
  deriving DecidableEq, Repr

/-- An integer with a point or an exponent is a float. -/
def AtomKind.asFloat : AtomKind → AtomKind
  | integer => float
  | kind => kind

/-- What the characters of an atom have shown so far. `begun` tells whether there were any,
and `afterExponent` whether the last one was the first exponent mark. -/
structure AtomScan where
  kind : AtomKind := .integer
  begun : Bool := false
  hasPoint : Bool := false
  hasExponent : Bool := false
  afterExponent : Bool := false

namespace AtomScan

/-- One more character. A sign stands at the beginning or behind an exponent mark, and there
is one point and one exponent mark at most, in this order. -/
def step (s : AtomScan) (c : Char) : AtomScan :=
  let next := { s with begun := true, afterExponent := false }
  if c = '+' ∨ c = '-' then
    if s.begun && !s.afterExponent then { next with kind := .symbol } else next
  else if c = '.' then
    { next with
      kind := if s.hasPoint || s.hasExponent then .symbol else s.kind.asFloat
      hasPoint := true }
  else if c = 'e' ∨ c = 'E' then
    { next with
      kind := if s.hasExponent then .symbol else s.kind.asFloat
      hasExponent := true
      afterExponent := !s.hasExponent }
  else if c.isDigit then next
  else { next with kind := .symbol }

def run (s : AtomScan) (cs : List Char) : AtomScan := cs.foldl step s

theorem run_append (s : AtomScan) (as bs : List Char) :
    s.run (as ++ bs) = (s.run as).run bs := by
  simp [run]

end AtomScan

/-- The kind of an atom: what looks like a number is one if it can be read as one. -/
def AtomKind.of (cs : List Char) : AtomKind :=
  match (AtomScan.run {} cs).kind with
  | .integer =>
    if (int64? cs).isSome then .integer else if spellsNumber cs then .float else .symbol
  | .float => if spellsNumber cs then .float else .symbol
  | .symbol => .symbol

def Lexeme.atomKind? : Lexeme → Option AtomKind
  | .integer _ _ => some .integer
  | .float _ _ => some .float
  | .symbol _ _ => some .symbol
  | _ => none

namespace AtomScan

/-! ### What is no number -/

/-- The characters of numbers. -/
def numeric : List Char :=
  ['+', '-', '.', 'e', 'E', '0', '1', '2', '3', '4', '5', '6', '7', '8', '9']

theorem kind_step_of_symbol {s : AtomScan} (h : s.kind = .symbol) (c : Char) :
    (s.step c).kind = .symbol := by
  unfold step
  dsimp only
  repeat' split
  all_goals simp [h, AtomKind.asFloat]

theorem kind_run_of_symbol {s : AtomScan} (h : s.kind = .symbol) (cs : List Char) :
    (s.run cs).kind = .symbol := by
  induction cs generalizing s with
  | nil => exact h
  | cons c cs ih => exact ih (kind_step_of_symbol h c)

/-- One character that no number has makes an atom a symbol. -/
theorem kind_run_of_mem {cs : List Char} {c : Char} (mem : c ∈ cs) (other : c ∉ numeric)
    (s : AtomScan) : (s.run cs).kind = .symbol := by
  obtain ⟨front, back, rfl⟩ := List.append_of_mem mem
  have digit : ¬ c.isDigit = true := by
    rw [Pattern.isDigit_iff]
    intro digit
    simp_all [numeric]
  have step : ((s.run front).step c).kind = .symbol := by
    simp_all [AtomScan.step, numeric]
  rw [run_append]
  exact kind_run_of_symbol step back

/-! ### What is a number -/

theorem step_digit {c : Char} (digit : c.isDigit = true) (s : AtomScan) :
    s.step c = { s with begun := true, afterExponent := false } := by
  have apart : ∀ d : Char, d.isDigit = false → c ≠ d := by
    rintro d other rfl
    rw [digit] at other
    cases other
  simp [step, apart '+' rfl, apart '-' rfl, apart '.' rfl, apart 'e' rfl, apart 'E' rfl, digit]

/-- A scan that differs from another one only in what its last character was. -/
def Continues (s next : AtomScan) : Prop :=
  next.kind = s.kind ∧ next.hasPoint = s.hasPoint ∧ next.hasExponent = s.hasExponent

theorem Continues.trans {s t u : AtomScan} (h : s.Continues t) (h' : t.Continues u) :
    s.Continues u :=
  ⟨h'.1.trans h.1, h'.2.1.trans h.2.1, h'.2.2.trans h.2.2⟩

variable {cs : List Char} {s : AtomScan}

theorem continues_digits (digits : ∀ c ∈ cs, c.isDigit = true) : s.Continues (s.run cs) := by
  induction cs generalizing s with
  | nil => exact ⟨rfl, rfl, rfl⟩
  | cons c cs ih =>
    obtain ⟨first, rest⟩ := List.forall_mem_cons.mp digits
    have one : s.Continues (s.step c) := by
      rw [step_digit first]
      exact ⟨rfl, rfl, rfl⟩
    exact one.trans (ih rest)

/-- A sign, where one may stand. -/
theorem continues_sign (mem : cs ∈ Pattern.sign.matches')
    (allowed : s.begun = false ∨ s.afterExponent = true) : s.Continues (s.run cs) := by
  rcases Pattern.mem_sign.mp mem with rfl | rfl | rfl
  · exact ⟨rfl, rfl, rfl⟩
  all_goals
    have stays : ¬ (s.begun && !s.afterExponent) = true := by
      rcases allowed with first | marked
      · simp [first]
      · simp [marked]
    simp [run, step, stays, Continues]

/-- An integer, where a sign may stand. -/
theorem continues_integer (mem : cs ∈ Pattern.integer.matches')
    (allowed : s.begun = false ∨ s.afterExponent = true) : s.Continues (s.run cs) := by
  obtain ⟨front, signs, ds, digits, rfl⟩ := Language.mem_mul.mp mem
  rw [run_append]
  exact (continues_sign signs allowed).trans (continues_digits (Pattern.mem_digits.mp digits).2)

theorem asFloat_ne_symbol {kind : AtomKind} (h : kind ≠ .symbol) : kind.asFloat ≠ .symbol := by
  cases kind with
  | symbol => exact absurd rfl h
  | _ => exact AtomKind.noConfusion

/-- A scan that has seen a number without exponent. -/
structure Mantissa (s : AtomScan) : Prop where
  number : s.kind ≠ .symbol
  noExponent : s.hasExponent = false

theorem Continues.mantissa {t : AtomScan} (h : s.Continues t) (m : Mantissa s) : Mantissa t :=
  ⟨h.1 ▸ m.number, h.2.2 ▸ m.noExponent⟩

theorem Mantissa.point (m : Mantissa s) (noPoint : s.hasPoint = false) : Mantissa (s.step '.') where
  number := by
    have stays : (s.step '.').kind = s.kind.asFloat := by
      simp [step, noPoint, m.noExponent]
    exact stays ▸ asFloat_ne_symbol m.number
  noExponent := by simp [step, m.noExponent]

theorem Mantissa.kind_exponent (m : Mantissa s) (mem : cs ∈ Pattern.exponent.matches') :
    (s.run cs).kind ≠ .symbol := by
  rcases Pattern.mem_optional.mp mem with rfl | some_
  · exact m.number
  obtain ⟨mark, isMark, rest, integer, rfl⟩ := Language.mem_mul.mp some_
  obtain ⟨c, choice, rfl⟩ := Pattern.mem_oneOf.mp isMark
  have marked : (s.step c).kind = s.kind.asFloat ∧ (s.step c).afterExponent = true := by
    simp only [List.mem_cons, List.not_mem_nil, or_false] at choice
    rcases choice with rfl | rfl <;> simp [step, m.noExponent]
  have behind := continues_integer integer (.inr marked.2)
  rw [run_append]
  exact behind.1.trans marked.1 ▸ asFloat_ne_symbol m.number

/-- A numeral without a sign, where neither a point nor an exponent came before. -/
theorem Mantissa.kind_unsigned (m : Mantissa s) (noPoint : s.hasPoint = false)
    (mem : cs ∈ Pattern.unsigned.matches') : (s.run cs).kind ≠ .symbol := by
  obtain ⟨front, decimal, back, exponent, rfl⟩ := Language.mem_mul.mp mem
  rw [run_append]
  refine Mantissa.kind_exponent ?_ exponent
  rcases decimal with decimal | decimal
  · obtain ⟨whole, digits, tail, fraction, rfl⟩ := Language.mem_mul.mp decimal
    have passed : s.Continues (s.run whole) := continues_digits (Pattern.mem_digits.mp digits).2
    rw [run_append]
    rcases Pattern.mem_optional.mp fraction with rfl | some_
    · exact passed.mantissa m
    · obtain ⟨rest, digits, rfl⟩ := Pattern.mem_char_mul.mp some_
      have behind := (passed.mantissa m).point (passed.2.1.trans noPoint)
      exact (continues_digits (Pattern.mem_digit_star.mp digits)).mantissa behind
  · obtain ⟨rest, digits, rfl⟩ := Pattern.mem_char_mul.mp decimal
    exact (continues_digits (Pattern.mem_digits.mp digits).2).mantissa (m.point noPoint)

theorem kind_of_float (mem : cs ∈ Pattern.float.matches') :
    (AtomScan.run {} cs).kind ≠ .symbol := by
  obtain ⟨front, signs, body, unsigned, rfl⟩ := Language.mem_mul.mp mem
  have start : Mantissa {} := ⟨AtomKind.noConfusion, rfl⟩
  have signed := continues_sign (s := {}) signs (.inl rfl)
  rw [run_append]
  exact (signed.mantissa start).kind_unsigned signed.2.1 unsigned

theorem kind_of_integer (mem : cs ∈ Pattern.integer.matches') :
    (AtomScan.run {} cs).kind = .integer :=
  (continues_integer (s := {}) mem (.inl rfl)).1

/-- The words that are read as numbers have letters of no numeral. -/
theorem kind_of_word (words : spellsNumber cs = true) (noNumeral : Numeral.read? cs = none) :
    (AtomScan.run {} cs).kind = .symbol := by
  have lowered : (splitSign cs).2.map Char.toLower ∈
      ["inf".toList, "infinity".toList, "nan".toList] := by
    simpa [spellsNumber, noNumeral] using words
  have unsigned : ∀ c ∈ (splitSign cs).2, c ∈ cs := by
    unfold splitSign
    split
    · exact fun c => List.mem_cons_of_mem _
    · exact fun c => List.mem_cons_of_mem _
    · exact fun c => id
  obtain ⟨c, mem, letter⟩ : ∃ c ∈ (splitSign cs).2, c.toLower = 'n' := by
    rw [← List.mem_map]
    simp only [List.mem_cons, List.not_mem_nil, or_false] at lowered
    rcases lowered with word | word | word <;> rw [word] <;> decide
  have apart : (numeric.all fun d => d.toLower != 'n') = true := by decide
  refine kind_run_of_mem (unsigned c mem) (fun number => ?_) {}
  simpa [letter] using List.all_eq_true.mp apart c number

end AtomScan

/-- Reading an atom as a numeral tells its kind. -/
theorem Lexeme.atomKind?_ofAtom (cs : List Char) :
    (Lexeme.ofAtom cs false).atomKind? =
      some (if (int64? cs).isSome then .integer
        else if (Numeral.read? cs).isSome then .float else .symbol) := by
  rw [Lexeme.ofAtom, int64?, ← Numeral.read?_bind_toInt?]
  cases Numeral.read? cs with
  | none => rfl
  | some n =>
    simp only [Bool.false_eq_true, if_false, Option.bind_some]
    split <;> simp_all [atomKind?]

/-- So does one pass over its characters. -/
theorem AtomKind.of_eq (cs : List Char) :
    AtomKind.of cs =
      if (int64? cs).isSome then .integer
      else if (Numeral.read? cs).isSome then .float else .symbol := by
  by_cases integer : (int64? cs).isSome = true
  · have kind := AtomScan.kind_of_integer (int64?_isSome.mp integer).1
    rw [if_pos integer, AtomKind.of, kind]
    exact if_pos integer
  by_cases numeral : (Numeral.read? cs).isSome = true
  · have spelled : spellsNumber cs = true := by simp [spellsNumber, numeral]
    have number := AtomScan.kind_of_float (Numeral.read?_isSome.mp numeral)
    rw [if_neg integer, if_pos numeral, AtomKind.of]
    split
    · rw [if_neg integer, if_pos spelled]
    · rw [if_pos spelled]
    · rename_i symbol
      exact absurd symbol number
  · rw [if_neg integer, if_neg numeral, AtomKind.of]
    by_cases spelled : spellsNumber cs = true
    · rw [AtomScan.kind_of_word spelled (by simpa using numeral)]
    · simp only [integer, spelled]
      split <;> rfl

end Lisp
