import Lisp.Proofs.Numerals
import Mathlib.Computability.RegularExpressions
import Mathlib.Tactic.IntervalCases

/-!
# The grammar of numerals

Numerals are the texts of a regular expression. Each part of the expression begins with
characters that the part before it cannot take, so a text is cut in only one way, and the
cuts of the reader are this one: a sign, all digits that follow, a point and all digits
behind it, and an exponent.
-/

namespace Lisp.Decimal

open RegularExpression
open scoped Computability

namespace Pattern

/-- One of some characters. -/
def oneOf (cs : List Char) : RegularExpression Char := cs.foldr (fun c r => char c + r) 0

def optional (r : RegularExpression Char) : RegularExpression Char := 1 + r

/-- The digits, `[0-9]`. -/
def digit : RegularExpression Char := oneOf ['0', '1', '2', '3', '4', '5', '6', '7', '8', '9']

/-- At least one digit, `[0-9]+`. -/
def digits : RegularExpression Char := digit * digit.star

/-- A sign or none, `[+-]?`. -/
def sign : RegularExpression Char := optional (oneOf ['+', '-'])

/-- Numerals without point and exponent, `[+-]?[0-9]+`. -/
def integer : RegularExpression Char := sign * digits

/-- An exponent or none, `([eE][+-]?[0-9]+)?`. -/
def exponent : RegularExpression Char := optional (oneOf ['e', 'E'] * (sign * digits))

/-- A point and the digits behind it, or nothing, `(\.[0-9]*)?`. -/
def fraction : RegularExpression Char := optional (char '.' * digit.star)

/-- Numerals without a sign, `([0-9]+(\.[0-9]*)?|\.[0-9]+)([eE][+-]?[0-9]+)?`. -/
def unsigned : RegularExpression Char := (digits * fraction + char '.' * digits) * exponent

/-- All numerals, `[+-]?([0-9]+(\.[0-9]*)?|\.[0-9]+)([eE][+-]?[0-9]+)?`. -/
def float : RegularExpression Char := sign * unsigned

variable {cs : List Char}

theorem mem_oneOf {chars : List Char} : cs ∈ (oneOf chars).matches' ↔ ∃ c ∈ chars, cs = [c] := by
  induction chars with
  | nil => simp [oneOf, matches'_zero]
  | cons c chars ih =>
    have unfolded : oneOf (c :: chars) = char c + oneOf chars := rfl
    rw [unfolded, matches'_add, Language.mem_add, ih, matches'_char, List.exists_mem_cons_iff]
    rfl

theorem mem_optional {r : RegularExpression Char} :
    cs ∈ (optional r).matches' ↔ cs = [] ∨ cs ∈ r.matches' := by
  rw [optional, matches'_add, Language.mem_add, matches'_epsilon, Language.mem_one]

theorem mem_char_mul {c : Char} {l : Language Char} :
    cs ∈ (char c).matches' * l ↔ ∃ rest ∈ l, cs = c :: rest := by
  rw [Language.mem_mul, matches'_char]
  constructor
  · rintro ⟨_, rfl, rest, mem, rfl⟩
    exact ⟨rest, mem, rfl⟩
  · rintro ⟨rest, mem, rfl⟩
    exact ⟨[c], rfl, rest, mem, rfl⟩

theorem isDigit_iff {c : Char} :
    c.isDigit = true ↔ c ∈ ['0', '1', '2', '3', '4', '5', '6', '7', '8', '9'] := by
  constructor
  · intro digit
    obtain ⟨low, high⟩ : 48 ≤ c.toNat ∧ c.toNat ≤ 57 := by
      simpa [Char.isDigit, UInt32.le_iff_toNat_le] using digit
    rw [← Char.ofNat_toNat c]
    interval_cases c.toNat <;> decide
  · intro mem
    simp only [List.mem_cons, List.not_mem_nil, or_false] at mem
    rcases mem with rfl | rfl | rfl | rfl | rfl | rfl | rfl | rfl | rfl | rfl <;> decide

theorem mem_digit : cs ∈ digit.matches' ↔ ∃ c, c.isDigit = true ∧ cs = [c] := by
  simp only [digit, mem_oneOf, isDigit_iff]

theorem mem_digit_star : cs ∈ digit.star.matches' ↔ ∀ c ∈ cs, c.isDigit = true := by
  rw [matches'_star, Language.mem_kstar]
  constructor
  · rintro ⟨parts, rfl, single⟩ c mem
    obtain ⟨part, inParts, inPart⟩ := List.mem_flatten.mp mem
    obtain ⟨d, isDigit, rfl⟩ := mem_digit.mp (single part inParts)
    rwa [List.mem_singleton.mp inPart]
  · intro all
    refine ⟨cs.map fun c => [c], (List.flatMap_singleton' cs).symm, fun part mem => ?_⟩
    obtain ⟨c, inText, rfl⟩ := List.mem_map.mp mem
    exact mem_digit.mpr ⟨c, all c inText, rfl⟩

theorem mem_digits : cs ∈ digits.matches' ↔ cs ≠ [] ∧ ∀ c ∈ cs, c.isDigit = true := by
  rw [digits, matches'_mul, Language.mem_mul]
  constructor
  · rintro ⟨_, first, rest, more, rfl⟩
    obtain ⟨c, isDigit, rfl⟩ := mem_digit.mp first
    exact ⟨by simp, List.forall_mem_cons.mpr ⟨isDigit, mem_digit_star.mp more⟩⟩
  · rintro ⟨nonempty, all⟩
    cases cs with
    | nil => exact absurd rfl nonempty
    | cons c cs =>
      obtain ⟨isDigit, more⟩ := List.forall_mem_cons.mp all
      exact ⟨[c], mem_digit.mpr ⟨c, isDigit, rfl⟩, cs, mem_digit_star.mpr more, rfl⟩

theorem mem_sign : cs ∈ sign.matches' ↔ cs = [] ∨ cs = ['+'] ∨ cs = ['-'] := by
  simp [sign, mem_optional, mem_oneOf]

/-! ### Where a text is cut -/

/-- The first characters of the texts of a language. -/
def Begins (l : Language Char) (p : Char → Prop) : Prop :=
  ∀ cs ∈ l, ∀ c, cs.head? = some c → p c

variable {l : Language Char}

/-- Digits are taken as long as there are any. -/
theorem mem_digit_star_mul (stops : Begins l fun c => c.isDigit = false) :
    cs ∈ digit.star.matches' * l ↔ cs.dropWhile Char.isDigit ∈ l := by
  rw [Language.mem_mul]
  constructor
  · rintro ⟨front, all, rest, mem, rfl⟩
    rw [List.dropWhile_append_of_pos (mem_digit_star.mp all)]
    cases rest with
    | nil => exact mem
    | cons c rest =>
      have other : c.isDigit = false := stops _ mem c rfl
      rwa [List.dropWhile_cons_of_neg (by simp [other])]
  · intro mem
    refine ⟨cs.takeWhile Char.isDigit, mem_digit_star.mpr fun c => List.mem_takeWhile_imp,
      _, mem, List.takeWhile_append_dropWhile⟩

theorem mem_digits_mul (stops : Begins l fun c => c.isDigit = false) :
    cs ∈ digits.matches' * l ↔
      cs.takeWhile Char.isDigit ≠ [] ∧ cs.dropWhile Char.isDigit ∈ l := by
  rw [digits, matches'_mul, mul_assoc, Language.mem_mul]
  constructor
  · rintro ⟨_, first, rest, more, rfl⟩
    obtain ⟨c, isDigit, rfl⟩ := mem_digit.mp first
    rw [List.singleton_append, List.takeWhile_cons_of_pos isDigit,
      List.dropWhile_cons_of_pos isDigit]
    exact ⟨List.cons_ne_nil _ _, (mem_digit_star_mul stops).mp more⟩
  · rintro ⟨some_, mem⟩
    cases cs with
    | nil => exact absurd rfl some_
    | cons c cs =>
      have isDigit : c.isDigit = true := by
        by_contra other
        exact some_ (List.takeWhile_cons_of_neg other)
      rw [List.dropWhile_cons_of_pos isDigit] at mem
      exact ⟨[c], mem_digit.mpr ⟨c, isDigit, rfl⟩, cs, (mem_digit_star_mul stops).mpr mem, rfl⟩

/-- A sign is taken if there is one. -/
theorem mem_sign_mul (unsigned : Begins l fun c => c ≠ '+' ∧ c ≠ '-') :
    cs ∈ sign.matches' * l ↔ (splitSign cs).2 ∈ l := by
  rw [Language.mem_mul]
  constructor
  · rintro ⟨front, signs, rest, mem, rfl⟩
    rcases mem_sign.mp signs with rfl | rfl | rfl
    · rw [List.nil_append]
      unfold splitSign
      split
      · exact absurd rfl (unsigned _ mem _ rfl).1
      · exact absurd rfl (unsigned _ mem _ rfl).2
      · exact mem
    · exact mem
    · exact mem
  · intro mem
    unfold splitSign at mem
    split at mem
    · exact ⟨['+'], mem_sign.mpr (.inr (.inl rfl)), _, mem, rfl⟩
    · exact ⟨['-'], mem_sign.mpr (.inr (.inr rfl)), _, mem, rfl⟩
    · exact ⟨[], mem_sign.mpr (.inl rfl), _, mem, rfl⟩

theorem begins_digits : Begins digits.matches' fun c => c.isDigit = true := by
  intro cs mem c head
  exact (mem_digits.mp mem).2 c (List.mem_of_head? head)

theorem mem_integer :
    cs ∈ integer.matches' ↔ (splitSign cs).2 ≠ [] ∧ ∀ c ∈ (splitSign cs).2, c.isDigit = true := by
  have unsigned : Begins digits.matches' fun c => c ≠ '+' ∧ c ≠ '-' := by
    intro cs mem c head
    have isDigit := begins_digits cs mem c head
    constructor <;> rintro rfl <;> exact absurd isDigit (by decide)
  rw [integer, matches'_mul, mem_sign_mul unsigned, mem_digits]

theorem read?_exponent_isSome : (Exponent.read? cs).isSome = true ↔ cs ∈ integer.matches' := by
  rw [mem_integer]
  simp only [Exponent.read?, List.all_eq_true]
  split
  · rename_i all
    exact iff_of_true rfl all
  · rename_i other
    exact iff_of_false Bool.false_ne_true other

theorem mem_exponent : cs ∈ exponent.matches' ↔ (Numeral.readExponent? cs).isSome = true := by
  rw [exponent, mem_optional]
  cases cs with
  | nil => simp [Numeral.readExponent?]
  | cons c rest =>
    have marked : c :: rest ∈ (oneOf ['e', 'E'] * (sign * digits)).matches' ↔
        (c = 'e' ∨ c = 'E') ∧ rest ∈ integer.matches' := by
      rw [matches'_mul, Language.mem_mul]
      constructor
      · rintro ⟨_, mark, rest', mem, same⟩
        obtain ⟨d, isMark, rfl⟩ := mem_oneOf.mp mark
        obtain ⟨rfl, rfl⟩ := List.cons.inj same
        exact ⟨by simpa using isMark, mem⟩
      · rintro ⟨mark, mem⟩
        exact ⟨[c], mem_oneOf.mpr ⟨c, by simpa using mark, rfl⟩, rest, mem, rfl⟩
    rw [marked, Numeral.readExponent?, ← read?_exponent_isSome]
    by_cases mark : c = 'e' ∨ c = 'E'
    · simp [mark]
    · simp [mark]

theorem begins_exponent : Begins exponent.matches' fun c => c = 'e' ∨ c = 'E' := by
  intro cs mem c head
  have read := mem_exponent.mp mem
  cases cs with
  | nil => cases head
  | cons d rest =>
    obtain rfl : d = c := Option.some.inj head
    by_contra other
    simp [Numeral.readExponent?, other] at read

theorem exponent_stops : Begins exponent.matches' fun c => c.isDigit = false := by
  intro cs mem c head
  rcases begins_exponent cs mem c head with rfl | rfl <;> rfl

/-- What may stand behind the digits of a numeral. -/
theorem mem_fraction_mul :
    cs ∈ fraction.matches' * exponent.matches' ↔
      cs ∈ exponent.matches' ∨
        ∃ rest, cs = '.' :: rest ∧ rest.dropWhile Char.isDigit ∈ exponent.matches' := by
  have unfolded : fraction.matches' * exponent.matches' =
      exponent.matches' +
        (char '.').matches' * (digit.star.matches' * exponent.matches') := by
    rw [fraction, optional, matches'_add, matches'_epsilon, matches'_mul, add_mul, one_mul,
      mul_assoc]
  rw [unfolded, Language.mem_add, mem_char_mul]
  simp only [mem_digit_star_mul exponent_stops]
  constructor
  · rintro (mem | ⟨rest, mem, rfl⟩)
    · exact .inl mem
    · exact .inr ⟨rest, rfl, mem⟩
  · rintro (mem | ⟨rest, rfl, mem⟩)
    · exact .inl mem
    · exact .inr ⟨rest, mem, rfl⟩

theorem begins_fraction_mul :
    Begins (fraction.matches' * exponent.matches') fun c => c = '.' ∨ c = 'e' ∨ c = 'E' := by
  intro cs mem c head
  rcases mem_fraction_mul.mp mem with mem | ⟨rest, rfl, -⟩
  · exact .inr (begins_exponent cs mem c head)
  · exact .inl (Option.some.inj head).symm

/-- The unsigned part of a numeral, cut before a point or an exponent. -/
theorem mem_unsigned :
    cs ∈ unsigned.matches' ↔
      (cs.takeWhile Char.isDigit ≠ [] ∧
        cs.dropWhile Char.isDigit ∈ fraction.matches' * exponent.matches') ∨
      ∃ rest, cs = '.' :: rest ∧ rest.takeWhile Char.isDigit ≠ [] ∧
        rest.dropWhile Char.isDigit ∈ exponent.matches' := by
  have stops : Begins (fraction.matches' * exponent.matches') fun c => c.isDigit = false := by
    intro cs mem c head
    rcases begins_fraction_mul cs mem c head with rfl | rfl | rfl <;> rfl
  have distributed : unsigned.matches' =
      digits.matches' * (fraction.matches' * exponent.matches') +
        (char '.').matches' * (digits.matches' * exponent.matches') := by
    simp only [unsigned, matches'_mul, matches'_add, add_mul, mul_assoc]
  rw [distributed, Language.mem_add, mem_digits_mul stops, mem_char_mul]
  simp only [mem_digits_mul exponent_stops]
  refine or_congr Iff.rfl ⟨?_, ?_⟩
  · rintro ⟨rest, mem, rfl⟩
    exact ⟨rest, rfl, mem⟩
  · rintro ⟨rest, rfl, mem⟩
    exact ⟨rest, mem, rfl⟩

theorem begins_unsigned : Begins unsigned.matches' fun c => c.isDigit = true ∨ c = '.' := by
  intro cs mem c head
  rcases mem_unsigned.mp mem with ⟨some_, -⟩ | ⟨rest, rfl, -⟩
  · cases cs with
    | nil => cases head
    | cons d rest =>
      obtain rfl : d = c := Option.some.inj head
      by_contra other
      exact some_ (List.takeWhile_cons_of_neg (by tauto))
  · exact .inr (Option.some.inj head).symm

end Pattern

open Pattern

variable {cs : List Char}

theorem isSome_guarded {α β : Type} {p : Prop} [Decidable p] {o : Option α} {f : α → β} :
    (if p then o.map f else none).isSome = true ↔ p ∧ o.isSome = true := by
  split
  · rename_i holds
    rw [Option.isSome_map, and_iff_right holds]
  · rename_i fails
    exact iff_of_false Bool.false_ne_true fun h => fails h.1

namespace Numeral

theorem read?_of_point {rest : List Char}
    (point : (splitSign cs).2.dropWhile Char.isDigit = '.' :: rest) :
    read? cs =
      if (splitSign cs).2.takeWhile Char.isDigit ≠ [] ∨ rest.takeWhile Char.isDigit ≠ [] then
        (readExponent? (rest.dropWhile Char.isDigit)).map fun exponent =>
          ⟨(splitSign cs).1, (splitSign cs).2.takeWhile Char.isDigit,
            some (rest.takeWhile Char.isDigit), exponent⟩
      else none := by
  simp only [read?, point, Option.getD_some, guard]
  split
  · cases readExponent? (rest.dropWhile Char.isDigit) <;> rfl
  · rfl

theorem read?_of_no_point
    (point : ∀ rest, (splitSign cs).2.dropWhile Char.isDigit ≠ '.' :: rest) :
    read? cs =
      if (splitSign cs).2.takeWhile Char.isDigit ≠ [] then
        (readExponent? ((splitSign cs).2.dropWhile Char.isDigit)).map fun exponent =>
          ⟨(splitSign cs).1, (splitSign cs).2.takeWhile Char.isDigit, none, exponent⟩
      else none := by
  unfold read?
  dsimp only
  split
  · rename_i rest here
    exact absurd here (point rest)
  · simp only [Option.getD_none, ne_eq, not_true_eq_false, or_false, guard]
    split
    · cases readExponent? ((splitSign cs).2.dropWhile Char.isDigit) <;> rfl
    · rfl

/-- The reader takes the texts of the grammar. -/
theorem read?_isSome : (read? cs).isSome = true ↔ cs ∈ float.matches' := by
  have signless : Begins unsigned.matches' fun c => c ≠ '+' ∧ c ≠ '-' := by
    intro cs mem c head
    rcases begins_unsigned cs mem c head with isDigit | rfl
    · constructor <;> rintro rfl <;> exact absurd isDigit (by decide)
    · decide
  have joined := List.takeWhile_append_dropWhile (p := Char.isDigit) (l := (splitSign cs).2)
  have behindPoint : ∀ rest, (splitSign cs).2 = '.' :: rest →
      (splitSign cs).2.takeWhile Char.isDigit = [] ∧
        (splitSign cs).2.dropWhile Char.isDigit = '.' :: rest := by
    rintro rest begun
    rw [begun]
    exact ⟨rfl, rfl⟩
  rw [float, matches'_mul, mem_sign_mul signless, mem_unsigned, mem_fraction_mul]
  simp only [mem_exponent]
  by_cases point : ∃ rest, (splitSign cs).2.dropWhile Char.isDigit = '.' :: rest
  · obtain ⟨rest, point⟩ := point
    rw [read?_of_point point, isSome_guarded, point]
    have noExponent : (readExponent? ('.' :: rest)).isSome = false := rfl
    by_cases whole : (splitSign cs).2.takeWhile Char.isDigit = []
    · have begun : (splitSign cs).2 = '.' :: rest := by
        rw [← joined, whole, point, List.nil_append]
      simp [begun]
    · have apart : ∀ rest, (splitSign cs).2 ≠ '.' :: rest := fun rest begun =>
        whole (behindPoint rest begun).1
      simp [whole, apart, noExponent]
  · rw [not_exists] at point
    have apart : ∀ rest, (splitSign cs).2 ≠ '.' :: rest := fun rest begun =>
      point rest (behindPoint rest begun).2
    rw [read?_of_no_point point, isSome_guarded]
    simp [apart, point]

end Numeral

/-! ### Integers -/

/-- The integer that digits after an optional sign denote. -/
def integerValue : List Char → Int
  | '+' :: ds => Nat.ofDigitChars 10 ds 0
  | '-' :: ds => -(Nat.ofDigitChars 10 ds 0)
  | ds => Nat.ofDigitChars 10 ds 0

/-- Whether a 64-bit integer has a given value. -/
def FitsWord (n : Int) : Prop := -2 ^ 63 ≤ n ∧ n < 2 ^ 63

instance (n : Int) : Decidable (FitsWord n) := inferInstanceAs (Decidable (_ ∧ _))

/-- Reads all of a text as an integer: digits after an optional sign. -/
def integer? (cs : List Char) : Option Int :=
  let (negative, ds) := splitSign cs
  if ds ≠ [] ∧ ds.all Char.isDigit then
    some (if negative then -(valueOfDigits ds : Int) else valueOfDigits ds)
  else none

/-- Reads all of a text as an integer of 64 bits. -/
def int64? (cs : List Char) : Option Int64 := (integer? cs).bind word64?

theorem integerValue_eq (cs : List Char) :
    integerValue cs =
      if (splitSign cs).1 then -(valueOfDigits (splitSign cs).2 : Int)
      else valueOfDigits (splitSign cs).2 := by
  have same : ∀ ds, Nat.ofDigitChars 10 ds 0 = valueOfDigits ds := by
    intro ds
    rw [Nat.ofDigitChars_eq_foldl]
    rfl
  unfold integerValue splitSign
  split
  · simp [same]
  · simp [same]
  · simp [same]

theorem integer?_eq_some_iff {n : Int} :
    integer? cs = some n ↔ cs ∈ Pattern.integer.matches' ∧ n = integerValue cs := by
  rw [mem_integer, integerValue_eq, integer?]
  simp only [List.all_eq_true]
  split
  · rename_i all
    rw [and_iff_right all, Option.some_inj, eq_comm]
  · rename_i other
    exact iff_of_false nofun fun h => other h.1

theorem word64?_eq_some_iff {n : Int} {w : Int64} :
    word64? n = some w ↔ FitsWord n ∧ w.toInt = n := by
  have low : Int64.minValue.toInt = -2 ^ 63 := by decide
  have high : Int64.maxValue.toInt = 2 ^ 63 - 1 := by decide
  rw [word64?, low, high]
  constructor
  · intro h
    split at h
    · rename_i fits
      cases h
      have above : n < 2 ^ 63 := by omega
      exact ⟨⟨fits.1, above⟩, Int64.toInt_ofInt_of_le fits.1 above⟩
    · cases h
  · rintro ⟨⟨low, high⟩, rfl⟩
    rw [if_pos ⟨low, by omega⟩, Int64.ofInt_toInt]

/-- A 64-bit integer is read from the texts of the grammar with a value in range. -/
theorem int64?_eq_some_iff {w : Int64} :
    int64? cs = some w ↔
      cs ∈ Pattern.integer.matches' ∧ FitsWord (integerValue cs) ∧ w.toInt = integerValue cs := by
  rw [int64?, Option.bind_eq_some_iff]
  simp only [integer?_eq_some_iff, word64?_eq_some_iff]
  constructor
  · rintro ⟨_, ⟨mem, rfl⟩, fits, value⟩
    exact ⟨mem, fits, value⟩
  · rintro ⟨mem, fits, value⟩
    exact ⟨_, ⟨mem, rfl⟩, fits, value⟩

theorem int64?_isSome :
    (int64? cs).isSome = true ↔ cs ∈ Pattern.integer.matches' ∧ FitsWord (integerValue cs) := by
  rw [Option.isSome_iff_exists]
  simp only [int64?_eq_some_iff]
  constructor
  · rintro ⟨w, mem, fits, -⟩
    exact ⟨mem, fits⟩
  · rintro ⟨mem, fits⟩
    exact ⟨Int64.ofInt (integerValue cs), mem, fits, Int64.toInt_ofInt_of_le fits.1 fits.2⟩

/-- The numerals without point and exponent are the integers. -/
theorem Numeral.read?_bind_toInt? : (read? cs).bind toInt? = integer? cs := by
  have joined := List.takeWhile_append_dropWhile (p := Char.isDigit) (l := (splitSign cs).2)
  cases behind : (splitSign cs).2.dropWhile Char.isDigit with
  | nil =>
    rw [behind, List.append_nil] at joined
    have all : (splitSign cs).2.all Char.isDigit = true :=
      List.all_eq_true.mpr (List.takeWhile_eq_self_iff.mp joined)
    rw [read?_of_no_point (by simp [behind]), joined, behind, integer?]
    by_cases nonempty : (splitSign cs).2 = []
    · simp [nonempty]
    · simp [nonempty, all, readExponent?, toInt?]
  | cons c rest =>
    have other : c.isDigit = false := by
      have head := List.head_dropWhile_not (p := Char.isDigit) (l := (splitSign cs).2)
        (by simp [behind])
      simpa [behind] using head
    have notAll : (splitSign cs).2.all Char.isDigit = false := by
      have mem : c ∈ (splitSign cs).2 := by
        rw [← joined, behind]
        simp
      exact List.all_eq_false.mpr ⟨c, mem, by simp [other]⟩
    have unread : integer? cs = none := by simp [integer?, notAll]
    rw [unread]
    by_cases point : c = '.'
    · rw [read?_of_point (point ▸ behind)]
      split
      · cases readExponent? (rest.dropWhile Char.isDigit) <;> rfl
      · rfl
    · rw [read?_of_no_point (by simp [behind, point]), behind, readExponent?]
      split
      · split
        · cases Exponent.read? rest <;> rfl
        · rfl
      · rfl

end Lisp.Decimal
