import Lisp.Proofs.Atoms
import Lisp.Sexp.Printer
import Mathlib.Control.Basic
import Mathlib.Data.List.TakeWhile
import Mathlib.Data.Option.Basic

/-!
# Printed integers

The decimal digits of an integer, after a minus if it is negative, are a numeral
without point and exponent. Its value is the integer, and an integer of 64 bits
is read from it again.
-/

namespace Lisp

open Decimal

theorem Decimal.valueOfDigits_toDigits (n : Nat) : valueOfDigits (Nat.toDigits 10 n) = n := by
  have digits := Nat.ofDigitChars_ten_toDigits (n := n)
  rwa [Nat.ofDigitChars_eq_foldl] at digits

/-- Digits after an optional minus are the numeral of an integer. -/
theorem Decimal.Numeral.read?_digits {ds : List Char} (nonempty : ds ≠ [])
    (digits : ∀ d ∈ ds, d.isDigit = true) :
    Numeral.read? ds = some ⟨false, ds, none, none⟩ ∧
      Numeral.read? ('-' :: ds) = some ⟨true, ds, none, none⟩ := by
  have taken := List.takeWhile_eq_self_iff.mpr digits
  have dropped := List.dropWhile_eq_nil_iff.mpr digits
  have unsigned : splitSign ds = (false, ds) := by
    cases ds with
    | nil => exact absurd rfl nonempty
    | cons d ds =>
      have digit := digits d List.mem_cons_self
      unfold splitSign
      split
      · rename_i h
        injection h with h
        rw [h] at digit
        exact absurd digit (by decide)
      · rename_i h
        injection h with h
        rw [h] at digit
        exact absurd digit (by decide)
      · rfl
  constructor
  · simp [read?, unsigned, taken, dropped, nonempty, readExponent?]
  · simp [read?, splitSign, taken, dropped, nonempty, readExponent?]

/-- A numeral begins with a sign, a digit or a point. -/
theorem Decimal.Numeral.read?_eq_none {c : Char} (plus : c ≠ '+') (minus : c ≠ '-')
    (digit : c.isDigit = false) (point : c ≠ '.') (cs : List Char) :
    Numeral.read? (c :: cs) = none := by
  have unsigned : splitSign (c :: cs) = (false, c :: cs) := by
    unfold splitSign
    split
    · rename_i h
      exact absurd (List.cons.inj h).1 plus
    · rename_i h
      exact absurd (List.cons.inj h).1 minus
    · rfl
  have taken : (c :: cs).takeWhile Char.isDigit = [] := List.takeWhile_cons_of_neg (by simp [digit])
  have dropped : (c :: cs).dropWhile Char.isDigit = c :: cs :=
    List.dropWhile_cons_of_neg (by simp [digit])
  rw [read?, unsigned]
  dsimp only
  rw [taken, dropped]
  split
  · rename_i h
    exact absurd (List.cons.inj h).1 point
  · simp

theorem Decimal.word64?_toInt (n : Int64) : word64? n.toInt = some n := by
  have bounds : Int64.minValue.toInt ≤ n.toInt ∧ n.toInt ≤ Int64.maxValue.toInt :=
    ⟨Int64.minValue_le_toInt n, n.toInt_le⟩
  rw [word64?, if_pos bounds, Int64.ofInt_toInt]

/-- An atom that consists of the digits of an integer is that integer. -/
theorem Lexeme.ofAtom_writeInteger (n : Int64) :
    Lexeme.ofAtom (Sexp.writeInteger n) false =
      .integer (String.ofList (Sexp.writeInteger n)) n := by
  have digits : ∀ d ∈ Nat.toDigits 10 n.toInt.natAbs, d.isDigit = true := fun d hd =>
    Nat.isDigit_of_mem_toDigits (by omega) (by omega) hd
  obtain ⟨plain, negated⟩ := Numeral.read?_digits Nat.toDigits_ne_nil digits
  have value := valueOfDigits_toDigits n.toInt.natAbs
  by_cases negative : n.toInt < 0
  · have written : Sexp.writeInteger n = '-' :: Nat.toDigits 10 n.toInt.natAbs := by
      simp [Sexp.writeInteger, negative]
    have same : -(n.toInt.natAbs : Int) = n.toInt := by omega
    simp only [written, ofAtom, negated, Numeral.toInt?, value, Bool.false_eq_true, if_true,
      if_false, same, Option.bind_some, word64?_toInt]
  · have written : Sexp.writeInteger n = Nat.toDigits 10 n.toInt.natAbs := by
      simp [Sexp.writeInteger, negative]
    have same : (n.toInt.natAbs : Int) = n.toInt := by omega
    simp only [written, ofAtom, plain, Numeral.toInt?, value, Bool.false_eq_true, if_false,
      same, Option.bind_some, word64?_toInt]

theorem Text.isPlain_of_isDigit {c : Char} (digit : c.isDigit = true) : isPlain c = true := by
  have range : 48 ≤ c.toNat ∧ c.toNat ≤ 57 := by
    simpa [Char.isDigit, UInt32.le_iff_toNat_le] using digit
  have apart : ∀ d : Char, d.toNat < 48 ∨ 57 < d.toNat → c ≠ d := by
    rintro d far rfl
    omega
  have blank : isBlank c = false := by
    simp only [isBlank, Bool.or_eq_false_iff, Bool.and_eq_false_iff, decide_eq_false_iff_not,
      beq_eq_false_iff_ne]
    omega
  rw [isPlain_iff, isDelimiter_eq_false_iff]
  exact ⟨⟨blank, apart _ (by decide), apart _ (by decide), apart _ (by decide),
    apart _ (by decide)⟩, apart _ (by decide), apart _ (by decide)⟩

/-- A printed integer is a run of plain characters and begins like a number. -/
theorem Sexp.writeInteger_plain (n : Int64) :
    ∃ c cs, writeInteger n = c :: cs ∧ (∀ d ∈ c :: cs, Text.isPlain d = true) ∧
      c ≠ ';' ∧ c ≠ '#' := by
  have plain : ∀ d ∈ Nat.toDigits 10 n.toInt.natAbs, Text.isPlain d = true := fun d hd =>
    Text.isPlain_of_isDigit (Nat.isDigit_of_mem_toDigits (by omega) (by omega) hd)
  by_cases negative : n.toInt < 0
  · refine ⟨'-', Nat.toDigits 10 n.toInt.natAbs, by simp [writeInteger, negative], ?_,
      by decide, by decide⟩
    intro d hd
    rcases List.mem_cons.mp hd with rfl | hd
    · decide
    · exact plain d hd
  · cases digits : Nat.toDigits 10 n.toInt.natAbs with
    | nil => exact absurd digits Nat.toDigits_ne_nil
    | cons c cs =>
      have digit : c.isDigit = true := by
        have member : c ∈ Nat.toDigits 10 n.toInt.natAbs := by simp [digits]
        exact Nat.isDigit_of_mem_toDigits (by omega) (by omega) member
      refine ⟨c, cs, by simp [writeInteger, negative, digits], digits ▸ plain, ?_, ?_⟩
      · rintro rfl
        exact absurd digit (by decide)
      · rintro rfl
        exact absurd digit (by decide)

end Lisp
