import Lisp.Proofs.IntegerArithmetic

/-!
# Remainders of integers, and integers divided by zero

The remainder of two integers is the floored one: the divisor divides what it leaves, it is
smaller than the divisor, and it has the sign of the divisor. It always fits into 64 bits.
The quotient that belongs to it does not when the least integer is divided by minus one, and
there the remainder fails together with the quotient.

A division by zero is found where an integer meets the zero. A step before it that leaves a
remainder goes on with floats, and a float is divided by zero without an error. So the
divisors before the first zero decide whether it is reported.
-/

namespace Lisp

open Library
open Decimal (FitsWord)

/-! ### Remainders -/

section Remainders

/-- A remainder on division by `y` with the sign of the divisor. -/
structure IsFlooredRemainder (x y r : Int) : Prop where
  divides : y ∣ x - r
  smaller : r.natAbs < y.natAbs
  sign : r = 0 ∨ r.sign = y.sign

variable {x y r r' : Int}

theorem isFlooredRemainder_iff :
    IsFlooredRemainder x y r ↔ y ∣ x - r ∧ (0 ≤ r ∧ r < y ∨ y < r ∧ r ≤ 0) := by
  constructor
  · rintro ⟨divides, smaller, rfl | sign⟩
    · exact ⟨divides, by omega⟩
    · refine ⟨divides, ?_⟩
      rcases lt_trichotomy r 0 with below | rfl | above
      · rw [Int.sign_eq_neg_one_of_neg below] at sign
        have negative : y < 0 := Int.neg_of_sign_eq_neg_one sign.symm
        omega
      · omega
      · rw [Int.sign_eq_one_of_pos above] at sign
        have positive : 0 < y := Int.pos_of_sign_eq_one sign.symm
        omega
  · rintro ⟨divides, ⟨low, high⟩ | ⟨low, high⟩⟩
    · refine ⟨divides, by omega, ?_⟩
      rcases low.eq_or_lt with zero | above
      · exact .inl zero.symm
      · right
        rw [Int.sign_eq_one_of_pos above, Int.sign_eq_one_of_pos (above.trans high)]
    · refine ⟨divides, by omega, ?_⟩
      rcases high.eq_or_lt with zero | below
      · exact .inl zero
      · right
        rw [Int.sign_eq_neg_one_of_neg below, Int.sign_eq_neg_one_of_neg (low.trans below)]

theorem isFlooredRemainder_fmod (x : Int) (nonzero : y ≠ 0) :
    IsFlooredRemainder x y (x.fmod y) := by
  refine isFlooredRemainder_iff.mpr ⟨⟨x.fdiv y, by rw [Int.fmod_def]; omega⟩, ?_⟩
  rcases lt_or_gt_of_ne nonzero with negative | positive
  · -- The remainder is the opposite of one by the opposite divisor.
    have low := Int.fmod_nonneg_of_pos (-x) (Int.neg_pos_of_neg negative)
    have high := Int.fmod_lt_of_pos (-x) (Int.neg_pos_of_neg negative)
    rw [Int.neg_fmod_neg] at low high
    omega
  · exact .inl ⟨Int.fmod_nonneg_of_pos x positive, Int.fmod_lt_of_pos x positive⟩

theorem IsFlooredRemainder.unique (h : IsFlooredRemainder x y r)
    (h' : IsFlooredRemainder x y r') : r = r' := by
  obtain ⟨divides, bounds⟩ := isFlooredRemainder_iff.mp h
  obtain ⟨divides', bounds'⟩ := isFlooredRemainder_iff.mp h'
  have difference : y ∣ r - r' := by
    have divided : y ∣ (x - r') - (x - r) := Int.dvd_sub divides' divides
    rwa [show (x - r') - (x - r) = r - r' by omega] at divided
  have smaller : (r - r').natAbs < y.natAbs := by omega
  exact Int.sub_eq_zero.mp (Int.eq_zero_of_dvd_of_natAbs_lt_natAbs difference smaller)

theorem fitsWord_fmod (x : Int) (fits : FitsWord y) (nonzero : y ≠ 0) : FitsWord (x.fmod y) := by
  have smaller := (isFlooredRemainder_fmod x nonzero).smaller
  obtain ⟨low, high⟩ := fits
  unfold FitsWord
  omega

/-- What a remainder ends with, which asks that the quotient fits. -/
theorem Number.modulo_cases (x : Int64) {y : Int64} (nonzero : y ≠ 0) :
    (¬ (y = -1 ∧ x.toInt = -2 ^ 63) ∧ ∃ r : Int64,
        Number.modulo (.integer x) (.integer y) = .ok (.integer r) ∧
          r.toInt = x.toInt.fmod y.toInt) ∨
      (y = -1 ∧ x.toInt = -2 ^ 63) ∧
        Number.modulo (.integer x) (.integer y) = .error .overflow := by
  have divisor : y.toInt ≠ 0 := toInt_eq_zero_iff.not.mpr nonzero
  have only := fitsWord_tdiv_iff (fitsWord_toInt x) divisor
  rw [toInt_eq_neg_one_iff] at only
  rw [Number.modulo, if_neg divisor]
  rcases Number.exact_cases (x.toInt.tdiv y.toInt) with ⟨fits, q, quotient, -⟩ | ⟨unfit, fails⟩
  · rw [quotient]
    rcases Number.exact_cases (x.toInt.fmod y.toInt) with ⟨-, word, remainder, value⟩ | ⟨unfit, -⟩
    · exact .inl ⟨only.mp fits, word, remainder, value⟩
    · exact absurd (fitsWord_fmod _ (fitsWord_toInt y) divisor) unfit
  · rw [fails]
    exact .inr ⟨not_not.mp (only.not.mp unfit), rfl⟩

/-- The remainder of integers is the floored one, and the only integer that is. The least
integer has none on division by minus one, although zero would be, and in no other place
is there an overflow. -/
theorem Builtin.modulo_floored (x y : Int64) (nonzero : y ≠ 0) :
    Builtin.modulo.CallsEnd [.integer x, .integer y] fun r =>
      ((∃ word : Int64, r = .ok (.integer word) ∧
          ∀ n, IsFlooredRemainder x.toInt y.toInt n ↔ n = word.toInt) ↔
        ¬ (y = -1 ∧ x.toInt = -2 ^ 63)) ∧
      (r = .error (.runtime (.integerOverflow "mod")) ↔ y = -1 ∧ x.toInt = -2 ^ 63) := by
  refine Builtin.CallsEnd.of_body (fun site => do
    let r ← arithmetic site (Number.modulo (.integer x) (.integer y))
    return r.toExpr) (fun _ => rfl) fun w scope m => ?_
  rw [World.outcome_run_map]
  rcases Number.modulo_cases x nonzero with ⟨fits, word, remainder, value⟩ | ⟨least, fails⟩
  · have floored := isFlooredRemainder_fmod x.toInt (toInt_eq_zero_iff.not.mpr nonzero)
    rw [← value] at floored
    rw [remainder]
    refine ⟨iff_of_true ⟨word, rfl, fun n => ?_⟩ fits, iff_of_false nofun fits⟩
    exact ⟨fun h => h.unique floored, fun same => same ▸ floored⟩
  · rw [fails]
    exact ⟨iff_of_false nofun (not_not.mpr least), iff_of_true rfl least⟩

theorem Builtin.modulo_floored_negative :
    (-3 : Int64) ≠ 0 ∧
      ∃ word : Int64, outcome (World.apply {} (.object ⟨0⟩ (.builtin .modulo))
        [.integer 7, .integer (-3)] Store.root Machine.bare) = .ok (.integer word) ∧
          ∀ n, IsFlooredRemainder 7 (-3) n ↔ n = word.toInt := by
  refine ⟨by decide, ?_⟩
  obtain ⟨floored, -⟩ := (Builtin.modulo_floored 7 (-3) (by decide)).of_room {}
    (.object ⟨0⟩ (.builtin .modulo)) Store.root Machine.bare rfl (by decide)
  exact floored.mpr (by decide)

/-- The least integer and minus one: zero is the floored remainder, and the call fails. -/
theorem Builtin.not_modulo_floored_least :
    IsFlooredRemainder Int64.minValue.toInt (-1) 0 ∧
      ¬ ∀ x y : Int64, y ≠ 0 → Builtin.modulo.CallsEnd [.integer x, .integer y] fun r =>
        ∃ word : Int64, r = .ok (.integer word) ∧
          ∀ n, IsFlooredRemainder x.toInt y.toInt n ↔ n = word.toInt := by
  refine ⟨⟨by decide, by decide, .inl rfl⟩, fun floored => ?_⟩
  have fails : outcome (World.apply {} (.object ⟨0⟩ (.builtin .modulo))
      [.integer Int64.minValue, .integer (-1)] Store.root Machine.bare) =
        .error (.runtime (.integerOverflow "mod")) := by rfl
  obtain ⟨word, returned, -⟩ := (floored Int64.minValue (-1) (by decide)).of_room {}
    (.object ⟨0⟩ (.builtin .modulo)) Store.root Machine.bare rfl (by decide)
  rw [fails] at returned
  cases returned

end Remainders

/-! ### Zeros among the divisors -/

section Zeros

variable {name : String} {a d q : Int64} {ds before : List Int64} {r : Except Error Expr}

/-- What a division by integers ends with that comes to a zero, by the divisors before the
first zero. -/
inductive MeetsZero (name : String) (a : Int64) (before : List Int64) :
    Except Error Expr → Prop where
  | overflow (least : DividesLeast a.toInt before) :
      MeetsZero name a before (.error (.runtime (.integerOverflow name)))
  | reported (fits : ¬ DividesLeast a.toInt before)
      (exact : (before.map Int64.toInt).prod ∣ a.toInt) :
      MeetsZero name a before (.error (.runtime (.divisionByZero name)))
  | float (fits : ¬ DividesLeast a.toInt before)
      (inexact : ¬ (before.map Int64.toInt).prod ∣ a.toInt) (x : Float) :
      MeetsZero name a before (.ok (.float x))

theorem MeetsZero.fails_iff (h : MeetsZero name a before r) :
    (∃ fault, r = .error (.runtime fault)) ↔
      (before.map Int64.toInt).prod ∣ a.toInt ∨ DividesLeast a.toInt before := by
  cases h with
  | overflow least => exact iff_of_true ⟨_, rfl⟩ (.inr least)
  | reported fits exact => exact iff_of_true ⟨_, rfl⟩ (.inl exact)
  | float fits inexact x =>
    refine iff_of_false ?_ (by tauto)
    rintro ⟨fault, failed⟩
    cases failed

/-- A step without a remainder that fits. -/
theorem MeetsZero.cons (nonzero : d ≠ 0) (fits : ¬ (d = -1 ∧ a.toInt = -2 ^ 63))
    (divides : d.toInt ∣ a.toInt) (value : q.toInt = a.toInt / d.toInt)
    (rest : MeetsZero name q before r) : MeetsZero name a (d :: before) r := by
  have exact : q.toInt * d.toInt = a.toInt := by rw [value, Int.ediv_mul_cancel divides]
  have least := @dividesLeast_cons_iff a d before q fits value
  have divisible := @prod_dvd_cons_iff a d before q nonzero exact
  cases rest with
  | overflow met => exact .overflow (least.mpr met)
  | reported never all => exact .reported (least.not.mpr never) (divisible.mpr all)
  | float never some x => exact .float (least.not.mpr never) (divisible.not.mpr some) x

/-- Only a number as large as the least integer has it among its quotients. -/
theorem DividesLeast.size {n : Int} (h : DividesLeast n ds) : 2 ^ 63 ≤ n.natAbs := by
  induction ds generalizing n with
  | nil => exact absurd h (dividesLeast_nil n)
  | cons d ds ih =>
    rcases (dividesLeast_cons n d ds).mp h with ⟨-, least⟩ | later
    · omega
    · exact (ih later).trans (Int.natAbs_ediv_le_natAbs n d.toInt)

/-- A quotient that leaves a remainder is well inside the range. -/
theorem natAbs_ediv_lt {n d : Int} (fits : FitsWord n) (remains : ¬ d ∣ n) :
    (n / d).natAbs < 2 ^ 63 := by
  by_cases zero : d = 0
  · rw [zero, Int.ediv_zero]
    decide
  obtain ⟨low, high⟩ := fits
  have large : 2 ≤ d.natAbs := by
    by_contra small
    obtain rfl | rfl : d = 1 ∨ d = -1 := by omega
    · exact remains (Int.one_dvd n)
    · exact remains (Int.neg_dvd.mpr (Int.one_dvd n))
  by_contra quotient
  have scaled : d.natAbs * 2 ^ 63 ≤ (d * (n / d)).natAbs := by
    rw [Int.natAbs_mul]
    exact Nat.mul_le_mul_left _ (Nat.not_lt.mp quotient)
  have division := Int.mul_ediv_add_emod n d
  have above := Int.emod_nonneg n zero
  have below := Int.emod_lt n zero
  omega

/-- Behind a step with a remainder no quotient is the least integer. -/
theorem not_dividesLeast_of_remainder (remains : ¬ d.toInt ∣ a.toInt) :
    ¬ DividesLeast a.toInt (d :: ds) := by
  rw [dividesLeast_cons]
  rintro (⟨rfl, -⟩ | later)
  · exact remains (Int.neg_dvd.mpr (Int.one_dvd _))
  · exact Nat.not_lt.mpr later.size (natAbs_ediv_lt (fitsWord_toInt a) remains)

theorem accumulate_meetsZero (site : Site) (a : Int64) (index : Nat) (before after : List Int64)
    (nonzero : ∀ d ∈ before, d ≠ 0) :
    MeetsZero site.name a before
      ((accumulate site Number.divide (.integer a) index
        ((before ++ 0 :: after).map .integer)).map Number.toExpr) := by
  induction before generalizing a index with
  | nil => exact .reported (dividesLeast_nil _) (Int.one_dvd _)
  | cons d before ih =>
    obtain ⟨here, later⟩ := List.forall_mem_cons.mp nonzero
    rw [List.cons_append, List.map_cons, accumulate_integer]
    have step := divided a d
    generalize Number.divide (.integer a) (.integer d) = quotient at step
    cases step with
    | byZero zero => exact absurd zero here
    | overflow divisor least =>
      exact .overflow ((dividesLeast_cons _ _ _).mpr (.inl ⟨divisor, least⟩))
    | exact q _ fits divides value => exact (ih q (index + 1) later).cons here fits divides value
    | inexact x remains =>
      -- The zero is met by a float.
      obtain ⟨y, float⟩ := accumulate_float Number.divide_float site x (index + 1)
        ((before ++ 0 :: after).map .integer)
      rw [List.map_map] at float
      have ended : (arithmetic site (.ok (.float x)) >>= fun acc =>
          accumulate site Number.divide acc (index + 1)
            ((before ++ 0 :: after).map .integer)) = .ok (.float y) := float
      rw [ended]
      exact .float (not_dividesLeast_of_remainder remains) (not_prod_dvd_cons remains) y

/-- The divisors before the first zero. -/
def beforeZero (ds : List Int64) : List Int64 := ds.takeWhile (· ≠ 0)

theorem exists_eq_beforeZero (zero : 0 ∈ ds) :
    (∀ d ∈ beforeZero ds, d ≠ 0) ∧ ∃ after, ds = beforeZero ds ++ 0 :: after := by
  constructor
  · intro d mem
    simpa using List.mem_takeWhile_imp mem
  · induction ds with
    | nil => cases zero
    | cons d ds ih =>
      by_cases here : d = 0
      · exact ⟨ds, by simp [beforeZero, here]⟩
      · obtain ⟨after, same⟩ := ih ((List.mem_cons.mp zero).resolve_left (Ne.symm here))
        refine ⟨after, ?_⟩
        have first : beforeZero (d :: ds) = d :: beforeZero ds := by simp [beforeZero, here]
        rw [first, List.cons_append, ← same]

/-- A division of integers with a zero among the divisors fails exactly if the divisors before
the first zero divide the number without a remainder, or if the least integer is divided by
minus one before. Otherwise it returns a float. -/
theorem Builtin.divide_meets_zero (a : Int64) (ds : List Int64) (zero : 0 ∈ ds) :
    Builtin.divide.CallsEnd ((a :: ds).map .integer) fun r =>
      MeetsZero "/" a (beforeZero ds) r ∧
        ((∃ fault, r = .error (.runtime fault)) ↔
          ((beforeZero ds).map Int64.toInt).prod ∣ a.toInt ∨
            DividesLeast a.toInt (beforeZero ds)) := by
  obtain ⟨nonzero, after, whole⟩ := exists_eq_beforeZero zero
  obtain ⟨d, rest, rfl⟩ := List.exists_cons_of_ne_nil (List.ne_nil_of_mem zero)
  refine callsEnd_reduction rfl (.integer a) (.integer d) _ fun scope => ?_
  have meets := accumulate_meetsZero ⟨Builtin.divide.name, scope⟩ a 0 (beforeZero (d :: rest))
    after nonzero
  rw [← whole] at meets
  exact ⟨meets, meets.fails_iff⟩

theorem Builtin.divide_meets_zero_late :
    0 ∈ [3, -2, 0, 5] ∧
      ∃ fault, outcome (World.apply {} (.object ⟨0⟩ (.builtin .divide))
        [.integer 12, .integer 3, .integer (-2), .integer 0, .integer 5] Store.root
        Machine.bare) = .error (.runtime fault) := by
  refine ⟨by decide, ?_⟩
  obtain ⟨-, fails⟩ := (Builtin.divide_meets_zero 12 [3, -2, 0, 5] (by decide)).of_room {}
    (.object ⟨0⟩ (.builtin .divide)) Store.root Machine.bare rfl (by decide)
  exact fails.mpr (.inl (by decide))

/-- One divided by two is no integer any more, and dividing it by zero is no error. -/
theorem Builtin.not_divide_reports_zero :
    ¬ ∀ (a : Int64) (ds : List Int64), 0 ∈ ds →
      Builtin.divide.CallsEnd ((a :: ds).map .integer) fun r =>
        ∃ fault, r = .error (.runtime fault) := by
  intro reports
  obtain ⟨x, returns⟩ : ∃ x, outcome (World.apply {} (.object ⟨0⟩ (.builtin .divide))
      [.integer 1, .integer 2, .integer 0] Store.root Machine.bare) = .ok (.float x) := ⟨_, rfl⟩
  obtain ⟨fault, failed⟩ := (reports 1 [2, 0] (by decide)).of_room {}
    (.object ⟨0⟩ (.builtin .divide)) Store.root Machine.bare rfl (by decide)
  have same := returns.symm.trans failed
  cases same

end Zeros

end Lisp
