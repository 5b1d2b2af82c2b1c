import Lisp.Proofs.BuiltinCalls
import Lisp.Proofs.NumericGrammar
import Mathlib.Algebra.BigOperators.Group.List.Basic
import Mathlib.Algebra.Group.Int.Units

/-!
# Arithmetic of integers

Sums, products and differences of integers are computed step by step, and a step is exact or
fails. So they are exact as long as the partial results fit into 64 bits. The end result alone
does not decide: a sum can leave the range and come back.

A quotient is exact if it is an integer at all, because a step that leaves a remainder goes
on with floats, and what is computed from a float is a float. If the product of the divisors
divides the first number then no step leaves a remainder, and the only quotient of integers
that does not fit is the least integer by minus one.
-/

namespace Lisp

open Library
open Decimal (FitsWord)

theorem fitsWord_toInt (n : Int64) : FitsWord n.toInt :=
  ⟨n.le_toInt, n.toInt_lt⟩

/-! ### Sums, products and differences -/

section Exact

/-- What a computation with the given partial results ends with if it does not wrap around. -/
structure ExactOrOverflow (name : String) (partials : List Int) (value : Int)
    (r : Except Error Expr) : Prop where
  exact : (∀ n ∈ partials, FitsWord n) →
    ∃ word : Int64, r = .ok (.integer word) ∧ word.toInt = value
  overflow : ¬ (∀ n ∈ partials, FitsWord n) → r = .error (.runtime (.integerOverflow name))

variable {name : String} {partials : List Int} {value n : Int} {r : Except Error Expr}

theorem ExactOrOverflow.cons (fits : FitsWord n) (h : ExactOrOverflow name partials value r) :
    ExactOrOverflow name (n :: partials) value r where
  exact all := h.exact fun k mem => all k (List.mem_cons_of_mem n mem)
  overflow some := h.overflow fun all => some (List.forall_mem_cons.mpr ⟨fits, all⟩)

theorem ExactOrOverflow.of_mem (mem : n ∈ partials) (unfit : ¬ FitsWord n) :
    ExactOrOverflow name partials value (.error (.runtime (.integerOverflow name))) where
  exact all := absurd (all n mem) unfit
  overflow _ := rfl

theorem Number.exact_cases (n : Int) :
    (FitsWord n ∧ ∃ word : Int64, Number.exact n = .ok (.integer word) ∧ word.toInt = n) ∨
      ¬ FitsWord n ∧ Number.exact n = .error .overflow := by
  cases found : Decimal.word64? n with
  | some word =>
    obtain ⟨fits, value⟩ := Decimal.word64?_eq_some_iff.mp found
    exact .inl ⟨fits, word, by rw [Number.exact, found], value⟩
  | none =>
    refine .inr ⟨fun fits => ?_, by rw [Number.exact, found]⟩
    have present : Decimal.word64? n = some (Int64.ofInt n) :=
      Decimal.word64?_eq_some_iff.mpr ⟨fits, Int64.toInt_ofInt_of_le fits.1 fits.2⟩
    rw [found] at present
    cases present

variable {op : Number → Number → Except ArithmeticFault Number} {f : Int → Int → Int}

theorem accumulate_number (site : Site) (acc : Number) (index : Nat) (n : Number)
    (rest : List Expr) :
    accumulate site op acc index (n.toExpr :: rest) = (do
      let acc ← arithmetic site (op acc n)
      accumulate site op acc (index + 1) rest) := by
  cases n <;> rfl

theorem accumulate_integer (site : Site) (acc : Number) (index : Nat) (n : Int64)
    (rest : List Expr) :
    accumulate site op acc index (.integer n :: rest) = (do
      let acc ← arithmetic site (op acc (.integer n))
      accumulate site op acc (index + 1) rest) := accumulate_number site acc index (.integer n) rest

theorem accumulate_singleton (site : Site) (acc : Number) (index : Nat) (n : Number) :
    accumulate site op acc index [n.toExpr] = arithmetic site (op acc n) := by
  rw [accumulate_number]
  exact bind_pure _

/-- Steps that are exact or overflow make up a computation that is exact or overflows. -/
theorem accumulate_exactOrOverflow
    (step : ∀ m n : Int64, op (.integer m) (.integer n) = Number.exact (f m.toInt n.toInt))
    (site : Site) (acc : Int64) (index : Nat) (ns : List Int64) :
    ExactOrOverflow site.name ((ns.map Int64.toInt).scanl f acc.toInt)
      ((ns.map Int64.toInt).foldl f acc.toInt)
      ((accumulate site op (.integer acc) index (ns.map .integer)).map Number.toExpr) := by
  induction ns generalizing acc index with
  | nil =>
    refine ⟨fun _ => ⟨acc, rfl, rfl⟩, fun some => absurd ?_ some⟩
    exact fun n mem => List.mem_singleton.mp mem ▸ fitsWord_toInt acc
  | cons n ns ih =>
    rw [List.map_cons, List.map_cons, accumulate_integer, step, List.scanl_cons, List.foldl_cons]
    -- The partial results of the rest begin with the one of this step.
    rcases Number.exact_cases (f acc.toInt n.toInt) with ⟨_, word, ok, value⟩ | ⟨unfit, fails⟩
    · rw [ok, ← value]
      exact (ih word (index + 1)).cons (fitsWord_toInt acc)
    · rw [fails]
      exact .of_mem (List.mem_cons_of_mem _ (List.mem_of_mem_head? List.head?_scanl)) unfit

/-- A float stays a float if every step from one comes to one. -/
theorem accumulate_float (promotes : ∀ x n, ∃ y, op (.float x) n = .ok (.float y)) (site : Site)
    (x : Float) (index : Nat) (ns : List Number) :
    ∃ y, accumulate site op (.float x) index (ns.map Number.toExpr) = .ok (.float y) := by
  induction ns generalizing x index with
  | nil => exact ⟨x, rfl⟩
  | cons n ns ih =>
    obtain ⟨y, step⟩ := promotes x n
    rw [List.map_cons, accumulate_number, step]
    exact ih y (index + 1)

theorem Number.divide_float (x : Float) (n : Number) :
    ∃ y, Number.divide (.float x) n = .ok (.float y) := by
  cases n <;> exact ⟨_, rfl⟩

end Exact

/-! ### Quotients -/

section Quotients

/-- Whether one of the divisors, which come one after the other, is minus one and meets the
least integer as the quotient so far. -/
def DividesLeast (a : Int) (ds : List Int64) : Prop :=
  ∃ before after, ds = before ++ -1 :: after ∧
    (before.map Int64.toInt).foldl (· / ·) a = -2 ^ 63

/-- What a division by integers, one after the other, ends with if it does not wrap around. -/
structure ExactQuotient (name : String) (a : Int64) (ds : List Int64) (r : Except Error Expr) :
    Prop where
  exact : ∀ q : Int64, r = .ok (.integer q) → q.toInt * (ds.map Int64.toInt).prod = a.toInt
  returns : (∀ d ∈ ds, d ≠ 0) → (ds.map Int64.toInt).prod ∣ a.toInt → ¬ DividesLeast a.toInt ds →
    ∃ q : Int64, r = .ok (.integer q)
  overflow : (∀ d ∈ ds, d ≠ 0) → (ds.map Int64.toInt).prod ∣ a.toInt → DividesLeast a.toInt ds →
    r = .error (.runtime (.integerOverflow name))

variable {a d : Int64} {ds : List Int64}

theorem dividesLeast_nil (a : Int) : ¬ DividesLeast a [] := by
  rintro ⟨before, after, split, -⟩
  simp at split

theorem dividesLeast_cons (a : Int) (d : Int64) (ds : List Int64) :
    DividesLeast a (d :: ds) ↔ d = -1 ∧ a = -2 ^ 63 ∨ DividesLeast (a / d.toInt) ds := by
  constructor
  · rintro ⟨_ | ⟨d', before⟩, after, split, reached⟩
    · obtain ⟨rfl, rfl⟩ := List.cons.inj split
      exact .inl ⟨rfl, reached⟩
    · obtain ⟨rfl, rfl⟩ := List.cons.inj split
      exact .inr ⟨before, after, rfl, reached⟩
  · rintro (⟨rfl, least⟩ | ⟨before, after, rfl, reached⟩)
    · exact ⟨[], ds, rfl, least⟩
    · exact ⟨d :: before, after, rfl, reached⟩

theorem toInt_eq_zero_iff {d : Int64} : d.toInt = 0 ↔ d = 0 :=
  Int64.toInt_inj (y := 0)

theorem toInt_eq_neg_one_iff {d : Int64} : d.toInt = -1 ↔ d = -1 :=
  Int64.toInt_inj (y := -1)

/-- Only one quotient does not fit. -/
theorem fitsWord_tdiv_iff {a d : Int} (fits : FitsWord a) (nonzero : d ≠ 0) :
    FitsWord (a.tdiv d) ↔ ¬ (d = -1 ∧ a = -2 ^ 63) := by
  obtain ⟨low, high⟩ := fits
  rcases Nat.lt_or_ge d.natAbs 2 with unit | large
  · obtain rfl | rfl : d = 1 ∨ d = -1 := by omega
    · rw [Int.tdiv_one]
      unfold FitsWord
      omega
    · rw [Int.tdiv_neg, Int.tdiv_one]
      unfold FitsWord
      omega
  · have size : (a.tdiv d).natAbs = a.natAbs / d.natAbs := Int.natAbs_tdiv a d
    have half : a.natAbs / d.natAbs ≤ a.natAbs / 2 := Nat.div_le_div_left large (by decide)
    simp only [FitsWord]
    omega

/-- What a step of a division of integers comes to. -/
inductive Divided (a d : Int64) : Except ArithmeticFault Number → Prop where
  | byZero (zero : d = 0) : Divided a d (.error .divisionByZero)
  | overflow (divisor : d = -1) (least : a.toInt = -2 ^ 63) : Divided a d (.error .overflow)
  | exact (q : Int64) (nonzero : d ≠ 0) (fits : ¬ (d = -1 ∧ a.toInt = -2 ^ 63))
      (divides : d.toInt ∣ a.toInt) (value : q.toInt = a.toInt / d.toInt) :
      Divided a d (.ok (.integer q))
  | inexact (x : Float) (remains : ¬ d.toInt ∣ a.toInt) : Divided a d (.ok (.float x))

theorem divided (a d : Int64) : Divided a d (Number.divide (.integer a) (.integer d)) := by
  rw [Number.divide]
  split
  · rename_i zero
    exact .byZero (toInt_eq_zero_iff.mp zero)
  rename_i nonzero
  split
  · rename_i noRemainder
    have divides : d.toInt ∣ a.toInt := Int.dvd_iff_tmod_eq_zero.mpr noRemainder
    have only := fitsWord_tdiv_iff (fitsWord_toInt a) nonzero
    rw [toInt_eq_neg_one_iff, Int.tdiv_eq_ediv_of_dvd divides] at only
    rw [Int.tdiv_eq_ediv_of_dvd divides]
    rcases Number.exact_cases (a.toInt / d.toInt) with ⟨fits, q, ok, value⟩ | ⟨unfit, fails⟩
    · rw [ok]
      exact .exact q (toInt_eq_zero_iff.not.mp nonzero) (only.mp fits) divides value
    · rw [fails]
      obtain ⟨divisor, least⟩ := not_not.mp (only.not.mp unfit)
      exact .overflow divisor least
  · rename_i remainder
    exact .inexact _ fun divides => remainder (Int.dvd_iff_tmod_eq_zero.mp divides)

section Step

variable {name : String} {q : Int64} {r : Except Error Expr}

/-- After a step without a remainder the quotient takes the place of the number divided. -/
theorem dividesLeast_cons_iff (fits : ¬ (d = -1 ∧ a.toInt = -2 ^ 63))
    (value : q.toInt = a.toInt / d.toInt) :
    DividesLeast a.toInt (d :: ds) ↔ DividesLeast q.toInt ds := by
  rw [dividesLeast_cons, value, or_iff_right fits]

theorem prod_dvd_cons_iff (nonzero : d ≠ 0) (exact : q.toInt * d.toInt = a.toInt) :
    (List.map Int64.toInt (d :: ds)).prod ∣ a.toInt ↔ (ds.map Int64.toInt).prod ∣ q.toInt := by
  rw [List.map_cons, List.prod_cons, ← exact, mul_comm q.toInt]
  exact mul_dvd_mul_iff_left (toInt_eq_zero_iff.not.mpr nonzero)

theorem not_prod_dvd_cons (remains : ¬ d.toInt ∣ a.toInt) :
    ¬ (List.map Int64.toInt (d :: ds)).prod ∣ a.toInt := by
  rw [List.map_cons, List.prod_cons]
  exact fun divides => remains (dvd_of_mul_right_dvd divides)

/-- A step without a remainder that fits. -/
theorem ExactQuotient.cons (nonzero : d ≠ 0) (fits : ¬ (d = -1 ∧ a.toInt = -2 ^ 63))
    (divides : d.toInt ∣ a.toInt) (value : q.toInt = a.toInt / d.toInt)
    (rest : ExactQuotient name q ds r) : ExactQuotient name a (d :: ds) r := by
  have exact : q.toInt * d.toInt = a.toInt := by rw [value, Int.ediv_mul_cancel divides]
  have least := @dividesLeast_cons_iff a d ds q fits value
  have divisible := (@prod_dvd_cons_iff a d ds q nonzero exact).mp
  refine ⟨fun p ok => ?_, fun all prod never => ?_, fun all prod some => ?_⟩
  · rw [List.map_cons, List.prod_cons, mul_left_comm, rest.exact p ok, mul_comm, exact]
  · exact rest.returns (List.forall_mem_cons.mp all).2 (divisible prod) (least.not.mp never)
  · exact rest.overflow (List.forall_mem_cons.mp all).2 (divisible prod) (least.mp some)

/-- A step that leaves a remainder. -/
theorem ExactQuotient.of_float (remains : ¬ d.toInt ∣ a.toInt) (x : Float) :
    ExactQuotient name a (d :: ds) (.ok (.float x)) := by
  exact ⟨nofun, fun _ divides => absurd divides (not_prod_dvd_cons remains),
    fun _ divides => absurd divides (not_prod_dvd_cons remains)⟩

end Step

/-- Steps without a remainder make up a division that is exact or overflows. -/
theorem accumulate_exactQuotient (site : Site) (a : Int64) (index : Nat) (ds : List Int64) :
    ExactQuotient site.name a ds
      ((accumulate site Number.divide (.integer a) index (ds.map .integer)).map
        Number.toExpr) := by
  induction ds generalizing a index with
  | nil =>
    refine ⟨?_, fun _ _ _ => ⟨a, rfl⟩, fun _ _ least => absurd least (dividesLeast_nil _)⟩
    rintro q ⟨⟩
    exact Int.mul_one _
  | cons d ds ih =>
    rw [List.map_cons, accumulate_integer]
    have step := divided a d
    generalize Number.divide (.integer a) (.integer d) = quotient at step
    cases step with
    | byZero zero =>
      refine ⟨nofun, fun nonzero => ?_, fun nonzero => ?_⟩
      all_goals exact absurd zero (nonzero d List.mem_cons_self)
    | overflow divisor least =>
      refine ⟨nofun, fun _ _ never => absurd ?_ never, fun _ _ _ => rfl⟩
      exact (dividesLeast_cons _ _ _).mpr (.inl ⟨divisor, least⟩)
    | exact q nonzero fits divides value =>
      exact (ih q (index + 1)).cons nonzero fits divides value
    | inexact x remains =>
      -- No integer comes out any more, and by the remainder none had to.
      obtain ⟨y, float⟩ := accumulate_float Number.divide_float site x (index + 1)
        (ds.map .integer)
      rw [List.map_map] at float
      have ended : (arithmetic site (.ok (.float x)) >>= fun acc =>
          accumulate site Number.divide acc (index + 1) (ds.map .integer)) = .ok (.float y) := float
      rw [ended]
      exact .of_float remains y

end Quotients

/-! ### Calls -/

section Calls

variable {op : Builtin} {f : Number → Number → Except ArithmeticFault Number} {neutral : Int64}
  {post : Except Error Expr → Prop}

theorem callsEnd_total (body : op.body = total f neutral) (args : List Expr)
    (ends : ∀ scope, post
      ((accumulate ⟨op.name, scope⟩ f (.integer neutral) 0 args).map Number.toExpr)) :
    op.CallsEnd args post := by
  refine Builtin.CallsEnd.of_body _ (fun site => by rw [body]; rfl) fun w scope m => ?_
  rw [World.outcome_run_map]
  exact ends scope

/-- The neutral number takes the place of a first argument. -/
theorem callsEnd_reduction_one (body : op.body = reduction f neutral) (n : Number)
    (ends : ∀ scope, post
      ((accumulate ⟨op.name, scope⟩ f (.integer neutral) 0 [n.toExpr]).map Number.toExpr)) :
    op.CallsEnd [n.toExpr] post := by
  refine Builtin.CallsEnd.of_body (fun site => do
    let r ← arithmetic site (f (.integer neutral) n)
    return r.toExpr) (fun site => by rw [body]; cases n <;> rfl) fun w scope m => ?_
  rw [World.outcome_run_map, ← accumulate_singleton _ _ 0]
  exact ends scope

theorem callsEnd_reduction (body : op.body = reduction f neutral) (a : Number) (e : Expr)
    (rest : List Expr)
    (ends : ∀ scope, post
      ((accumulate ⟨op.name, scope⟩ f a 0 (e :: rest)).map Number.toExpr)) :
    op.CallsEnd (a.toExpr :: e :: rest) post := by
  refine Builtin.CallsEnd.of_body (fun site => do
    let r ← accumulate site f a 0 (e :: rest)
    return r.toExpr) (fun site => by rw [body]; cases a <;> rfl) fun w scope m => ?_
  rw [World.outcome_run_map]
  exact ends scope

theorem foldl_sub (a : Int) (ns : List Int) : ns.foldl (· - ·) a = a - ns.sum := by
  induction ns generalizing a with
  | nil => exact (Int.sub_zero a).symm
  | cons n ns ih => rw [List.foldl_cons, ih, List.sum_cons, Int.sub_sub]

/-- No call with integers wraps around. A sum starts from zero, a product from one, and a
difference or a quotient from its first argument, but a single argument is subtracted from
zero or divides one. -/
theorem Builtin.integer_arithmetic (a n : Int64) (ns : List Int64) :
    Builtin.add.CallsEnd (ns.map .integer)
        (ExactOrOverflow "+" ((ns.map Int64.toInt).scanl (· + ·) 0) (ns.map Int64.toInt).sum) ∧
      Builtin.multiply.CallsEnd (ns.map .integer)
        (ExactOrOverflow "*" ((ns.map Int64.toInt).scanl (· * ·) 1) (ns.map Int64.toInt).prod) ∧
      Builtin.subtract.CallsEnd [.integer n]
        (ExactOrOverflow "-" ([n.toInt].scanl (· - ·) 0) (0 - n.toInt)) ∧
      Builtin.subtract.CallsEnd ((a :: n :: ns).map .integer)
        (ExactOrOverflow "-" (((n :: ns).map Int64.toInt).scanl (· - ·) a.toInt)
          (a.toInt - ((n :: ns).map Int64.toInt).sum)) ∧
      Builtin.divide.CallsEnd [.integer n] (fun r =>
        ExactQuotient "/" 1 [n] r ∧ ∀ q, r = .ok (.integer q) → q = n) ∧
      Builtin.divide.CallsEnd ((a :: n :: ns).map .integer) (ExactQuotient "/" a (n :: ns)) := by
  refine ⟨?sum, ?product, ?negation, ?difference, ?reciprocal, ?quotient⟩
  case sum =>
    rw [List.sum_eq_foldl]
    exact callsEnd_total rfl _ fun scope =>
      accumulate_exactOrOverflow (fun _ _ => rfl) ⟨_, scope⟩ 0 0 ns
  case product =>
    rw [List.prod_eq_foldl]
    exact callsEnd_total rfl _ fun scope =>
      accumulate_exactOrOverflow (fun _ _ => rfl) ⟨_, scope⟩ 1 0 ns
  case negation =>
    exact callsEnd_reduction_one rfl (.integer n) fun scope =>
      accumulate_exactOrOverflow (fun _ _ => rfl) ⟨_, scope⟩ 0 0 [n]
  case difference =>
    rw [← foldl_sub]
    exact callsEnd_reduction rfl (.integer a) (.integer n) _ fun scope =>
      accumulate_exactOrOverflow (fun _ _ => rfl) ⟨_, scope⟩ a 0 (n :: ns)
  case reciprocal =>
    refine callsEnd_reduction_one rfl (.integer n) fun scope => ?_
    have quotient := accumulate_exactQuotient ⟨Builtin.divide.name, scope⟩ 1 0 [n]
    refine ⟨quotient, fun q ok => ?_⟩
    have exact : q.toInt * (n.toInt * 1) = 1 := quotient.exact q ok
    rw [Int.mul_one] at exact
    apply Int64.toInt_inj.mp
    rcases Int.mul_eq_one_iff_eq_one_or_neg_one.mp exact with ⟨one, same⟩ | ⟨one, same⟩
    all_goals rw [one, same]
  case quotient =>
    exact callsEnd_reduction rfl (.integer a) (.integer n) _ fun scope =>
      accumulate_exactQuotient ⟨_, scope⟩ a 0 (n :: ns)

/-- A sum fails that leaves the range although it comes back to the greatest integer. -/
theorem Builtin.integer_arithmetic_beyond_range :
    ([Int64.maxValue, 1, -1].map Int64.toInt).sum = Int64.maxValue.toInt ∧
      outcome (World.apply {} (.object ⟨0⟩ (.builtin .add))
        [.integer Int64.maxValue, .integer 1, .integer (-1)] Store.root Machine.bare) =
          .error (.runtime (.integerOverflow "+")) := by
  refine ⟨by decide, ?_⟩
  have sum := (Builtin.integer_arithmetic 0 0 [Int64.maxValue, 1, -1]).1.of_room {}
    (.object ⟨0⟩ (.builtin .add)) Store.root Machine.bare rfl (by decide)
  exact sum.overflow (by decide)

end Calls

end Lisp
