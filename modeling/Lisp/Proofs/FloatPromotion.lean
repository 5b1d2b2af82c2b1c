import Lisp.Proofs.IntegerArithmetic

/-!
# Sums, products and differences with a float

A float among the arguments makes the result a float, but only from the step on that it
takes part in. The integers in front of it are still combined as integers, and a partial
result of theirs that does not fit into 64 bits ends the call. So the place of the float
decides: behind the first float nothing overflows, and in front of it nothing is promoted.

Nothing is said about which float the result is.
-/

namespace Lisp

open Library
open Decimal (FitsWord)

/-- An operation that comes to a float as soon as one operand is one. -/
structure Promotes (op : Number → Number → Except ArithmeticFault Number) : Prop where
  left : ∀ x n, ∃ y, op (.float x) n = .ok (.float y)
  right : ∀ n x, ∃ y, op n (.float x) = .ok (.float y)

theorem Number.promotes_add : Promotes Number.add where
  left x n := by cases n <;> exact ⟨_, rfl⟩
  right n x := by cases n <;> exact ⟨_, rfl⟩

theorem Number.promotes_subtract : Promotes Number.subtract where
  left x n := by cases n <;> exact ⟨_, rfl⟩
  right n x := by cases n <;> exact ⟨_, rfl⟩

theorem Number.promotes_multiply : Promotes Number.multiply where
  left x n := by cases n <;> exact ⟨_, rfl⟩
  right n x := by cases n <;> exact ⟨_, rfl⟩

/-- The integers in front of the first float. -/
def leadingIntegers : List Number → List Int64
  | .integer n :: rest => n :: leadingIntegers rest
  | _ => []

theorem exists_eq_leadingIntegers {ns : List Number} (mixed : ∃ x, Number.float x ∈ ns) :
    ∃ x rest, ns = (leadingIntegers ns).map Number.integer ++ .float x :: rest := by
  induction ns with
  | nil =>
    obtain ⟨x, mem⟩ := mixed
    cases mem
  | cons n ns ih =>
    cases n with
    | float x => exact ⟨x, ns, rfl⟩
    | integer n =>
      obtain ⟨x, mem⟩ := mixed
      obtain ⟨y, rest, same⟩ := ih ⟨x, by simpa using mem⟩
      exact ⟨y, rest, congrArg (Number.integer n :: ·) same⟩

/-- What a computation with a float ends with, by the partial results in front of it. -/
structure FloatOrOverflow (name : String) (partials : List Int) (r : Except Error Expr) :
    Prop where
  float_iff : (∃ x, r = .ok (.float x)) ↔ ∀ n ∈ partials, FitsWord n
  overflow_iff : r = .error (.runtime (.integerOverflow name)) ↔
    ¬ ∀ n ∈ partials, FitsWord n

section Steps

variable {name : String} {partials : List Int} {value : Int} {r : Except Error Expr}
  {op : Number → Number → Except ArithmeticFault Number} {f : Int → Int → Int}

theorem FloatOrOverflow.of_float (returned : ∃ x, r = .ok (.float x))
    (fit : ∀ n ∈ partials, FitsWord n) : FloatOrOverflow name partials r := by
  obtain ⟨x, rfl⟩ := returned
  exact ⟨iff_of_true ⟨x, rfl⟩ fit, iff_of_false nofun (not_not.mpr fit)⟩

/-- Integers are combined first, and a computation that comes to a float goes on. -/
theorem ExactOrOverflow.followed {first : Except Error Number}
    {next : Number → Except Error Number}
    (h : ExactOrOverflow name partials value (first.map Number.toExpr))
    (float : ∀ n, ∃ y, next n = .ok (.float y)) :
    FloatOrOverflow name partials ((first >>= next).map Number.toExpr) := by
  by_cases fit : ∀ n ∈ partials, FitsWord n
  · obtain ⟨word, returned, -⟩ := h.exact fit
    cases first with
    | error e => cases returned
    | ok n =>
      obtain ⟨y, goes⟩ := float n
      exact .of_float ⟨y, congrArg (Except.map Number.toExpr) goes⟩ fit
  · have failed := h.overflow fit
    cases first with
    | error e =>
      obtain rfl := Except.error.inj failed
      refine ⟨iff_of_false ?_ fit, iff_of_true rfl fit⟩
      rintro ⟨x, returned⟩
      cases returned
    | ok n => cases failed

theorem accumulate_append (site : Site) (acc : Number) (index : Nat) (as bs : List Expr) :
    accumulate site op acc index (as ++ bs) =
      accumulate site op acc index as >>= fun acc =>
        accumulate site op acc (index + as.length) bs := by
  induction as generalizing acc index with
  | nil => rfl
  | cons e as ih =>
    simp only [List.cons_append, accumulate, bind_assoc, ih, List.length_cons]
    simp only [Nat.add_assoc, Nat.add_comm 1]

/-- Numbers with a float among them, combined from an integer on. -/
theorem accumulate_mixed
    (step : ∀ m n : Int64, op (.integer m) (.integer n) = Number.exact (f m.toInt n.toInt))
    (promotes : Promotes op) (site : Site) (acc : Int64) (index : Nat) {ns : List Number}
    (mixed : ∃ x, Number.float x ∈ ns) :
    FloatOrOverflow site.name
      (((leadingIntegers ns).map Int64.toInt).scanl f acc.toInt)
      ((accumulate site op (.integer acc) index (ns.map Number.toExpr)).map Number.toExpr) := by
  obtain ⟨x, rest, same⟩ := exists_eq_leadingIntegers mixed
  have parts : ns.map Number.toExpr =
      (leadingIntegers ns).map .integer ++ (Number.float x :: rest).map Number.toExpr := by
    conv_lhs => rw [same]
    rw [List.map_append, List.map_map]
    rfl
  rw [parts, accumulate_append]
  refine (accumulate_exactOrOverflow step site acc index (leadingIntegers ns)).followed fun n => ?_
  obtain ⟨y, here⟩ := promotes.right n x
  rw [List.map_cons, accumulate_number, here]
  exact accumulate_float promotes.left site y _ rest

end Steps

/-- The partial results of a difference of integers that starts from the first of them. -/
def partialDifferences : List Int64 → List Int
  | [] => []
  | a :: rest => (rest.map Int64.toInt).scanl (· - ·) a.toInt

/-- A difference that begins with a float is one. -/
theorem callsEnd_float_difference (x : Float) (rest : List Number) :
    Builtin.subtract.CallsEnd ((Number.float x :: rest).map Number.toExpr)
      (FloatOrOverflow "-" []) := by
  cases rest with
  | nil =>
    refine callsEnd_reduction_one rfl (.float x) fun scope => .of_float ?_ nofun
    obtain ⟨y, negated⟩ := Number.promotes_subtract.right (.integer 0) x
    exact ⟨y, by rw [accumulate_singleton, negated]; rfl⟩
  | cons second rest =>
    refine callsEnd_reduction rfl (.float x) _ _ fun scope => .of_float ?_ nofun
    obtain ⟨y, float⟩ := accumulate_float Number.promotes_subtract.left
      ⟨Builtin.subtract.name, scope⟩ x 0 (second :: rest)
    exact ⟨y, congrArg (Except.map Number.toExpr) float⟩

/-- A sum, a product or a difference of numbers with a float among them is a float exactly if
all partial results of the integers in front of the first float fit. Otherwise the call fails
with an overflow. -/
theorem Builtin.mixed_arithmetic (ns : List Number) (mixed : ∃ x, Number.float x ∈ ns) :
    Builtin.add.CallsEnd (ns.map Number.toExpr)
        (FloatOrOverflow "+" (((leadingIntegers ns).map Int64.toInt).scanl (· + ·) 0)) ∧
      Builtin.multiply.CallsEnd (ns.map Number.toExpr)
        (FloatOrOverflow "*" (((leadingIntegers ns).map Int64.toInt).scanl (· * ·) 1)) ∧
      Builtin.subtract.CallsEnd (ns.map Number.toExpr)
        (FloatOrOverflow "-" (partialDifferences (leadingIntegers ns))) := by
  refine ⟨?sum, ?product, ?difference⟩
  case sum =>
    exact callsEnd_total rfl _ fun scope =>
      accumulate_mixed (fun _ _ => rfl) Number.promotes_add ⟨_, scope⟩ 0 0 mixed
  case product =>
    exact callsEnd_total rfl _ fun scope =>
      accumulate_mixed (fun _ _ => rfl) Number.promotes_multiply ⟨_, scope⟩ 1 0 mixed
  case difference =>
    obtain ⟨x, mem⟩ := mixed
    cases ns with
    | nil => cases mem
    | cons first rest =>
      cases first with
      | float y => exact callsEnd_float_difference y rest
      | integer a =>
        have later : Number.float x ∈ rest := by simpa using mem
        obtain ⟨second, more, rfl⟩ := List.exists_cons_of_ne_nil (List.ne_nil_of_mem later)
        exact callsEnd_reduction rfl (.integer a) _ _ fun scope =>
          accumulate_mixed (fun _ _ => rfl) Number.promotes_subtract ⟨_, scope⟩ a 0 ⟨x, later⟩

/-- Behind the float nothing overflows. -/
theorem Builtin.mixed_arithmetic_behind_float :
    (∃ x, Number.float x ∈ [.integer 1, .float 1.5, .integer Int64.maxValue, .integer 1]) ∧
      ∃ x, outcome (World.apply {} (.object ⟨0⟩ (.builtin .add))
        [.integer 1, .float 1.5, .integer Int64.maxValue, .integer 1] Store.root
        Machine.bare) = .ok (.float x) := by
  have mixed : ∃ x, Number.float x ∈
      [.integer 1, .float 1.5, .integer Int64.maxValue, .integer 1] := ⟨1.5, by simp⟩
  refine ⟨mixed, ?_⟩
  have sum := (Builtin.mixed_arithmetic _ mixed).1.of_room {} (.object ⟨0⟩ (.builtin .add))
    Store.root Machine.bare rfl (by decide)
  exact sum.float_iff.mpr (by decide)

/-- The same three numbers add up to a float with the float in front, and overflow with the
float at the end. -/
theorem Builtin.not_mixed_arithmetic_float :
    (∃ x, outcome (World.apply {} (.object ⟨0⟩ (.builtin .add))
        [.float 1.0, .integer Int64.maxValue, .integer 1] Store.root Machine.bare) =
          .ok (.float x)) ∧
      ¬ ∀ ns : List Number, (∃ x, Number.float x ∈ ns) →
        Builtin.add.CallsEnd (ns.map Number.toExpr) (fun r => ∃ x, r = .ok (.float x)) ∧
          Builtin.multiply.CallsEnd (ns.map Number.toExpr) (fun r => ∃ x, r = .ok (.float x)) ∧
          Builtin.subtract.CallsEnd (ns.map Number.toExpr) (fun r => ∃ x, r = .ok (.float x)) := by
  refine ⟨⟨_, rfl⟩, fun promoted => ?_⟩
  have fails : outcome (World.apply {} (.object ⟨0⟩ (.builtin .add))
      [.integer Int64.maxValue, .integer 1, .float 1.0] Store.root Machine.bare) =
        .error (.runtime (.integerOverflow "+")) := by rfl
  obtain ⟨sum, -⟩ := promoted [.integer Int64.maxValue, .integer 1, .float 1.0] ⟨1.0, by simp⟩
  obtain ⟨x, returned⟩ := sum.of_room {} (.object ⟨0⟩ (.builtin .add)) Store.root Machine.bare
    rfl (by decide)
  have same := fails.symm.trans returned
  cases same

end Lisp
