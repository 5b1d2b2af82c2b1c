/-!
# Argument counts

How many arguments a function takes, and what is wrong with a count that does
not fit. Too few is reported before too many.
-/

namespace Lisp

/-- The argument counts that a function accepts. -/
inductive Arity where
  | exact (count : Nat)
  | atLeast (least : Nat)
  | range (least most : Nat)
  | any
  deriving DecidableEq, Repr

/-- A count outside an arity. `exact` tells that only one count is accepted. -/
inductive ArityFault where
  | tooFew (exact : Bool) (least received : Nat)
  | tooMany (exact : Bool) (most received : Nat)
  deriving DecidableEq, Repr

namespace Arity

/-- The least count accepted. -/
def least : Arity → Nat
  | exact n => n
  | atLeast n => n
  | range n _ => n
  | any => 0

/-- The greatest count accepted, if there is one. -/
def most? : Arity → Option Nat
  | exact n => some n
  | atLeast _ => none
  | range _ n => some n
  | any => none

def Admits (a : Arity) (n : Nat) : Prop :=
  a.least ≤ n ∧ ∀ most, a.most? = some most → n ≤ most

/-- What is wrong with a count, if anything is. -/
def fault? (a : Arity) (n : Nat) : Option ArityFault :=
  if n < a.least then some (.tooFew (a.most? == some a.least) a.least n)
  else match a.most? with
    | some most => if most < n then some (.tooMany (most == a.least) most n) else none
    | none => none

theorem fault?_eq_none_iff (a : Arity) (n : Nat) : a.fault? n = none ↔ a.Admits n := by
  unfold fault? Admits
  by_cases few : n < a.least
  · rw [if_pos few]
    exact ⟨fun h => (nomatch h), fun h => absurd h.1 (Nat.not_le.mpr few)⟩
  · rw [if_neg few]
    have enough : a.least ≤ n := Nat.le_of_not_lt few
    cases a.most? with
    | none => exact ⟨fun _ => ⟨enough, fun _ h => (nomatch h)⟩, fun _ => rfl⟩
    | some most =>
      by_cases many : most < n
      · simp only [many, if_true]
        exact ⟨fun h => (nomatch h), fun h => absurd (h.2 most rfl) (Nat.not_le.mpr many)⟩
      · simp only [many, if_false, true_iff]
        refine ⟨enough, ?_⟩
        intro bound same
        cases same
        exact Nat.le_of_not_lt many

end Arity

/-- The text of a wrong argument count, after the name of the function. -/
def ArityFault.message : ArityFault → String
  | tooFew exact least received =>
    ": too few arguments provided! Expected " ++ (if exact then "" else "at least ")
      ++ toString least ++ " but received " ++ toString received ++ "."
  | tooMany exact most received =>
    ": too many arguments provided! Expected " ++ (if exact then "" else "at most ")
      ++ toString most ++ " but received " ++ toString received ++ "."

end Lisp
