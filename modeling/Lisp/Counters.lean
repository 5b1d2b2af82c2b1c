import Lisp.Datum.Basic

/-!
# Evaluation counters

How many expressions have been evaluated, how many symbols have been looked up,
how many functions have been called, and how many literals there were among the
expressions.
-/

namespace Lisp

structure Counters where
  evaluations : Nat := 0
  symbolLookups : Nat := 0
  functionCalls : Nat := 0
  literals : Nat := 0
  deriving DecidableEq, Repr

namespace Counters

/-- What was counted since an earlier moment. -/
def since (c earlier : Counters) : Counters where
  evaluations := c.evaluations - earlier.evaluations
  symbolLookups := c.symbolLookups - earlier.symbolLookups
  functionCalls := c.functionCalls - earlier.functionCalls
  literals := c.literals - earlier.literals

/-- One count as a pair of a symbol and an integer. A count of `2 ^ 63` or more
wraps around to a negative integer. -/
def entry (name : String) (count : Nat) : Datum :=
  Datum.cons (.symbol name) (.integer (Int64.ofNat count))

/-- The counters as an association list. -/
def toDatum (c : Counters) : Datum :=
  Datum.list
    [entry "evaluations" c.evaluations, entry "symbol-lookups" c.symbolLookups,
      entry "function-calls" c.functionCalls, entry "literals" c.literals]

end Counters

end Lisp
