import Lisp.Sexp.Basic

/-!
# Data

What a text denotes: an expression without identities and without functions.
-/

namespace Lisp

/-- An expression as it is read. -/
abbrev Datum := Sexp Unit Empty

namespace Datum

def cons (car cdr : Datum) : Datum := .pair () none car cdr

/-- A list of the given elements that ends in `tail`. -/
def listWithTail (items : List Datum) (tail : Datum) : Datum := items.foldr cons tail

/-- A proper list. -/
def list (items : List Datum) : Datum := listWithTail items .nil

/-- An expression under a mark: the list of the mark's symbol and the
expression. -/
def marked (m : Mark) (operand : Datum) : Datum :=
  .pair () (some m) (.symbol m.head) (cons operand .nil)

@[simp] theorem properItems?_list (items : List Datum) :
    (list items).properItems? = some items := by
  induction items with
  | nil => rfl
  | cons d items ih =>
    rw [show list (d :: items) = .pair () none d (list items) from rfl, Sexp.properItems?_pair, ih]
    rfl

end Datum

end Lisp
