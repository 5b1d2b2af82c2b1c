/-!
# Symbolic expressions

Code and data are one type: atoms, and pairs of expressions. A list is a chain
of pairs along their second parts; it is proper when the chain ends in `nil`.
The false boolean counts as `nil` for truth, for the end of a list, for printing
and for equality, and is still an atom of its own.

The type has two parameters. Each pair carries an identity `κ`, and functions
are of type `φ`. Text that has been read has neither identities nor functions;
the values of a running program have both.
-/

namespace Lisp

/-- The two marks that abbreviate a list of two elements. -/
inductive Mark where
  | quote
  | function
  deriving DecidableEq, Repr

namespace Mark

/-- The symbol that a mark stands for. -/
def head : Mark → String
  | quote => "quote"
  | function => "function"

/-- How a mark is written. -/
def sign : Mark → List Char
  | quote => ['\x27']
  | function => ['#', '\x27']

end Mark

/-- Expressions whose pairs have identities in `κ` and whose functions are in
`φ`. A pair remembers the mark with which it was written. -/
inductive Sexp (κ φ : Type) where
  | nil
  | bool (value : Bool)
  | integer (value : Int64)
  | float (value : Float)
  | string (text : String)
  | symbol (name : String)
  | pair (id : κ) (mark : Option Mark) (car cdr : Sexp κ φ)
  | function (value : φ)

namespace Sexp

variable {κ φ : Type}

instance : Inhabited (Sexp κ φ) := ⟨.nil⟩

/-- `nil` and the false boolean; everything else counts as true. -/
def isNil : Sexp κ φ → Bool
  | .nil => true
  | .bool b => !b
  | _ => false

def isTrue (e : Sexp κ φ) : Bool := !e.isNil

def isPair : Sexp κ φ → Bool
  | .pair .. => true
  | _ => false

def isAtom (e : Sexp κ φ) : Bool := !e.isPair

/-- A pair or the empty list. -/
def isList (e : Sexp κ φ) : Bool := e.isNil || e.isPair

def isNumber : Sexp κ φ → Bool
  | .integer _ => true
  | .float _ => true
  | _ => false

/-- The name of the type of an expression, as programs see it. -/
def typeName : Sexp κ φ → String
  | .nil => "null"
  | .bool _ => "boolean"
  | .integer _ => "integer"
  | .float _ => "float"
  | .string _ => "string"
  | .symbol _ => "symbol"
  | .pair .. => "cons"
  | .function _ => "function"

def symbol? : Sexp κ φ → Option String
  | .symbol name => some name
  | _ => none

/-- The value of a number as a double. -/
def number? : Sexp κ φ → Option Float
  | .integer n => some (Float.ofInt n.toInt)
  | .float x => some x
  | _ => none

def car? : Sexp κ φ → Option (Sexp κ φ)
  | .pair _ _ car _ => some car
  | _ => none

def cdr? : Sexp κ φ → Option (Sexp κ φ)
  | .pair _ _ _ cdr => some cdr
  | _ => none

/-- The elements of a list. The end of an improper list is its last element,
and an atom other than `nil` is its own only element. -/
def items : Sexp κ φ → List (Sexp κ φ)
  | .pair _ _ car cdr => car :: cdr.items
  | .nil => []
  | e => [e]

/-- The elements of a proper list. -/
def properItems? : Sexp κ φ → Option (List (Sexp κ φ))
  | .pair _ _ car cdr => cdr.properItems?.map (car :: ·)
  | e => if e.isNil then some [] else none

/-- The last pair of a list, and an atom itself. -/
def lastPair : Sexp κ φ → Sexp κ φ
  | e@(.pair _ _ _ cdr) => if cdr.isPair then cdr.lastPair else e
  | e => e

/-- The element at an index, or `nil` past the end of the list. -/
def nthItem : Nat → Sexp κ φ → Sexp κ φ
  | 0, .pair _ _ car _ => car
  | n + 1, .pair _ _ _ cdr => nthItem n cdr
  | _, _ => .nil

@[simp] theorem properItems?_nil : (nil : Sexp κ φ).properItems? = some [] := rfl

@[simp] theorem properItems?_pair (id : κ) (mark : Option Mark) (car cdr : Sexp κ φ) :
    (pair id mark car cdr).properItems? = cdr.properItems?.map (car :: ·) := rfl

/-- On a proper list that ends in `nil` the two readings of its elements agree;
an end in the false boolean is one element more for `items`. -/
theorem items_of_properItems? {e : Sexp κ φ} {es : List (Sexp κ φ)}
    (h : e.properItems? = some es) : e.items = es ∨ e.items = es ++ [.bool false] := by
  induction e generalizing es with
  | pair id mark car cdr _ ih =>
    rw [properItems?_pair, Option.map_eq_some_iff] at h
    obtain ⟨tail, tailItems, rfl⟩ := h
    rcases ih tailItems with same | same <;> simp [items, same]
  | nil => simp_all [properItems?, items, isNil]
  | bool b => cases b <;> simp_all [properItems?, items, isNil]
  | _ => simp [properItems?, isNil] at h

end Sexp

/-- Values that may be told apart by being one object. -/
class Identified (α : Type) where
  same : α → α → Bool

/-- Two cells of plain data are never one object. -/
instance : Identified Unit := ⟨fun _ _ => false⟩

instance : Identified Empty := ⟨fun a => a.elim⟩

/-- Functions print as a short description. -/
class Described (α : Type) where
  describe : α → String

instance : Described Empty := ⟨fun a => a.elim⟩

end Lisp
