import Lisp.Library.Table
import Lisp.Machine
import Mathlib.Data.Set.Lattice

/-!
# The scopes that an expression captures

An expression speaks of scopes only through closures: those that occur in its
pairs, and those that occur in the body of any function in it. Whoever holds an
expression can reach these scopes by calling the closures, and no others.
-/

namespace Lisp

namespace Code

variable {ε : Type}

/-- The expressions that a function of the program consists of. -/
def body : Code ε → List ε
  | builtin _ => []
  | registered _ _ => []
  | named _ _ es => es
  | lambda _ es => es
  | closure _ es _ => es

/-- The scope that a closure has captured. -/
def scope? : Code ε → Option ScopeId
  | closure _ _ scope => some scope
  | _ => none

end Code

namespace Sexp

/-- A closure over a scope occurs in an expression, perhaps inside the body of
another function. -/
inductive Captures : Expr → ScopeId → Prop where
  | car {id mark car cdr scope} : Captures car scope → Captures (.pair id mark car cdr) scope
  | cdr {id mark car cdr scope} : Captures cdr scope → Captures (.pair id mark car cdr) scope
  | here {f scope} : f.code.scope? = some scope → Captures (.function f) scope
  | body {f e scope} : e ∈ f.code.body → Captures e scope → Captures (.function f) scope

/-- The scopes that an expression captures. -/
def captured (e : Expr) : Set ScopeId := {scope | e.Captures scope}

end Sexp

/-- The scopes that the closures in a list of expressions capture. -/
def capturedAll (es : List Expr) : Set ScopeId := ⋃ e ∈ es, e.captured

/-- The scopes that the code of a function gives access to. -/
def Code.captured (code : Code Expr) : Set ScopeId :=
  {scope | code.scope? = some scope} ∪ capturedAll code.body

variable {territory : Set ScopeId}

theorem capturedAll_subset_iff {es : List Expr} :
    capturedAll es ⊆ territory ↔ ∀ e ∈ es, e.captured ⊆ territory := Set.iUnion₂_subset_iff

@[simp] theorem capturedAll_nil : capturedAll [] = ∅ := by simp [capturedAll]

@[simp] theorem capturedAll_cons (e : Expr) (es : List Expr) :
    capturedAll (e :: es) = e.captured ∪ capturedAll es := by
  simp [capturedAll, Set.iUnion_or, Set.iUnion_union_distrib]

@[simp] theorem capturedAll_append (es fs : List Expr) :
    capturedAll (es ++ fs) = capturedAll es ∪ capturedAll fs := by
  induction es with
  | nil => simp
  | cons e es ih => simp [ih, Set.union_assoc]

theorem captured_subset_capturedAll {e : Expr} {es : List Expr} (h : e ∈ es) :
    e.captured ⊆ capturedAll es := Set.subset_biUnion_of_mem (u := Sexp.captured) h

theorem capturedAll_mono {es fs : List Expr} (h : es ⊆ fs) : capturedAll es ⊆ capturedAll fs :=
  capturedAll_subset_iff.mpr fun _ mem => captured_subset_capturedAll (h mem)

namespace Sexp

theorem captured_eq_empty {e : Expr} (h : ∀ scope, ¬ e.Captures scope) : e.captured = ∅ :=
  Set.eq_empty_iff_forall_notMem.mpr h

@[simp] theorem captured_nil : captured .nil = ∅ := captured_eq_empty nofun

@[simp] theorem captured_bool (b : Bool) : captured (.bool b) = ∅ := captured_eq_empty nofun

@[simp] theorem captured_integer (n : Int64) : captured (.integer n) = ∅ := captured_eq_empty nofun

@[simp] theorem captured_float (x : Float) : captured (.float x) = ∅ := captured_eq_empty nofun

@[simp] theorem captured_string (text : String) : captured (.string text) = ∅ :=
  captured_eq_empty nofun

@[simp] theorem captured_symbol (name : String) : captured (.symbol name) = ∅ :=
  captured_eq_empty nofun

@[simp] theorem captured_pair (id : ObjectId) (mark : Option Mark) (car cdr : Expr) :
    captured (.pair id mark car cdr) = car.captured ∪ cdr.captured := by
  ext scope
  constructor
  · rintro (h | h)
    · exact .inl h
    · exact .inr h
  · rintro (h | h)
    · exact .car h
    · exact .cdr h

@[simp] theorem captured_function (f : Function) :
    captured (.function f) = f.code.captured := by
  ext scope
  constructor
  · intro h
    cases h with
    | here found => exact .inl found
    | body mem inside => exact .inr (captured_subset_capturedAll mem inside)
  · rintro (found | inside)
    · exact .here found
    · obtain ⟨e, mem, inside⟩ := Set.mem_iUnion₂.mp inside
      exact .body mem inside

/-- The elements of a proper list capture what the list captures. -/
theorem capturedAll_properItems? {e : Expr} {es : List Expr} (h : e.properItems? = some es) :
    capturedAll es = e.captured := by
  induction e generalizing es with
  | pair id mark car cdr _ ih =>
    rw [properItems?_pair, Option.map_eq_some_iff] at h
    obtain ⟨tail, tailItems, rfl⟩ := h
    simp [ih tailItems]
  | nil => simp_all [properItems?, isNil]
  | bool b => cases b <;> simp_all [properItems?, isNil]
  | _ => simp [properItems?, isNil] at h

theorem captured_nthItem (n : Nat) (e : Expr) : (e.nthItem n).captured ⊆ e.captured := by
  induction n generalizing e with
  | zero => cases e <;> simp [nthItem]
  | succ n ih =>
    cases e with
    | pair id mark car cdr =>
      rw [captured_pair]
      exact (ih cdr).trans Set.subset_union_right
    | _ => simp [nthItem]

theorem captured_lastPair (e : Expr) : e.lastPair.captured ⊆ e.captured := by
  induction e with
  | pair id mark car cdr _ ih =>
    rw [lastPair]
    split
    · rw [captured_pair]
      exact ih.trans Set.subset_union_right
    · exact subset_rfl
  | _ => exact subset_rfl

end Sexp

theorem Library.captured_tailFrom (v e : Expr) : (tailFrom v e).captured ⊆ e.captured := by
  induction e with
  | pair id mark car cdr _ ih =>
    rw [tailFrom]
    split
    · exact subset_rfl
    · rw [Sexp.captured_pair]
      exact ih.trans Set.subset_union_right
  | _ => simp [tailFrom]

theorem Number.captured_toExpr (n : Number) : n.toExpr.captured = ∅ := by
  cases n <;> simp [Number.toExpr]

/-- Data that was read holds no function, and so captures nothing. -/
theorem Datum.captured_place (d : Datum) (n : Nat) : (d.place n).1.captured = ∅ := by
  induction d generalizing n with
  | pair id mark car cdr ihCar ihCdr => simp [Datum.place, ihCar, ihCdr]
  | function f => exact f.elim
  | _ => simp [Datum.place]

end Lisp
