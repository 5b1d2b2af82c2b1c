import Lisp.Library.Table
import Lisp.Proofs.Likeness

/-!
# What can be told apart of alike values

Nothing that looks at values tells alike ones apart: not their types, their truth, their
elements, their printed forms, their order, and not whether two of them are equal or one
object. Only the last two look at the identities of objects at all, and they merely
compare them.
-/

namespace Lisp

/-- A mark is printed only where a second element follows. -/
theorem Sexp.write_pair_of_atom {i : ObjectId} {mark : Option Mark} {car cdr : Expr}
    (atom : cdr.isPair = false) (rest : List Char) :
    (Sexp.pair i mark car cdr).write rest = '(' :: car.write (cdr.writeTail rest) := by
  cases mark <;> cases cdr <;> first | rfl | cases atom

namespace Likeness

variable {ρ : Likeness} {e e' d d' : Expr} {f f' g g' : Function}

namespace LikeFunction

theorem id (h : ρ.LikeFunction f f') : ρ.object f.id f'.id := by
  cases h with
  | function same _ => exact same

theorem isSpecial_eq (h : ρ.LikeFunction f f') : f.isSpecial = f'.isSpecial := by
  cases h with
  | function _ code => cases code <;> rfl

theorem describe_eq (h : ρ.LikeFunction f f') : Described.describe f = Described.describe f' := by
  cases h with
  | function _ code => cases code <;> rfl

end LikeFunction

theorem rel_map {α β α' β' : Type} {r : α → β → Prop} {r' : α' → β' → Prop} {f : α → α'}
    {g : β → β'} {a? : Option α} {b? : Option β} (h : Option.Rel r a? b?)
    (le : ∀ a b, r a b → r' (f a) (g b)) : Option.Rel r' (a?.map f) (b?.map g) := by
  cases h with
  | none => exact .none
  | some same => exact .some (le _ _ same)

/-- Identities are compared with the same result on both sides. -/
theorem same_object_eq {i j i' j' : ObjectId} (h : ρ.object i j) (h' : ρ.object i' j') :
    Identified.same i i' = Identified.same j j' :=
  decide_eq_decide.mpr (ρ.oneToOne h h')

theorem same_function_eq (h : ρ.LikeFunction f f') (h' : ρ.LikeFunction g g') :
    Identified.same f g = Identified.same f' g' :=
  decide_eq_decide.mpr (ρ.oneToOne h.id h'.id)

namespace Like

/-- Induction along the pairs of an expression. -/
@[elab_as_elim]
theorem spine {motive : (e e' : Expr) → ρ.Like e e' → Prop}
    (atom : ∀ {e e'} (h : ρ.Like e e'), e.isPair = false → motive e e' h)
    (pair : ∀ {i j} mark {car car' cdr cdr'} (same : ρ.object i j) (first : ρ.Like car car')
      (second : ρ.Like cdr cdr'), motive car car' first → motive cdr cdr' second →
      motive (.pair i mark car cdr) (.pair j mark car' cdr') (.pair mark same first second)) :
    ∀ {e e'} (h : ρ.Like e e'), motive e e' h
  | _, _, .pair mark same car cdr =>
    pair mark same car cdr (spine atom pair car) (spine atom pair cdr)
  | _, _, .nil => atom _ rfl
  | _, _, .bool b => atom (.bool b) rfl
  | _, _, .integer n => atom (.integer n) rfl
  | _, _, .float x => atom (.float x) rfl
  | _, _, .string text => atom (.string text) rfl
  | _, _, .symbol name => atom (.symbol name) rfl
  | _, _, .function same code => atom (.function same code) rfl

theorem isNil_eq (h : ρ.Like e e') : e.isNil = e'.isNil := by
  cases h <;> rfl

theorem isTrue_eq (h : ρ.Like e e') : e.isTrue = e'.isTrue := by
  rw [Sexp.isTrue, Sexp.isTrue, h.isNil_eq]

theorem isPair_eq (h : ρ.Like e e') : e.isPair = e'.isPair := by
  cases h <;> rfl

theorem isList_eq (h : ρ.Like e e') : e.isList = e'.isList := by
  cases h <;> rfl

theorem typeName_eq (h : ρ.Like e e') : e.typeName = e'.typeName := by
  cases h <;> rfl

theorem ofExpr?_eq (h : ρ.Like e e') : Number.ofExpr? e = Number.ofExpr? e' := by
  cases h <;> rfl

section Text

theorem writeAtom_eq (h : ρ.Like e e') : e.writeAtom = e'.writeAtom := by
  cases h with
  | function same code =>
    have described := LikeFunction.describe_eq (.function same code)
    exact congrArg String.toList described
  | _ => rfl

theorem write_of_atom (h : ρ.Like e e') (atom : e.isPair = false) (rest : List Char) :
    e.write rest = e'.write rest := by
  have spelled := h.writeAtom_eq
  cases h with
  | pair => cases atom
  | _ => simp only [Sexp.write, spelled]

theorem writeTail_of_atom (h : ρ.Like e e') (atom : e.isPair = false) (rest : List Char) :
    e.writeTail rest = e'.writeTail rest := by
  have spelled := h.writeAtom_eq
  have ends := h.isNil_eq
  cases h with
  | pair => cases atom
  | _ => simp only [Sexp.writeTail, spelled, ends]

mutual

/-- Alike expressions are printed alike. -/
theorem write_eq {e e' : Expr} : ρ.Like e e' → ∀ rest, e.write rest = e'.write rest
  | .pair none _ car cdr, rest => by
    rw [Sexp.write, Sexp.write, cdr.writeTail_eq, car.write_eq]
    all_goals simp
  | .pair (some m) _ car (.pair _ _ operand last), rest => by
    simp only [Sexp.write, last.isNil_eq, last.writeTail_eq, operand.write_eq, car.write_eq]
  | .pair (some m) _ car (.function same code), rest => by
    rw [Sexp.write_pair_of_atom rfl, Sexp.write_pair_of_atom rfl, car.write_eq,
      writeTail_of_atom (.function same code) rfl]
  | .pair (some m) _ car .nil, rest
  | .pair (some m) _ car (.bool _), rest
  | .pair (some m) _ car (.integer _), rest
  | .pair (some m) _ car (.float _), rest
  | .pair (some m) _ car (.string _), rest
  | .pair (some m) _ car (.symbol _), rest => by simp only [Sexp.write, car.write_eq]
  | .function same code, rest => write_of_atom (.function same code) rfl rest
  | .nil, _ | .bool _, _ | .integer _, _ | .float _, _ | .string _, _ | .symbol _, _ => rfl

theorem writeTail_eq {e e' : Expr} : ρ.Like e e' → ∀ rest, e.writeTail rest = e'.writeTail rest
  | .pair _ _ car cdr, rest => by
    rw [Sexp.writeTail, Sexp.writeTail, cdr.writeTail_eq, car.write_eq]
  | .function same code, rest => writeTail_of_atom (.function same code) rfl rest
  | .nil, _ | .bool _, _ | .integer _, _ | .float _, _ | .string _, _ | .symbol _, _ => rfl

end

theorem text_eq (h : ρ.Like e e') : e.text = e'.text :=
  congrArg String.ofList (h.write_eq [])

end Text

section Comparison

/-- Two values are equal exactly if the values that they are alike to are. -/
theorem equal_eq (h : ρ.Like e e') (h' : ρ.Like d d') : e.equal d = e'.equal d' := by
  induction h using spine generalizing d d' with
  | pair mark same car cdr ihCar ihCdr =>
    cases h' with
    | pair mark' same' car' cdr' =>
      rw [Sexp.equal, Sexp.equal, same_object_eq same same', ihCar car', ihCdr cdr']
    | _ => rfl
  | atom h atom =>
    cases h with
    | pair => cases atom
    | function same code =>
      cases h' with
      | function same' code' =>
        exact same_function_eq (.function same code) (.function same' code')
      | _ => rfl
    | bool b => cases b <;> cases h' <;> rfl
    | _ => cases h' <;> rfl

theorem eql_eq (h : ρ.Like e e') (h' : ρ.Like d d') : e.eql d = e'.eql d' := by
  cases h with
  | pair mark same car cdr =>
    cases h' with
    | pair mark' same' car' cdr' => exact same_object_eq same same'
    | _ => rfl
  | function same code =>
    cases h' with
    | function same' code' => exact same_function_eq (.function same code) (.function same' code')
    | _ => rfl
  | bool b => cases b <;> cases h' <;> rfl
  | _ => cases h' <;> rfl

theorem compare?_eq (h : ρ.Like e e') (h' : ρ.Like d d') : e.compare? d = e'.compare? d' := by
  cases h <;> cases h' <;> rfl

end Comparison

section Elements

theorem nthItem (h : ρ.Like e e') (n : Nat) : ρ.Like (e.nthItem n) (e'.nthItem n) := by
  induction n generalizing e e' with
  | zero =>
    cases h with
    | pair _ _ car _ => exact car
    | _ => exact .nil
  | succ n ih =>
    cases h with
    | pair _ _ _ cdr => exact ih cdr
    | _ => exact .nil

theorem lastPair (h : ρ.Like e e') : ρ.Like e.lastPair e'.lastPair := by
  induction h using spine with
  | pair mark same car cdr _ ih =>
    rw [Sexp.lastPair, Sexp.lastPair, cdr.isPair_eq]
    split
    · exact ih
    · exact .pair mark same car cdr
  | atom h atom =>
    cases h with
    | pair => cases atom
    | function same code => exact .function same code
    | _ => constructor

/-- What `member` finds is alike when it is looked for in alike lists. -/
theorem tailFrom (value : ρ.Like d d') (h : ρ.Like e e') :
    ρ.Like (Library.tailFrom d e) (Library.tailFrom d' e') := by
  induction h using spine with
  | pair mark same car cdr _ ih =>
    rw [Library.tailFrom, Library.tailFrom, car.equal_eq value]
    split
    · exact .pair mark same car cdr
    · exact ih
  | atom h atom =>
    cases h with
    | pair => cases atom
    | _ => exact .nil

/-- Alike lists are both proper and have alike elements, or both are not. -/
theorem properItems? (h : ρ.Like e e') : Option.Rel ρ.LikeAll e.properItems? e'.properItems? := by
  induction h using spine with
  | pair mark same car cdr _ ih =>
    rw [Sexp.properItems?_pair, Sexp.properItems?_pair]
    exact rel_map ih fun _ _ items => .cons car items
  | atom h atom =>
    cases h with
    | pair => cases atom
    | nil => exact .some .nil
    | bool b =>
      cases b
      · exact .some .nil
      · exact .none
    | _ => exact .none

end Elements

end Like

namespace LikeAll

variable {es es' : List Expr}

theorem map_text_eq (h : ρ.LikeAll es es') : es.map Sexp.text = es'.map Sexp.text := by
  induction h with
  | nil => rfl
  | cons first _ ih => rw [List.map_cons, List.map_cons, first.text_eq, ih]

theorem getLast? (h : ρ.LikeAll es es') : Option.Rel ρ.Like es.getLast? es'.getLast? := by
  have reversed := List.forall₂_reverse_iff.mpr h
  rw [← List.head?_reverse, ← List.head?_reverse]
  generalize es.reverse = items, es'.reverse = items' at reversed
  cases reversed with
  | nil => exact .none
  | cons last _ => exact .some last

theorem getLast (h : ρ.LikeAll es es') (some : es ≠ []) (some' : es' ≠ []) :
    ρ.Like (es.getLast some) (es'.getLast some') := by
  have last := h.getLast?
  rw [List.getLast?_eq_some_getLast some, List.getLast?_eq_some_getLast some'] at last
  cases last with
  | some last => exact last

theorem dropLast (h : ρ.LikeAll es es') : ρ.LikeAll es.dropLast es'.dropLast := by
  rw [List.dropLast_eq_take, List.dropLast_eq_take, h.length_eq]
  exact List.forall₂_take _ h

end LikeAll

end Likeness

end Lisp
