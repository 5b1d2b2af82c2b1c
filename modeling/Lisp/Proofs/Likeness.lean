import Lisp.Machine
import Mathlib.Data.List.Forall2
import Mathlib.Data.Option.Basic
import Mathlib.Order.Basic

/-!
# Alike up to the identities of objects

Two runs may do the same and still number their objects differently. A likeness says which
objects of the two stand for each other. It is one-to-one, so that two values are one
object on the left exactly if they are on the right.

Expressions are alike if they differ in nothing but such objects. A likeness grows while
the runs go on: what both make at the same time stands for each other from then on, and
what was alike stays alike.
-/

namespace Lisp

/-- Which objects of two runs stand for each other. The runs have made `left` and `right`
objects so far. -/
structure Likeness where
  object : ObjectId → ObjectId → Prop
  left : Nat
  right : Nat
  oneToOne : ∀ {i j i' j'}, object i j → object i' j' → (i = i' ↔ j = j')
  /-- Objects yet to be made stand for each other at most in the order of their making. -/
  inStep : ∀ {i j}, object i j → i.index < left ∧ j.index < right ∨
    ∃ d, i.index = left + d ∧ j.index = right + d

namespace Likeness

/-- A likeness between the same runs at a later time. -/
structure Precedes (ρ σ : Likeness) : Prop where
  object : ∀ {i j}, ρ.object i j → σ.object i j
  made : ∀ {i j}, σ.object i j → ρ.object i j ∨
    (ρ.left ≤ i.index ∧ i.index < σ.left) ∧ ρ.right ≤ j.index ∧ j.index < σ.right
  left : ρ.left ≤ σ.left
  right : ρ.right ≤ σ.right

instance : Preorder Likeness where
  le := Precedes
  le_refl _ := ⟨id, .inl, Nat.le_refl _, Nat.le_refl _⟩
  le_trans ρ σ τ first second :=
    { object := fun same => second.object (first.object same)
      made := fun same => by
        have left := first.left
        have right := first.right
        have left' := second.left
        have right' := second.right
        rcases second.made same with same | made
        · rcases first.made same with same | made
          · exact .inl same
          · exact .inr (by omega)
        · exact .inr (by omega)
      left := Nat.le_trans first.left second.left
      right := Nat.le_trans first.right second.right }

variable {ρ σ : Likeness} {i j : ObjectId}

theorem object_mono (le : ρ ≤ σ) (h : ρ.object i j) : σ.object i j := le.object h

theorem index_injective {i j : ObjectId} (h : i.index = j.index) : i = j := by
  cases i
  cases j
  exact congrArg ObjectId.mk h

/-- The likeness after both runs have made as many objects. -/
def grow (ρ : Likeness) (count : Nat) : Likeness where
  object i j := ρ.object i j ∨ ∃ d < count, i.index = ρ.left + d ∧ j.index = ρ.right + d
  left := ρ.left + count
  right := ρ.right + count
  oneToOne := by
    -- Both pairs are in step, so their indices decide unless both were alike before.
    have mixed : ∀ {i j i' j' : ObjectId} {d : Nat}, ρ.object i j → i'.index = ρ.left + d →
        j'.index = ρ.right + d → (i = i' ↔ j = j') := by
      intro i j i' j' d old left right
      constructor
      · rintro rfl
        refine index_injective ?_
        rcases ρ.inStep old with ⟨_, _⟩ | ⟨_, _, _⟩ <;> omega
      · rintro rfl
        refine index_injective ?_
        rcases ρ.inStep old with ⟨_, _⟩ | ⟨_, _, _⟩ <;> omega
    rintro i j i' j' (old | ⟨d, _, left, right⟩) (old' | ⟨d', _, left', right'⟩)
    · exact ρ.oneToOne old old'
    · exact mixed old left' right'
    · rw [eq_comm, eq_comm (a := j)]
      exact mixed old' left right
    · constructor
      · rintro rfl
        exact index_injective (by omega)
      · rintro rfl
        exact index_injective (by omega)
  inStep := by
    rintro i j (old | ⟨d, _, left, right⟩)
    · rcases ρ.inStep old with ⟨_, _⟩ | ⟨d, left, right⟩
      · exact .inl ⟨by omega, by omega⟩
      · by_cases small : d < count
        · exact .inl ⟨by omega, by omega⟩
        · exact .inr ⟨d - count, by omega, by omega⟩
    · exact .inl ⟨by omega, by omega⟩

theorem le_grow (ρ : Likeness) (count : Nat) : ρ ≤ ρ.grow count where
  object := .inl
  made := by
    rintro i j (old | ⟨d, _, left, right⟩)
    · exact .inl old
    · exact .inr (by simp only [grow]; omega)
  left := Nat.le_add_right _ _
  right := Nat.le_add_right _ _

theorem grow_object (ρ : Likeness) {count d : Nat} (small : d < count) :
    (ρ.grow count).object ⟨ρ.left + d⟩ ⟨ρ.right + d⟩ := .inr ⟨d, small, rfl, rfl⟩

/-- The code of two functions is alike if their bodies are. -/
inductive OfCode {ε : Type} (like : ε → ε → Prop) : Code ε → Code ε → Prop where
  | builtin (op : Builtin) : OfCode like (.builtin op) (.builtin op)
  | registered (name : String) (entry : Nat) :
      OfCode like (.registered name entry) (.registered name entry)
  | named (name : String) (parameters : List String) {body body'} : List.Forall₂ like body body' →
      OfCode like (.named name parameters body) (.named name parameters body')
  | lambda (parameters : List String) {body body'} : List.Forall₂ like body body' →
      OfCode like (.lambda parameters body) (.lambda parameters body')
  | closure (parameters : List String) (scope : ScopeId) {body body'} :
      List.Forall₂ like body body' →
      OfCode like (.closure parameters body scope) (.closure parameters body' scope)

/-- Expressions that differ at most in objects that stand for each other. -/
inductive Like (ρ : Likeness) : Expr → Expr → Prop where
  | nil : Like ρ .nil .nil
  | bool (b : Bool) : Like ρ (.bool b) (.bool b)
  | integer (n : Int64) : Like ρ (.integer n) (.integer n)
  | float (x : Float) : Like ρ (.float x) (.float x)
  | string (text : String) : Like ρ (.string text) (.string text)
  | symbol (name : String) : Like ρ (.symbol name) (.symbol name)
  | pair {i j : ObjectId} (mark : Option Mark) {car car' cdr cdr'} : ρ.object i j →
      Like ρ car car' → Like ρ cdr cdr' → Like ρ (.pair i mark car cdr) (.pair j mark car' cdr')
  | function {i j : ObjectId} {code code'} : ρ.object i j → OfCode (Like ρ) code code' →
      Like ρ (.function (.object i code)) (.function (.object j code'))

/-- Lists of expressions that are alike one by one. -/
abbrev LikeAll (ρ : Likeness) (es es' : List Expr) : Prop := List.Forall₂ ρ.Like es es'

abbrev LikeCode (ρ : Likeness) (code code' : Code Expr) : Prop := OfCode ρ.Like code code'

/-- Functions that are alike as values. -/
def LikeFunction (ρ : Likeness) (f f' : Function) : Prop := ρ.Like (.function f) (.function f')

/-- What was alike stays alike. -/
theorem Like.mono {e e' : Expr} (le : ρ ≤ σ) : ρ.Like e e' → σ.Like e e'
  | .nil => .nil
  | .bool b => .bool b
  | .integer n => .integer n
  | .float x => .float x
  | .string text => .string text
  | .symbol name => .symbol name
  | .pair mark same car cdr => .pair mark (object_mono le same) (car.mono le) (cdr.mono le)
  | .function same (.builtin op) => .function (object_mono le same) (.builtin op)
  | .function same (.registered name entry) =>
    .function (object_mono le same) (.registered name entry)
  | .function same (.named name ps body) =>
    .function (object_mono le same) (.named name ps (bodies body))
  | .function same (.lambda ps body) => .function (object_mono le same) (.lambda ps (bodies body))
  | .function same (.closure ps scope body) =>
    .function (object_mono le same) (.closure ps scope (bodies body))
where
  bodies : ∀ {es es' : List Expr}, ρ.LikeAll es es' → σ.LikeAll es es'
    | _, _, .nil => .nil
    | _, _, .cons e es => .cons (e.mono le) (bodies es)

theorem LikeAll.mono {es es' : List Expr} (le : ρ ≤ σ) (h : ρ.LikeAll es es') : σ.LikeAll es es' :=
  h.imp fun _ _ => Like.mono le

theorem LikeFunction.mono {f f' : Function} (le : ρ ≤ σ) (h : ρ.LikeFunction f f') :
    σ.LikeFunction f f' := Like.mono le h

theorem OfCode.imp {ε : Type} {like like' : ε → ε → Prop} {code code' : Code ε}
    (le : ∀ e e', like e e' → like' e e') (h : OfCode like code code') :
    OfCode like' code code' := by
  cases h with
  | builtin op => exact .builtin op
  | registered name entry => exact .registered name entry
  | named name ps body => exact .named name ps (body.imp le)
  | lambda ps body => exact .lambda ps (body.imp le)
  | closure ps scope body => exact .closure ps scope (body.imp le)

end Likeness
end Lisp
