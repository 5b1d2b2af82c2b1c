import Lisp.Machine
import Mathlib.Data.Set.Basic

/-!
# Equality of data without floats

Two expressions without floats are equal exactly if they have the same essence: what is left
of them when pairs lose their identities and marks and the false boolean becomes `nil`.
Equality is therefore an equivalence that goes through pairs, and the order agrees with it.

An identity has to stand for one pair only, since pairs with one identity are equal without
a look inside. A heap says which pair that is. Pairs do not change, and those that a program
makes have identities that were not used before, so that a heap only ever grows. Floats are
left out because NaN does not equal itself, and because several integers equal one float.
-/

namespace Lisp

/-! ### Heaps -/

/-- The pair that each identity stands for. -/
abbrev Heap := ObjectId → Option (Option Mark × Expr × Expr)

namespace Heap

variable {heap larger : Heap} {n : Nat} {id : ObjectId}

/-- Whether a heap still holds every pair of another one. -/
def Extends (heap larger : Heap) : Prop := ∀ i cell, heap i = some cell → larger i = some cell

/-- Whether no identity from a number on is in use. -/
def UnusedFrom (heap : Heap) (n : Nat) : Prop := ∀ i : ObjectId, n ≤ i.index → heap i = none

/-- A heap with one pair more. -/
def store (heap : Heap) (id : ObjectId) (cell : Option Mark × Expr × Expr) : Heap :=
  fun i => if i = id then some cell else heap i

theorem Extends.trans {largest : Heap} (first : heap.Extends larger)
    (second : larger.Extends largest) : heap.Extends largest :=
  fun i cell there => second i cell (first i cell there)

theorem extends_store (free : heap id = none) (cell : Option Mark × Expr × Expr) :
    heap.Extends (heap.store id cell) := by
  intro i other there
  have apart : i ≠ id := by
    rintro rfl
    simp [free] at there
  rw [store, if_neg apart, there]

theorem UnusedFrom.extends_store (unused : heap.UnusedFrom n)
    (cell : Option Mark × Expr × Expr) : heap.Extends (heap.store ⟨n⟩ cell) :=
  Heap.extends_store (unused ⟨n⟩ le_rfl) cell

theorem UnusedFrom.store (unused : heap.UnusedFrom n) (cell : Option Mark × Expr × Expr) :
    (heap.store ⟨n⟩ cell).UnusedFrom (n + 1) := by
  intro i above
  have apart : i ≠ ⟨n⟩ := by
    rintro rfl
    exact absurd above (by simp)
  rw [Heap.store, if_neg apart, unused i (Nat.le_of_succ_le above)]

end Heap

namespace Sexp

/-- Whether all pairs of an expression are those of a heap. -/
def StoredIn (heap : Heap) : Expr → Prop
  | .pair id mark car cdr =>
    heap id = some (mark, car, cdr) ∧ car.StoredIn heap ∧ cdr.StoredIn heap
  | _ => True

section Making

variable {heap larger : Heap} {w : World} {m m' : Machine} {e : Expr}

theorem StoredIn.mono (stored : e.StoredIn heap) (grown : heap.Extends larger) :
    e.StoredIn larger := by
  induction e with
  | pair id mark car cdr ihCar ihCdr =>
    exact ⟨grown _ _ stored.1, ihCar stored.2.1, ihCdr stored.2.2⟩
  | _ => trivial

/-- A pair that a program makes extends the heap of its parts. -/
theorem exists_heap_cons {car cdr : Expr} (unused : heap.UnusedFrom m.objects)
    (first : car.StoredIn heap) (second : cdr.StoredIn heap)
    (made : (Effect.cons car cdr).perform w m = .ok e m') :
    ∃ larger, heap.Extends larger ∧ larger.UnusedFrom m'.objects ∧ e.StoredIn larger := by
  cases made
  have grown := unused.extends_store (none, car, cdr)
  exact ⟨_, grown, unused.store _, if_pos rfl, first.mono grown, second.mono grown⟩

theorem exists_heap_placed (d : Datum) {n : Nat} (unused : heap.UnusedFrom n) :
    ∃ larger, heap.Extends larger ∧ larger.UnusedFrom (Datum.place d n).2 ∧
      (Datum.place d n).1.StoredIn larger := by
  induction d generalizing heap n with
  | pair id mark car cdr ihCar ihCdr =>
    -- The identity of a pair is taken before those of its parts.
    let placed := Datum.place car (n + 1)
    let cell := (mark, placed.1, (Datum.place cdr placed.2).1)
    have grown := unused.extends_store cell
    obtain ⟨middle, grownCar, unusedCar, first⟩ := ihCar (unused.store cell)
    obtain ⟨larger, grownCdr, unusedCdr, second⟩ := ihCdr unusedCar
    have kept := grownCar.trans grownCdr
    exact ⟨larger, grown.trans kept, unusedCdr, kept _ _ (if_pos rfl), first.mono grownCdr, second⟩
  | function f => exact f.elim
  | _ => exact ⟨heap, fun _ _ => id, unused, trivial⟩

/-- A datum that a program places extends every heap. -/
theorem exists_heap_place {d : Datum} (unused : heap.UnusedFrom m.objects)
    (made : (Effect.place d).perform w m = .ok e m') :
    ∃ larger, heap.Extends larger ∧ larger.UnusedFrom m'.objects ∧ e.StoredIn larger := by
  cases made
  exact exists_heap_placed d unused

end Making

/-! ### Equality -/

variable {κ φ : Type}

/-- Whether no float occurs in an expression. -/
def FloatFree : Sexp κ φ → Prop
  | .float _ => False
  | .pair _ _ car cdr => car.FloatFree ∧ cdr.FloatFree
  | _ => True

/-- What equality looks at. -/
def essence : Sexp κ Function → Sexp Unit ObjectId
  | .nil => .nil
  | .bool b => if b then .bool true else .nil
  | .integer n => .integer n
  | .float x => .float x
  | .string text => .string text
  | .symbol name => .symbol name
  | .pair _ _ car cdr => .pair () none car.essence cdr.essence
  | .function f => .function f.id

/-- The same expression with pairs of which no two are one object, and without marks. -/
def unshared : Sexp κ φ → Sexp Unit φ
  | .nil => .nil
  | .bool b => .bool b
  | .integer n => .integer n
  | .float x => .float x
  | .string text => .string text
  | .symbol name => .symbol name
  | .pair _ _ car cdr => .pair () none car.unshared cdr.unshared
  | .function f => .function f

theorem FloatFree.unshared {e : Sexp κ φ} (free : e.FloatFree) : e.unshared.FloatFree := by
  induction e with
  | pair id mark car cdr ihCar ihCdr => exact ⟨ihCar free.1, ihCdr free.2⟩
  | _ => exact free

theorem essence_unshared (e : Sexp κ Function) : e.unshared.essence = e.essence := by
  induction e with
  | pair id mark car cdr ihCar ihCdr => rw [unshared, essence, essence, ihCar, ihCdr]
  | _ => rfl

theorem equal_pair [Identified κ] [Identified φ] (i j : κ) (m m' : Option Mark)
    (a a' d d' : Sexp κ φ) :
    (pair i m a d).equal (pair j m' a' d') =
      (Identified.same i j || (a.equal a' && d.equal d')) := rfl

/-- Two expressions that are not both pairs are compared as they are. -/
theorem equal_iff_of_atom [Identified κ] {a b : Sexp κ Function}
    (atom : a.isPair = false ∨ b.isPair = false) (ha : a.FloatFree) (hb : b.FloatFree) :
    a.equal b = true ↔ a.essence = b.essence := by
  rcases a with _ | ⟨_ | _⟩ | _ | _ | _ | _ | _ | _ <;>
    rcases b with _ | ⟨_ | _⟩ | _ | _ | _ | _ | _ | _ <;>
      simp_all [isPair, FloatFree, equal, essence, isNil, Identified.same]

/-- Without shared pairs, equality is equality of essences. -/
theorem equal_unshared_iff {a b : Expr} (ha : a.FloatFree) (hb : b.FloatFree) :
    a.unshared.equal b.unshared = true ↔ a.essence = b.essence := by
  induction a generalizing b with
  | pair i m car cdr ihCar ihCdr =>
    cases b with
    | pair j m' car' cdr' =>
      have apart : Identified.same () () = false := rfl
      simp only [unshared, essence, equal_pair, apart, Bool.false_or, Bool.and_eq_true,
        ihCar ha.1 hb.1, ihCdr ha.2 hb.2]
      simp
    | _ =>
      rw [equal_iff_of_atom (.inr rfl) ha.unshared hb.unshared, essence_unshared, essence_unshared]
  | _ =>
    rw [equal_iff_of_atom (.inl rfl) ha.unshared hb.unshared, essence_unshared, essence_unshared]

/-- Pairs that are one object have one essence, so that it does no harm to look no further. -/
theorem equal_iff {heap : Heap} {a b : Expr} (storedA : a.StoredIn heap)
    (storedB : b.StoredIn heap) (ha : a.FloatFree) (hb : b.FloatFree) :
    a.equal b = true ↔ a.essence = b.essence := by
  induction a generalizing b with
  | pair i m car cdr ihCar ihCdr =>
    cases b with
    | pair j m' car' cdr' =>
      have parts := (ihCar storedA.2.1 storedB.2.1 ha.1 hb.1).and
        (ihCdr storedA.2.2 storedB.2.2 ha.2 hb.2)
      rw [equal_pair, Bool.or_eq_true, Bool.and_eq_true, parts]
      simp only [essence, pair.injEq, true_and, or_iff_right_iff_imp]
      intro same
      obtain rfl : i = j := of_decide_eq_true same
      have one := Option.some.inj (storedA.1.symm.trans storedB.1)
      simp only [Prod.mk.injEq] at one
      exact ⟨congrArg essence one.2.1, congrArg essence one.2.2⟩
    | _ => exact equal_iff_of_atom (.inr rfl) ha hb
  | _ => exact equal_iff_of_atom (.inl rfl) ha hb

/-- The same atom is always equal, and so are pairs that are one object. -/
theorem equal_of_eql {a b : Expr} (same : a.eql b = true) : a.equal b = true := by
  rcases a with _ | ⟨_ | _⟩ | _ | _ | _ | _ | _ | _ <;>
    rcases b with _ | ⟨_ | _⟩ | _ | _ | _ | _ | _ | _ <;>
      simp_all [eql, equal, isNil]

/-! ### Order -/

section Order

/-- What is compared when there are no floats. -/
inductive Compared : Expr → Expr → Ordering → Prop where
  | integers (m n : Int64) : Compared (.integer m) (.integer n) (compare m.toInt n.toInt)
  | strings (s t : String) : Compared (.string s) (.string t) (compare s t)
  | symbols (s t : String) : Compared (.symbol s) (.symbol t) (compare s t)

variable {a b c : Expr} {o o' : Ordering}

theorem Compared.compare?_eq (h : Compared a b o) : a.compare? b = some o := by
  cases h <;> rfl

theorem compared_of_compare? (ha : a.FloatFree) (hb : b.FloatFree)
    (compared : a.compare? b = some o) : Compared a b o := by
  cases a <;> cases b <;> first
    | obtain rfl := Option.some.inj compared
      constructor
    | simp_all [compare?, number?, FloatFree]

theorem compare_then {α : Type} [Ord α] [Std.TransOrd α] [Std.LawfulEqOrd α] {x y z : α}
    (first : (compare x y).isLE) (second : (compare y z).isLE) :
    compare x z = (compare x y).then (compare y z) := by
  cases left : compare x y with
  | eq =>
    obtain rfl := Std.LawfulEqCmp.eq_of_compare left
    rfl
  | lt =>
    cases right : compare y z with
    | eq =>
      obtain rfl := Std.LawfulEqCmp.eq_of_compare right
      exact left
    | lt => exact Std.TransCmp.lt_trans left right
    | gt => simp [right] at second
  | gt => simp [left] at first

theorem Compared.symm (h : Compared a b o) : Compared b a o.swap := by
  cases h with
  | integers m n =>
    rw [← Std.OrientedCmp.eq_swap]
    exact .integers n m
  | strings s t =>
    rw [← Std.OrientedCmp.eq_swap]
    exact .strings t s
  | symbols s t =>
    rw [← Std.OrientedCmp.eq_swap]
    exact .symbols t s

theorem Compared.trans (h : Compared a b o) (h' : Compared b c o') (first : o.isLE)
    (second : o'.isLE) : Compared a c (o.then o') := by
  cases h <;> cases h' <;> rw [← compare_then first second] <;> constructor

theorem Compared.eq_iff (h : Compared a b o) : o = .eq ↔ a.equal b = true := by
  cases h <;> simp [equal, Int64.toInt_inj]

end Order

/-! ### Laws -/

/-- The laws of the three relations on some expressions. -/
structure EqualityLaws (all : Set Expr) : Prop where
  refl : ∀ a ∈ all, a.equal a = true
  symm : ∀ a ∈ all, ∀ b ∈ all, a.equal b = b.equal a
  trans : ∀ a ∈ all, ∀ b ∈ all, ∀ c ∈ all,
    a.equal b = true → b.equal c = true → a.equal c = true
  pair : ∀ i m a d j m' a' d', .pair i m a d ∈ all → .pair j m' a' d' ∈ all →
    ((Sexp.pair i m a d).equal (.pair j m' a' d') = true ↔ a.equal a' = true ∧ d.equal d' = true)
  marks : ∀ i m j m' a d, .pair i m a d ∈ all → .pair j m' a d ∈ all →
    (Sexp.pair i m a d).equal (.pair j m' a d) = true
  falsity : ∀ a ∈ all, a.equal (.bool false) = a.equal .nil ∧
    (Sexp.bool false : Expr).equal a = (Sexp.nil : Expr).equal a
  unshared : ∀ a ∈ all, ∀ b ∈ all, a.equal b = a.unshared.equal b.unshared
  eql : ∀ a ∈ all, ∀ b ∈ all, a.eql b = true → a.equal b = true
  compare_swap : ∀ a ∈ all, ∀ b ∈ all, b.compare? a = (a.compare? b).map Ordering.swap
  compare_eq : ∀ a ∈ all, ∀ b ∈ all, ∀ o, a.compare? b = some o → (o = .eq ↔ a.equal b = true)
  compare_trans : ∀ a ∈ all, ∀ b ∈ all, ∀ c ∈ all, ∀ o o',
    a.compare? b = some o → b.compare? c = some o' → o.isLE → o'.isLE →
      a.compare? c = some (o.then o')

/-- Equality on the data of a heap without floats is an equivalence that goes through pairs
and looks neither at marks nor at identities. It holds between expressions that are `eql`,
and between expressions of which none comes before the other. -/
theorem equalityLaws (heap : Heap) : EqualityLaws {e | e.StoredIn heap ∧ e.FloatFree} where
  refl a ha := (equal_iff ha.1 ha.1 ha.2 ha.2).mpr rfl
  symm a ha b hb := by
    rw [Bool.eq_iff_iff, equal_iff ha.1 hb.1 ha.2 hb.2, equal_iff hb.1 ha.1 hb.2 ha.2]
    exact eq_comm
  trans a ha b hb c hc first second := by
    rw [equal_iff ha.1 hb.1 ha.2 hb.2] at first
    rw [equal_iff hb.1 hc.1 hb.2 hc.2] at second
    exact (equal_iff ha.1 hc.1 ha.2 hc.2).mpr (first.trans second)
  pair i m a d j m' a' d' left right := by
    rw [equal_iff left.1 right.1 left.2 right.2,
      equal_iff left.1.2.1 right.1.2.1 left.2.1 right.2.1,
      equal_iff left.1.2.2 right.1.2.2 left.2.2 right.2.2]
    simp [essence]
  marks i m j m' a d left right := (equal_iff left.1 right.1 left.2 right.2).mpr rfl
  falsity a _ := by rcases a with _ | ⟨_ | _⟩ | _ <;> exact ⟨rfl, rfl⟩
  unshared a ha b hb := by
    rw [Bool.eq_iff_iff, equal_iff ha.1 hb.1 ha.2 hb.2, equal_unshared_iff ha.2 hb.2]
  eql a _ b _ := equal_of_eql
  compare_swap a ha b hb := by
    cases compared : a.compare? b with
    | some o => exact (compared_of_compare? ha.2 hb.2 compared).symm.compare?_eq
    | none =>
      cases back : b.compare? a with
      | none => rfl
      | some o =>
        have ahead := (compared_of_compare? hb.2 ha.2 back).symm.compare?_eq
        exact absurd (compared.symm.trans ahead) (by simp)
  compare_eq a ha b hb o compared := (compared_of_compare? ha.2 hb.2 compared).eq_iff
  compare_trans a ha b hb c hc o o' first second le le' :=
    ((compared_of_compare? ha.2 hb.2 first).trans (compared_of_compare? hb.2 hc.2 second)
      le le').compare?_eq

/-- An empty list under a mark equals the same list written out around the false boolean, and
equality does not depend on the pair that is the end of both. -/
theorem equalityLaws_shared_end :
    let ending : Expr := .pair ⟨0⟩ none (.bool false) .nil
    let marked : Expr := .pair ⟨1⟩ (some .quote) (.symbol "quote") ending
    let plain : Expr := .pair ⟨2⟩ none (.symbol "quote") ending
    let apart : Expr := .pair ⟨3⟩ none (.symbol "quote") (.pair ⟨4⟩ none .nil .nil)
    marked.equal plain = true ∧ plain.equal apart = true ∧ marked.equal apart = true := by
  intro ending marked plain apart
  let heap : Heap := fun i =>
    [(none, .bool false, .nil), (some .quote, .symbol "quote", ending),
      (none, .symbol "quote", ending), (none, .symbol "quote", .pair ⟨4⟩ none .nil .nil),
      (none, .nil, .nil)][i.index]?
  have stored : ∀ e ∈ [marked, plain, apart], e ∈ {e : Expr | e.StoredIn heap ∧ e.FloatFree} := by
    simp [marked, plain, apart, ending, StoredIn, FloatFree, heap]
  have ofMarked := stored marked (by simp)
  have ofPlain := stored plain (by simp)
  have laws := equalityLaws heap
  have sameParts := laws.marks _ _ _ _ _ _ ofMarked ofPlain
  have sameEnds : plain.equal apart = true := by decide
  exact ⟨sameParts, sameEnds,
    laws.trans _ ofMarked _ ofPlain apart (stored apart (by simp)) sameParts sameEnds⟩

end Sexp

end Lisp
