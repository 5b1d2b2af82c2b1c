import Lisp.Proofs.BuiltinCalls
import Lisp.Proofs.Raising
import Lisp.Proofs.Returning
import Lisp.Proofs.StableSorting

/-!
# Sorting items of different kinds

A sort compares only some pairs of its items. If a comparison fails for every two items that
are not of one kind, then a sort of mixed items fails all the same, wherever in the list the
odd ones stand. Of the merges that mix two kinds take a lowest one: each of its halves is
of one kind, and the first thing that it does is to compare their first items.

Integers, strings and symbols can be compared with their like, and no other items but floats
can be compared at all.
-/

namespace Lisp

open Library

section Kinds

variable {α : Type} {less : α → α → Except Error Bool} {kin : α → α → Prop}

/-- A sort has its items in another order as its result, or fails as a comparison of two of
them fails. -/
theorem mergeSort_cases (less : α → α → Except Error Bool) (items : List α) :
    (∃ result, mergeSort less items = .ok result ∧ result.Perm items) ∨
      ∃ e, mergeSort less items = .error e ∧ ∃ a ∈ items, ∃ b ∈ items, less a b = .error e := by
  have ends : (exceptEndings fun e => ∃ a ∈ items, ∃ b ∈ items, less a b = .error e).holds
      (fun result => result.Perm items) (mergeSort less items) :=
    mergeSort_perm _ fun a ha b hb => by
      cases told : less a b with
      | ok answer => trivial
      | error e => exact ⟨a, ha, b, hb, told⟩
  cases sorted : mergeSort less items with
  | ok result =>
    rw [sorted] at ends
    exact .inl ⟨result, rfl, ends⟩
  | error e =>
    rw [sorted] at ends
    exact .inr ⟨e, rfl, ends⟩

/-- A merge of two lists with items begins by comparing the first ones. -/
theorem exists_answer_of_mergeOnto {merged left right result : List α} {a b : α}
    (ok : mergeOnto less merged (a :: left) (b :: right) = .ok result) :
    ∃ answer, less b a = .ok answer := by
  rw [mergeOnto] at ok
  cases asked : less b a with
  | ok answer => exact ⟨answer, rfl⟩
  | error e =>
    rw [asked] at ok
    cases ok

/-- The items of a half are of one kind with the first of them when they are sorted. -/
theorem kin_first {half sorted : List α} {a : α} (perm : (a :: sorted).Perm half)
    (self : kin a a) (all : 2 ≤ half.length → ∀ x ∈ half, ∀ y ∈ half, kin x y) :
    ∀ x ∈ half, kin x a := by
  intro x mem
  have first : a ∈ half := perm.mem_iff.mp List.mem_cons_self
  by_cases long : 2 ≤ half.length
  · exact all long x mem a first
  · obtain ⟨y, rfl⟩ := List.length_eq_one_iff.mp
      (Nat.le_antisymm (by omega) (List.length_pos_of_mem mem))
    rw [List.mem_singleton.mp mem, List.mem_singleton.mp first]
    rwa [List.mem_singleton.mp first] at self

/-- The sorted items of a list that is not empty. -/
theorem exists_cons_of_mergeSort {items result : List α} (ok : mergeSort less items = .ok result)
    (nonempty : 0 < items.length) :
    ∃ a sorted, result = a :: sorted ∧ (a :: sorted).Perm items := by
  rcases mergeSort_cases less items with ⟨result', ok', perm⟩ | ⟨e, failed, _⟩
  · obtain rfl : result = result' := Except.ok.inj (ok.symm.trans ok')
    rw [← perm.length_eq] at nonempty
    obtain ⟨a, sorted, rfl⟩ := List.exists_cons_of_length_pos nonempty
    exact ⟨a, sorted, rfl, perm⟩
  · rw [failed] at ok
    cases ok

/-- If comparisons succeed only between items of one kind then so does a sort. -/
theorem kin_of_mergeSort (symm : ∀ a b, kin a b → kin b a)
    (trans : ∀ a b c, kin a b → kin b c → kin a c) {items result : List α}
    (asked : ∀ a ∈ items, ∀ b ∈ items, ∀ answer, less a b = .ok answer → kin a b)
    (long : 2 ≤ items.length) (ok : mergeSort less items = .ok result) :
    ∀ a ∈ items, ∀ b ∈ items, kin a b := by
  induction items using mergeSort.induct generalizing result with
  | case1 items short => omega
  | case2 items notShort ihLeft ihRight =>
    rw [mergeSort_long notShort] at ok
    obtain ⟨front, frontOk, ok⟩ := exists_ok_of_bind ok
    obtain ⟨back, backOk, ok⟩ := exists_ok_of_bind ok
    have inLeft : ∀ x ∈ items.take (items.length / 2), x ∈ items := fun _ => List.mem_of_mem_take
    have inRight : ∀ x ∈ items.drop (items.length / 2), x ∈ items := fun _ => List.mem_of_mem_drop
    obtain ⟨a, left, rfl, leftPerm⟩ := exists_cons_of_mergeSort frontOk
      (by rw [List.length_take]; omega)
    obtain ⟨b, right, rfl, rightPerm⟩ := exists_cons_of_mergeSort backOk
      (by rw [List.length_drop]; omega)
    -- The merge has compared the first sorted items of the two halves.
    obtain ⟨answer, compared⟩ := exists_answer_of_mergeOnto ok
    have link : kin b a := asked b (inRight b (rightPerm.mem_iff.mp List.mem_cons_self)) a
      (inLeft a (leftPerm.mem_iff.mp List.mem_cons_self)) answer compared
    have ofLeft : ∀ x ∈ items.take (items.length / 2), kin x a :=
      kin_first leftPerm (trans a b a (symm b a link) link) fun long =>
        ihLeft (fun x hx y hy => asked x (inLeft x hx) y (inLeft y hy)) long frontOk
    have ofRight : ∀ x ∈ items.drop (items.length / 2), kin x b :=
      kin_first rightPerm (trans b a b link (symm b a link)) fun long =>
        ihRight (fun x hx y hy => asked x (inRight x hx) y (inRight y hy)) long backOk
    have withFirst : ∀ x ∈ items, kin x a := by
      intro x mem
      rw [← List.take_append_drop (items.length / 2) items, List.mem_append] at mem
      rcases mem with mem | mem
      · exact ofLeft x mem
      · exact trans x b a (ofRight x mem) link
    exact fun x hx y hy => trans x a y (withFirst x hx) (symm y a (withFirst y hy))

end Kinds

/-- Two integers, two strings or two symbols. -/
inductive SameKind : Expr → Expr → Prop where
  | integers (m n : Int64) : SameKind (.integer m) (.integer n)
  | strings (s t : String) : SameKind (.string s) (.string t)
  | symbols (s t : String) : SameKind (.symbol s) (.symbol t)

/-- Only integers, only strings or only symbols. -/
def OfOneKind (items : List Expr) : Prop :=
  (∀ a ∈ items, isInteger a = true) ∨ (∀ a ∈ items, isString a = true) ∨
    ∀ a ∈ items, isSymbol a = true

instance (items : List Expr) : Decidable (OfOneKind items) :=
  inferInstanceAs (Decidable (_ ∨ _ ∨ _))

theorem SameKind.symm {a b : Expr} (h : SameKind a b) : SameKind b a := by
  cases h with
  | integers m n => exact .integers n m
  | strings s t => exact .strings t s
  | symbols s t => exact .symbols t s

theorem SameKind.trans {a b c : Expr} (first : SameKind a b) (second : SameKind b c) :
    SameKind a c := by
  cases first with
  | integers m n => cases second with | integers _ k => exact .integers m k
  | strings s t => cases second with | strings _ u => exact .strings s u
  | symbols s t => cases second with | symbols _ u => exact .symbols s u

theorem sameKind_of_and {a b : Expr}
    (both : isInteger a = true ∧ isInteger b = true ∨ isString a = true ∧ isString b = true ∨
      isSymbol a = true ∧ isSymbol b = true) : SameKind a b := by
  cases a <;> cases b <;> first
    | exact .integers _ _
    | exact .strings _ _
    | exact .symbols _ _
    | simp [isInteger, isString, isSymbol] at both

/-- For a list with an item, each two of the items tell. -/
theorem ofOneKind_iff {items : List Expr} (nonempty : items ≠ []) :
    OfOneKind items ↔ ∀ a ∈ items, ∀ b ∈ items, SameKind a b := by
  constructor
  · rintro (all | all | all) a ha b hb
    · exact sameKind_of_and (.inl ⟨all a ha, all b hb⟩)
    · exact sameKind_of_and (.inr (.inl ⟨all a ha, all b hb⟩))
    · exact sameKind_of_and (.inr (.inr ⟨all a ha, all b hb⟩))
  · intro all
    obtain ⟨a, mem⟩ := List.exists_mem_of_ne_nil items nonempty
    cases all a mem a mem with
    | integers m => exact .inl fun b hb => by cases all _ mem b hb; rfl
    | strings s => exact .inr (.inl fun b hb => by cases all _ mem b hb; rfl)
    | symbols s => exact .inr (.inr fun b hb => by cases all _ mem b hb; rfl)

/-- Of values that are not floats, those of the same kind can be compared. -/
theorem compare?_isSome_iff {a b : Expr} (ha : isFloat a = false) (hb : isFloat b = false) :
    (a.compare? b).isSome = true ↔ SameKind a b := by
  constructor
  · intro compared
    cases a <;> cases b <;> first
      | exact .integers _ _
      | exact .strings _ _
      | exact .symbols _ _
      | simp_all [Sexp.compare?, Sexp.number?, isFloat]
  · intro same
    cases same <;> rfl

/-- Of values that are not floats, those of the same kind are ordered, and others are
refused. -/
theorem naturallyLess_cases (site : Site) {a b : Expr} (ha : isFloat a = false)
    (hb : isFloat b = false) :
    SameKind a b ∧ (∃ answer, naturallyLess site a b = .ok answer) ∨
      ¬ SameKind a b ∧
        naturallyLess site a b = .error (site.misuse (.incomparable a.typeName b.typeName)) := by
  rw [← compare?_isSome_iff ha hb, naturallyLess, order]
  cases a.compare? b with
  | some o => exact .inl ⟨rfl, _, rfl⟩
  | none => exact .inr ⟨by decide, rfl⟩

/-- A sort without a function to compare by succeeds if there is nothing to compare or the
items are of one kind. Otherwise it fails for two of them. -/
theorem mergeSort_naturallyLess_cases (site : Site) {items : List Expr}
    (noFloats : ∀ a ∈ items, isFloat a = false) :
    (∃ result, mergeSort (naturallyLess site) items = .ok result ∧
        (items.length ≤ 1 ∨ OfOneKind items)) ∨
      ∃ a ∈ items, ∃ b ∈ items, mergeSort (naturallyLess site) items =
          .error (site.misuse (.incomparable a.typeName b.typeName)) ∧
        2 ≤ items.length ∧ ¬ OfOneKind items := by
  rcases mergeSort_cases (naturallyLess site) items with
    ⟨result, ok, -⟩ | ⟨e, failed, a, ha, b, hb, told⟩
  · refine .inl ⟨result, ok, ?_⟩
    by_cases long : 2 ≤ items.length
    · refine .inr ((ofOneKind_iff (List.ne_nil_of_length_pos (by omega))).mpr ?_)
      refine kin_of_mergeSort (fun a b (h : SameKind a b) => h.symm)
        (fun _ _ _ => SameKind.trans) ?_ long ok
      intro a ha b hb answer told
      rcases naturallyLess_cases site (noFloats a ha) (noFloats b hb) with ⟨same, -⟩ | ⟨-, fails⟩
      · exact same
      · rw [fails] at told
        cases told
    · exact .inl (by omega)
  · rcases naturallyLess_cases site (noFloats a ha) (noFloats b hb) with
      ⟨-, answer, answered⟩ | ⟨differ, refused⟩
    · rw [told] at answered
      cases answered
    · obtain rfl : e = site.misuse (.incomparable a.typeName b.typeName) :=
        Except.error.inj (told.symm.trans refused)
      refine .inr ⟨a, ha, b, hb, failed, ?_, fun kind => ?_⟩
      · by_contra short
        rw [mergeSort_short (by omega)] at failed
        cases failed
      · exact differ ((ofOneKind_iff (List.ne_nil_of_mem ha)).mp kind a ha b hb)

section Calls

variable {e : Expr} {items : List Expr}

theorem supply_sort (list : e.properItems? = some items) (site : Site) :
    Builtin.sort.body.supply site [e] = .ok (do
      let result ← Program.ofExcept (mergeSort (naturallyLess site) items)
      Program.list result) := by
  have accepted : site.list 0 e = .ok items := Site.list_of_properItems? list
  dsimp only [Builtin.body, sorted, Body.supply]
  rw [accepted]
  rfl

theorem exists_outcome_list (w : World) (items : List Expr) (m : Machine) :
    ∃ v, outcome (w.run (Program.list items) m) = .ok v := by
  have returns : Returns ((Program.list items).run w (applyWithin w (w.maxDepth - m.depth)))
      m.store fun _ _ => True := returns_list items fun _ _ => trivial
  obtain ⟨v, m', returned, -⟩ := returns m rfl
  exact ⟨v, by rw [World.run, returned]; rfl⟩

/-- A call of `sort` with a list without floats fails if there are items to compare that are
not of one kind, and only then. It says of which types two of the items are. -/
theorem Builtin.sort_refuses_mixed (list : e.properItems? = some items)
    (noFloats : ∀ a ∈ items, isFloat a = false) :
    Builtin.sort.CallsEnd [e] fun r =>
      ((∃ left right, r = .error (.parameters "sort" (.incomparable left right))) ↔
        2 ≤ items.length ∧ ¬ OfOneKind items) ∧
      ∀ err, r = .error err → ∃ a ∈ items, ∃ b ∈ items,
        err = .parameters "sort" (.incomparable a.typeName b.typeName) := by
  refine Builtin.CallsEnd.of_body _ (supply_sort list) fun w scope m => ?_
  rcases mergeSort_naturallyLess_cases ⟨Builtin.sort.name, scope⟩ noFloats with
    ⟨result, ok, sorted⟩ | ⟨a, ha, b, hb, failed, mixed⟩
  · obtain ⟨v, listed⟩ := exists_outcome_list w result m
    have ended : outcome (w.run (do
        let result ← Program.ofExcept (mergeSort (naturallyLess ⟨Builtin.sort.name, scope⟩) items)
        Program.list result) m) = .ok v := by rw [ok]; exact listed
    rw [ended]
    refine ⟨⟨nofun, ?_⟩, nofun⟩
    rintro ⟨long, mixed⟩
    exact absurd (sorted.resolve_left (by omega)) mixed
  · rw [failed]
    refine ⟨⟨fun _ => mixed, fun _ => ⟨_, _, rfl⟩⟩, ?_⟩
    rintro err ⟨⟩
    exact ⟨a, ha, b, hb, rfl⟩

/-- A symbol at the end is refused when it is compared with its neighbour. -/
theorem Builtin.sort_refuses_symbol_last :
    ∃ e : Expr, e.properItems? = some [.integer 1, .integer 2, .integer 3, .symbol "a"] ∧
      (∀ a ∈ [Sexp.integer 1, .integer 2, .integer 3, .symbol "a"],
        isFloat (a : Expr) = false) ∧
      ∃ left right, outcome (World.apply {} (.object ⟨0⟩ (.builtin .sort)) [e] Store.root
        Machine.bare) = .error (.parameters "sort" (.incomparable left right)) := by
  have list : (Sexp.pair ⟨1⟩ none (.integer 1) (.pair ⟨2⟩ none (.integer 2)
      (.pair ⟨3⟩ none (.integer 3) (.pair ⟨4⟩ none (.symbol "a") .nil))) : Expr).properItems? =
        some [.integer 1, .integer 2, .integer 3, .symbol "a"] := rfl
  have noFloats : ∀ a ∈ [Sexp.integer 1, .integer 2, .integer 3, .symbol "a"],
      isFloat (a : Expr) = false := by decide
  refine ⟨_, list, noFloats, ?_⟩
  obtain ⟨refused, -⟩ := (Builtin.sort_refuses_mixed list noFloats).of_room {}
    (.object ⟨0⟩ (.builtin .sort)) Store.root Machine.bare rfl (by decide)
  exact refused.mpr (by decide)

end Calls

end Lisp
