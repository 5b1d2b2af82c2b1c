import Lisp.Proofs.Registers

/-!
# Histories of registers

Calls that make pairs, that read them and that write them, in any number and in any
order, with other requests in between. What a pair holds is read off the history
alone: the last value that was written to it, or the one it was made with. The store
holds the same in the scope of the pair. Each event keeps this, and so every getter
call, whenever it comes, returns what its pair holds.
-/

namespace Lisp.Register

/-- A function is called directly or through `funcall` or `apply`; the number is that
of the calls around its own. -/
inductive CallsOf (f : Function) (args : List Expr) : Function → List Expr → Nat → Prop where
  | direct : CallsOf f args f args 0
  | funcall (id : ObjectId) :
      CallsOf f args (.object id (.builtin .funcall)) (.function f :: args) 1
  | apply (id : ObjectId) (first : List Expr) (spread : Expr) {rest : List Expr}
      (list : spread.properItems? = some rest) (all : first ++ rest = args) :
      CallsOf f args (.object id (.builtin .apply)) (.function f :: (first ++ [spread])) 1

theorem supply_application (site : Site) (f : Function) (first : List Expr) {spread : Expr}
    {rest : List Expr} (list : spread.properItems? = some rest) :
    Library.application.supply site (.function f :: (first ++ [spread])) =
      .ok (.call f (first ++ rest) site.scope .done) := by
  have items : ∀ index, site.list index spread = .ok rest := fun _ => Site.list_of_properItems? list
  obtain ⟨a, more, all⟩ : ∃ a more, first ++ [spread] = a :: more :=
    List.exists_cons_of_ne_nil (by simp)
  have last : (a :: more).getLast (by simp) = spread := by simp [← all]
  have front : (a :: more).dropLast = first := by simp [← all]
  rw [all]
  simp only [Library.application, Body.supply, last, front, items]
  rfl

/-- However a function is called, it returns what it returns when called directly. -/
theorem CallsOf.returns {w : World} {n nested : Nat} {f callee : Function}
    {args callArgs : List Expr} {scope : ScopeId} {s : Store} {post : Expr → Store → Prop}
    (calls : CallsOf f args callee callArgs nested)
    (direct : Returns (applyWithin w n f args scope) s post) :
    Returns (applyWithin w (n + nested) callee callArgs scope) s post := by
  cases calls with
  | direct => exact direct
  | funcall id => exact returns_builtin rfl rfl (returns_call direct)
  | apply id first spread list all =>
    subst all
    exact returns_builtin rfl (supply_application _ f first list) (returns_call direct)

/-- A call succeeds if there is room for the calls around it and for those in it. -/
theorem CallsOf.apply_eq_ok {w : World} {m : Machine} {room nested : Nat} {f callee : Function}
    {args callArgs : List Expr} {scope : ScopeId} {post : Expr → Store → Prop}
    (calls : CallsOf f args callee callArgs nested)
    (direct : ∀ n, Returns (applyWithin w (n + room) f args scope) m.store post)
    (fits : m.depth + nested + room ≤ w.maxDepth) :
    ∃ v m', w.apply callee callArgs scope m = .ok v m' ∧ post v m'.store := by
  obtain ⟨n, free⟩ : ∃ n, w.maxDepth - m.depth = n + room + nested :=
    ⟨w.maxDepth - m.depth - room - nested, by omega⟩
  rw [World.apply, free]
  exact calls.returns (direct n) m rfl

/-- What happens to pairs: one is made, read or written. They are numbered in the order
in which they are made. -/
inductive Event where
  | create (initial : Expr)
  | read (i : Nat)
  | write (i : Nat) (v : Expr)

namespace Event

def initial? : Event → Option Expr
  | create v => some v
  | _ => none

/-- The value that is written to a pair. -/
def written? (i : Nat) : Event → Option Expr
  | write j v => if j = i then some v else none
  | _ => none

end Event

/-- The value last written to a pair, or its initial value. -/
def heldAfter (past : List Event) (i : Nat) : Option Expr :=
  (past.filterMap (Event.written? i)).getLast?.or (past.filterMap Event.initial?)[i]?

theorem heldAfter_create {past : List Event} {i : Nat} (v : Expr)
    (known : i < (past.filterMap Event.initial?).length) :
    heldAfter (past ++ [.create v]) i = heldAfter past i := by
  simp [heldAfter, Event.written?, Event.initial?, List.getElem?_append_left known]

theorem heldAfter_create_self {past : List Event} (v : Expr)
    (unwritten : past.filterMap (Event.written? (past.filterMap Event.initial?).length) = []) :
    heldAfter (past ++ [.create v]) (past.filterMap Event.initial?).length = some v := by
  simp [heldAfter, Event.written?, Event.initial?, unwritten]

@[simp] theorem heldAfter_read (past : List Event) (j i : Nat) :
    heldAfter (past ++ [.read j]) i = heldAfter past i := by
  simp [heldAfter, List.filterMap_cons, Event.written?, Event.initial?]

theorem heldAfter_write_self (past : List Event) (i : Nat) (v : Expr) :
    heldAfter (past ++ [.write i v]) i = some v := by
  simp [heldAfter, Event.written?]

theorem heldAfter_write_of_ne {i j : Nat} (ne : j ≠ i) (past : List Event) (v : Expr) :
    heldAfter (past ++ [.write j v]) i = heldAfter past i := by
  simp [heldAfter, List.filterMap_cons, Event.written?, Event.initial?, ne]

/-- A pair holds a value in a scope. -/
structure Pair.Holds (s : Store) (p : Pair) (scope : ScopeId) (held : Expr) : Prop where
  captures : p.Over scope
  ne : scope ≠ Store.root
  has : s.Has scope
  value : s.localValue? "x" scope = some held

section Holds

variable {s : Store} {p : Pair} {scope other : ScopeId} {held : Expr}

/-- A pair is over one scope only. -/
theorem Pair.Over.eq (h : p.Over scope) (h' : p.Over other) : scope = other :=
  (Code.closure.inj (h.1.symm.trans h'.1)).2.2

theorem Pair.Holds.enter (h : p.Holds s scope held) (parent : ScopeId)
    (values : List (String × Expr)) : p.Holds (s.enter parent values).2 scope held where
  captures := h.captures
  ne := h.ne
  has := (Store.has_enter s parent values).mpr (.inl h.has)
  value := by rw [Store.localValue?_enter h.has, h.value]

theorem Pair.Holds.change (h : p.Holds s scope held) (ne : scope ≠ other) (name : String)
    (f : Binding → Binding) : p.Holds (s.change other name f) scope held where
  captures := h.captures
  ne := h.ne
  has := (Store.has_change other name f).mpr h.has
  value := by rw [Store.localValue?_change_of_ne ne, h.value]

end Holds

/-- The store holds what a history says, each pair in a scope of its own. -/
structure Keeps (s : Store) (past : List Event) (pairs : List Pair) : Prop where
  coherent : s.Coherent
  names : ∀ op ∈ used, s.Names op
  count : (past.filterMap Event.initial?).length = pairs.length
  unwritten : ∀ i, pairs.length ≤ i → past.filterMap (Event.written? i) = []
  holds : ∀ i p, pairs[i]? = some p →
    ∃ scope held, heldAfter past i = some held ∧ p.Holds s scope held
  apart : ∀ (i j : Nat) (p q : Pair) scope, pairs[i]? = some p → pairs[j]? = some q →
    p.Over scope → q.Over scope → i = j

namespace Keeps

variable {s : Store} {past : List Event} {pairs : List Pair} {p : Pair} {scope : ScopeId} {i : Nat}

theorem enter (h : Keeps s past pairs) (has : s.Has scope) (values : List (String × Expr)) :
    Keeps (s.enter scope values).2 past pairs where
  coherent := (h.coherent.enter has values).1
  names op mem := (h.names op mem).enter h.coherent has values
  count := h.count
  unwritten := h.unwritten
  holds i p known := by
    obtain ⟨captured, held, after, holds⟩ := h.holds i p known
    exact ⟨captured, held, after, holds.enter scope values⟩
  apart := h.apart

/-- A change elsewhere, or at the root, is no event of a pair. -/
theorem change (h : Keeps s past pairs) {name : String} {f : Binding → Binding}
    (coherent : (s.change scope name f).Coherent)
    (elsewhere : scope = Store.root ∨ ∀ p ∈ pairs, ¬ p.Over scope)
    (keeps : (∀ op ∈ used, name ≠ op.name) ∨ ∀ b, (f b).function? = b.function?) :
    Keeps (s.change scope name f) past pairs where
  coherent := coherent
  names op mem := (h.names op mem).change h.coherent coherent (keeps.imp_left fun no => no op mem)
  count := h.count
  unwritten := h.unwritten
  holds i p known := by
    obtain ⟨captured, held, after, holds⟩ := h.holds i p known
    refine ⟨captured, held, after, holds.change ?_ name f⟩
    rcases elsewhere with rfl | none
    · exact holds.ne
    · rintro rfl
      exact none p (List.mem_of_getElem? known) holds.captures
  apart := h.apart

/-- A new pair over a new scope holds its initial value. -/
theorem create (h : Keeps s past pairs) (has : s.Has scope) (captures : p.Over s.fresh) (v : Expr) :
    Keeps (s.enter scope [("x", v)]).2 (past ++ [.create v]) (pairs ++ [p]) := by
  have entered := h.enter has [("x", v)]
  have new : ∀ i q, (pairs ++ [p])[i]? = some q →
      (i < pairs.length ∧ pairs[i]? = some q) ∨ (i = pairs.length ∧ q = p) := by
    intro i q known
    rcases Nat.lt_trichotomy i pairs.length with less | rfl | more
    · exact .inl ⟨less, by rwa [List.getElem?_append_left less] at known⟩
    · exact .inr ⟨rfl, by simpa using known.symm⟩
    · rw [List.getElem?_eq_none (by rw [List.length_append]; exact more)] at known
      cases known
  -- No pair of before can be over the new scope, because that scope was not there.
  have older : ∀ (i : Nat) (q : Pair), pairs[i]? = some q → ¬ q.Over s.fresh := by
    intro i q known again
    obtain ⟨captured, held, _, holds⟩ := h.holds i q known
    exact s.not_has_fresh (holds.captures.eq again ▸ holds.has)
  refine ⟨entered.coherent, entered.names, by simp [h.count, Event.initial?], ?_, ?_, ?_⟩
  · intro i late
    simp only [List.length_append, List.length_singleton] at late
    rw [List.filterMap_append, h.unwritten i (by omega)]
    rfl
  · intro i q known
    rcases new i q known with ⟨less, known⟩ | ⟨rfl, rfl⟩
    · rw [heldAfter_create v (h.count ▸ less)]
      exact entered.holds i q known
    · refine ⟨s.fresh, v, ?_, captures, ?_, (Store.has_enter _ _ _).mpr (.inr rfl), ?_⟩
      · rw [← h.count]
        exact heldAfter_create_self v (h.unwritten _ h.count.ge)
      · exact h.coherent.has_root.ne_fresh.symm
      · rw [Store.localValue?_enter_fresh]
        rfl
  · intro i j q r captured first second overFirst overSecond
    rcases new i q first with ⟨_, oldFirst⟩ | ⟨rfl, rfl⟩ <;>
      rcases new j r second with ⟨_, oldSecond⟩ | ⟨rfl, rfl⟩
    · exact h.apart i j q r captured oldFirst oldSecond overFirst overSecond
    · exact absurd (overSecond.eq captures ▸ overFirst) (older i q oldFirst)
    · exact absurd (overFirst.eq captures ▸ overSecond) (older j r oldSecond)
    · rfl

theorem read (h : Keeps s past pairs) (i : Nat) : Keeps s (past ++ [.read i]) pairs where
  coherent := h.coherent
  names := h.names
  count := by simp [h.count, List.filterMap_cons, Event.initial?]
  unwritten j late := by simp [h.unwritten j late, Event.written?]
  holds j p known := by simpa using h.holds j p known
  apart := h.apart

/-- An assignment to the variable of one pair is not seen by another. -/
theorem write (h : Keeps s past pairs) (known : pairs[i]? = some p) (captures : p.Over scope)
    (v : Expr) :
    Keeps (s.change scope "x" (Binding.withValue v)) (past ++ [.write i v]) pairs := by
  obtain ⟨captured, held, _, holds⟩ := h.holds i p known
  obtain rfl := holds.captures.eq captures
  have coherent := (h.coherent.change_value holds.ne holds.value v).1
  refine ⟨coherent, ?_, by simp [h.count, List.filterMap_cons, Event.initial?], ?_, ?_, h.apart⟩
  · exact fun op mem => (h.names op mem).change h.coherent coherent (.inr fun _ => rfl)
  · intro j late
    have ne : i ≠ j := by
      rintro rfl
      rw [List.getElem?_eq_none late] at known
      cases known
    simp [h.unwritten j late, Event.written?, ne]
  · intro j q there
    by_cases same : i = j
    · subst same
      obtain rfl : p = q := Option.some.inj (known.symm.trans there)
      exact ⟨captured, v, heldAfter_write_self past i v, captures, holds.ne,
        (Store.has_change _ _ _).mpr holds.has, Store.localValue?_change_self holds.has "x" v⟩
    · obtain ⟨other, held', after, holds'⟩ := h.holds j q there
      have ne : other ≠ captured := by
        rintro rfl
        exact same (h.apart i j p q other known there captures holds'.captures)
      exact ⟨other, held', by rwa [heldAfter_write_of_ne same], holds'.change ne "x" _⟩

end Keeps

/-- Requests other than those that assign to the variable of a pair or make the name of
a builtin that is used stand for something else. -/
def Spares (s : Store) (pairs : List Pair) : Effect → Prop
  | .assign scope name _ => s.Has scope ∧ (s.assignee scope name = Store.root ∨
      ∀ p ∈ pairs, ¬ p.Over (s.assignee scope name))
  | .defineFunction name _ => ∀ op ∈ used, name ≠ op.name
  | .enter parent _ => s.Has parent
  | _ => True

theorem Keeps.aside {s s' : Store} {past : List Event} {pairs : List Pair} {x : Effect}
    (h : Keeps s past pairs) (spares : Spares s pairs x) (revised : s.Revised x s') :
    Keeps s' past pairs := by
  cases revised with
  | same => exact h
  | assigned scope name v _ =>
    exact h.change (h.coherent.assign spares.1 name v).1 spares.2 (.inr fun _ => rfl)
  | @defined x name f definition _ =>
    refine h.change (h.coherent.change_root name f).1 (.inl rfl) ?_
    cases x <;> cases definition
    · exact .inr fun _ => rfl
    · exact .inr fun _ => rfl
    · exact .inl spares
  | entered parent bindings => exact h.enter spares bindings

/-- The histories of a function that makes pairs: the events, the store that they lead
to, and the pairs in the order in which they were made. Every call may come from any
scope, in a world and at a depth of its own, as long as there is room for it. -/
inductive History (maker : Function) (start : Store) : List Event → Store → List Pair → Prop where
  | start : History maker start [] start []
  | create {past : List Event} {pairs : List Pair} {w : World} {m m' : Machine}
      {scope : ScopeId} {callee : Function} {callArgs : List Expr} {nested : Nat}
      {v result : Expr} {p : Pair} (before : History maker start past m.store pairs)
      (has : m.store.Has scope) (calls : CallsOf maker [v] callee callArgs nested)
      (fits : m.depth + nested + 3 ≤ w.maxDepth)
      (returned : w.apply callee callArgs scope m = .ok result m')
      (both : result.properItems? = some [.function p.getter, .function p.setter]) :
      History maker start (past ++ [.create v]) m'.store (pairs ++ [p])
  | read {past : List Event} {pairs : List Pair} {w : World} {m : Machine}
      {scope : ScopeId} {callee : Function} {callArgs : List Expr} {nested i : Nat} {p : Pair}
      (before : History maker start past m.store pairs) (has : m.store.Has scope)
      (known : pairs[i]? = some p) (calls : CallsOf p.getter [] callee callArgs nested)
      (fits : m.depth + nested + 1 ≤ w.maxDepth) :
      History maker start (past ++ [.read i])
        (finalMachine (w.apply callee callArgs scope m)).store pairs
  | write {past : List Event} {pairs : List Pair} {w : World} {m : Machine}
      {scope : ScopeId} {callee : Function} {callArgs : List Expr} {nested i : Nat} {v : Expr}
      {p : Pair} (before : History maker start past m.store pairs) (has : m.store.Has scope)
      (known : pairs[i]? = some p) (calls : CallsOf p.setter [v] callee callArgs nested)
      (fits : m.depth + nested + 2 ≤ w.maxDepth) :
      History maker start (past ++ [.write i v])
        (finalMachine (w.apply callee callArgs scope m)).store pairs
  | aside {past : List Event} {pairs : List Pair} {w : World} {m : Machine} {x : Effect}
      (before : History maker start past m.store pairs) (spares : Spares m.store pairs x) :
      History maker start past (finalMachine (x.perform w m)).store pairs

section Steps

variable {w : World} {m : Machine} {past : List Event} {pairs : List Pair} {scope : ScopeId}
  {callee : Function} {callArgs : List Expr} {nested i : Nat} {p : Pair}

/-- A call of a maker returns a new pair. -/
theorem Keeps.apply_maker {maker : Function} {v : Expr} (h : Keeps m.store past pairs)
    (isMaker : IsMaker maker) (has : m.store.Has scope)
    (calls : CallsOf maker [v] callee callArgs nested) (fits : m.depth + nested + 3 ≤ w.maxDepth) :
    ∃ result m' p, w.apply callee callArgs scope m = .ok result m' ∧
      result.properItems? = some [.function p.getter, .function p.setter] ∧
      Keeps m'.store (past ++ [.create v]) (pairs ++ [p]) ∧
      ∀ id, m.store.Has id → m'.store.Has id := by
  obtain ⟨result, m', returned, left, p, items, captures⟩ := calls.apply_eq_ok
    (fun n => returns_maker (n := n) isMaker h.coherent has h.names v) fits
  refine ⟨result, m', p, returned, items, ?_, fun id there => ?_⟩
  · rw [left]
    exact h.create has captures v
  · rw [left]
    exact (Store.has_enter _ _ _).mpr (.inl there)

/-- A call of a getter returns what its pair holds. -/
theorem Keeps.apply_getter (h : Keeps m.store past pairs) (known : pairs[i]? = some p)
    (calls : CallsOf p.getter [] callee callArgs nested)
    (fits : m.depth + nested + 1 ≤ w.maxDepth) :
    ∃ held m', heldAfter past i = some held ∧ w.apply callee callArgs scope m = .ok held m' ∧
      Keeps m'.store (past ++ [.read i]) pairs ∧ ∀ id, m.store.Has id → m'.store.Has id := by
  obtain ⟨captured, held, after, holds⟩ := h.holds i p known
  obtain ⟨_, m', returned, rfl, left⟩ := calls.apply_eq_ok
    (fun n => returns_getter (n := n) holds.captures.1 h.coherent holds.has holds.value) fits
  refine ⟨_, m', after, returned, ?_, fun id there => ?_⟩
  · rw [left]
    exact (h.enter holds.has []).read i
  · rw [left]
    exact (Store.has_enter _ _ _).mpr (.inl there)

/-- A call of a setter returns its argument, which its pair then holds. -/
theorem Keeps.apply_setter {v : Expr} (h : Keeps m.store past pairs)
    (known : pairs[i]? = some p) (calls : CallsOf p.setter [v] callee callArgs nested)
    (fits : m.depth + nested + 2 ≤ w.maxDepth) :
    ∃ m', w.apply callee callArgs scope m = .ok v m' ∧
      Keeps m'.store (past ++ [.write i v]) pairs ∧ ∀ id, m.store.Has id → m'.store.Has id := by
  obtain ⟨captured, held, _, holds⟩ := h.holds i p known
  obtain ⟨_, m', returned, rfl, left⟩ := calls.apply_eq_ok
    (fun n => returns_setter (n := n) holds.captures.2 h.coherent holds.has holds.ne holds.value
      h.names v) fits
  refine ⟨m', returned, ?_, fun id there => ?_⟩
  · rw [left]
    exact (h.enter holds.has _).write known holds.captures _
  · rw [left]
    exact (Store.has_change _ _ _).mpr ((Store.has_enter _ _ _).mpr (.inl there))

end Steps

/-- After every history the store holds what the history says, and has all the scopes
that it had before. -/
theorem History.keeps {maker : Function} {start s : Store} {past : List Event}
    {pairs : List Pair} (isMaker : IsMaker maker) (coherent : start.Coherent)
    (names : ∀ op ∈ used, start.Names op) (h : History maker start past s pairs) :
    Keeps s past pairs ∧ ∀ id, start.Has id → s.Has id := by
  induction h with
  | start => exact ⟨⟨coherent, names, rfl, fun _ _ => rfl, nofun, nofun⟩, fun _ => id⟩
  | @create _ _ _ _ _ _ _ _ _ _ _ p before has calls fits returned both ih =>
    obtain ⟨_, _, q, returned', items, keeps, lasts⟩ :=
      ih.1.apply_maker isMaker has calls fits
    -- The call has one result, so the pair that the history records is the one found here.
    cases returned.symm.trans returned'
    have functions := both.symm.trans items
    simp only [Option.some.injEq, List.cons.injEq, Sexp.function.injEq, and_true] at functions
    obtain rfl : p = q := Pair.ext functions.1 functions.2
    exact ⟨keeps, fun id there => lasts id (ih.2 id there)⟩
  | read before has known calls fits ih =>
    obtain ⟨_, _, _, returned, keeps, lasts⟩ := ih.1.apply_getter known calls fits
    rw [returned]
    exact ⟨keeps, fun id there => lasts id (ih.2 id there)⟩
  | write before has known calls fits ih =>
    obtain ⟨_, returned, keeps, lasts⟩ := ih.1.apply_setter known calls fits
    rw [returned]
    exact ⟨keeps, fun id there => lasts id (ih.2 id there)⟩
  | @aside past pairs w m x before spares ih =>
    have revised := revised_perform w x m
    exact ⟨ih.1.aside spares revised, fun id there => revised.has (ih.2 id there)⟩

/-- From every scope a call of a function, direct or not, with so much room for the
calls in it, returns a value of which something holds. -/
def Answers (s : Store) (f : Function) (args : List Expr) (room : Nat) (post : Expr → Prop) :
    Prop :=
  ∀ (w : World) (m : Machine) (scope : ScopeId) (callee : Function) (callArgs : List Expr)
    (nested : Nat), m.store = s → s.Has scope → CallsOf f args callee callArgs nested →
      m.depth + nested + room ≤ w.maxDepth →
      ∃ v m', w.apply callee callArgs scope m = .ok v m' ∧ post v

/-- When the definition has been evaluated, each call of the function makes a pair, and
after every history each getter returns what its pair holds: what was last written to
it, or its initial value. -/
theorem getter_returns_held {w : World} {m : Machine} {scope : ScopeId}
    (reached : m.store.Reached) (has : m.store.Has scope)
    (names : ∀ op ∈ .defun :: used, m.store.Names op)
    (free : m.store.isLocked Store.root "two-funs" = false) (fits : m.depth < w.maxDepth)
    (n : Nat) :
    ∃ v m' maker, w.eval scope (twoFuns.place n).1 m = .ok v m' ∧
      (∀ id, m'.store.Has id → m'.store.function? id "two-funs" = some (.function maker)) ∧
      ∀ past s pairs, History maker m'.store past s pairs →
        (∀ id, m'.store.Has id → s.Has id) ∧
        (∀ v, Answers s maker [v] 3 fun result =>
          ∃ p : Pair, result.properItems? = some [.function p.getter, .function p.setter]) ∧
        ∀ i p, pairs[i]? = some p → ∃ held, heldAfter past i = some held ∧
          Answers s p.getter [] 1 (· = held) ∧ ∀ v, Answers s p.setter [v] 2 (· = v) := by
  have before := reached.coherent_closed.1
  obtain ⟨k, room⟩ : ∃ k, w.maxDepth - m.depth = k + 1 := ⟨w.maxDepth - m.depth - 1, by omega⟩
  obtain ⟨v, m', evaluated, maker, isMaker, left⟩ := returns_twoFuns (w := w) (n := k)
    (e := (twoFuns.place n).1) ⟨n, rfl⟩ before has (names .defun (by decide)) free m rfl
  have coherent : m'.store.Coherent := left ▸ (before.change_root _ _).1
  have still : ∀ op ∈ used, m'.store.Names op := fun op mem => by
    rw [left]
    refine (names op (List.mem_cons_of_mem _ mem)).change before (left ▸ coherent) (.inl ?_)
    revert op
    decide
  refine ⟨v, m', maker, by rw [World.eval, room, evaluated], ?_, ?_⟩
  · intro id there
    rw [coherent.function?_eq there, left, Store.localFunction?_change_self before.has_root]
  · intro past s pairs history
    obtain ⟨keeps, lasts⟩ := history.keeps isMaker coherent still
    refine ⟨lasts, ?_, fun i p known => ?_⟩
    · rintro v w m scope callee callArgs nested rfl has calls fits
      obtain ⟨result, m', p, returned, items, _⟩ := keeps.apply_maker isMaker has calls fits
      exact ⟨result, m', returned, p, items⟩
    · obtain ⟨_, held, after, _⟩ := keeps.holds i p known
      refine ⟨held, after, ?_, ?_⟩
      · rintro w m scope callee callArgs nested rfl has calls fits
        obtain ⟨v, m', after', returned, _⟩ := keeps.apply_getter known calls fits
        exact ⟨v, m', returned, Option.some.inj (after'.symm.trans after)⟩
      · rintro v w m scope callee callArgs nested rfl has calls fits
        obtain ⟨m', returned, _⟩ := keeps.apply_setter known calls fits
        exact ⟨v, m', returned, rfl⟩

/-- A machine with a given store. -/
def machineWith (s : Store) : Machine := { store := s, objects := 0 }

/-- A pair is made with 6 in a call from the root, `x` becomes a global constant, and 43
is given to the setter through `funcall`: the getter returns 43. -/
theorem getter_returns_written :
    ∃ v m maker s p, World.eval {} Store.root (twoFuns.place 0).1 Machine.initial = .ok v m ∧
      History maker m.store [.create (.integer 6), .write 0 (.integer 43)] s [p] ∧
      Answers s p.getter [] 1 (· = .integer 43) := by
  have has : Machine.initial.store.Has Store.root :=
    Store.isLibrary_withBuiltins.coherent.has_root
  have reached : Machine.initial.store.Reached := .library
  have captured : ∀ id, (twoFuns.place 0).1.Captures id → Machine.initial.store.Has id := by
    intro id captures
    have inside : id ∈ (twoFuns.place 0).1.captured := captures
    rw [Datum.captured_place] at inside
    exact inside.elim
  obtain ⟨v, m, maker, evaluated, _, all⟩ := getter_returns_held (w := {}) reached has
    (fun op _ => Store.names_withBuiltins op) (by decide +kernel) (by decide) 0
  have there : m.store.Has Store.root := by
    have left := Store.Reached.eval (w := {}) rfl reached ⟨has, captured⟩
    rw [evaluated] at left
    exact left.coherent_closed.1.has_root
  obtain ⟨_, makes, _⟩ := all [] m.store [] .start
  obtain ⟨result, m₁, returned, p, both⟩ := makes (.integer 6) {} (machineWith m.store)
    Store.root maker _ 0 rfl there .direct (by simp [machineWith])
  have created := History.create (m := machineWith m.store) .start there .direct
    (by simp [machineWith]) returned both
  have defined := created.aside (w := {}) (m := m₁) (x := .defineConstant "x" (.integer 7)) trivial
  obtain ⟨lasts, _, _⟩ := all _ _ _ defined
  have written := defined.write (w := {}) (m := machineWith _) (i := 0) (v := .integer 43)
    (lasts _ there) rfl (.funcall ⟨0⟩) (by simp [machineWith])
  obtain ⟨_, _, holds⟩ := all _ _ _ written
  obtain ⟨held, after, reads, _⟩ := holds 0 p rfl
  cases after
  exact ⟨v, m, maker, _, p, evaluated, written, reads⟩

end Lisp.Register
