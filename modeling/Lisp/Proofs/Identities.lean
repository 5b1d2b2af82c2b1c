import Lisp.Proofs.Agreement

/-!
# The same but for the identities of new objects

What is alike under equality of objects is equal. If both runs start on machines that agree,
and every object stands for itself, they end with the same value or error on machines that
agree.

Where one of the runs makes objects that the other does not make, the objects that are made
afterwards are numbered differently. Then those made before stand for themselves only, and
new ones for new ones. This needs a machine whose store holds no object that has not been
made yet, which every machine is that the library starts with and that evaluation leads to.
-/

namespace Lisp

/-- An object occurs in an expression, perhaps inside the body of a function. -/
inductive Sexp.Mentions : Expr → ObjectId → Prop where
  | pair {id mark car cdr} : Mentions (.pair id mark car cdr) id
  | car {id mark car cdr i} : Mentions car i → Mentions (.pair id mark car cdr) i
  | cdr {id mark car cdr i} : Mentions cdr i → Mentions (.pair id mark car cdr) i
  | function {f} : Mentions (.function f) f.id
  | body {f e i} : e ∈ f.code.body → Mentions e i → Mentions (.function f) i

/-- An object occurs in a value of the store. -/
def Store.Mentions (s : Store) (i : ObjectId) : Prop :=
  ∃ id name v, s.Holds id name v ∧ v.Mentions i

/-- Whether a store holds only objects that were among the first so many. -/
def Store.IsAmong (s : Store) (count : Nat) : Prop := ∀ i, s.Mentions i → i.index < count

/-- Whether all objects in the store of a machine have been made. -/
def Machine.Sound (m : Machine) : Prop := m.store.IsAmong m.objects

/-- Whether all objects in an expression have been made. -/
def Machine.Knows (m : Machine) (e : Expr) : Prop := ∀ i, e.Mentions i → i.index < m.objects

namespace Likeness

variable {ρ σ : Likeness} {e e' : Expr} {s s' : Store} {i j : ObjectId}

/-- An expression is alike to itself if the objects in it stand for themselves. -/
theorem Like.of_mentions : ∀ (e : Expr), (∀ i, e.Mentions i → ρ.object i i) → ρ.Like e e
  | .nil, _ => .nil
  | .bool b, _ => .bool b
  | .integer n, _ => .integer n
  | .float x, _ => .float x
  | .string text, _ => .string text
  | .symbol name, _ => .symbol name
  | .pair id mark car cdr, h =>
    .pair mark (h id .pair) (of_mentions car fun i there => h i there.car)
      (of_mentions cdr fun i there => h i there.cdr)
  | .function (.object id (.builtin op)), h => .function (h id .function) (.builtin op)
  | .function (.object id (.registered name entry)), h =>
    .function (h id .function) (.registered name entry)
  | .function (.object id (.named name ps es)), h =>
    .function (h id .function)
      (.named name ps (bodies es fun e mem i there => h i (.body mem there)))
  | .function (.object id (.lambda ps es)), h =>
    .function (h id .function) (.lambda ps (bodies es fun e mem i there => h i (.body mem there)))
  | .function (.object id (.closure ps es scope)), h =>
    .function (h id .function)
      (.closure ps scope (bodies es fun e mem i there => h i (.body mem there)))
where
  bodies : ∀ (es : List Expr), (∀ e ∈ es, ∀ i, e.Mentions i → ρ.object i i) → ρ.LikeAll es es
    | [], _ => .nil
    | e :: es, h =>
      .cons (of_mentions e (h e List.mem_cons_self))
        (bodies es fun d mem => h d (List.mem_cons_of_mem e mem))

theorem LikeAll.exists_of_mem {es es' : List Expr} (h : ρ.LikeAll es es') (mem : e ∈ es) :
    ∃ e', ρ.Like e e' := by
  induction h with
  | nil => cases mem
  | cons first _ ih =>
    rcases List.mem_cons.mp mem with rfl | mem
    · exact ⟨_, first⟩
    · exact ih mem

theorem LikeCode.exists_of_mem {code code' : Code Expr} (h : ρ.LikeCode code code')
    (mem : e ∈ code.body) : ∃ e', ρ.Like e e' := by
  cases h with
  | builtin op => cases mem
  | registered name entry => cases mem
  | named name ps body => exact LikeAll.exists_of_mem body mem
  | lambda ps body => exact LikeAll.exists_of_mem body mem
  | closure ps scope body => exact LikeAll.exists_of_mem body mem

/-- The objects in an expression stand for some in every expression that it is alike to. -/
theorem Like.exists_of_mentions (known : ρ.Like e e') (there : e.Mentions i) :
    ∃ j, ρ.object i j := by
  induction there generalizing e' with
  | pair => cases known with | pair _ same _ _ => exact ⟨_, same⟩
  | car _ ih => cases known with | pair _ _ car _ => exact ih car
  | cdr _ ih => cases known with | pair _ _ _ cdr => exact ih cdr
  | function => cases known with | function same _ => exact ⟨_, same⟩
  | body mem _ ih =>
    cases known with
    | function _ code =>
      obtain ⟨e', known⟩ := LikeCode.exists_of_mem code mem
      exact ih known

/-- Alike expressions are equal if only equal objects stand for each other. -/
theorem Like.eq (same : ∀ i j, ρ.object i j → i = j) : ∀ {e e' : Expr}, ρ.Like e e' → e = e'
  | _, _, .nil => rfl
  | _, _, .bool b => rfl
  | _, _, .integer n => rfl
  | _, _, .float x => rfl
  | _, _, .string text => rfl
  | _, _, .symbol name => rfl
  | _, _, .pair mark h car cdr => by rw [same _ _ h, eq same car, eq same cdr]
  | _, _, .function h (.builtin op) => by rw [same _ _ h]
  | _, _, .function h (.registered name entry) => by rw [same _ _ h]
  | _, _, .function h (.named name ps body) => by rw [same _ _ h, bodies body]
  | _, _, .function h (.lambda ps body) => by rw [same _ _ h, bodies body]
  | _, _, .function h (.closure ps scope body) => by rw [same _ _ h, bodies body]
where
  bodies : ∀ {es es' : List Expr}, ρ.LikeAll es es' → es = es'
    | _, _, .nil => rfl
    | _, _, .cons e es => by rw [eq same e, bodies es]

theorem rel_eq {α : Type} {a? b? : Option α} (h : Option.Rel Eq a? b?) : a? = b? := by
  cases h with
  | none => rfl
  | some same => rw [same]

theorem LikeSlots.eq (same : ∀ i j, ρ.object i j → i = j) {b b' : Binding} (h : ρ.LikeSlots b b') :
    b = b' := by
  have value := rel_eq (rel_mono h.value fun _ _ => Like.eq same)
  have function := rel_eq (rel_mono h.function fun _ _ => Like.eq same)
  have readOnly := h.readOnly
  cases b
  cases b'
  simp_all

theorem LikeStore.eq (same : ∀ i j, ρ.object i j → i = j) (h : ρ.LikeStore s s') : s = s' := by
  obtain ⟨scopes⟩ := s
  obtain ⟨scopes'⟩ := s'
  refine congrArg Store.mk (Array.ext h.size fun i small small' => ?_)
  have outer := h.outer ⟨i⟩
  have slots := fun name => rel_eq (rel_mono (h.slots ⟨i⟩ name) fun _ _ => LikeSlots.eq same)
  simp only [Store.outer, Store.local?, Array.getElem?_eq_getElem small,
    Array.getElem?_eq_getElem small'] at outer slots
  generalize scopes[i] = scope, scopes'[i] = scope' at outer slots
  cases scope
  cases scope'
  simp only [Scope.mk.injEq]
  exact ⟨outer, Std.ExtTreeMap.ext_getElem? slots⟩

/-- A store is alike to itself if the objects in it stand for themselves. -/
theorem LikeStore.of_mentions (h : ∀ i, s.Mentions i → ρ.object i i) : ρ.LikeStore s s where
  size := rfl
  outer _ := rfl
  slots id name := by
    cases found : s.local? id name with
    | none => exact .none
    | some b =>
      have itself : ∀ v, b.Holds v → ρ.Like v v := fun v holds =>
        .of_mentions v fun i there => h i ⟨id, name, v, ⟨b, found, holds⟩, there⟩
      refine .some ⟨?_, ?_, rfl⟩
      · cases value : b.value? with
        | none => exact .none
        | some v => exact .some (itself v (.inl value))
      · cases function : b.function? with
        | none => exact .none
        | some v => exact .some (itself v (.inr function))

section Same

/-- A likeness under which every object stands for itself. -/
def Reflexive (ρ : Likeness) : Prop := ∀ i, ρ.object i i

theorem Reflexive.mono (h : ρ.Reflexive) (le : ρ ≤ σ) : σ.Reflexive :=
  fun i => object_mono le (h i)

theorem Reflexive.like (h : ρ.Reflexive) (e : Expr) : ρ.Like e e := .of_mentions e fun i _ => h i

theorem Reflexive.likeAll (h : ρ.Reflexive) (es : List Expr) : ρ.LikeAll es es :=
  List.forall₂_same.mpr fun e _ => h.like e

theorem Reflexive.eq_of_object (h : ρ.Reflexive) (same : ρ.object i j) : i = j :=
  (ρ.oneToOne same (h j)).mpr rfl

/-- As every object stands for itself, those yet to be made have the same numbers. -/
theorem Reflexive.left_eq_right (h : ρ.Reflexive) : ρ.left = ρ.right := by
  rcases ρ.inStep (h ⟨ρ.left⟩) with ⟨small, _⟩ | ⟨d, left, right⟩
  · exact absurd small (Nat.lt_irrefl _)
  · simp only at left right
    omega

/-- Machines that are alike when every object stands for itself agree. -/
theorem Reflexive.agrees (h : ρ.Reflexive) {m m' : Machine} (state : ρ.LikeMachine m m') :
    m.Agrees m' where
  store := state.store.eq fun _ _ => h.eq_of_object
  objects := by rw [state.left, state.right, h.left_eq_right]
  printed := state.printed
  requested := state.requested

/-- Every object stands for itself, and `count` have been made. -/
def same (count : Nat) : Likeness where
  object := Eq
  left := count
  right := count
  oneToOne := by
    rintro i j i' j' rfl rfl
    rfl
  inStep := by
    rintro i j rfl
    by_cases small : i.index < count
    · exact .inl ⟨small, small⟩
    · exact .inr ⟨i.index - count, by omega, by omega⟩

theorem reflexive_same (count : Nat) : (same count).Reflexive := fun _ => rfl

theorem likeMachine_same {m m' : Machine} (h : m.Agrees m') :
    (same m.objects).LikeMachine m m' where
  store := by
    rw [h.store]
    exact .of_mentions fun _ _ => rfl
  left := rfl
  right := h.objects.symm
  printed := h.printed
  requested := h.requested

end Same

section Below

/-- A likeness under which objects made before a number stand for themselves only. -/
structure Fixes (ρ : Likeness) (count : Nat) : Prop where
  itself : ∀ i, i.index < count → ρ.object i i
  apart : ∀ i j, ρ.object i j → i = j ∨ count ≤ i.index ∧ count ≤ j.index

/-- A likeness that speaks only of objects that were made. -/
def Settled (ρ : Likeness) : Prop :=
  ∀ i j, ρ.object i j → i.index < ρ.left ∧ j.index < ρ.right

theorem Fixes.mono {count : Nat} (h : ρ.Fixes count) (left : count ≤ ρ.left)
    (right : count ≤ ρ.right) (le : ρ ≤ σ) : σ.Fixes count where
  itself i small := object_mono le (h.itself i small)
  apart i j same := by
    rcases le.made same with old | ⟨⟨made, _⟩, made', _⟩
    · exact h.apart i j old
    · exact .inr ⟨left.trans made, right.trans made'⟩

theorem Settled.mono (h : ρ.Settled) (le : ρ ≤ σ) : σ.Settled := by
  intro i j same
  rcases le.made same with old | ⟨made, made'⟩
  · exact ⟨(h i j old).1.trans_le le.left, (h i j old).2.trans_le le.right⟩
  · exact ⟨made.2, made'.2⟩

/-- The objects made so far stand for themselves. -/
def below (count : Nat) : Likeness where
  object i j := i = j ∧ i.index < count
  left := count
  right := count
  oneToOne := by
    rintro i j i' j' ⟨rfl, _⟩ ⟨rfl, _⟩
    rfl
  inStep := by
    rintro i j ⟨rfl, small⟩
    exact .inl ⟨small, small⟩

theorem fixes_below (count : Nat) : (below count).Fixes count where
  itself _ small := ⟨rfl, small⟩
  apart _ _ same := .inl same.1

theorem settled_below (count : Nat) : (below count).Settled := by
  rintro i j ⟨rfl, small⟩
  exact ⟨small, small⟩

/-- The likeness after objects were made on the right alone. -/
def skip (ρ : Likeness) (settled : ρ.Settled) (count : Nat) : Likeness where
  object := ρ.object
  left := ρ.left
  right := ρ.right + count
  oneToOne := ρ.oneToOne
  inStep same := .inl ⟨(settled _ _ same).1, Nat.lt_add_right count (settled _ _ same).2⟩

theorem le_skip (ρ : Likeness) (settled : ρ.Settled) (count : Nat) : ρ ≤ ρ.skip settled count where
  object := id
  made := .inl
  left := le_rfl
  right := Nat.le_add_right _ _

theorem LikeMachine.skip {m m' : Machine} (state : ρ.LikeMachine m m') (settled : ρ.Settled)
    (count : Nat) :
    (ρ.skip settled count).LikeMachine m { m' with objects := m'.objects + count } where
  store := state.store.mono (ρ.le_skip settled count)
  left := state.left
  right := congrArg (· + count) state.right
  printed := state.printed
  requested := state.requested

theorem exists_of_rel {α β : Type} {r : α → β → Prop} {a? : Option α} {b? : Option β} {a : α}
    (h : Option.Rel r a? b?) (some : a? = some a) : ∃ b, r a b := by
  subst some
  cases h with
  | some same => exact ⟨_, same⟩

theorem LikeStore.exists_of_mentions (h : ρ.LikeStore s s') (there : s.Mentions i) :
    ∃ j, ρ.object i j := by
  obtain ⟨id, name, v, ⟨b, found, holds⟩, there⟩ := there
  obtain ⟨b', slots⟩ := exists_of_rel (h.slots id name) found
  have kept : ∃ v', ρ.Like v v' := by
    rcases holds with value | function
    · exact exists_of_rel slots.value value
    · exact exists_of_rel slots.function function
  obtain ⟨v', known⟩ := kept
  exact known.exists_of_mentions there

/-- A machine that is alike to another is sound if the likeness speaks of nothing else than
objects that were made. -/
theorem LikeMachine.sound {m m' : Machine} (state : ρ.LikeMachine m m') (settled : ρ.Settled) :
    m.Sound := by
  intro i there
  obtain ⟨j, same⟩ := state.store.exists_of_mentions there
  rw [state.left]
  exact (settled i j same).1

theorem likeMachine_below {m : Machine} (sound : m.Sound) : (below m.objects).LikeMachine m m where
  store := .of_mentions fun i there => ⟨rfl, sound i there⟩
  left := rfl
  right := rfl
  printed := rfl
  requested := rfl

theorem like_below {m : Machine} (known : m.Knows e) : (below m.objects).Like e e :=
  .of_mentions e fun i there => ⟨rfl, known i there⟩

end Below

end Likeness

open Likeness in
/-- Ends that are alike when every object stood for itself are the same. -/
theorem SameEnd.of_likeEnd {count : Nat} {r r' : EStateM.Result Error Machine Expr}
    (h : LikeEnd LikeMachine Like (same count) r r') (answered : ¬ Overflowed r)
    (answered' : ¬ Overflowed r') : SameEnd r r' := by
  have itself {σ : Likeness} (le : same count ≤ σ) : σ.Reflexive := (reflexive_same count).mono le
  cases h with
  | refused refused => exact absurd refused (not_or.mpr ⟨answered, answered'⟩)
  | ok le value state =>
    obtain rfl := value.eq fun _ _ => (itself le).eq_of_object
    exact ⟨rfl, (itself le).agrees state⟩
  | error e le state => exact ⟨rfl, (itself le).agrees state⟩

/-- The same value or error at the end, the same store, the same lines printed and the same
files asked for, up to the identities of objects made since `count` objects were made. -/
def SameUpToMade (count : Nat) (r r' : EStateM.Result Error Machine Expr) : Prop :=
  ∃ ρ : Likeness, ρ.Fixes count ∧ Likeness.LikeExcept ρ.Like (outcome r) (outcome r') ∧
    ρ.LikeMachine (finalMachine r) (finalMachine r')

open Likeness in
theorem SameUpToMade.of_likeEnd {count : Nat} {r r' : EStateM.Result Error Machine Expr}
    (h : LikeEnd LikeMachine Like (below count) r r') (answered : ¬ Overflowed r)
    (answered' : ¬ Overflowed r') : SameUpToMade count r r' := by
  have fixes {σ : Likeness} (le : below count ≤ σ) : σ.Fixes count :=
    (fixes_below count).mono le_rfl le_rfl le
  cases h with
  | refused refused => exact absurd refused (not_or.mpr ⟨answered, answered'⟩)
  | ok le value state => exact ⟨_, fixes le, .ok value, state⟩
  | error e le state => exact ⟨_, fixes le, .error e, state⟩

section Soundness

variable {w : World} {m : Machine} {scope : ScopeId} {e : Expr}

open Likeness in
/-- What an evaluation leaves in the store has been made by then. -/
theorem Machine.Sound.eval (sound : m.Sound) (uniform : w.Uniform) (known : m.Knows e)
    (answered : ¬ Overflowed (w.eval scope e m)) :
    (finalMachine (w.eval scope e m)).Sound := by
  have ends := endAlike_evaluate uniform (w.maxDepth - m.depth) (w.maxDepth - m.depth) scope
    (like_below known) m m (likeMachine_below sound)
  change LikeEnd _ _ _ (w.eval scope e m) (w.eval scope e m) at ends
  generalize w.eval scope e m = r at ends answered
  cases ends with
  | refused refused => exact absurd refused (by simpa using answered)
  | ok le value state => exact state.sound ((settled_below m.objects).mono le)
  | error e le state => exact state.sound ((settled_below m.objects).mono le)

/-- Installing a builtin adds its object to those in the store. -/
theorem Store.Mentions.of_install {s : Store} {name : String} {id i : ObjectId} {op : Builtin}
    (there : (s.change Store.root name
      (Binding.withFunction (.function (.object id (.builtin op))))).Mentions i) :
    s.Mentions i ∨ i = id := by
  obtain ⟨scope, n, v, ⟨b, found, slot⟩, there⟩ := there
  rcases Store.local?_change_cases found with ⟨rfl, rfl, _, rfl⟩ | before
  · rcases slot with value | function
    · cases old : s.local? Store.root n with
      | none => simp [old, Binding.withFunction] at value
      | some b =>
        rw [old] at value
        exact .inl ⟨_, n, v, ⟨b, old, .inl value⟩, there⟩
    · obtain rfl := Option.some.inj function
      cases there with
      | function => exact .inr rfl
      | body mem => cases mem
  · exact .inl ⟨scope, n, v, ⟨b, before, slot⟩, there⟩

/-- The builtin functions are the only objects at the start. -/
theorem Machine.sound_initial : Machine.initial.Sound := by
  refine List.foldlRecOn (motive := fun s : Store => s.IsAmong Builtin.all.length) _ _ ?_
    fun s h (op, k) mem => ?_
  · rintro i ⟨id, name, v, ⟨b, found, _⟩, _⟩
    obtain ⟨n⟩ := id
    cases n <;> simp [Store.empty, Store.local?] at found
  · refine List.foldlRecOn (motive := fun s : Store => s.IsAmong Builtin.all.length) _ _ h
      fun s h name _ i there => ?_
    rcases there.of_install with before | rfl
    · exact h i before
    · exact List.snd_lt_of_mem_zipIdx mem

end Soundness

end Lisp
