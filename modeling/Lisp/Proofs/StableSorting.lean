import Lisp.Evaluation
import Lisp.Proofs.Sorting
import Mathlib.Logic.Relation

/-!
# Sorting is stable

Of a comparison a sort only uses the answers. If these are the answers of a strict weak
order then the items come out in order, and items of which neither goes before the other
stay as they were, whatever else the comparison does. The order has to be one on the items
that are sorted, and need not be one on other values.

A sort is one inquiry, which can be asked of every comparison, whatever monad that runs in. On
a state each question is asked where the answer before left it, and the first failure is the
end. So what the results of the inquiry are, however it is answered, is what every sort
returns.
-/

namespace Lisp

open Relation (ReflTransGen)

variable {m : Type → Type} [Monad m] {α : Type}

/-- Two items of which neither goes before the other. -/
def tied (before : α → α → Bool) (a b : α) : Bool := !before a b && !before b a

/-- Whether the answers about the items of a list are those of a strict weak order. -/
structure StrictWeakOn (before : α → α → Bool) (items : List α) : Prop where
  irrefl : ∀ a ∈ items, before a a = false
  trans : ∀ a ∈ items, ∀ b ∈ items, ∀ c ∈ items,
    before a b = true → before b c = true → before a c = true
  tied_trans : ∀ a ∈ items, ∀ b ∈ items, ∀ c ∈ items,
    tied before a b = true → tied before b c = true → tied before a c = true

/-- No later item goes before an earlier one. -/
def InOrder (before : α → α → Bool) (items : List α) : Prop :=
  items.Pairwise fun a b => before b a = false

theorem tied_comm (before : α → α → Bool) (a b : α) : tied before a b = tied before b a :=
  Bool.and_comm _ _

theorem tied_eq_true_iff {before : α → α → Bool} {a b : α} :
    tied before a b = true ↔ before a b = false ∧ before b a = false := by
  simp [tied]

namespace StrictWeakOn

variable {before : α → α → Bool} {all : List α} {a b c : α}

theorem asymm (h : StrictWeakOn before all) (ha : a ∈ all) (hb : b ∈ all)
    (less : before a b = true) : before b a = false := by
  by_contra more
  have self := h.trans a ha b hb a ha less (by simpa using more)
  rw [h.irrefl a ha] at self
  cases self

/-- Not going before is transitive as well. -/
theorem not_before_trans (h : StrictWeakOn before all) (ha : a ∈ all) (hb : b ∈ all) (hc : c ∈ all)
    (first : before a b = false) (second : before b c = false) : before a c = false := by
  by_contra less
  replace less : before a c = true := by simpa using less
  have tie₁ : tied before a b = true := by
    refine tied_eq_true_iff.mpr ⟨first, ?_⟩
    by_contra back
    have short := h.trans b hb a ha c hc (by simpa using back) less
    rw [second] at short
    cases short
  have tie₂ : tied before b c = true := by
    refine tied_eq_true_iff.mpr ⟨second, ?_⟩
    by_contra back
    have short := h.trans a ha c hc b hb less (by simpa using back)
    rw [first] at short
    cases short
  have tie := tied_eq_true_iff.mp (h.tied_trans a ha b hb c hc tie₁ tie₂)
  rw [less] at tie
  cases tie.1

end StrictWeakOn

/-- The items of a list in order. Among those that are tied with one of `all`, each stands
where it stood. -/
structure Sorts (before : α → α → Bool) (all items result : List α) : Prop where
  perm : result.Perm items
  inOrder : InOrder before result
  stable : ∀ a ∈ all, result.filter (tied before a) = items.filter (tied before a)

namespace Sorts

variable {before : α → α → Bool} {all left right rest : List α} {a b : α}

/-- A merge goes on with the first item on the left if the one on the right does not go
before it. -/
theorem take_left (order : StrictWeakOn before all)
    (within : ∀ x ∈ (a :: left) ++ b :: right, x ∈ all)
    (leftOrder : InOrder before (a :: left)) (rightOrder : InOrder before (b :: right))
    (answer : before b a = false) (h : Sorts before all (left ++ b :: right) rest) :
    Sorts before all ((a :: left) ++ b :: right) (a :: rest) where
  perm := h.perm.cons a
  inOrder := by
    refine List.pairwise_cons.mpr ⟨fun y mem => ?_, h.inOrder⟩
    have ha : a ∈ all := within a (by simp)
    have hb : b ∈ all := within b (by simp)
    rcases List.mem_append.mp (h.perm.mem_iff.mp mem) with inLeft | inRight
    · exact (List.pairwise_cons.mp leftOrder).1 y inLeft
    rcases List.mem_cons.mp inRight with rfl | inRight
    · exact answer
    · have hy : y ∈ all := within y (by simp [inRight])
      exact order.not_before_trans hy hb ha ((List.pairwise_cons.mp rightOrder).1 y inRight) answer
  stable x hx := by
    rw [List.cons_append, List.filter_cons, List.filter_cons, h.stable x hx]

/-- It goes on with the first item on the right if that goes before all that are left of
it. -/
theorem take_right (order : StrictWeakOn before all)
    (within : ∀ x ∈ (a :: left) ++ b :: right, x ∈ all)
    (leftOrder : InOrder before (a :: left)) (rightOrder : InOrder before (b :: right))
    (answer : before b a = true) (h : Sorts before all ((a :: left) ++ right) rest) :
    Sorts before all ((a :: left) ++ b :: right) (b :: rest) where
  perm := (h.perm.cons b).trans List.perm_middle.symm
  inOrder := by
    refine List.pairwise_cons.mpr ⟨fun y mem => ?_, h.inOrder⟩
    have ha : a ∈ all := within a (by simp)
    have hb : b ∈ all := within b (by simp)
    rcases List.mem_append.mp (h.perm.mem_iff.mp mem) with inLeft | inRight
    · have below : before a b = false := order.asymm hb ha answer
      rcases List.mem_cons.mp inLeft with rfl | inLeft
      · exact below
      · have hy : y ∈ all := within y (by simp [inLeft])
        exact order.not_before_trans hy ha hb ((List.pairwise_cons.mp leftOrder).1 y inLeft) below
    · exact (List.pairwise_cons.mp rightOrder).1 y inRight
  stable x hx := by
    -- What is tied with the item on the right is tied with nothing on the left.
    have apart : tied before x b = true → (a :: left).filter (tied before x) = [] := by
      intro tie
      rw [List.filter_eq_nil_iff]
      intro y mem tie'
      have hy : y ∈ all := within y (List.mem_append_left _ mem)
      have hb : b ∈ all := within b (by simp)
      have ha : a ∈ all := within a (by simp)
      have tie'' : tied before b y = true :=
        order.tied_trans b hb x hx y hy (by rwa [tied_comm]) tie'
      have notLess : before y a = false := by
        rcases List.mem_cons.mp mem with rfl | mem
        · exact order.irrefl y hy
        · exact (List.pairwise_cons.mp leftOrder).1 y mem
      have equal := order.not_before_trans hb hy ha (tied_eq_true_iff.mp tie'').1 notLess
      rw [answer] at equal
      cases equal
    rw [List.filter_cons, h.stable x hx, List.filter_append, List.filter_append,
      List.filter_cons (x := b)]
    split
    · rename_i tie
      rw [apart tie, List.nil_append, List.nil_append]
    · rfl

/-- In order are two lists together if they are so after each was put in order. -/
theorem of_halves {sortedLeft sortedRight result : List α}
    (h : Sorts before all (sortedLeft ++ sortedRight) result)
    (onLeft : Sorts before all left sortedLeft) (onRight : Sorts before all right sortedRight) :
    Sorts before all (left ++ right) result where
  perm := h.perm.trans (onLeft.perm.append onRight.perm)
  inOrder := h.inOrder
  stable x hx := by
    rw [h.stable x hx, List.filter_append, List.filter_append, onLeft.stable x hx,
      onRight.stable x hx]

end Sorts

variable (p : Postcondition m) {less : α → α → m Bool} {before : α → α → Bool} {all : List α}

/-- Merging two lists in order puts all their items in order, behind those placed before. -/
theorem mergeOnto_sorts (order : StrictWeakOn before all) {merged left right : List α}
    (within : ∀ x ∈ left ++ right, x ∈ all) (leftOrder : InOrder before left)
    (rightOrder : InOrder before right)
    (asked : ∀ a ∈ all, ∀ b ∈ all, p.holds (fun answer => answer = before a b) (less a b)) :
    p.holds (fun result => ∃ rest, result = merged.reverse ++ rest ∧
      Sorts before all (left ++ right) rest) (mergeOnto less merged left right) := by
  induction merged, left, right using mergeOnto.induct with
  | case1 merged right =>
    rw [mergeOnto]
    exact p.pure ⟨right, rfl, .refl _, rightOrder, fun _ _ => rfl⟩
  | case2 merged left nonempty =>
    rw [mergeOnto, List.append_nil]
    · exact p.pure ⟨left, rfl, .refl _, leftOrder, fun _ _ => rfl⟩
    · exact nonempty
  | case3 merged a left b right ihRight ihLeft =>
    rw [mergeOnto]
    refine p.bind (asked b (within b (by simp)) a (within a (by simp))) fun answer told => ?_
    split
    · rename_i yes
      have fewer := ((List.sublist_cons_self b right).append_left (a :: left)).subset
      have later := ihRight (fun x mem => within x (fewer mem)) leftOrder
        (List.pairwise_cons.mp rightOrder).2
      refine p.imp later ?_
      rintro result ⟨rest, rfl, sorts⟩
      exact ⟨b :: rest, by simp, sorts.take_right order within leftOrder rightOrder (told ▸ yes)⟩
    · rename_i no
      have fewer := (List.sublist_cons_self a (left ++ b :: right)).subset
      have later := ihLeft (fun x mem => within x (fewer mem)) (List.pairwise_cons.mp leftOrder).2
        rightOrder
      refine p.imp later ?_
      rintro result ⟨rest, rfl, sorts⟩
      have answered : before b a = false := by simpa [told] using no
      exact ⟨a :: rest, by simp, sorts.take_left order within leftOrder rightOrder answered⟩

theorem mergeSort_short {items : List α} (short : items.length ≤ 1) :
    mergeSort less items = pure items := by
  rw [mergeSort, dif_pos short]

theorem mergeSort_long {items : List α} (long : ¬items.length ≤ 1) :
    mergeSort less items = (do
      let left ← mergeSort less (items.take (items.length / 2))
      let right ← mergeSort less (items.drop (items.length / 2))
      mergeOnto less [] left right) := by
  rw [mergeSort, dif_neg long]

/-- A sort by a strict weak order returns the items in order, with ties as they were. -/
theorem mergeSort_sorts (order : StrictWeakOn before all) {items : List α}
    (within : ∀ x ∈ items, x ∈ all)
    (asked : ∀ a ∈ all, ∀ b ∈ all, p.holds (fun answer => answer = before a b) (less a b)) :
    p.holds (Sorts before all items) (mergeSort less items) := by
  induction items using mergeSort.induct with
  | case1 items short =>
    rw [mergeSort_short short]
    refine p.pure ⟨.refl items, ?_, fun _ _ => rfl⟩
    cases items with
    | nil => exact .nil
    | cons a rest =>
      obtain rfl : rest = [] := by simpa using short
      exact List.pairwise_singleton _ a
  | case2 items long ihLeft ihRight =>
    rw [mergeSort_long long]
    have inLeft : ∀ x ∈ items.take (items.length / 2), x ∈ all :=
      fun x mem => within x (List.mem_of_mem_take mem)
    have inRight : ∀ x ∈ items.drop (items.length / 2), x ∈ all :=
      fun x mem => within x (List.mem_of_mem_drop mem)
    refine p.bind (ihLeft inLeft) fun left leftSorts => ?_
    refine p.bind (ihRight inRight) fun right rightSorts => ?_
    have kept : ∀ x ∈ left ++ right, x ∈ all := by
      intro x mem
      rcases List.mem_append.mp mem with mem | mem
      · exact inLeft x (leftSorts.perm.mem_iff.mp mem)
      · exact inRight x (rightSorts.perm.mem_iff.mp mem)
    refine p.imp (mergeOnto_sorts p order kept leftSorts.inOrder rightSorts.inOrder asked) ?_
    rintro result ⟨_, rfl, sorts⟩
    exact List.take_append_drop (items.length / 2) items ▸ sorts.of_halves leftSorts rightSorts

section Map

variable {n : Type → Type} [Monad n] (map : {β : Type} → m β → n β)
  (map_pure : ∀ {β : Type} (b : β), map (pure b) = pure b)
  (map_bind : ∀ {β γ : Type} (run : m β) (next : β → m γ),
    map (run >>= next) = map run >>= fun b => map (next b))

include map_pure map_bind

theorem map_mergeOnto (merged left right : List α) :
    map (mergeOnto less merged left right) =
      mergeOnto (fun a b => map (less a b)) merged left right := by
  induction merged, left, right using mergeOnto.induct with
  | case1 merged right => rw [mergeOnto, mergeOnto, map_pure]
  | case2 merged left nonempty =>
    rw [mergeOnto, mergeOnto, map_pure]
    · exact nonempty
    · exact nonempty
  | case3 merged a left b right ihRight ihLeft =>
    rw [mergeOnto, mergeOnto, map_bind]
    congr 1
    funext answer
    cases answer with
    | true => exact ihRight
    | false => exact ihLeft

/-- What commutes with sequencing commutes with sorting. -/
theorem map_mergeSort (items : List α) :
    map (mergeSort less items) = mergeSort (fun a b => map (less a b)) items := by
  induction items using mergeSort.induct with
  | case1 items short => rw [mergeSort_short short, mergeSort_short short, map_pure]
  | case2 items long ihLeft ihRight =>
    rw [mergeSort_long long, mergeSort_long long, map_bind, ihLeft]
    simp only [map_bind, ihRight, map_mergeOnto map map_pure map_bind]

end Map

/-! ### Comparisons one after the other -/

variable {β γ : Type}

/-- A computation that only compares items: it returns, or it asks whether one item goes
before another and goes on by the answer. -/
inductive Inquiry (α β : Type) where
  | done (result : β)
  | ask (a b : α) (next : Bool → Inquiry α β)

namespace Inquiry

def bind (q : Inquiry α β) (f : β → Inquiry α γ) : Inquiry α γ :=
  match q with
  | done b => f b
  | ask a b next => ask a b fun answer => (next answer).bind f

instance : Monad (Inquiry α) where
  pure := done
  bind := bind

/-- The question whether one item goes before another. -/
def compare (a b : α) : Inquiry α Bool := ask a b done

/-- Asks a comparison, one question after the other. Whatever else the comparison does is
left to the monad that it runs in, and so is the end at the first failure. -/
def run (less : α → α → m Bool) : Inquiry α β → m β
  | done b => pure b
  | ask a b next => do
    let answer ← less a b
    run less (next answer)

theorem run_bind [LawfulMonad m] (q : Inquiry α β) (f : β → Inquiry α γ) :
    (q.bind f).run less = q.run less >>= fun b => (f b).run less := by
  induction q with
  | done b => exact (pure_bind b fun b => (f b).run less).symm
  | ask a b next ih => simp only [bind, run, ih, bind_assoc]

/-- The result if a function gives the answers. -/
def answered (before : α → α → Bool) : Inquiry α β → β
  | done b => b
  | ask a b next => (next (before a b)).answered before

theorem answered_bind (q : Inquiry α β) (f : β → Inquiry α γ) :
    (q.bind f).answered before = (f (q.answered before)).answered before := by
  induction q with
  | done b => rfl
  | ask a b next ih => exact ih (before a b)

/-- Whether only items of a list are compared, and the results are as promised, however the
questions are answered. -/
def Ends (items : List α) (post : β → Prop) : Inquiry α β → Prop
  | done b => post b
  | ask a b next => a ∈ items ∧ b ∈ items ∧ ∀ answer, (next answer).Ends items post

/-- Results given all answers. -/
def ends (items : List α) : Postcondition (Inquiry α) where
  holds := Ends items
  pure promised := promised
  bind {_ _ _ _ q f} first second := by
    induction q with
    | done b => exact second b first
    | ask a b next ih => exact ⟨first.1, first.2.1, fun answer => ih answer (first.2.2 answer)⟩
  imp {_ _ _ q} first more := by
    induction q with
    | done b => exact more b first
    | ask a b next ih => exact ⟨first.1, first.2.1, fun answer => ih answer (first.2.2 answer)⟩

/-- Results given the answers of a function. -/
def answers (before : α → α → Bool) : Postcondition (Inquiry α) where
  holds post q := post (q.answered before)
  pure promised := promised
  bind {_ _ _ post' q f} first second := by
    change post' ((q.bind f).answered before)
    rw [answered_bind]
    exact second _ first
  imp first more := more _ first

end Inquiry

open Inquiry

theorem mergeSort_ends (items : List α) :
    (mergeSort compare items).Ends items (fun result => result.Perm items) :=
  mergeSort_perm (ends items) fun _ ha _ hb => ⟨ha, hb, fun _ => trivial⟩

theorem mergeSort_answered {items : List α} (order : StrictWeakOn before items) :
    Sorts before items items ((mergeSort compare items).answered before) :=
  mergeSort_sorts (answers before) order (fun _ mem => mem) fun _ _ _ _ => rfl

/-- Every sort asks its comparison the questions of one inquiry. -/
theorem mergeSort_eq_run [LawfulMonad m] (less : α → α → m Bool) (items : List α) :
    mergeSort less items = (mergeSort compare items).run less := by
  have asked : (fun a b => (compare a b).run less) = less := by
    funext a b
    exact bind_pure (less a b)
  rw [map_mergeSort (run less) (fun _ => rfl) run_bind, asked]

/-! ### Comparisons that may fail -/

variable {ε σ : Type} {less' : α → α → EStateM ε σ Bool} {items : List α} {q : Inquiry α β}

/-- Comparing two of the items succeeds, and takes one state to another. -/
def Asks (less : α → α → EStateM ε σ Bool) (items : List α) (s t : σ) : Prop :=
  ∃ a ∈ items, ∃ b ∈ items, ∃ answer, less a b s = .ok answer t

/-- How a computation ends that only compares items. It returns what it promises, after
comparisons that all succeeded, or it ends with the first one that failed. -/
def EndsAsking (less : α → α → EStateM ε σ Bool) (items : List α) (post : β → Prop) (s : σ) :
    EStateM.Result ε σ β → Prop
  | .ok result t => ReflTransGen (Asks less items) s t ∧ post result
  | .error e u =>
    ∃ t, ReflTransGen (Asks less items) s t ∧
      ∃ a ∈ items, ∃ b ∈ items, less a b t = .error e u

namespace Inquiry

theorem run_ask_ok {a b : α} {next : Bool → Inquiry α β} {s t : σ} {answer : Bool}
    (h : less' a b s = .ok answer t) :
    (ask a b next).run less' s = (next answer).run less' t := by
  change EStateM.bind (less' a b) (fun answer => (next answer).run less') s = _
  rw [EStateM.bind, h]

theorem run_ask_error {a b : α} {next : Bool → Inquiry α β} {s u : σ} {e : ε}
    (h : less' a b s = .error e u) : (ask a b next).run less' s = .error e u := by
  change EStateM.bind (less' a b) (fun answer => (next answer).run less') s = _
  rw [EStateM.bind, h]

theorem endsAsking_run {post : β → Prop} (h : q.Ends items post) (s : σ) :
    EndsAsking less' items post s (q.run less' s) := by
  induction q generalizing s with
  | done b => exact ⟨.refl, h⟩
  | ask a b next ih =>
    obtain ⟨ha, hb, rest⟩ := h
    cases asked : less' a b s with
    | error e u =>
      rw [run_ask_error asked]
      exact ⟨s, .refl, a, ha, b, hb, asked⟩
    | ok answer t =>
      have step : Asks less' items s t := ⟨a, ha, b, hb, answer, asked⟩
      have later := ih answer (rest answer) t
      rw [run_ask_ok asked]
      cases ended : (next answer).run less' t with
      | ok result u =>
        rw [ended] at later
        exact ⟨later.1.head step, later.2⟩
      | error e u =>
        rw [ended] at later
        obtain ⟨t', more, failure⟩ := later
        exact ⟨t', more.head step, failure⟩

/-- If no comparison fails and a function gives the answers, so it gives the result. -/
theorem run_eq_ok {post : β → Prop} (h : q.Ends items post)
    (told : ∀ a ∈ items, ∀ b ∈ items, ∀ s, ∃ t, less' a b s = .ok (before a b) t) (s : σ) :
    ∃ t, q.run less' s = .ok (q.answered before) t := by
  induction q generalizing s with
  | done b => exact ⟨s, rfl⟩
  | ask a b next ih =>
    obtain ⟨ha, hb, rest⟩ := h
    obtain ⟨t, asked⟩ := told a ha b hb s
    rw [run_ask_ok asked]
    exact ih (before a b) (rest (before a b)) t

end Inquiry

/-- Sorting is correct for every list and every comparison, which may fail or have effects. The
comparison is asked about items of the list, one question after the other, as an inquiry says
that depends on nothing but the answers and whose results are permutations of the list. So if
the sort returns then a permutation, after comparisons that all succeeded, and otherwise it
ends with the first one that failed. If none fails and the answers are those of a strict weak
order, it returns the items in order, and those of which neither goes before the other as
they stood. A program runs a sort by running its comparisons. -/
theorem mergeSort_correct :
    (∀ {α : Type} (items : List α), ∃ q : Inquiry α (List α),
      q.Ends items (fun result => result.Perm items) ∧
      ∀ {m : Type → Type} [Monad m] [LawfulMonad m] (less : α → α → m Bool),
        mergeSort less items = q.run less) ∧
    (∀ {ε σ α : Type} (less : α → α → EStateM ε σ Bool) (items : List α) (s : σ),
      EndsAsking less items (fun result => result.Perm items) s (mergeSort less items s)) ∧
    (∀ {ε σ α : Type} (less : α → α → EStateM ε σ Bool) (before : α → α → Bool) (items : List α),
      StrictWeakOn before items →
      (∀ a ∈ items, ∀ b ∈ items, ∀ s, ∃ t, less a b s = .ok (before a b) t) →
      ∀ s, ∃ result t, mergeSort less items s = .ok result t ∧ result.Perm items ∧
        InOrder before result ∧
        ∀ a ∈ items, result.filter (tied before a) = items.filter (tied before a)) ∧
    (∀ {α : Type} (w : World) (apply : Applier) (less : α → α → Program Bool) (items : List α),
      (mergeSort less items).run w apply = mergeSort (fun a b => (less a b).run w apply) items) ∧
    (∀ {α : Type} (less : α → α → Except Error Bool) (items : List α),
      Program.ofExcept (mergeSort less items) =
        mergeSort (fun a b => Program.ofExcept (less a b)) items) := by
  refine ⟨fun items => ⟨_, mergeSort_ends items, fun less => mergeSort_eq_run less items⟩,
    ?_, ?_, ?_, ?_⟩
  · intro ε σ α less items s
    rw [mergeSort_eq_run]
    exact endsAsking_run (mergeSort_ends items) s
  · intro ε σ α less before items order told s
    obtain ⟨t, returned⟩ := run_eq_ok (mergeSort_ends items) told s
    have sorts := mergeSort_answered order
    rw [mergeSort_eq_run]
    exact ⟨_, t, returned, sorts.perm, sorts.inOrder, sorts.stable⟩
  · intro α w apply less items
    exact map_mergeSort (Program.run w apply) (fun _ => rfl) (Program.run_bind w apply) items
  · intro α less items
    refine map_mergeSort Program.ofExcept (fun _ => rfl) (fun run next => ?_) items
    cases run with
    | ok b => rfl
    | error e => rfl

/-- Pairs compared by their numbers, on a state that counts the comparisons. -/
def countingLess (a b : Nat × Char) : EStateM Error Nat Bool := fun n =>
  .ok (decide (a.1 < b.1)) (n + 1)

theorem sorted_pairs_correct :
    ∃ result t, mergeSort countingLess [(2, 'a'), (1, 'b'), (2, 'c'), (1, 'd')] 0 = .ok result t ∧
      result.Perm [(2, 'a'), (1, 'b'), (2, 'c'), (1, 'd')] ∧
      InOrder (fun a b => decide (a.1 < b.1)) result ∧
      result.filter (tied (fun a b => decide (a.1 < b.1)) (1, 'b')) = [(1, 'b'), (1, 'd')] := by
  have order : StrictWeakOn (fun a b : Nat × Char => decide (a.1 < b.1))
      [(2, 'a'), (1, 'b'), (2, 'c'), (1, 'd')] := ⟨by decide, by decide, by decide⟩
  obtain ⟨result, t, returned, perm, inOrder, stable⟩ := mergeSort_correct.2.2.1 countingLess
    _ _ order (fun _ _ _ _ n => ⟨n + 1, rfl⟩) 0
  exact ⟨result, t, returned, perm, inOrder, stable (1, 'b') (by decide)⟩

end Lisp
