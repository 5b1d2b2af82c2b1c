import Lisp.MergeSort
import Mathlib.Data.List.Perm.Basic

/-!
# What merge sort returns

A sort hands its items to the comparison and returns them in some order, in
whatever monad the comparison runs. The monad enters only through a way to say
that the results of a computation satisfy a predicate.
-/

namespace Lisp

variable {m : Type → Type} [Monad m] {α : Type}

/-- A way to say of computations that their results satisfy a predicate. -/
structure Postcondition (m : Type → Type) [Monad m] where
  holds : {β : Type} → (β → Prop) → m β → Prop
  pure : ∀ {β : Type} {post : β → Prop} {b : β}, post b → holds post (pure b)
  bind : ∀ {β γ : Type} {post : β → Prop} {post' : γ → Prop} {run : m β} {next : β → m γ},
    holds post run → (∀ b, post b → holds post' (next b)) → holds post' (run >>= next)
  imp : ∀ {β : Type} {post post' : β → Prop} {run : m β},
    holds post run → (∀ b, post b → post' b) → holds post' run

variable (p : Postcondition m) {less : α → α → m Bool}

/-- Merging returns the items placed before and those of the two lists. -/
theorem mergeOnto_perm {merged left right : List α}
    (asked : ∀ a ∈ right, ∀ b ∈ left, p.holds (fun _ => True) (less a b)) :
    p.holds (fun result => result.Perm (merged ++ (left ++ right)))
      (mergeOnto less merged left right) := by
  induction merged, left, right using mergeOnto.induct with
  | case1 merged right =>
    rw [mergeOnto]
    exact p.pure ((List.reverse_perm merged).append_right right)
  | case2 merged left nonempty =>
    rw [mergeOnto, List.append_nil]
    · exact p.pure ((List.reverse_perm merged).append_right left)
    · exact nonempty
  | case3 merged a left b right ihRight ihLeft =>
    rw [mergeOnto]
    refine p.bind (asked b (by simp) a (by simp)) fun answer _ => ?_
    split
    · refine p.imp (ihRight fun a' inRight b' inLeft => asked a' (by simp [inRight]) b' inLeft) ?_
      intro result perm
      calc result.Perm (b :: (merged ++ (a :: left ++ right))) := perm
        _ |>.Perm (merged ++ b :: (a :: left ++ right)) := List.perm_middle.symm
        _ |>.Perm (merged ++ (a :: left ++ b :: right)) := List.perm_middle.symm.append_left merged
    · refine p.imp (ihLeft fun a' inRight b' inLeft => asked a' inRight b' (by simp [inLeft])) ?_
      intro result perm
      exact perm.trans List.perm_middle.symm

/-- A sort returns a permutation of its items, if it returns. -/
theorem mergeSort_perm {items : List α}
    (asked : ∀ a ∈ items, ∀ b ∈ items, p.holds (fun _ => True) (less a b)) :
    p.holds (fun result => result.Perm items) (mergeSort less items) := by
  induction items using mergeSort.induct with
  | case1 items short =>
    rw [mergeSort, dif_pos short]
    exact p.pure (List.Perm.refl items)
  | case2 items long ihLeft ihRight =>
    rw [mergeSort, dif_neg long]
    have inLeft : ∀ a ∈ items.take (items.length / 2), a ∈ items := fun _ => List.mem_of_mem_take
    have inRight : ∀ a ∈ items.drop (items.length / 2), a ∈ items := fun _ => List.mem_of_mem_drop
    refine p.bind (ihLeft fun a ha b hb => asked a (inLeft a ha) b (inLeft b hb)) ?_
    intro left leftPerm
    refine p.bind (ihRight fun a ha b hb => asked a (inRight a ha) b (inRight b hb)) ?_
    intro right rightPerm
    have compared : ∀ a ∈ right, ∀ b ∈ left, p.holds (fun _ => True) (less a b) :=
      fun a ha b hb =>
        asked a (inRight a (rightPerm.mem_iff.mp ha)) b (inLeft b (leftPerm.mem_iff.mp hb))
    refine p.imp (mergeOnto_perm p compared) fun result perm => ?_
    calc result.Perm (left ++ right) := perm
      _ |>.Perm (items.take (items.length / 2) ++ items.drop (items.length / 2)) :=
          leftPerm.append rightPerm
      _ = items := List.take_append_drop _ items

end Lisp
