import Lisp.Proofs.Constants
import Lisp.Proofs.Lookup

/-!
# Assignment changes one slot

An assignment walks out from a scope to the nearest one where the name has a value, and
past scopes that bind the name to a function only. It writes there, or in the root if the
name has no value anywhere. A read walks as well, from a scope of its own, and may begin
anywhere in the tree of scopes.

So what a read sees of the assignment depends on where its own walk ends once the value is
written: it finds the new value if that is the scope of the assignment, and what it found
before if not. Nothing else can be told apart, neither a function of any name nor the value
of another name. For all this the scopes around a scope have to be there, which holds of
every store that operations through its own scopes lead to.
-/

namespace Lisp.Store

variable {s s' : Store} {id target other : ScopeId} {name : String} {v : Expr}

/-- The scope through which an operation is asked for. -/
def Operation.scope : Operation → ScopeId
  | child scope => scope
  | define scope _ _ => scope
  | defineFunction scope _ _ => scope
  | defineConstant scope _ _ => scope
  | assign scope _ _ => scope
  | assignFunction scope _ _ => scope

/-- The stores that operations lead to which are asked for through scopes that are there,
failed ones included, from an empty root or from the builtin library. -/
inductive Grown : Store → Prop where
  | empty : Grown Store.empty
  | library : Grown withBuiltins
  | after {s : Store} (before : Grown s) {op : Operation} (has : s.Has op.scope) :
      Grown (s.after op)

instance (s : Store) : DecidablePred s.Has := fun id => Nat.decLt id.index s.scopes.size

/-- Whether the scopes around each scope of a store are there. -/
def Nested (s : Store) : Prop := ∀ id, s.Has id → ∀ around ∈ s.chain id, s.Has around

theorem Nested.change (h : s.Nested) (id : ScopeId) (name : String) (f : Binding → Binding) :
    (s.change id name f).Nested := by
  intro inner has around outside
  rw [has_change] at has ⊢
  rw [chain, outer_change] at outside
  exact h inner has around outside

theorem Nested.child (h : s.Nested) {parent : ScopeId} (has : s.Has parent) :
    (s.child parent).2.Nested := by
  intro inner there around outside
  rw [Store.child, has_enter] at there ⊢
  rw [Store.child, chain] at outside
  rcases there with old | rfl
  · rw [outer_enter s parent [] old] at outside
    exact .inl (h inner old around outside)
  · rw [outer_enter_fresh] at outside
    rcases List.mem_cons.mp outside with rfl | outside
    · exact .inr rfl
    · exact .inl (h parent has around outside)

theorem Grown.nested (grown : s.Grown) : s.Nested := by
  induction grown with
  | empty => exact fun _ => isLibrary_empty.coherent.has_chain
  | library => exact fun _ => isLibrary_withBuiltins.coherent.has_chain
  | @after s _ op has ih =>
    rcases s.after_cases op with ⟨parent, rfl, made⟩ | ⟨id, name, f, _, _, made⟩ | same
    · exact made ▸ ih.child has
    · exact made ▸ ih.change id name f
    · exact same.symm ▸ ih

/-- The nearest scope that holds a value for a name. -/
def holder? (s : Store) (id : ScopeId) (name : String) : Option ScopeId :=
  (s.chain id).find? fun i => (s.localValue? name i).isSome

/-- An assignment goes to the nearest value, or to the outermost scope if there is none. -/
theorem assignee_eq (s : Store) (id : ScopeId) (name : String) :
    s.assignee id name = (s.holder? id name).getD (s.rootOf id) := rfl

theorem findSome?_eq_find?_bind {α β : Type} (f : α → Option β) (l : List α) :
    l.findSome? f = (l.find? fun a => (f a).isSome).bind f := by
  induction l with
  | nil => rfl
  | cons a l ih => cases found : f a <;> simp [found, ih]

/-- A value is read in the scope that holds it. -/
theorem value?_eq (s : Store) (id : ScopeId) (name : String) :
    s.value? id name = (s.holder? id name).bind (s.localValue? name) :=
  findSome?_eq_find?_bind _ _

/-- One more element is found, at which a search had found nothing before. -/
theorem find?_of_agree {α : Type} {p q : α → Bool} {x : α} {l : List α}
    (agree : ∀ a, a ≠ x → q a = p a) (here : q x = true)
    (before : l.find? p = some x ∨ l.find? p = none ∧ x ∈ l) : l.find? q = some x := by
  induction l with
  | nil => simp at before
  | cons a l ih =>
    by_cases same : a = x
    · rw [same, List.find?_cons_of_pos here]
    · have passed : p a = false := by
        by_contra found
        replace found : p a = true := by simpa using found
        rw [List.find?_cons_of_pos found] at before
        rcases before with before | before
        · exact same (Option.some.inj before)
        · cases before.1
      rw [List.find?_cons_of_neg (by simp [agree a same, passed])]
      rw [List.find?_cons_of_neg (by simp [passed])] at before
      exact ih (before.imp_right fun h => ⟨h.1, List.mem_of_ne_of_mem (Ne.symm same) h.2⟩)

section Written

variable (has : s.Has target)

theorem chain_change (s : Store) (id : ScopeId) (name : String) (f : Binding → Binding)
    (other : ScopeId) : (s.change id name f).chain other = s.chain other := by
  rw [chain, outer_change, chain]

include has

/-- When an assignment is done, the walk that found its scope finds it again. -/
theorem holder?_change_assignee (isTarget : s.assignee id name = target) :
    (s.change target name (Binding.withValue v)).holder? id name = some target := by
  rw [holder?, chain_change]
  refine find?_of_agree (p := fun i => (s.localValue? name i).isSome) ?_ ?_ ?_
  · intro i ne
    rw [localValue?_change_of_ne ne]
  · rw [localValue?_change_self has]
    rfl
  · rw [assignee_eq, holder?] at isTarget
    cases found : (s.chain id).find? fun i => (s.localValue? name i).isSome with
    | some near =>
      rw [found] at isTarget
      exact .inl (congrArg some isTarget)
    | none =>
      rw [found] at isTarget
      exact .inr ⟨rfl, isTarget ▸ rootOf_mem_chain s id⟩

/-- A walk that ends in the scope of an assignment finds the new value. -/
theorem value?_change_of_holder
    (ends : (s.change target name (Binding.withValue v)).holder? other name = some target) :
    (s.change target name (Binding.withValue v)).value? other name = some v := by
  rw [value?_eq, ends]
  exact localValue?_change_self has name v

/-- A walk that ends elsewhere finds what it found before. -/
theorem value?_change_of_not_holder
    (elsewhere : (s.change target name (Binding.withValue v)).holder? other name ≠ some target) :
    (s.change target name (Binding.withValue v)).value? other name = s.value? other name := by
  rw [holder?, chain_change] at elsewhere
  rw [value?, value?, chain_change]
  -- Up to its end such a walk does not come past the scope of the assignment.
  generalize s.chain other = walk at elsewhere ⊢
  induction walk with
  | nil => rfl
  | cons i rest ih =>
    have ne : i ≠ target := by
      rintro rfl
      rw [List.find?_cons_of_pos (by simp [localValue?_change_self has])] at elsewhere
      exact elsewhere rfl
    have same := localValue?_change_of_ne (s := s) ne name (Binding.withValue v) name
    rw [List.findSome?_cons, List.findSome?_cons, same]
    cases found : s.localValue? name i with
    | some old => rfl
    | none =>
      rw [List.find?_cons_of_neg (by simp [same, found])] at elsewhere
      exact ih elsewhere

end Written

theorem value?_change_name {name' : String} (ne : name' ≠ name) (id : ScopeId)
    (f : Binding → Binding) (other : ScopeId) :
    (s.change id name f).value? other name' = s.value? other name' := by
  rw [value?, value?, chain_change]
  refine findSome?_congr fun i _ => ?_
  rw [localValue?, local?_change_name ne, localValue?]

theorem function?_change {f : Binding → Binding} (keeps : ∀ b, (f b).function? = b.function?)
    (id : ScopeId) (name : String) (other : ScopeId) (name' : String) :
    (s.change id name f).function? other name' = s.function? other name' := by
  rw [function?, function?, chain_change]
  exact findSome?_congr fun i _ => localFunction?_change keeps id name i name'

/-- What an assignment to a name in one scope makes of a store. -/
structure AssignedAt (s s' : Store) (target : ScopeId) (name : String) (v : Expr) : Prop where
  written : s'.local? target name = some (((s.local? target name).getD {}).withValue v)
  elsewhere : ∀ id name', ¬ (id = target ∧ name' = name) → s'.local? id name' = s.local? id name'
  chains : ∀ id, s'.chain id = s.chain id
  functions : ∀ id name', s'.function? id name' = s.function? id name'
  otherNames : ∀ id name', name' ≠ name → s'.value? id name' = s.value? id name'
  seen : ∀ id, s'.holder? id name = some target → s'.value? id name = some v
  unseen : ∀ id, s'.holder? id name ≠ some target → s'.value? id name = s.value? id name

theorem assignedAt_change (has : s.Has target) (name : String) (v : Expr) :
    s.AssignedAt (s.change target name (Binding.withValue v)) target name v where
  written := local?_change_self has name (Binding.withValue v)
  elsewhere _ _ apart := local?_change_elsewhere apart (Binding.withValue v)
  chains := chain_change s target name (Binding.withValue v)
  functions := function?_change (f := Binding.withValue v) (fun _ => rfl) target name
  otherNames id _ ne := value?_change_name ne target (Binding.withValue v) id
  seen _ ends := value?_change_of_holder has ends
  unseen _ apart := value?_change_of_not_holder has apart

/-- An assignment that succeeds writes in the nearest scope where the name has a value, or in
the outermost one if it has none. That binding has a new value, and every other binding is
as it was. No lookup of a function has another result, nor one of the value of another
name. A lookup of the value of the name, from any scope, has the new value as its result
if it ends in the scope that was written, as it does from the scope of the assignment, and
otherwise the same result as before. -/
theorem Grown.assign_changes_one_slot (grown : s.Grown) (has : s.Has id)
    (done : (Operation.assign id name v).perform s = .ok () s') :
    ∃ target, (s.holder? id name = some target ∨
        s.holder? id name = none ∧ target = s.rootOf id) ∧
      s.AssignedAt s' target name v ∧ s'.holder? id name = some target ∧
      s'.value? id name = some v := by
  obtain rfl : s' = s.change (s.assignee id name) name (Binding.withValue v) := by
    rw [perform_eq] at done
    cases asked : (Operation.assign id name v).outcome s with
    | error e =>
      rw [asked] at done
      cases done
    | ok next =>
      rw [asked] at done
      cases done
      exact (update_eq_ok asked).2
  have there : s.Has (s.assignee id name) :=
    grown.nested id has _ (assignee_mem_chain s id name)
  have ends := holder?_change_assignee (v := v) there rfl
  have assigned := assignedAt_change there name v
  refine ⟨s.assignee id name, ?_, assigned, ends, assigned.seen id ends⟩
  rw [assignee_eq]
  cases s.holder? id name with
  | some near => exact .inl rfl
  | none => exact .inr ⟨rfl, rfl⟩

/-- A name with a value in the root and in a scope below it, and with a function only in a
third scope below both. -/
def shadowed : Store :=
  empty.afterAll [.define root "x" (.integer 1), .child root, .define ⟨1⟩ "x" (.integer 2),
    .child ⟨1⟩, .defineFunction ⟨2⟩ "x" .nil]

theorem grown_shadowed : shadowed.Grown := by
  simp only [shadowed, afterAll, List.foldl_cons, List.foldl_nil]
  refine .after (.after (.after (.after (.after .empty ?_) ?_) ?_) ?_) ?_ <;> decide

/-- An assignment from the third scope passes it and writes in the second. -/
theorem assign_shadowed_changes_one_slot :
    let s' := shadowed.change ⟨1⟩ "x" (Binding.withValue (.integer 3))
    shadowed.Has ⟨2⟩ ∧ (Operation.assign ⟨2⟩ "x" (.integer 3)).perform shadowed = .ok () s' ∧
      shadowed.AssignedAt s' ⟨1⟩ "x" (.integer 3) ∧ s'.value? ⟨2⟩ "x" = some (.integer 3) ∧
      s'.value? root "x" = some (.integer 1) := by
  intro s'
  have has : shadowed.Has ⟨2⟩ := by decide
  have done : (Operation.assign ⟨2⟩ "x" (.integer 3)).perform shadowed = .ok () s' := by rfl
  obtain ⟨target, nearest, assigned, -, value⟩ :=
    grown_shadowed.assign_changes_one_slot has done
  obtain rfl : ⟨1⟩ = target := by
    have near : shadowed.holder? ⟨2⟩ "x" = some ⟨1⟩ := by rfl
    rw [near] at nearest
    rcases nearest with same | ⟨none, -⟩
    · exact Option.some.inj same
    · cases none
  have stays : s'.holder? root "x" = some root := by rfl
  have apart : s'.holder? root "x" ≠ some ⟨1⟩ := by
    rw [stays]
    decide
  exact ⟨has, done, assigned, value, (assigned.unseen root apart).trans (by rfl)⟩

end Lisp.Store
