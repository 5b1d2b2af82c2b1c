import Lisp.Proofs.Assignment

/-!
# Names of constants

Whether a name is constant is asked of its nearest binding, whichever slots that fills. An
assignment asks the nearest scope where the name has a value, and is refused if that value
is a constant. In the nearest binding the two agree as long as it has a value.

They part where a function of the name stands alone in a scope that is nearer than the
constant. The name is not constant then, and cannot be assigned to. This is the only such
case in the stores that operations lead to: a binding there has a value or a function, and
it has a value if it is read-only.
-/

namespace Lisp.Store

variable {s : Store} {id near : ScopeId} {name : String} {b : Binding}

/-- The nearest value of a name is a constant. -/
def StandsForConstant (s : Store) (id : ScopeId) (name : String) : Prop :=
  ∃ near b, s.holder? id name = some near ∧ s.local? near name = some b ∧ b.readOnly = true

/-- The nearest value of a name is a constant, and the nearest binding of the name is that
of a function alone. -/
def Veiled (s : Store) (id : ScopeId) (name : String) : Prop :=
  s.StandsForConstant id name ∧
    ∃ b f, s.binding? id name = some b ∧ b.value? = none ∧ b.function? = some f

/-- Whether an assignment to a name from a scope fails. -/
def Refused (s : Store) (id : ScopeId) (name : String) (v : Expr) : Prop :=
  ∃ e s', (Operation.assign id name v).perform s = .error e s'

theorem isConstant_eq_true_iff :
    s.isConstant id name = true ↔ ∃ b, s.binding? id name = some b ∧ b.readOnly = true := by
  unfold isConstant
  cases s.binding? id name <;> simp

theorem isLocked_eq_true_iff :
    s.isLocked id name = true ↔ ∃ b, s.local? id name = some b ∧ b.readOnly = true := by
  unfold isLocked
  cases s.local? id name <;> simp

/-- An assignment is refused where it would write. -/
theorem refused_iff_isLocked (s : Store) (id : ScopeId) (name : String) (v : Expr) :
    s.Refused id name v ↔ s.isLocked (s.assignee id name) name = true := by
  have asked : (Operation.assign id name v).perform s =
      if s.isLocked (s.assignee id name) name then .error (.runtime (.constantModified name)) s
      else .ok () (s.change (s.assignee id name) name (Binding.withValue v)) :=
    (perform_eq s (.assign id name v)).trans (orUnchanged_define s (s.assignee id name) name v)
  rw [Refused, asked]
  cases s.isLocked (s.assignee id name) name <;> simp

/-- A name without a value is not read-only, so what refuses an assignment is a constant. -/
theorem Built.refused_iff (built : s.Built) (id : ScopeId) (name : String) (v : Expr) :
    s.Refused id name v ↔ s.StandsForConstant id name := by
  rw [refused_iff_isLocked, isLocked_eq_true_iff, assignee_eq, StandsForConstant]
  cases found : s.holder? id name with
  | some near => simp
  | none =>
    refine ⟨?_, fun ⟨_, _, impossible, _⟩ => by cases impossible⟩
    rintro ⟨b, there, locked⟩
    have passed : s.localValue? name (s.rootOf id) = none := by
      simpa using List.find?_eq_none.mp found _ (rootOf_mem_chain s id)
    have held : b.value? = none := by
      rw [localValue?] at passed
      exact Option.bind_eq_none_iff.mp passed b there
    have value := built.constantsHaveValues _ name b there locked
    rw [held] at value
    cases value

/-- The nearest binding, if it has a value, is the one that an assignment asks. -/
theorem exists_holder? (nearest : s.binding? id name = some b) (value : b.value?.isSome = true) :
    ∃ near, s.holder? id name = some near ∧ s.local? near name = some b := by
  rw [binding?] at nearest
  rw [holder?]
  generalize s.chain id = walk at nearest ⊢
  induction walk with
  | nil => cases nearest
  | cons i rest ih =>
    rw [List.findSome?_cons] at nearest
    cases here : s.local? i name with
    | none =>
      rw [here] at nearest
      have passed : s.localValue? name i = none := by rw [localValue?, here]; rfl
      rw [List.find?_cons_of_neg (by simp [passed])]
      exact ih nearest
    | some b' =>
      rw [here] at nearest
      obtain rfl := Option.some.inj nearest
      have held : (s.localValue? name i).isSome = true := by rw [localValue?, here]; exact value
      exact ⟨i, List.find?_cons_of_pos held, here⟩

/-- A constant is behind some binding, be it its own. -/
theorem StandsForConstant.exists_binding (h : s.StandsForConstant id name) :
    ∃ b, s.binding? id name = some b := by
  obtain ⟨near, b, ends, there, -⟩ := h
  cases nearest : s.binding? id name with
  | some b => exact ⟨b, rfl⟩
  | none =>
    have missing := List.findSome?_eq_none_iff.mp nearest near (List.mem_of_find?_eq_some ends)
    rw [there] at missing
    cases missing

/-- Every binding has a value or a function. -/
theorem Built.everywhere_filled (built : s.Built) :
    s.Everywhere fun b => b.value?.isSome = true ∨ b.function?.isSome = true := by
  refine built.everywhere (fun _ => .inl rfl) fun f filling b _ => ?_
  cases filling with
  | value v => exact .inl rfl
  | function f => exact .inr rfl
  | constant v => exact .inl rfl

theorem local?_of_binding? (nearest : s.binding? id name = some b) :
    ∃ near, s.local? near name = some b := by
  obtain ⟨_, near, _, _, there, _⟩ := List.findSome?_eq_some_iff.mp nearest
  exact ⟨near, there⟩

/-- What is read-only has a value. -/
theorem Built.value_of_readOnly (built : s.Built) (nearest : s.binding? id name = some b)
    (locked : b.readOnly = true) : b.value?.isSome = true := by
  obtain ⟨near, there⟩ := local?_of_binding? nearest
  exact built.constantsHaveValues near name b there locked

/-- What is constant stands for a constant. -/
theorem Built.standsForConstant (built : s.Built) (constant : s.isConstant id name = true) :
    s.StandsForConstant id name := by
  obtain ⟨b, nearest, locked⟩ := isConstant_eq_true_iff.mp constant
  obtain ⟨near, ends, there⟩ := exists_holder? nearest (built.value_of_readOnly nearest locked)
  exact ⟨near, b, ends, there, locked⟩

/-- If the nearest binding has a value then it is that of the constant. -/
theorem StandsForConstant.isConstant (h : s.StandsForConstant id name)
    (nearest : s.binding? id name = some b) (value : b.value?.isSome = true) :
    s.isConstant id name = true := by
  obtain ⟨near, b', ends, there, locked⟩ := h
  obtain ⟨near', ends', there'⟩ := exists_holder? nearest value
  obtain rfl : near = near' := Option.some.inj (ends.symm.trans ends')
  obtain rfl : b' = b := Option.some.inj (there.symm.trans there')
  exact isConstant_eq_true_iff.mpr ⟨b', nearest, locked⟩

/-- What stands for a constant is constant, unless a function veils it. -/
theorem Built.isConstant_eq_false_iff (built : s.Built) (h : s.StandsForConstant id name) :
    s.isConstant id name = false ↔ s.Veiled id name := by
  obtain ⟨b, nearest⟩ := h.exists_binding
  constructor
  · intro free
    cases value : b.value? with
    | some v =>
      rw [h.isConstant nearest (by rw [value]; rfl)] at free
      cases free
    | none =>
      obtain ⟨near, there⟩ := local?_of_binding? nearest
      have filled : b.value?.isSome = true ∨ b.function?.isSome = true :=
        built.everywhere_filled near name b there
      rw [value] at filled
      obtain ⟨f, function⟩ := Option.isSome_iff_exists.mp (filled.resolve_left (by decide))
      exact ⟨h, b, f, nearest, value, function⟩
  · rintro ⟨-, b', f, nearest', value, -⟩
    by_contra constant
    obtain ⟨b, nearest, locked⟩ := isConstant_eq_true_iff.mp (by simpa using constant)
    obtain rfl : b = b' := Option.some.inj (nearest.symm.trans nearest')
    have held := built.value_of_readOnly nearest locked
    rw [value] at held
    cases held

/-- Where only the root holds functions, a nearest binding without a value is in the root,
and there is no value behind it. -/
theorem Coherent.holder?_eq_none (h : s.Coherent) (has : s.Has id)
    (nearest : s.binding? id name = some b) (value : b.value? = none) :
    s.holder? id name = none := by
  refine h.induct (motive := fun id => s.binding? id name = some b → s.holder? id name = none)
    ?_ ?_ has nearest
  · intro nearest
    rw [binding?, chain, h.outer_root, List.findSome?_singleton] at nearest
    simp [holder?, chain, h.outer_root, localValue?, nearest, value]
  · intro id parent _ ne around ih nearest
    rw [binding?, chain, List.findSome?_cons, around] at nearest
    rw [holder?, chain, around]
    cases here : s.local? id name with
    | some b' =>
      rw [here] at nearest
      obtain rfl := Option.some.inj nearest
      have held := (h.plain id name b' ne here).value
      rw [value] at held
      cases held
    | none =>
      rw [here] at nearest
      rw [List.find?_cons_of_neg (by simp [localValue?, here])]
      exact ih nearest

/-- In the stores that evaluations lead to, no function veils a constant. -/
theorem Coherent.not_veiled (h : s.Coherent) (has : s.Has id) (name : String) :
    ¬ s.Veiled id name := by
  rintro ⟨⟨near, c, ends, -⟩, b, f, nearest, value, -⟩
  rw [h.holder?_eq_none has nearest value] at ends
  cases ends

/-- An assignment to a name is refused exactly if the nearest value of the name is a
constant, and one to a name that is constant always is. That a name is constant is the same
as that it cannot be assigned to exactly if no function veils a constant. -/
theorem Built.isConstant_agrees_iff (built : s.Built) (id : ScopeId) (name : String) (v : Expr) :
    (s.Refused id name v ↔ s.StandsForConstant id name) ∧
      (s.isConstant id name = true → s.Refused id name v) ∧
      ((s.isConstant id name = true ↔ s.Refused id name v) ↔ ¬ s.Veiled id name) := by
  have refused := built.refused_iff id name v
  refine ⟨refused, fun constant => refused.mpr (built.standsForConstant constant), ?_⟩
  rw [refused]
  constructor
  · intro agree veiled
    have free := (built.isConstant_eq_false_iff veiled.1).mpr veiled
    rw [agree.mpr veiled.1] at free
    cases free
  · intro plain
    refine ⟨built.standsForConstant, fun h => ?_⟩
    by_contra free
    exact plain ((built.isConstant_eq_false_iff h).mp (by simpa using free))

/-- A constant of the root, and a scope below it that does not bind the name. -/
theorem isConstant_agrees_below :
    let s := empty.afterAll [.defineConstant root "pi" (.integer 3), .child root]
    s.Built ∧ s.isConstant ⟨1⟩ "pi" = true ∧ s.Refused ⟨1⟩ "pi" .nil ∧ ¬ s.Veiled ⟨1⟩ "pi" := by
  intro s
  have built : s.Built := Built.empty.afterAll _
  have constant : s.isConstant ⟨1⟩ "pi" = true := by rfl
  obtain ⟨_, refuses, agrees⟩ := built.isConstant_agrees_iff ⟨1⟩ "pi" .nil
  have refused := refuses constant
  exact ⟨built, constant, refused, agrees.mp ⟨fun _ => refused, fun _ => constant⟩⟩

/-- A constant of the root, and a scope below it that binds the name to a function: there
the name is not constant and cannot be assigned to. -/
theorem not_isConstant_behind_function :
    let s := empty.afterAll [.defineConstant root "pi" (.integer 3), .child root,
      .defineFunction ⟨1⟩ "pi" .nil]
    s.Built ∧ s.isConstant ⟨1⟩ "pi" = false ∧ s.Refused ⟨1⟩ "pi" .nil ∧
      ¬ (s.isConstant ⟨1⟩ "pi" = true ↔ s.Refused ⟨1⟩ "pi" .nil) := by
  intro s
  have free : s.isConstant ⟨1⟩ "pi" = false := by rfl
  have refused : s.Refused ⟨1⟩ "pi" .nil := ⟨.runtime (.constantModified "pi"), s, by rfl⟩
  refine ⟨Built.empty.afterAll _, free, refused, fun agree => ?_⟩
  rw [agree.mpr refused] at free
  cases free

end Lisp.Store
