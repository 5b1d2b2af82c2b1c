import Lisp.Proofs.LikeValues
import Lisp.Proofs.StableSorting

/-!
# Programs that do the same with alike values

Two programs are alike if they make alike requests in the same order, and go on alike
whatever they are answered, as long as the answers are alike as well. The likeness may have
grown by then. An answer is alike to another if it is alike as a value; counters are if
both have gone up by the same since the comparison of the two runs began.

The relation goes through programs part by part, so that it is proved of a function by
following its text.
-/

namespace Lisp

/-- What the counters of two runs were when their comparison began. -/
structure Outset where
  left : Counters
  right : Counters

/-- Counters that have gone up by the same since the comparison began. -/
structure Outset.Abreast (o : Outset) (c c' : Counters) : Prop where
  evaluations : c.evaluations + o.right.evaluations = c'.evaluations + o.left.evaluations
  symbolLookups : c.symbolLookups + o.right.symbolLookups = c'.symbolLookups + o.left.symbolLookups
  functionCalls : c.functionCalls + o.right.functionCalls = c'.functionCalls + o.left.functionCalls
  literals : c.literals + o.right.literals = c'.literals + o.left.literals

/-- What is counted between two moments is the same on both sides. -/
theorem Outset.Abreast.since_eq {o : Outset} {b b' c c' : Counters} (earlier : o.Abreast b b')
    (later : o.Abreast c c') : c.since b = c'.since b' := by
  obtain ⟨_, _, _, _⟩ := earlier
  obtain ⟨_, _, _, _⟩ := later
  simp only [Counters.since, Counters.mk.injEq]
  omega

/-- Counters stay abreast if the same is counted on both sides. -/
theorem Outset.Abreast.ahead {o : Outset} {c c' : Counters} (h : o.Abreast c c')
    (evaluations lookups calls literals : Nat) :
    o.Abreast
      ⟨c.evaluations + evaluations, c.symbolLookups + lookups, c.functionCalls + calls,
        c.literals + literals⟩
      ⟨c'.evaluations + evaluations, c'.symbolLookups + lookups, c'.functionCalls + calls,
        c'.literals + literals⟩ := by
  obtain ⟨_, _, _, _⟩ := h
  constructor <;> dsimp only <;> omega

namespace Likeness

/-- Bindings of the same name to alike values. -/
def LikeBinding (ρ : Likeness) (b b' : String × Expr) : Prop := b.1 = b'.1 ∧ ρ.Like b.2 b'.2

/-- Requests that are alike, and when answers to them are. -/
inductive LikeEffect (o : Outset) (ρ : Likeness) :
    (x x' : Effect) → (Likeness → x.Answer → x'.Answer → Prop) → Prop where
  | valueOf (scope : ScopeId) (name : String) :
      LikeEffect o ρ (.valueOf scope name) (.valueOf scope name) fun σ => Option.Rel σ.Like
  | functionOf (scope : ScopeId) (name : String) :
      LikeEffect o ρ (.functionOf scope name) (.functionOf scope name) fun σ => Option.Rel σ.Like
  | isConstant (scope : ScopeId) (name : String) :
      LikeEffect o ρ (.isConstant scope name) (.isConstant scope name) fun _ => Eq
  | assign (scope : ScopeId) (name : String) {v v'} : ρ.Like v v' →
      LikeEffect o ρ (.assign scope name v) (.assign scope name v') fun _ _ _ => True
  | defineGlobal (name : String) {v v'} : ρ.Like v v' →
      LikeEffect o ρ (.defineGlobal name v) (.defineGlobal name v') fun _ _ _ => True
  | defineConstant (name : String) {v v'} : ρ.Like v v' →
      LikeEffect o ρ (.defineConstant name v) (.defineConstant name v') fun _ _ _ => True
  | defineFunction (name : String) {f f'} : ρ.Like f f' →
      LikeEffect o ρ (.defineFunction name f) (.defineFunction name f') fun _ _ _ => True
  | enter (parent : ScopeId) {values values'} : List.Forall₂ ρ.LikeBinding values values' →
      LikeEffect o ρ (.enter parent values) (.enter parent values')
        fun _ (inner inner' : ScopeId) => inner = inner'
  | cons {car car' cdr cdr'} : ρ.Like car car' → ρ.Like cdr cdr' →
      LikeEffect o ρ (.cons car cdr) (.cons car' cdr') fun σ => σ.Like
  | newFunction {code code'} : ρ.LikeCode code code' →
      LikeEffect o ρ (.newFunction code) (.newFunction code') fun σ => σ.LikeFunction
  | place (d : Datum) : LikeEffect o ρ (.place d) (.place d) fun σ => σ.Like
  | print (line : String) : LikeEffect o ρ (.print line) (.print line) fun _ _ _ => True
  | counters : LikeEffect o ρ .counters .counters fun _ => o.Abreast
  | elapsed : LikeEffect o ρ .elapsed .elapsed fun _ => Eq
  | file (path : String) : LikeEffect o ρ (.file path) (.file path) fun _ => Eq

variable {α β γ δ : Type}

/-- Programs that make alike requests and go on alike, and whose results satisfy a relation
under the likeness of then. -/
inductive LikeProgram (o : Outset) {α β : Type} (post : Likeness → α → β → Prop) :
    Likeness → Program α → Program β → Prop where
  | done {ρ a b} : post ρ a b → LikeProgram o post ρ (.done a) (.done b)
  | fail {ρ} (e : Error) : LikeProgram o post ρ (.fail e) (.fail e)
  | perform {ρ x x' answers next next'} : ρ.LikeEffect o x x' answers →
      (∀ σ, ρ ≤ σ → ∀ a a', answers σ a a' → LikeProgram o post σ (next a) (next' a')) →
      LikeProgram o post ρ (.perform x next) (.perform x' next')
  | eval {ρ e e' next next'} (scope : ScopeId) : ρ.Like e e' →
      (∀ σ, ρ ≤ σ → ∀ v v', σ.Like v v' → LikeProgram o post σ (next v) (next' v')) →
      LikeProgram o post ρ (.eval scope e next) (.eval scope e' next')
  | call {ρ f f' args args' next next'} (scope : ScopeId) : ρ.LikeFunction f f' →
      ρ.LikeAll args args' →
      (∀ σ, ρ ≤ σ → ∀ v v', σ.Like v v' → LikeProgram o post σ (next v) (next' v')) →
      LikeProgram o post ρ (.call f args scope next) (.call f' args' scope next')
  | traced {ρ e e' next next'} (scope : ScopeId) : ρ.Like e e' →
      (∀ σ, ρ ≤ σ → ∀ v v', σ.Like v v' → LikeProgram o post σ (next v) (next' v')) →
      LikeProgram o post ρ (.traced scope e next) (.traced scope e' next')

/-- Results of computations without effects: both are errors, the same one, or both are
values in a relation. -/
inductive LikeExcept {ε : Type} (r : α → β → Prop) : Except ε α → Except ε β → Prop where
  | ok {a b} : r a b → LikeExcept r (.ok a) (.ok b)
  | error (e : ε) : LikeExcept r (.error e) (.error e)

theorem LikeExcept.bind {ε : Type} {r : α → β → Prop} {r' : γ → δ → Prop} {x : Except ε α}
    {x' : Except ε β} {f : α → Except ε γ} {f' : β → Except ε δ}
    (first : LikeExcept r x x') (later : ∀ a b, r a b → LikeExcept r' (f a) (f' b)) :
    LikeExcept r' (x >>= f) (x' >>= f') := by
  cases first with
  | ok same => exact later _ _ same
  | error e => exact .error e

variable {o : Outset} {ρ : Likeness} {post : Likeness → α → β → Prop}
  {post' : Likeness → γ → δ → Prop}

namespace LikeProgram

/-- Programs in two parts, the second under the likeness that the first leads to. -/
theorem bind {p : Program α} {p' : Program β} {f : α → Program γ} {f' : β → Program δ}
    (first : ρ.LikeProgram o post p p')
    (later : ∀ σ, ρ ≤ σ → ∀ a b, post σ a b → σ.LikeProgram o post' (f a) (f' b)) :
    ρ.LikeProgram o post' (p >>= f) (p' >>= f') := by
  show ρ.LikeProgram o post' (p.bind f) (p'.bind f')
  induction first with
  | done same => exact later _ le_rfl _ _ same
  | fail e => exact .fail e
  | perform asked _ ih =>
    exact .perform asked fun σ le a a' answer =>
      ih σ le a a' answer fun τ le' => later τ (le.trans le')
  | eval scope known _ ih =>
    exact .eval scope known fun σ le v v' value =>
      ih σ le v v' value fun τ le' => later τ (le.trans le')
  | call scope function known _ ih =>
    exact .call scope function known fun σ le v v' value =>
      ih σ le v v' value fun τ le' => later τ (le.trans le')
  | traced scope known _ ih =>
    exact .traced scope known fun σ le v v' value =>
      ih σ le v v' value fun τ le' => later τ (le.trans le')

theorem pure {a : α} {b : β} (same : post ρ a b) :
    ρ.LikeProgram o post (Pure.pure a) (Pure.pure b) := .done same

/-- A choice made alike between two programs that the same program goes on from. -/
theorem ite_bind {c c' : Prop} [Decidable c] [Decidable c'] {p q : Program α} {p' q' : Program β}
    {f : α → Program γ} {f' : β → Program δ} (same : c ↔ c') (yes : ρ.LikeProgram o post p p')
    (no : ρ.LikeProgram o post q q')
    (later : ∀ σ, ρ ≤ σ → ∀ a b, post σ a b → σ.LikeProgram o post' (f a) (f' b)) :
    ρ.LikeProgram o post' (if c then p >>= f else q >>= f)
      (if c' then p' >>= f' else q' >>= f') := by
  by_cases h : c
  · rw [if_pos h, if_pos (same.mp h)]
    exact yes.bind later
  · rw [if_neg h, if_neg fun h' => h (same.mpr h')]
    exact no.bind later

theorem lift {x : Except Error α} {x' : Except Error β} (h : LikeExcept (post ρ) x x') :
    ρ.LikeProgram o post (liftM x) (liftM x') := by
  cases h with
  | ok same => exact .done same
  | error e => exact .fail e

/-- A check that comes to the same on both sides. -/
theorem check {x x' : Except Error α} {f : α → Program γ} {f' : α → Program δ} (same : x = x')
    (later : ∀ a, ρ.LikeProgram o post' (f a) (f' a)) :
    ρ.LikeProgram o post' (liftM x >>= f) (liftM x' >>= f') := by
  subst same
  cases x with
  | ok a => exact later a
  | error e => exact .fail e

/-- Asking for one effect. -/
theorem ask {x x' : Effect} {answers : Likeness → x.Answer → x'.Answer → Prop}
    (h : ρ.LikeEffect o x x' answers) :
    ρ.LikeProgram o answers (Program.ask x) (Program.ask x') :=
  .perform h fun _ _ _ _ answer => .done answer

theorem evalIn (scope : ScopeId) {e e' : Expr} (h : ρ.Like e e') :
    ρ.LikeProgram o Like (Program.evalIn scope e) (Program.evalIn scope e') :=
  .eval scope h fun _ _ _ _ value => .done value

end LikeProgram

section Rules

variable {scope : ScopeId} {items items' body body' : List Expr} {e e' : Expr}

theorem likeProgram_consAll (known : ρ.LikeAll items items') (rest : ρ.Like e e') :
    ρ.LikeProgram o Like (Program.consAll e items) (Program.consAll e' items') := by
  induction items generalizing items' ρ e e' with
  | nil =>
    cases known
    exact .done rest
  | cons item items ih =>
    cases known with
    | cons first others =>
      exact .perform (.cons first rest) fun σ le _ _ made => ih (.mono le others) made

theorem likeProgram_listWithTail (known : ρ.LikeAll items items') (tail : ρ.Like e e') :
    ρ.LikeProgram o Like (Program.listWithTail items e) (Program.listWithTail items' e') :=
  likeProgram_consAll (List.forall₂_reverse_iff.mpr known) tail

theorem likeProgram_list (known : ρ.LikeAll items items') :
    ρ.LikeProgram o Like (Program.list items) (Program.list items') :=
  likeProgram_listWithTail known .nil

theorem likeProgram_evalBody (scope : ScopeId) (known : ρ.LikeAll body body') :
    ρ.LikeProgram o Like (Program.evalBody scope body) (Program.evalBody scope body') := by
  induction body generalizing body' ρ with
  | nil =>
    cases known
    exact .done .nil
  | cons e rest ih =>
    cases known with
    | cons first others =>
      cases others with
      | nil => exact .evalIn scope first
      | cons second others =>
        exact .eval scope first fun σ le _ _ _ => ih (.mono le (.cons second others))

theorem likeProgram_evalForms (origin : String) (error? : Option ReadError) (forms : List Form)
    (last : ρ.Like e e') :
    ρ.LikeProgram o Like (Program.evalForms origin error? e forms)
      (Program.evalForms origin error? e' forms) := by
  induction forms generalizing ρ e e' with
  | nil =>
    cases error? with
    | none => exact .done last
    | some e => exact .fail _
  | cons form forms ih =>
    refine (LikeProgram.ask (.place form.datum)).bind fun σ _ d d' placed => ?_
    exact .eval Store.root placed fun τ _ _ _ value => ih value

end Rules

section Sorting

variable {less less' : Expr → Expr → Program Bool} {items items' : List Expr}

/-- Comparisons of alike items are alike. -/
def Compares (o : Outset) (ρ : Likeness) (less less' : Expr → Expr → Program Bool) : Prop :=
  ∀ σ, ρ ≤ σ → ∀ a a' b b', σ.Like a a' → σ.Like b b' →
    σ.LikeProgram o (fun _ => Eq) (less a b) (less' a' b')

theorem Compares.mono {σ : Likeness} (h : ρ.Compares o less less') (le : ρ ≤ σ) :
    σ.Compares o less less' := fun τ le' => h τ (le.trans le')

theorem likeProgram_mergeOnto (compares : ρ.Compares o less less')
    {merged left right merged' left' right' : List Expr} (placed : ρ.LikeAll merged merged')
    (first : ρ.LikeAll left left') (second : ρ.LikeAll right right') :
    ρ.LikeProgram o LikeAll (mergeOnto less merged left right)
      (mergeOnto less' merged' left' right') := by
  induction merged, left, right using mergeOnto.induct generalizing ρ merged' left' right' with
  | case1 merged right =>
    cases first
    rw [mergeOnto, mergeOnto]
    exact .pure (List.rel_append (List.forall₂_reverse_iff.mpr placed) second)
  | case2 merged left nonempty =>
    cases second
    rw [mergeOnto, mergeOnto]
    · exact .pure (List.rel_append (List.forall₂_reverse_iff.mpr placed) first)
    · rintro rfl
      exact nonempty (List.forall₂_nil_right_iff.mp first)
    · exact nonempty
  | case3 merged a left b right ihRight ihLeft =>
    cases first with
    | cons ha lefts =>
      cases second with
      | cons hb rights =>
        rw [mergeOnto, mergeOnto]
        refine (compares ρ le_rfl _ _ _ _ hb ha).bind fun σ le answer answer' same => ?_
        subst same
        split
        · exact ihRight (compares.mono le) (.mono le (.cons hb placed)) (.mono le (.cons ha lefts))
            (.mono le rights)
        · exact ihLeft (compares.mono le) (.mono le (.cons ha placed)) (.mono le lefts)
            (.mono le (.cons hb rights))

/-- Sorts by alike comparisons are alike. -/
theorem likeProgram_mergeSort (compares : ρ.Compares o less less')
    (known : ρ.LikeAll items items') :
    ρ.LikeProgram o LikeAll (mergeSort less items) (mergeSort less' items') := by
  induction items using mergeSort.induct generalizing ρ items' with
  | case1 items short =>
    rw [mergeSort_short short, mergeSort_short (known.length_eq ▸ short)]
    exact .pure known
  | case2 items long ihLeft ihRight =>
    have count : items.length = items'.length := known.length_eq
    have long' : ¬ items'.length ≤ 1 := count ▸ long
    rw [mergeSort_long long, mergeSort_long long', ← count]
    refine (ihLeft compares (List.forall₂_take _ known)).bind fun σ le left left' first => ?_
    have others := List.forall₂_drop (items.length / 2) known
    refine (ihRight (compares.mono le) (LikeAll.mono le others)).bind
      fun τ le' right right' second => ?_
    exact likeProgram_mergeOnto (compares.mono (le.trans le')) .nil (LikeAll.mono le' first) second

end Sorting

end Likeness

end Lisp
