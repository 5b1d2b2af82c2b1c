import Lisp.Proofs.Captures

/-!
# Programs confined to a territory

A territory is a set of scopes. A program is confined to it if every request that
it makes speaks only of scopes of the territory, directly or through closures, as
long as the answers do so too. The territory may grow while a request is answered,
since a call can make new scopes; what comes after is confined to what it has grown
to. A second predicate says what the result of the program is to satisfy then.

Confinement goes through programs part by part, so that it is proved of a function
by following its text.
-/

namespace Lisp

namespace Effect

/-- Whether a request speaks only of scopes of a territory. -/
def Within (territory : Set ScopeId) : Effect → Prop
  | valueOf scope _ => scope ∈ territory
  | functionOf scope _ => scope ∈ territory
  | isConstant scope _ => scope ∈ territory
  | assign scope _ v => scope ∈ territory ∧ v.captured ⊆ territory
  | defineGlobal _ v => v.captured ⊆ territory
  | defineConstant _ v => v.captured ⊆ territory
  | defineFunction _ f => f.captured ⊆ territory
  | enter parent bindings =>
    parent ∈ territory ∧ capturedAll (bindings.map Prod.snd) ⊆ territory
  | cons car cdr => car.captured ⊆ territory ∧ cdr.captured ⊆ territory
  | newFunction code => code.captured ⊆ territory
  | _ => True

/-- Whether the answer to a request speaks only of scopes of a territory. -/
def AnswerWithin (territory : Set ScopeId) : (x : Effect) → x.Answer → Prop
  | valueOf _ _, v? => ∀ v : Expr, v? = some v → v.captured ⊆ territory
  | functionOf _ _, f? => ∀ f : Expr, f? = some f → f.captured ⊆ territory
  | enter _ _, id => id ∈ territory
  | cons _ _, e => e.captured ⊆ territory
  | newFunction _, f => f.code.captured ⊆ territory
  | place _, e => e.captured ⊆ territory
  | _, _ => True

end Effect

namespace Program

variable {α β : Type} {territory larger : Set ScopeId}

/-- Whether a program is confined to a territory, and its result satisfies a
predicate on the territory of then. -/
def Confined : Program α → Set ScopeId → (Set ScopeId → α → Prop) → Prop
  | done a, territory, post => post territory a
  | fail _, _, _ => True
  | perform x next, territory, post =>
    x.Within territory ∧
      ∀ larger, territory ⊆ larger → ∀ a, x.AnswerWithin larger a → (next a).Confined larger post
  | eval scope e next, territory, post =>
    (scope ∈ territory ∧ e.captured ⊆ territory) ∧
      ∀ larger, territory ⊆ larger → ∀ v : Expr, v.captured ⊆ larger →
        (next v).Confined larger post
  | call f args scope next, territory, post =>
    (f.code.captured ⊆ territory ∧ capturedAll args ⊆ territory ∧ scope ∈ territory) ∧
      ∀ larger, territory ⊆ larger → ∀ v : Expr, v.captured ⊆ larger →
        (next v).Confined larger post
  | traced scope e next, territory, post =>
    (scope ∈ territory ∧ e.captured ⊆ territory) ∧
      ∀ larger, territory ⊆ larger → ∀ v : Expr, v.captured ⊆ larger →
        (next v).Confined larger post

/-- The result of a confined program speaks only of the territory of then. -/
abbrev Value (territory : Set ScopeId) (v : Expr) : Prop := v.captured ⊆ territory

@[simp] theorem confined_done {a : α} {post : Set ScopeId → α → Prop} :
    (done a).Confined territory post ↔ post territory a := Iff.rfl

@[simp] theorem confined_pure {a : α} {post : Set ScopeId → α → Prop} :
    (pure a : Program α).Confined territory post ↔ post territory a := Iff.rfl

theorem confined_bind (p : Program α) (f : α → Program β)
    (post : Set ScopeId → β → Prop) :
    (p >>= f).Confined territory post ↔
      p.Confined territory fun larger a => (f a).Confined larger post := by
  show (p.bind f).Confined territory post ↔ _
  induction p generalizing territory with
  | done a => rfl
  | fail e => rfl
  | _ => simp_all [Program.bind, Confined]

variable {post : Set ScopeId → α → Prop} {post' : Set ScopeId → β → Prop}

namespace Confined

/-- A weaker predicate on the result; it is asked for only in larger territories. -/
theorem imp {p : Program α} {weaker : Set ScopeId → α → Prop}
    (h : p.Confined territory post)
    (le : ∀ larger, territory ⊆ larger → ∀ a, post larger a → weaker larger a) :
    p.Confined territory weaker := by
  induction p generalizing territory with
  | done a => exact le territory subset_rfl a h
  | fail e => trivial
  | perform x next ih =>
    exact ⟨h.1, fun larger grown a answer =>
      ih a (h.2 larger grown a answer) fun largest more => le largest (grown.trans more)⟩
  | eval scope e next ih =>
    exact ⟨h.1, fun larger grown v value =>
      ih v (h.2 larger grown v value) fun largest more => le largest (grown.trans more)⟩
  | call f args scope next ih =>
    exact ⟨h.1, fun larger grown v value =>
      ih v (h.2 larger grown v value) fun largest more => le largest (grown.trans more)⟩
  | traced scope e next ih =>
    exact ⟨h.1, fun larger grown v value =>
      ih v (h.2 larger grown v value) fun largest more => le largest (grown.trans more)⟩

/-- A program in two parts, the second in the territory that the first leads to. -/
theorem bind {p : Program α} {f : α → Program β} (first : p.Confined territory post)
    (later : ∀ larger, territory ⊆ larger → ∀ a, post larger a → (f a).Confined larger post') :
    (p >>= f).Confined territory post' :=
  (confined_bind p f post').mpr (first.imp later)

/-- A choice between two programs that the same program goes on from. -/
theorem ite_bind {c : Prop} [Decidable c] {p q : Program α} {f : α → Program β}
    (yes : p.Confined territory post) (no : q.Confined territory post)
    (later : ∀ larger, territory ⊆ larger → ∀ a, post larger a → (f a).Confined larger post') :
    (if c then p >>= f else q >>= f).Confined territory post' := by
  split
  · exact yes.bind later
  · exact no.bind later

theorem ofExcept {r : Except Error α} (h : ∀ a, r = .ok a → post territory a) :
    (ofExcept r).Confined territory post := by
  cases r with
  | ok a => exact h a rfl
  | error e => trivial

/-- Asking for one effect. -/
theorem ask {x : Effect} {post : Set ScopeId → x.Answer → Prop} (within : x.Within territory)
    (h : ∀ larger, territory ⊆ larger → ∀ a, x.AnswerWithin larger a → post larger a) :
    (Program.ask x).Confined territory post := ⟨within, h⟩

/-- Asking for an effect whose answer does not matter. -/
theorem request {x : Effect} (within : x.Within territory) :
    (Program.ask x).Confined territory fun _ _ => True := .ask within fun _ _ _ _ => trivial

/-- Evaluating one expression. -/
theorem evalIn {scope : ScopeId} {e : Expr} (there : scope ∈ territory)
    (known : e.captured ⊆ territory) : (Program.evalIn scope e).Confined territory Value :=
  ⟨⟨there, known⟩, fun _ _ _ value => value⟩

end Confined

section Rules

variable {scope : ScopeId} {name : String}

theorem confined_valueOf (there : scope ∈ territory) :
    (valueOf scope name).Confined territory fun larger v? => ∀ v, v? = some v → Value larger v :=
  .ask there fun _ _ _ answer => answer

theorem confined_functionOf (there : scope ∈ territory) :
    (functionOf scope name).Confined territory fun larger f? => ∀ f, f? = some f → Value larger f :=
  .ask there fun _ _ _ answer => answer

theorem confined_enter {bindings : List (String × Expr)} (there : scope ∈ territory)
    (known : capturedAll (bindings.map Prod.snd) ⊆ territory) :
    (enter scope bindings).Confined territory fun larger id => id ∈ larger :=
  .ask ⟨there, known⟩ fun _ _ _ answer => answer

theorem confined_newFunction {code : Code Expr} (known : code.captured ⊆ territory) :
    (newFunction code).Confined territory fun larger f => f.code.captured ⊆ larger :=
  .ask known fun _ _ _ answer => answer

theorem confined_place (d : Datum) : (place d).Confined territory Value :=
  .ask trivial fun _ _ _ answer => answer

theorem confined_assign {v : Expr} (there : scope ∈ territory) (known : v.captured ⊆ territory) :
    (assign scope name v).Confined territory fun _ _ => True := .request ⟨there, known⟩

theorem confined_cons {car cdr : Expr} (first : car.captured ⊆ territory)
    (second : cdr.captured ⊆ territory) : (cons car cdr).Confined territory Value :=
  .ask ⟨first, second⟩ fun _ _ _ answer => answer

theorem confined_consAll {items : List Expr} {rest : Expr} (known : capturedAll items ⊆ territory)
    (tail : rest.captured ⊆ territory) : (consAll rest items).Confined territory Value := by
  induction items generalizing rest territory with
  | nil => exact tail
  | cons item items ih =>
    rw [capturedAll_cons, Set.union_subset_iff] at known
    exact ⟨⟨known.1, tail⟩, fun larger grown e value => ih (known.2.trans grown) value⟩

theorem confined_listWithTail {items : List Expr} {tail : Expr}
    (known : capturedAll items ⊆ territory) (end_known : tail.captured ⊆ territory) :
    (listWithTail items tail).Confined territory Value :=
  confined_consAll ((capturedAll_mono fun _ => List.mem_reverse.mp).trans known) end_known

theorem confined_list {items : List Expr} (known : capturedAll items ⊆ territory) :
    (list items).Confined territory Value := confined_listWithTail known (by simp)

theorem confined_evalBody {body : List Expr} (there : scope ∈ territory)
    (known : capturedAll body ⊆ territory) : (evalBody scope body).Confined territory Value := by
  induction body generalizing territory with
  | nil => simp [evalBody]
  | cons e rest ih =>
    rw [capturedAll_cons, Set.union_subset_iff] at known
    cases rest with
    | nil => exact .evalIn there known.1
    | cons e' rest =>
      exact ⟨⟨there, known.1⟩, fun larger grown _ _ => ih (grown there) (known.2.trans grown)⟩

/-- The forms of a text are data, so that their evaluation needs nothing but the
root. -/
theorem confined_evalForms {origin : String} {error? : Option ReadError} {last : Expr}
    {forms : List Form} (root : Store.root ∈ territory) (known : last.captured ⊆ territory) :
    (evalForms origin error? last forms).Confined territory Value := by
  induction forms generalizing last territory with
  | nil => cases error? <;> simp [evalForms, Confined, known]
  | cons form forms ih =>
    refine (confined_place form.datum).bind fun larger grown e value => ?_
    exact ⟨⟨grown root, value⟩, fun largest more v result => ih (more (grown root)) result⟩

end Rules

end Program

end Lisp
