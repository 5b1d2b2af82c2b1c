import Lisp.Proofs.Confinement
import Lisp.Evaluation

/-!
# Confined bodies and checks of arguments

A body is confined if its program is, whenever it is called from a scope of a
territory with arguments that speak only of the territory. There is one rule for each
shape of an argument list, and one for each check that a call site makes of an
argument.
-/

namespace Lisp

/-- Whether the scope of the caller and the root belong to a territory. -/
structure Site.Within (site : Site) (territory : Set ScopeId) : Prop where
  root : Store.root ∈ territory
  scope : site.scope ∈ territory

theorem Site.Within.mono {site : Site} {territory larger : Set ScopeId}
    (h : site.Within territory) (grown : territory ⊆ larger) : site.Within larger :=
  ⟨grown h.root, grown h.scope⟩

/-- Whether a body is confined to every territory that it is called in. -/
def Body.Confined (body : Body) : Prop :=
  ∀ site territory args p, site.Within territory → capturedAll args ⊆ territory →
    body.supply site args = .ok p → p.Confined territory Program.Value

namespace Body.Confined

theorem unary {run : Site → Expr → Program Expr}
    (h : ∀ site territory a, site.Within territory → a.captured ⊆ territory →
      (run site a).Confined territory Program.Value) : (Body.unary run).Confined := by
  intro site territory args p within known supplied
  rcases args with _ | ⟨a, _ | ⟨b, rest⟩⟩ <;> cases supplied
  exact h site territory a within (by simpa using known)

theorem binary {run : Site → Expr → Expr → Program Expr}
    (h : ∀ site territory a b, site.Within territory → a.captured ⊆ territory →
      b.captured ⊆ territory → (run site a b).Confined territory Program.Value) :
    (Body.binary run).Confined := by
  intro site territory args p within known supplied
  rcases args with _ | ⟨a, _ | ⟨b, _ | ⟨c, rest⟩⟩⟩ <;> cases supplied
  simp only [capturedAll_cons, Set.union_subset_iff] at known
  exact h site territory a b within known.1 known.2.1

theorem oneOrTwo {run : Site → Expr → Option Expr → Program Expr}
    (h : ∀ site territory a b?, site.Within territory → a.captured ⊆ territory →
      (∀ b, b? = some b → b.captured ⊆ territory) →
      (run site a b?).Confined territory Program.Value) : (Body.oneOrTwo run).Confined := by
  intro site territory args p within known supplied
  rcases args with _ | ⟨a, _ | ⟨b, _ | ⟨c, rest⟩⟩⟩ <;> cases supplied <;>
    simp only [capturedAll_cons, Set.union_subset_iff] at known
  · exact h site territory a none within known.1 nofun
  · exact h site territory a (some b) within known.1 fun _ same => Option.some.inj same ▸ known.2.1

theorem twoOrThree {run : Site → Expr → Expr → Option Expr → Program Expr}
    (h : ∀ site territory a b c?, site.Within territory → a.captured ⊆ territory →
      b.captured ⊆ territory → (∀ c, c? = some c → c.captured ⊆ territory) →
      (run site a b c?).Confined territory Program.Value) : (Body.twoOrThree run).Confined := by
  intro site territory args p within known supplied
  rcases args with _ | ⟨a, _ | ⟨b, _ | ⟨c, _ | ⟨d, rest⟩⟩⟩⟩ <;> cases supplied <;>
    simp only [capturedAll_cons, Set.union_subset_iff] at known
  · exact h site territory a b none within known.1 known.2.1 nofun
  · exact h site territory a b (some c) within known.1 known.2.1
      fun _ same => Option.some.inj same ▸ known.2.2.1

theorem atLeastOne {run : Site → Expr → List Expr → Program Expr}
    (h : ∀ site territory a rest, site.Within territory → a.captured ⊆ territory →
      capturedAll rest ⊆ territory → (run site a rest).Confined territory Program.Value) :
    (Body.atLeastOne run).Confined := by
  intro site territory args p within known supplied
  rcases args with _ | ⟨a, rest⟩ <;> cases supplied
  rw [capturedAll_cons, Set.union_subset_iff] at known
  exact h site territory a rest within known.1 known.2

theorem atLeastTwo {run : Site → Expr → Expr → List Expr → Program Expr}
    (h : ∀ site territory a b rest, site.Within territory → a.captured ⊆ territory →
      b.captured ⊆ territory → capturedAll rest ⊆ territory →
      (run site a b rest).Confined territory Program.Value) : (Body.atLeastTwo run).Confined := by
  intro site territory args p within known supplied
  rcases args with _ | ⟨a, _ | ⟨b, rest⟩⟩ <;> cases supplied
  simp only [capturedAll_cons, Set.union_subset_iff] at known
  exact h site territory a b rest within known.1 known.2.1 known.2.2

theorem variadic {run : Site → List Expr → Program Expr}
    (h : ∀ site territory args, site.Within territory → capturedAll args ⊆ territory →
      (run site args).Confined territory Program.Value) : (Body.variadic run).Confined := by
  intro site territory args p within known supplied
  cases supplied
  exact h site territory args within known

end Body.Confined

namespace Program

variable {α : Type} {territory : Set ScopeId}

theorem Confined.lift {r : Except Error α} {post : Set ScopeId → α → Prop}
    (h : ∀ a, r = .ok a → post territory a) : (liftM r : Program α).Confined territory post :=
  .ofExcept h

/-- A check of an argument of which only the outcome matters. -/
theorem Confined.check (r : Except Error α) :
    (liftM r : Program α).Confined territory fun _ _ => True := .lift fun _ _ => trivial

end Program

namespace Site

variable {territory : Set ScopeId} {site : Site}

theorem list_eq_ok {index : Nat} {e : Expr} {es : List Expr} (h : site.list index e = .ok es) :
    e.properItems? = some es := by
  unfold list at h
  split at h
  · split at h
    · rename_i items proper
      cases h
      exact proper
    · cases h
  · cases h

/-- A proper list is accepted where a list is expected. -/
theorem list_of_properItems? {index : Nat} {e : Expr} {es : List Expr}
    (proper : e.properItems? = some es) : site.list index e = .ok es := by
  have isList : e.isList = true := by
    cases e with
    | nil => rfl
    | bool b => cases b <;> simp_all [Sexp.properItems?, Sexp.isNil, Sexp.isList]
    | pair => rfl
    | _ => cases proper
  rw [list, isList, proper]
  rfl

theorem confined_list (site : Site) (index : Nat) {e : Expr} (known : e.captured ⊆ territory) :
    (liftM (site.list index e) : Program (List Expr)).Confined territory
      fun larger es => capturedAll es ⊆ larger := by
  refine .lift fun es ok => ?_
  rw [Sexp.capturedAll_properItems? (list_eq_ok ok)]
  exact known

theorem confined_function (within : site.Within territory) (index : Nat) {e : Expr}
    (known : e.captured ⊆ territory) :
    (site.function index e).Confined territory fun larger f => f.code.captured ⊆ larger := by
  cases e with
  | function f => simpa [function] using known
  | symbol name =>
    refine (Program.confined_functionOf within.scope).bind fun larger grown f? answer => ?_
    split
    · rename_i f
      have known := answer (.function f) rfl
      rwa [Program.Value, Sexp.captured_function] at known
    · trivial
  | _ => trivial

theorem confined_eval (within : site.Within territory) {e : Expr} (known : e.captured ⊆ territory) :
    (site.eval e).Confined territory Program.Value := .evalIn within.scope known

theorem confined_call (within : site.Within territory) {f : Function} {args : List Expr}
    (function : f.code.captured ⊆ territory) (known : capturedAll args ⊆ territory) :
    (site.call f args).Confined territory Program.Value :=
  ⟨⟨function, known, within.scope⟩, fun _ _ _ value => value⟩

end Site

end Lisp
