import Lisp.Proofs.LikePrograms
import Lisp.Library.Site

/-!
# Bodies that do the same with alike arguments

A body is uniform if it does alike with alike arguments, whatever likeness there is. The
checks that a call site makes of an argument come to the same for alike arguments: they fail
with the same error, since an error speaks of an argument by its type or its printed form,
or they find what is alike.
-/

namespace Lisp

open Likeness

/-- Whether a body does alike with alike arguments. -/
def Body.Uniform : Body → Prop
  | unary run => ∀ (o : Outset) (ρ : Likeness) site a a', ρ.Like a a' →
      ρ.LikeProgram o Like (run site a) (run site a')
  | binary run => ∀ (o : Outset) (ρ : Likeness) site a a' b b', ρ.Like a a' → ρ.Like b b' →
      ρ.LikeProgram o Like (run site a b) (run site a' b')
  | oneOrTwo run => ∀ (o : Outset) (ρ : Likeness) site a a' b? b?', ρ.Like a a' →
      Option.Rel ρ.Like b? b?' → ρ.LikeProgram o Like (run site a b?) (run site a' b?')
  | twoOrThree run => ∀ (o : Outset) (ρ : Likeness) site a a' b b' c? c?', ρ.Like a a' →
      ρ.Like b b' → Option.Rel ρ.Like c? c?' →
      ρ.LikeProgram o Like (run site a b c?) (run site a' b' c?')
  | atLeastOne run => ∀ (o : Outset) (ρ : Likeness) site a a' rest rest', ρ.Like a a' →
      ρ.LikeAll rest rest' → ρ.LikeProgram o Like (run site a rest) (run site a' rest')
  | atLeastTwo run => ∀ (o : Outset) (ρ : Likeness) site a a' b b' rest rest', ρ.Like a a' →
      ρ.Like b b' → ρ.LikeAll rest rest' →
      ρ.LikeProgram o Like (run site a b rest) (run site a' b' rest')
  | variadic run => ∀ (o : Outset) (ρ : Likeness) site args args', ρ.LikeAll args args' →
      ρ.LikeProgram o Like (run site args) (run site args')

/-- Alike arguments are refused with the same fault, or handed over alike. -/
theorem Body.Uniform.supply {body : Body} (h : body.Uniform) {ρ : Likeness} (site : Site)
    {args args' : List Expr} (known : ρ.LikeAll args args') :
    LikeExcept (ρ.LikeProgram o Like) (body.supply site args) (body.supply site args') := by
  cases body with
  | unary run =>
    rcases known with _ | ⟨a, _ | ⟨b, rest⟩⟩
    · exact .error _
    · exact .ok (h o ρ site _ _ a)
    · simp only [Body.supply, List.length_cons, rest.length_eq]
      exact .error _
  | binary run =>
    rcases known with _ | ⟨a, _ | ⟨b, _ | ⟨c, rest⟩⟩⟩
    · exact .error _
    · exact .error _
    · exact .ok (h o ρ site _ _ _ _ a b)
    · simp only [Body.supply, List.length_cons, rest.length_eq]
      exact .error _
  | oneOrTwo run =>
    rcases known with _ | ⟨a, _ | ⟨b, _ | ⟨c, rest⟩⟩⟩
    · exact .error _
    · exact .ok (h o ρ site _ _ _ _ a .none)
    · exact .ok (h o ρ site _ _ _ _ a (.some b))
    · simp only [Body.supply, List.length_cons, rest.length_eq]
      exact .error _
  | twoOrThree run =>
    rcases known with _ | ⟨a, _ | ⟨b, _ | ⟨c, _ | ⟨d, rest⟩⟩⟩⟩
    · exact .error _
    · exact .error _
    · exact .ok (h o ρ site _ _ _ _ _ _ a b .none)
    · exact .ok (h o ρ site _ _ _ _ _ _ a b (.some c))
    · simp only [Body.supply, List.length_cons, rest.length_eq]
      exact .error _
  | atLeastOne run =>
    rcases known with _ | ⟨a, rest⟩
    · exact .error _
    · exact .ok (h o ρ site _ _ _ _ a rest)
  | atLeastTwo run =>
    rcases known with _ | ⟨a, _ | ⟨b, rest⟩⟩
    · exact .error _
    · exact .error _
    · exact .ok (h o ρ site _ _ _ _ _ _ a b rest)
  | variadic run => exact .ok (h o ρ site _ _ known)

namespace Site

variable {o : Outset} {ρ : Likeness} {e e' : Expr} {f f' : Function} {args args' : List Expr}

theorem wrongType_eq (site : Site) (index : Nat) (expected : Expectation) (h : ρ.Like e e') :
    site.wrongType index expected e = site.wrongType index expected e' := by
  rw [wrongType, wrongType, h.typeName_eq]

theorem symbol_eq (site : Site) (index : Nat) (h : ρ.Like e e') :
    site.symbol index e = site.symbol index e' := by
  cases h <;> rfl

theorem integer_eq (site : Site) (index : Nat) (h : ρ.Like e e') :
    site.integer index e = site.integer index e' := by
  cases h <;> rfl

theorem string_eq (site : Site) (index : Nat) (h : ρ.Like e e') :
    site.string index e = site.string index e' := by
  cases h <;> rfl

theorem likeExcept_list (site : Site) (index : Nat) (h : ρ.Like e e') :
    LikeExcept ρ.LikeAll (site.list index e) (site.list index e') := by
  rw [list, list, h.isList_eq, site.wrongType_eq index .properList h,
    site.wrongType_eq index .list h]
  split
  · have items := h.properItems?
    generalize e.properItems? = items?, e'.properItems? = items?' at items
    cases items with
    | none => exact .error _
    | some items => exact .ok items
  · exact .error _

theorem likeProgram_list (site : Site) (index : Nat) (h : ρ.Like e e') :
    ρ.LikeProgram o LikeAll (liftM (site.list index e)) (liftM (site.list index e')) :=
  .lift (site.likeExcept_list index h)

theorem likeProgram_function (site : Site) (index : Nat) (h : ρ.Like e e') :
    ρ.LikeProgram o LikeFunction (site.function index e) (site.function index e') := by
  cases h with
  | function same code => exact .done (.function same code)
  | symbol name =>
    refine (LikeProgram.ask (.functionOf site.scope name)).bind fun σ _ f? f?' found => ?_
    cases found with
    | none => exact .fail _
    | some found =>
      cases found with
      | function same code => exact .done (.function same code)
      | _ => exact .fail _
  | _ => exact .fail _

theorem likeProgram_eval (site : Site) (h : ρ.Like e e') :
    ρ.LikeProgram o Like (site.eval e) (site.eval e') := .evalIn site.scope h

theorem likeProgram_call (site : Site) (function : ρ.LikeFunction f f')
    (known : ρ.LikeAll args args') :
    ρ.LikeProgram o Like (site.call f args) (site.call f' args') :=
  .call site.scope function known fun _ _ _ _ value => .done value

end Site

end Lisp
