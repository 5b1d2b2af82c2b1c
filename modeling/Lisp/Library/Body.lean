import Lisp.Library.Site

/-!
# Bodies of builtins

The body of a builtin takes its arguments one by one, and how it takes them is
its arity. A body can therefore be supplied with arguments exactly when their
number fits, and no argument that it uses can be missing.
-/

namespace Lisp

/-- What a builtin does, by the shape of its argument list. -/
inductive Body where
  | unary (run : Site → Expr → Program Expr)
  | binary (run : Site → Expr → Expr → Program Expr)
  | oneOrTwo (run : Site → Expr → Option Expr → Program Expr)
  | twoOrThree (run : Site → Expr → Expr → Option Expr → Program Expr)
  | atLeastOne (run : Site → Expr → List Expr → Program Expr)
  | atLeastTwo (run : Site → Expr → Expr → List Expr → Program Expr)
  | variadic (run : Site → List Expr → Program Expr)

namespace Body

def arity : Body → Arity
  | unary _ => .exact 1
  | binary _ => .exact 2
  | oneOrTwo _ => .range 1 2
  | twoOrThree _ => .range 2 3
  | atLeastOne _ => .atLeast 1
  | atLeastTwo _ => .atLeast 2
  | variadic _ => .any

/-- Hands the arguments over, or tells what is wrong with their number. -/
def supply (body : Body) (site : Site) (args : List Expr) : Except ArityFault (Program Expr) :=
  match body, args with
  | unary run, [a] => .ok (run site a)
  | unary _, [] => .error (.tooFew true 1 0)
  | unary _, args => .error (.tooMany true 1 args.length)
  | binary run, [a, b] => .ok (run site a b)
  | binary _, [] => .error (.tooFew true 2 0)
  | binary _, [_] => .error (.tooFew true 2 1)
  | binary _, args => .error (.tooMany true 2 args.length)
  | oneOrTwo run, [a] => .ok (run site a none)
  | oneOrTwo run, [a, b] => .ok (run site a (some b))
  | oneOrTwo _, [] => .error (.tooFew false 1 0)
  | oneOrTwo _, args => .error (.tooMany false 2 args.length)
  | twoOrThree run, [a, b] => .ok (run site a b none)
  | twoOrThree run, [a, b, c] => .ok (run site a b (some c))
  | twoOrThree _, [] => .error (.tooFew false 2 0)
  | twoOrThree _, [_] => .error (.tooFew false 2 1)
  | twoOrThree _, args => .error (.tooMany false 3 args.length)
  | atLeastOne run, a :: rest => .ok (run site a rest)
  | atLeastOne _, [] => .error (.tooFew false 1 0)
  | atLeastTwo run, a :: b :: rest => .ok (run site a b rest)
  | atLeastTwo _, [] => .error (.tooFew false 2 0)
  | atLeastTwo _, [_] => .error (.tooFew false 2 1)
  | variadic run, args => .ok (run site args)

/-- Arguments are refused exactly for a fault of the arity. -/
theorem supply_eq_error_iff (body : Body) (site : Site) (args : List Expr) (fault : ArityFault) :
    body.supply site args = .error fault ↔ body.arity.fault? args.length = some fault := by
  cases body <;> rcases args with _ | ⟨a, _ | ⟨b, _ | ⟨c, _ | ⟨d, rest⟩⟩⟩⟩ <;>
    simp +arith [supply, arity, Arity.fault?, Arity.least, Arity.most?]

/-- What holds of a body for all arguments that it can be supplied with. -/
def Every (holds : Site → List Expr → Program Expr → Prop) : Body → Prop
  | unary run => ∀ site a, holds site [a] (run site a)
  | binary run => ∀ site a b, holds site [a, b] (run site a b)
  | oneOrTwo run => ∀ site a b?, holds site (a :: b?.toList) (run site a b?)
  | twoOrThree run => ∀ site a b c?, holds site (a :: b :: c?.toList) (run site a b c?)
  | atLeastOne run => ∀ site a rest, holds site (a :: rest) (run site a rest)
  | atLeastTwo run => ∀ site a b rest, holds site (a :: b :: rest) (run site a b rest)
  | variadic run => ∀ site args, holds site args (run site args)

theorem Every.supply {holds : Site → List Expr → Program Expr → Prop} {body : Body}
    (h : body.Every holds) {site : Site} {args : List Expr} {p : Program Expr}
    (supplied : body.supply site args = .ok p) : holds site args p := by
  cases body with
  | unary run =>
    rcases args with _ | ⟨a, _ | ⟨b, rest⟩⟩ <;> cases supplied
    exact h site a
  | binary run =>
    rcases args with _ | ⟨a, _ | ⟨b, _ | ⟨c, rest⟩⟩⟩ <;> cases supplied
    exact h site a b
  | oneOrTwo run =>
    rcases args with _ | ⟨a, _ | ⟨b, _ | ⟨c, rest⟩⟩⟩ <;> cases supplied
    · exact h site a none
    · exact h site a (some b)
  | twoOrThree run =>
    rcases args with _ | ⟨a, _ | ⟨b, _ | ⟨c, _ | ⟨d, rest⟩⟩⟩⟩ <;> cases supplied
    · exact h site a b none
    · exact h site a b (some c)
  | atLeastOne run =>
    rcases args with _ | ⟨a, rest⟩ <;> cases supplied
    exact h site a rest
  | atLeastTwo run =>
    rcases args with _ | ⟨a, _ | ⟨b, rest⟩⟩ <;> cases supplied
    exact h site a b rest
  | variadic run =>
    cases supplied
    exact h site args

end Body

end Lisp
