import Lisp.Proofs.ArgumentRanges
import Lisp.Proofs.CallTrace

/-!
# Argument counts are enforced before anything is done

A call has one of three ends in store. It is refused because calls are nested too deeply.
Or the number of its arguments is none that the function declares; then it fails with the
error that says so under the name of the function, and nothing has been evaluated, bound
or printed. Or the body runs, and no look of it for an argument is out of range.
-/

namespace Lisp

open Positional

/-- Binds parameters to the arguments at their positions. -/
def bindingsFrom (args : List Expr) (index : Nat) :
    List String → Positional (List (String × Expr))
  | [] => return []
  | name :: names => do
    let v ← item args index
    return (name, v) :: (← bindingsFrom args (index + 1) names)

theorem inRange_bindingsFrom {args rest : List Expr} {index : Nat} {names : List String}
    (left : args.drop index = rest) (enough : names.length = rest.length) :
    InRange (bindingsFrom args index names) (pure (names.zip rest)) := by
  induction names generalizing index rest with
  | nil => exact .result []
  | cons name names ih =>
    cases rest with
    | nil => cases enough
    | cons e rest =>
      obtain ⟨found, left⟩ := Indexed.found_of_drop left
      exact .item found ((ih left (Nat.succ.inj enough)).bind fun _ => .result _)

namespace Function

/-- The argument counts that a function declares. -/
def arity (w : World) (f : Function) : Arity :=
  match f.code with
  | .builtin op => op.declared
  | .registered _ entry =>
    match w.registered[entry]? with
    | some r => r.arity
    | none => .any
  | .named _ parameters _ => .exact parameters.length
  | .lambda parameters _ => .exact parameters.length
  | .closure parameters _ _ => .exact parameters.length

/-- Evaluates a body with the parameters bound to the arguments at their positions. -/
def indexedBody (parameters : List String) (body args : List Expr) (outer : ScopeId) :
    Positional Expr := do
  let bindings ← bindingsFrom args 0 parameters
  let inner ← Program.enter outer bindings
  Program.evalBody inner body

/-- What a function does with a list of arguments, whatever their number. The body of a
registered function is taken as it is. -/
def indexed (w : World) (f : Function) (args : List Expr) (scope : ScopeId) : Positional Expr :=
  match f.code with
  | .builtin op => op.indexed ⟨op.name, scope⟩ args
  | .registered name entry =>
    match w.registered[entry]? with
    | some r => r.run ⟨name, scope⟩ args
    | none => Program.fail (.runtime (.undefinedFunction name))
  | .named _ parameters body => indexedBody parameters body args scope
  | .lambda parameters body => indexedBody parameters body args scope
  | .closure parameters body captured => indexedBody parameters body args captured

/-- A function of the program refuses a wrong number of arguments, or binds them all. -/
theorem bodyProgram_cases (name : String) (parameters : List String) (body args : List Expr)
    (outer : ScopeId) :
    (∃ fault, (Arity.exact parameters.length).fault? args.length = some fault ∧
        bodyProgram name parameters body args outer = .fail (.parameters name (.arity fault))) ∨
      (Arity.exact parameters.length).Admits args.length ∧
        InRange (indexedBody parameters body args outer)
          (bodyProgram name parameters body args outer) := by
  unfold bodyProgram
  cases count : (Arity.exact parameters.length).fault? args.length with
  | some fault => exact .inl ⟨fault, rfl, rfl⟩
  | none =>
    have admits := (Arity.fault?_eq_none_iff _ _).mp count
    have enough : parameters.length = args.length :=
      Nat.le_antisymm admits.1 (admits.2 _ rfl)
    refine .inr ⟨admits, ?_⟩
    exact (inRange_bindingsFrom rfl enough).bind fun _ => .step _ fun _ => .of_program _

/-- A function refuses the counts that it does not declare. With the others it does what
it does by position, and no look for an argument is out of range. -/
theorem program_cases (w : World) (f : Function) (args : List Expr) (scope : ScopeId) :
    (∃ fault, (f.arity w).fault? args.length = some fault ∧
        f.program w args scope = .fail (.parameters f.name (.arity fault))) ∨
      (f.arity w).Admits args.length ∧
        InRange (f.indexed w args scope) (f.program w args scope) := by
  obtain ⟨id, code⟩ := f
  cases code with
  | builtin op =>
    show (∃ fault, op.declared.fault? _ = _ ∧ _) ∨ op.declared.Admits _ ∧ _
    rw [op.declared_eq_arity, ← Arity.fault?_eq_none_iff]
    cases supplied : op.body.supply ⟨op.name, scope⟩ args with
    | error fault =>
      have wrong := (Body.supply_eq_error_iff _ _ _ fault).mp supplied
      exact .inl ⟨fault, wrong, by simp only [program, Function.code, supplied]; rfl⟩
    | ok p =>
      have right : op.body.arity.fault? args.length = none := by
        cases count : op.body.arity.fault? args.length with
        | none => rfl
        | some fault =>
          rw [(Body.supply_eq_error_iff _ ⟨op.name, scope⟩ _ fault).mpr count] at supplied
          cases supplied
      have here : program w (.object id (.builtin op)) args scope = p := by
        simp only [program, Function.code, supplied]
      exact .inr ⟨right, here ▸ op.inRange_body.supply supplied⟩
  | registered name entry =>
    cases found : w.registered[entry]? with
    | none =>
      simp only [program, arity, indexed, Function.code, found]
      exact .inr ⟨(Arity.fault?_eq_none_iff _ _).mp rfl, .of_program (Program.fail _)⟩
    | some r =>
      cases count : r.arity.fault? args.length with
      | some fault =>
        simp only [program, arity, Function.code, found, count]
        exact .inl ⟨fault, rfl, rfl⟩
      | none =>
        simp only [program, arity, indexed, Function.code, found, count]
        exact .inr ⟨(Arity.fault?_eq_none_iff _ _).mp count, .of_program _⟩
  | named name parameters body => exact bodyProgram_cases name parameters body args scope
  | lambda parameters body => exact bodyProgram_cases _ parameters body args scope
  | closure parameters body captured => exact bodyProgram_cases _ parameters body args captured

end Function

/-- Beside the trace, the begin of a call changes the depth and the number of calls. -/
theorem Machine.exists_enterCall_eq (m : Machine) (name : String) (args : List Expr) :
    ∃ trace, m.enterCall name args = { m.countCall with depth := m.depth + 1, trace := trace } := by
  unfold enterCall record
  dsimp only
  split <;> exact ⟨_, rfl⟩

theorem Machine.exists_leaveCall_eq (m : Machine) (traced : Bool) (depth : Nat)
    (r : Except Error Expr) :
    ∃ trace, m.leaveCall traced depth r = { m with depth := m.depth - 1, trace := trace } := by
  unfold leaveCall record
  dsimp only
  split <;> exact ⟨_, rfl⟩

/-- A call whose body fails at once changes the number of calls and the call trace. -/
theorem framed_throw (name : String) (args : List Expr) (e : Error) (m : Machine) :
    ∃ m', framed name args (throw e) m = .error e m' ∧
      { m' with trace := m.trace } = m.countCall := by
  obtain ⟨entered, begins⟩ := m.exists_enterCall_eq name args
  obtain ⟨left, ends⟩ :=
    (m.enterCall name args).exists_leaveCall_eq m.tracing m.depth (.error e)
  refine ⟨_, rfl, ?_⟩
  rw [ends, begins]
  rfl

/-- A call is refused at the limit on nested calls. Below it, a call with a number of
arguments that the function does not declare fails with the error that says so, on a
machine of which only the number of calls and the call trace have changed. Any other call
runs what the function does by position, and no look for an argument is out of range. -/
theorem World.apply_cases (w : World) (f : Function) (args : List Expr) (scope : ScopeId)
    (m : Machine) :
    (w.maxDepth ≤ m.depth ∧
        w.apply f args scope m = .error (.stackOverflow w.maxDepth) m) ∨
      (m.depth < w.maxDepth ∧ ∃ fault m', (f.arity w).fault? args.length = some fault ∧
        w.apply f args scope m = .error (.parameters f.name (.arity fault)) m' ∧
        { m' with trace := m.trace } = m.countCall) ∨
      (m.depth < w.maxDepth ∧ (f.arity w).Admits args.length ∧
        InRange (f.indexed w args scope) (f.program w args scope) ∧
        w.apply f args scope m = framed f.name args (w.run (f.program w args scope)) m) := by
  rcases Nat.lt_or_ge m.depth w.maxDepth with room | full
  · -- The body runs with one call fewer to nest, which is what its machine still has room for.
    obtain ⟨n, rest⟩ : ∃ n, w.maxDepth - m.depth = n + 1 := ⟨w.maxDepth - m.depth - 1, by omega⟩
    have called : w.apply f args scope m =
        framed f.name args ((f.program w args scope).run w (applyWithin w n)) m := by
      rw [World.apply, rest, applyWithin]
    rcases f.program_cases w args scope with ⟨fault, wrong, fails⟩ | ⟨admits, inRange⟩
    · rw [fails] at called
      obtain ⟨m', failed, same⟩ := framed_throw f.name args (.parameters f.name (.arity fault)) m
      exact .inr (.inl ⟨room, fault, m', wrong, called.trans failed, same⟩)
    · have within : w.maxDepth - (m.enterCall f.name args).depth = n := by
        rw [depth_enterCall]
        omega
      refine .inr (.inr ⟨room, admits, inRange, ?_⟩)
      rw [called, framed, framed, World.run, within]
  · refine .inl ⟨full, ?_⟩
    rw [World.apply, Nat.sub_eq_zero_of_le full]
    rfl

end Lisp
