import Lisp.Proofs.Stepping

/-!
# Every evaluation ends

The steps of an evaluation lead to what evaluation by recursion returns. The
recursion is on two things. The number of calls that may still be nested goes
down with every application. Between two applications an expression goes to its
parts, and a program to what follows its request. A computation leaves the depth
of calls as it found it, so that what may still be nested after an argument is
what could be nested before it.

No function is looked at for this: a special form, `eval`, `apply`, `sort` with a
function of the user and the loading of a file are programs like any other.
-/

namespace Lisp

open Config

/-- The machine that a computation leaves behind. -/
def finalMachine {α : Type} : EStateM.Result Error Machine α → Machine
  | .ok _ m => m
  | .error _ m => m

theorem bind_of_ok {α β : Type} {run : Run α} {rest : α → Run β} {m m' : Machine} {a : α}
    (h : run m = .ok a m') : (run >>= rest) m = rest a m' := by
  simp only [bind, EStateM.bind, h]

theorem bind_of_error {α β : Type} {run : Run α} {rest : α → Run β} {m m' : Machine}
    {e : Error} (h : run m = .error e m') : (run >>= rest) m = .error e m' := by
  simp only [bind, EStateM.bind, h]

theorem modify_bind {α : Type} (f : Machine → Machine) (rest : Run α) (m : Machine) :
    (modify f >>= fun _ => rest) m = rest (f m) := rfl

theorem get_bind {α : Type} (rest : Machine → Run α) (m : Machine) :
    (get >>= rest) m = rest m m := rfl

/-- A computation after which calls are nested as deeply as before. -/
def KeepsDepth {α : Type} (run : Run α) : Prop :=
  ∀ m, (finalMachine (run m)).depth = m.depth

theorem keepsDepth_update (id : ScopeId) (name : String) (f : Binding → Binding) :
    KeepsDepth (Machine.update id name f) := by
  intro m
  unfold Machine.update
  split <;> rfl

theorem keepsDepth_functionOfValue (v : Expr) : KeepsDepth (functionOfValue v) := by
  intro m
  cases v <;> rfl

theorem keepsDepth_functionNamed (scope : ScopeId) (name : String) :
    KeepsDepth (functionNamed scope name) := by
  intro m
  rw [functionNamed, modify_bind, get_bind]
  cases m.countLookup.store.function? scope name with
  | none => rfl
  | some v => cases v <;> rfl

theorem keepsDepth_headFunction (scope : ScopeId) (head : Expr) :
    KeepsDepth (headFunction scope head) := by
  have value := keepsDepth_functionOfValue head
  cases head with
  | symbol name => exact keepsDepth_functionNamed scope name
  | _ => exact value

/-- Whatever a request does, it leaves the depth of calls alone. -/
theorem keepsDepth_perform (w : World) (x : Effect) : KeepsDepth (x.perform w) := by
  intro m
  cases x with
  | assign scope name v => exact keepsDepth_update _ _ _ m
  | defineGlobal name v => exact keepsDepth_update _ _ _ m
  | defineConstant name v => exact keepsDepth_update _ _ _ m
  | defineFunction name f => exact keepsDepth_update _ _ _ m
  | file path =>
    simp only [Effect.perform]
    split <;> rfl
  | _ => rfl

/-- From every machine on which `n` calls may still be nested, a task does in
finitely many steps what a computation does, whatever waits for its result. -/
def Computes (w : World) (n : Nat) (task : Task) (run : Run Expr) : Prop :=
  ∀ ps m, w.maxDepth - m.depth = n →
    Reaches w ⟨task, ps, m⟩ (after ps (run m) .value) ∧
      (finalMachine (run m)).depth = m.depth

variable {w : World} {n : Nat} {task : Task}

theorem Computes.value (v : Expr) : Computes w n (.value v) (pure v) :=
  fun _ _ _ => ⟨.refl, rfl⟩

theorem Computes.error (e : Error) : Computes w n (.error e) (throw e) :=
  fun _ _ _ => ⟨.refl, rfl⟩

/-- A step to a task that computes the rest. -/
theorem Computes.step {next : Task} {run : Run Expr}
    (first : ∀ ps m, Config.step w ⟨task, ps, m⟩ = some ⟨next, ps, m⟩)
    (later : Computes w n next run) : Computes w n task run := fun ps m room =>
  ⟨.head (first ps m) (later ps m room).1, (later ps m room).2⟩

/-- A computation whose result another task goes on with. -/
theorem reaches_after {α : Type} {run : Run α} {next : α → Task} {rest : α → Run Expr}
    (still : KeepsDepth run) (later : ∀ a, Computes w n (next a) (rest a))
    (ps : List Pending) {m : Machine} (room : w.maxDepth - m.depth = n) :
    Reaches w (after ps (run m) next) (after ps ((run >>= rest) m) .value) ∧
      (finalMachine ((run >>= rest) m)).depth = m.depth := by
  have kept := still m
  cases result : run m with
  | ok a m' =>
    rw [result] at kept
    have same : m'.depth = m.depth := kept
    rw [bind_of_ok result]
    obtain ⟨goesOn, kept'⟩ := later a ps m' (by rw [same, room])
    exact ⟨goesOn, kept'.trans same⟩
  | error e m' =>
    rw [result] at kept
    rw [bind_of_error result]
    exact ⟨.refl, kept⟩

/-- A computation whose value something waits for, which an error passes by. -/
theorem reaches_bind {c : Config} {run : Run Expr} {p : Pending} {rest : Expr → Run Expr}
    {ps : List Pending} {m : Machine} (room : w.maxDepth - m.depth = n)
    (first : Reaches w c (after (p :: ps) (run m) .value) ∧
      (finalMachine (run m)).depth = m.depth)
    (passes : ∀ e m, stepError e p ps m = ⟨.error e, ps, m⟩)
    (later : ∀ v m, w.maxDepth - m.depth = n →
      Reaches w (stepValue v p ps m) (after ps (rest v m) .value) ∧
        (finalMachine (rest v m)).depth = m.depth) :
    Reaches w c (after ps ((run >>= rest) m) .value) ∧
      (finalMachine ((run >>= rest) m)).depth = m.depth := by
  obtain ⟨reached, kept⟩ := first
  cases result : run m with
  | ok v m' =>
    rw [result] at reached kept
    rw [bind_of_ok result]
    have same : m'.depth = m.depth := kept
    obtain ⟨goesOn, still⟩ := later v m' (by rw [same, room])
    exact ⟨reached.trans (.head rfl goesOn), still.trans same⟩
  | error e m' =>
    rw [result] at reached kept
    rw [bind_of_error result]
    have past : Config.step w ⟨.error e, p :: ps, m'⟩ = some ⟨.error e, ps, m'⟩ :=
      congrArg some (passes e m')
    exact ⟨reached.trans (.single past), kept⟩

/-- What evaluation does with the function of a call. -/
def callWith (apply : Applier) (scope : ScopeId) (call args : Expr) (f : Function) : Run Expr :=
  match args.properItems? with
  | none => throw (.runtime (.improperArguments call.text))
  | some items => do
    let values ← if f.isSpecial then pure items else evaluateItems apply scope args
    apply f values scope

theorem evaluate_pair (apply : Applier) (scope : ScopeId) (id : ObjectId) (mark : Option Mark)
    (head args : Expr) (m : Machine) :
    evaluate apply scope (.pair id mark head args) m =
      (callee scope head (evaluate apply scope head) >>=
        callWith apply scope (.pair id mark head args) args) m.countEvaluation := by
  rw [evaluate]
  rfl

variable {apply : Applier}

theorem computes_symbol (scope : ScopeId) (name : String) :
    Computes w n (.eval scope (.symbol name)) (evaluate apply scope (.symbol name)) := by
  intro ps m _
  rw [evaluate, modify_bind, modify_bind, get_bind]
  cases found : m.countEvaluation.countLookup.store.value? scope name with
  | some v =>
    have value : stepEval scope (.symbol name) ps m =
        ⟨.value v, ps, m.countEvaluation.countLookup⟩ := by
      simp only [stepEval, found]
    exact ⟨.single (congrArg some value), rfl⟩
  | none =>
    have unbound : stepEval scope (.symbol name) ps m =
        ⟨.error (.symbolNotFound name), ps, m.countEvaluation.countLookup⟩ := by
      simp only [stepEval, found]
    exact ⟨.single (congrArg some unbound), rfl⟩

/-- After the last argument the function is applied. -/
theorem computes_noArguments {e : Expr} (atom : e.isPair = false)
    (applied : ∀ f args scope, Computes w n (.apply f args scope) (apply f args scope))
    (scope : ScopeId) (f : Function) (values : List Expr) :
    Computes w n (.arguments f scope values e)
      (evaluateItems apply scope e >>= fun vs => apply f (values.reverse ++ vs) scope) := by
  have last : Computes w n (.apply f values.reverse scope)
      (evaluateItems apply scope e >>= fun vs => apply f (values.reverse ++ vs) scope) := by
    have none_left : evaluateItems apply scope e = pure [] := by
      cases e with
      | pair id mark car cdr => simp [Sexp.isPair] at atom
      | _ => rw [evaluateItems]; simp
    rw [none_left, pure_bind, List.append_nil]
    exact applied f _ scope
  refine .step (fun ps m => ?_) last
  cases e with
  | pair id mark car cdr => simp [Sexp.isPair] at atom
  | _ => rfl

theorem computes_called
    (applied : ∀ f args scope, Computes w n (.apply f args scope) (apply f args scope))
    {scope : ScopeId} {args : Expr}
    (items : ∀ f values, Computes w n (.arguments f scope values args)
      (evaluateItems apply scope args >>= fun vs => apply f (values.reverse ++ vs) scope))
    (call : Expr) (f : Function) :
    Computes w n (Task.called scope call args f) (callWith apply scope call args f) := by
  cases proper : args.properItems? with
  | none => simpa [Task.called, callWith, proper] using Computes.error _
  | some es =>
    cases special : f.isSpecial with
    | true => simpa [Task.called, callWith, proper, special] using applied f es scope
    | false => simpa [Task.called, callWith, proper, special] using items f []

/-- If applications are computed then so is an evaluation. -/
theorem computes_evaluate
    (applied : ∀ f args scope, Computes w n (.apply f args scope) (apply f args scope))
    (scope : ScopeId) (e : Expr) :
    Computes w n (.eval scope e) (evaluate apply scope e) ∧
      ∀ f values, Computes w n (.arguments f scope values e)
        (evaluateItems apply scope e >>= fun vs => apply f (values.reverse ++ vs) scope) := by
  induction e with
  | pair id mark head args ihHead ihArgs =>
    constructor
    · intro ps m room
      have called := computes_called applied ihArgs.2 (.pair id mark head args)
      have counted : w.maxDepth - m.countEvaluation.depth = n := room
      rw [evaluate_pair]
      cases atom : head.isPair with
      | false =>
        have found := reaches_after (keepsDepth_headFunction scope head) called ps counted
        rw [callee_of_isAtom atom]
        exact ⟨.head (congrArg some (stepEval_of_isAtom atom scope id mark args ps m)) found.1,
          found.2⟩
      | true =>
        obtain ⟨id', mark', car, cdr, rfl⟩ : ∃ id mark car cdr, head = .pair id mark car cdr := by
          cases head with
          | pair id mark car cdr => exact ⟨id, mark, car, cdr, rfl⟩
          | _ => simp [Sexp.isPair] at atom
        let call : Expr := .pair id mark (.pair id' mark' car cdr) args
        have assoc : callee scope (.pair id' mark' car cdr)
              (evaluate apply scope (.pair id' mark' car cdr)) >>= callWith apply scope call args =
            evaluate apply scope (.pair id' mark' car cdr) >>= fun v =>
              functionOfValue v >>= callWith apply scope call args :=
          bind_assoc _ _ _
        have evaluated := ihHead.1 (.head scope call args :: ps) m.countEvaluation counted
        have continued := reaches_bind counted evaluated (fun _ _ => rfl)
          fun v _ room => reaches_after (keepsDepth_functionOfValue v) called ps room
        rw [assoc]
        exact ⟨.head rfl continued.1, continued.2⟩
    · intro f values ps m room
      have split : (evaluateItems apply scope (.pair id mark head args) >>=
            fun vs => apply f (values.reverse ++ vs) scope) =
          evaluate apply scope head >>= fun v => evaluateItems apply scope args >>=
            fun vs => apply f ((v :: values).reverse ++ vs) scope := by
        simp [evaluateItems]
      have evaluated := ihHead.1 (.argument f scope values args :: ps) m room
      have continued := reaches_bind room evaluated (fun _ _ => rfl)
        fun v m => ihArgs.2 f (v :: values) ps m
      rw [split]
      exact ⟨.head rfl continued.1, continued.2⟩
  | symbol name => exact ⟨computes_symbol scope name, computes_noArguments rfl applied scope⟩
  | _ =>
    refine ⟨fun ps m _ => ⟨.single rfl, rfl⟩, computes_noArguments rfl applied scope⟩

theorem reaches_traced {task : Task} {run : Run Expr} (h : Computes w n task run)
    (ps : List Pending) {m : Machine} (room : w.maxDepth - m.depth = n) :
    Reaches w ⟨task, .tracing m.tracing :: ps, { m with tracing := true }⟩
        (after ps (traced run m) .value) ∧
      (finalMachine (traced run m)).depth = m.depth := by
  obtain ⟨reached, kept⟩ := h (.tracing m.tracing :: ps) { m with tracing := true } room
  unfold traced
  cases result : run { m with tracing := true } with
  | ok v m' =>
    rw [result] at reached kept
    exact ⟨reached.trans (.single rfl), kept⟩
  | error e m' =>
    rw [result] at reached kept
    exact ⟨reached.trans (.single rfl), kept⟩

/-- If applications are computed then so is a program. -/
theorem computes_run
    (applied : ∀ f args scope, Computes w n (.apply f args scope) (apply f args scope))
    (p : Program Expr) : Computes w n (.run p) (p.run w apply) := by
  induction p with
  | done v => exact .step (fun _ _ => rfl) (.value v)
  | fail e => exact .step (fun _ _ => rfl) (.error e)
  | perform x next ih =>
    intro ps m room
    have answered := reaches_after (keepsDepth_perform w x) ih ps room
    exact ⟨.head rfl answered.1, answered.2⟩
  | eval scope e next ih =>
    intro ps m room
    have evaluated := (computes_evaluate applied scope e).1 (.next next :: ps) m room
    have continued := reaches_bind room evaluated (fun _ _ => rfl) fun v m => ih v ps m
    exact ⟨.head rfl continued.1, continued.2⟩
  | call f args scope next ih =>
    intro ps m room
    have called := applied f args scope (.next next :: ps) m room
    have continued := reaches_bind room called (fun _ _ => rfl) fun v m => ih v ps m
    exact ⟨.head rfl continued.1, continued.2⟩
  | traced scope e next ih =>
    intro ps m room
    have evaluated :=
      reaches_traced (computes_evaluate applied scope e).1 (.next next :: ps) room
    have continued := reaches_bind room evaluated (fun _ _ => rfl) fun v m => ih v ps m
    exact ⟨.head rfl continued.1, continued.2⟩

theorem depth_enterCall (m : Machine) (name : String) (args : List Expr) :
    (m.enterCall name args).depth = m.depth + 1 := by
  unfold Machine.enterCall Machine.record
  dsimp only
  split <;> rfl

theorem depth_leaveCall (m : Machine) (traced : Bool) (depth : Nat)
    (outcome : Except Error Expr) :
    (m.leaveCall traced depth outcome).depth = m.depth - 1 := by
  unfold Machine.leaveCall Machine.record
  dsimp only
  split <;> rfl

/-- Applications are computed, however many calls may still be nested. -/
theorem computes_applyWithin (w : World) (n : Nat) (f : Function) (args : List Expr)
    (scope : ScopeId) :
    Computes w n (.apply f args scope) (applyWithin w n f args scope) := by
  induction n generalizing f args scope with
  | zero =>
    intro ps m room
    have full : w.maxDepth ≤ m.depth := by omega
    have refused : Config.step w ⟨.apply f args scope, ps, m⟩ =
        some ⟨.error (.stackOverflow w.maxDepth), ps, m⟩ := by
      simp [Config.step, full]
    exact ⟨.single refused, rfl⟩
  | succ n ih =>
    intro ps m room
    have free : ¬ w.maxDepth ≤ m.depth := by omega
    have entered : Config.step w ⟨.apply f args scope, ps, m⟩ =
        some ⟨.run (f.program w args scope), .leave m.tracing m.depth :: ps,
          m.enterCall f.name args⟩ := by
      simp [Config.step, free]
    have inner : w.maxDepth - (m.enterCall f.name args).depth = n := by
      rw [depth_enterCall]
      omega
    obtain ⟨reached, kept⟩ := computes_run ih (f.program w args scope)
      (.leave m.tracing m.depth :: ps) (m.enterCall f.name args) inner
    rw [depth_enterCall] at kept
    unfold applyWithin framed
    dsimp only
    cases result :
        (f.program w args scope).run w (applyWithin w n) (m.enterCall f.name args) with
    | ok v m' =>
      rw [result] at reached kept
      refine ⟨.head entered (reached.trans (.single rfl)), ?_⟩
      have nested : m'.depth = m.depth + 1 := kept
      simp only [finalMachine, depth_leaveCall, nested]
      omega
    | error e m' =>
      rw [result] at reached kept
      refine ⟨.head entered (reached.trans (.single rfl)), ?_⟩
      have nested : m'.depth = m.depth + 1 := kept
      simp only [finalMachine, depth_leaveCall, nested]
      omega

/-- Every evaluation, in every scope and from every machine, ends after finitely
many steps with its value or its error, and no run of it is infinite. -/
theorem World.eval_terminates (w : World) (scope : ScopeId) (e : Expr) (m : Machine) :
    Reaches w ⟨.eval scope e, [], m⟩ (after [] (w.eval scope e m) .value) ∧
      (after [] (w.eval scope e m) .value).step w = none ∧
      ∀ run : Nat → Config, run 0 = ⟨.eval scope e, [], m⟩ →
        ∃ k, (run k).step w ≠ some (run (k + 1)) := by
  have reached : Reaches w ⟨.eval scope e, [], m⟩ (after [] (w.eval scope e m) .value) :=
    ((computes_evaluate (computes_applyWithin w _) scope e).1 [] m rfl).1
  have halted := step_after w (w.eval scope e m)
  exact ⟨reached, halted, reached.no_infinite_run halted⟩

end Lisp
