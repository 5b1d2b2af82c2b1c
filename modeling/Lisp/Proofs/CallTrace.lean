import Lisp.Proofs.CallLimit
import Lisp.Proofs.Composition

/-!
# What evaluations record in the call trace

The calls in a trace are nested like parentheses. Between the event that begins a
traced call and the one that ends it stand only complete calls at greater depth. The
begin of a call fixes whether its end is recorded, so that nothing is left open or
closed twice when tracing is switched on or off on the way, and when an error passes.

An evaluation adds such events to the trace, and returns to the depth and to the
setting of the trace that it began with.
-/

namespace Lisp

/-- What a computation ended with. -/
def outcome {α : Type} : EStateM.Result Error Machine α → Except Error α
  | .ok a _ => .ok a
  | .error e _ => .error e

namespace Machine

/-- How deeply calls are nested, whether they are traced, and what was recorded. -/
def calls (m : Machine) : Nat × Bool × Array TraceEvent := (m.depth, m.tracing, m.trace)

theorem trace_enterCall (m : Machine) (name : String) (args : List Expr) :
    (m.enterCall name args).trace.toList =
      m.trace.toList ++ if m.tracing then [.enter m.depth name args] else [] := by
  unfold enterCall record
  cases traced : m.tracing <;> simp [countCall, traced]

theorem tracing_enterCall (m : Machine) (name : String) (args : List Expr) :
    (m.enterCall name args).tracing = m.tracing := by
  unfold enterCall record
  dsimp only
  split <;> rfl

theorem trace_leaveCall (m : Machine) (traced : Bool) (depth : Nat) (r : Except Error Expr) :
    (m.leaveCall traced depth r).trace.toList =
      m.trace.toList ++ if traced then [.leave depth r] else [] := by
  unfold leaveCall record
  cases traced <;> simp

theorem tracing_leaveCall (m : Machine) (traced : Bool) (depth : Nat) (r : Except Error Expr) :
    (m.leaveCall traced depth r).tracing = m.tracing := by
  unfold leaveCall record
  dsimp only
  split <;> rfl

end Machine

/-- A computation that makes no calls. It leaves alone how deeply calls are nested and
what is recorded of them, and none is refused. -/
def Quiet {α : Type} (run : Run α) : Prop :=
  ∀ m, (finalMachine (run m)).calls = m.calls ∧ ¬ Overflowed (run m)

theorem quiet_update (id : ScopeId) (name : String) (f : Binding → Binding) :
    Quiet (Machine.update id name f) := by
  intro m
  unfold Machine.update
  split <;> exact ⟨rfl, False.elim⟩

theorem quiet_perform (w : World) (x : Effect) : Quiet (x.perform w) := by
  intro m
  cases x with
  | assign scope name v => exact quiet_update _ _ _ m
  | defineGlobal name v => exact quiet_update _ _ _ m
  | defineConstant name v => exact quiet_update _ _ _ m
  | defineFunction name f => exact quiet_update _ _ _ m
  | file path =>
    simp only [Effect.perform]
    split <;> exact ⟨rfl, False.elim⟩
  | _ => exact ⟨rfl, False.elim⟩

/-- Events of complete calls, none of them made at less than a given depth, and none
where no more calls may be nested. -/
inductive Nested (limit : Nat) : Nat → List TraceEvent → Prop where
  | nil {depth : Nat} : Nested limit depth []
  | call {depth k : Nat} {name : String} {args : List Expr} {r : Except Error Expr}
      {inner rest : List TraceEvent} (deep : depth ≤ k) (room : k < limit)
      (within : Nested limit (k + 1) inner) (after : Nested limit depth rest) :
      Nested limit depth (.enter k name args :: (inner ++ .leave k r :: rest))

namespace Nested

variable {limit depth : Nat} {es fs : List TraceEvent}

theorem append (first : Nested limit depth es) (second : Nested limit depth fs) :
    Nested limit depth (es ++ fs) := by
  induction first with
  | nil => exact second
  | call deep room within _ _ ih =>
    rw [List.cons_append, List.append_assoc, List.cons_append]
    exact .call deep room within (ih second)

theorem mono {less : Nat} (h : Nested limit depth es) (le : less ≤ depth) :
    Nested limit less es := by
  induction h with
  | nil => exact .nil
  | call deep room within _ _ ih => exact .call (Nat.le_trans le deep) room within (ih le)

/-- One call around others. -/
theorem around {k : Nat} (within : Nested limit (k + 1) es) (room : k < limit) (name : String)
    (args : List Expr) (r : Except Error Expr) :
    Nested limit k (.enter k name args :: (es ++ [.leave k r])) :=
  .call (Nat.le_refl k) room within .nil

theorem le_depth (h : Nested limit depth es) : ∀ event ∈ es, depth ≤ event.depth := by
  induction h with
  | nil => exact nofun
  | call deep room within after ihWithin ihAfter =>
    intro event mem
    rcases List.mem_cons.mp mem with rfl | mem
    · exact deep
    rcases List.mem_append.mp mem with inside | mem
    · exact Nat.le_trans deep (Nat.le_of_succ_le (ihWithin event inside))
    rcases List.mem_cons.mp mem with rfl | behind
    · exact deep
    · exact ihAfter event behind

end Nested

/-- Between two machines some complete calls were recorded, and the depth of calls and
the setting of the trace are the same. -/
structure Records (limit : Nat) (before after : Machine) : Prop where
  depth : after.depth = before.depth
  tracing : after.tracing = before.tracing
  events : ∃ events, after.trace.toList = before.trace.toList ++ events ∧
    Nested limit before.depth events

namespace Records

variable {limit : Nat} {m m' m'' : Machine}

theorem of_calls (same : m'.calls = m.calls) : Records limit m m' := by
  simp only [Machine.calls, Prod.mk.injEq] at same
  obtain ⟨depth, tracing, trace⟩ := same
  exact ⟨depth, tracing, [], by rw [trace, List.append_nil], .nil⟩

theorem trans (first : Records limit m m') (second : Records limit m' m'') :
    Records limit m m'' := by
  obtain ⟨es, added, nested⟩ := first.events
  obtain ⟨fs, added', nested'⟩ := second.events
  refine ⟨second.depth.trans first.depth, second.tracing.trans first.tracing, es ++ fs, ?_, ?_⟩
  · rw [added', added, List.append_assoc]
  · exact nested.append (first.depth ▸ nested')

end Records

/-- From every machine on which `n` more calls may be nested, a computation records
complete calls. -/
def Recording (w : World) (n : Nat) {α : Type} (run : Run α) : Prop :=
  ∀ m, w.maxDepth - m.depth = n → Records w.maxDepth m (finalMachine (run m))

variable {w : World} {n : Nat}

theorem Recording.bind {α β : Type} {run : Run α} {next : α → Run β} (first : Recording w n run)
    (later : ∀ a, Recording w n (next a)) : Recording w n (run >>= next) := by
  intro m room
  have recorded := first m room
  cases result : run m with
  | ok a m' =>
    rw [result] at recorded
    rw [bind_of_ok result]
    have same : m'.depth = m.depth := recorded.depth
    exact recorded.trans (later a m' (by rw [same, room]))
  | error e m' =>
    rw [result] at recorded
    rw [bind_of_error result]
    exact recorded

/-- Switching tracing on for a computation leaves what it records in place. -/
theorem Recording.traced {run : Run Expr} (h : Recording w n run) : Recording w n (traced run) := by
  intro m room
  have recorded := h { m with tracing := true } room
  unfold Lisp.traced
  cases result : run { m with tracing := true } with
  | ok v m' =>
    rw [result] at recorded
    exact ⟨recorded.depth, rfl, recorded.events⟩
  | error e m' =>
    rw [result] at recorded
    exact ⟨recorded.depth, rfl, recorded.events⟩

/-- A call adds what its body records, between its own begin and end if tracing was on
when it began. -/
theorem Recording.trace_framed {run : Run Expr} (h : Recording w n run) (name : String)
    (args : List Expr) {m : Machine} (room : w.maxDepth - m.depth = n + 1) :
    let r := framed name args run m
    (finalMachine r).depth = m.depth ∧ (finalMachine r).tracing = m.tracing ∧
      ∃ inner, Nested w.maxDepth (m.depth + 1) inner ∧
        (finalMachine r).trace.toList = m.trace.toList ++
          if m.tracing then .enter m.depth name args :: (inner ++ [.leave m.depth (outcome r)])
          else inner := by
  have deeper : (m.enterCall name args).depth = m.depth + 1 := depth_enterCall m name args
  have recorded := h (m.enterCall name args) (by omega)
  obtain ⟨inner, added, nested⟩ := recorded.events
  rw [deeper] at nested
  -- The end of the call is the same for a value and for an error.
  have ends : ∀ (r : Except Error Expr) (m' : Machine),
      Records w.maxDepth (m.enterCall name args) m' →
      m'.trace.toList = (m.enterCall name args).trace.toList ++ inner →
      (m'.leaveCall m.tracing m.depth r).depth = m.depth ∧
        (m'.leaveCall m.tracing m.depth r).tracing = m.tracing ∧
        (m'.leaveCall m.tracing m.depth r).trace.toList = m.trace.toList ++
          if m.tracing then .enter m.depth name args :: (inner ++ [.leave m.depth r])
          else inner := by
    intro r m' recorded added
    rw [depth_leaveCall, recorded.depth, deeper, Machine.tracing_leaveCall, recorded.tracing,
      Machine.tracing_enterCall, Machine.trace_leaveCall, added, Machine.trace_enterCall]
    refine ⟨rfl, rfl, ?_⟩
    cases m.tracing <;> simp
  unfold framed
  cases result : run (m.enterCall name args) with
  | ok v m' =>
    rw [result] at recorded added
    obtain ⟨depth, tracing, trace⟩ := ends (.ok v) m' recorded added
    exact ⟨depth, tracing, inner, nested, trace⟩
  | error e m' =>
    rw [result] at recorded added
    obtain ⟨depth, tracing, trace⟩ := ends (.error e) m' recorded added
    exact ⟨depth, tracing, inner, nested, trace⟩

theorem Recording.framed {run : Run Expr} (h : Recording w n run) (name : String)
    (args : List Expr) : Recording w (n + 1) (framed name args run) := by
  intro m room
  obtain ⟨depth, tracing, inner, nested, trace⟩ := h.trace_framed name args room
  refine ⟨depth, tracing, _, trace, ?_⟩
  cases m.tracing with
  | true => exact nested.around (by omega) name args _
  | false => exact nested.mono (Nat.le_succ _)

theorem compositional_recording (w : World) : Compositional w (Recording w) where
  pure _ _ _ := .of_calls rfl
  throw _ _ _ := .of_calls rfl
  bind := Recording.bind
  count _ _ _ := .of_calls rfl
  read h _ m room := h m m room
  perform x m _ := .of_calls (quiet_perform w x m).1
  traced := Recording.traced
  framed name args h := h.framed name args

/-- Every evaluation records complete calls, whether it returns or fails. -/
theorem World.records_eval (w : World) (scope : ScopeId) (e : Expr) (m : Machine) :
    Records w.maxDepth m (finalMachine (w.eval scope e m)) :=
  (compositional_recording w).eval _ scope e m rfl

/-- Below the limit, what a call runs may nest one call fewer than the call itself. -/
theorem World.apply_eq_framed (w : World) (f : Function) (args : List Expr) (scope : ScopeId)
    {m : Machine} (room : m.depth < w.maxDepth) :
    ∃ n, w.maxDepth - m.depth = n + 1 ∧ w.apply f args scope m =
      Lisp.framed f.name args ((f.program w args scope).run w (applyWithin w n)) m := by
  refine ⟨w.maxDepth - m.depth - 1, by omega, ?_⟩
  have rest : w.maxDepth - m.depth = w.maxDepth - m.depth - 1 + 1 := by omega
  rw [World.apply, rest, applyWithin]
  rfl

/-- What a traced call records: its begin, the calls within it, and its end. -/
theorem World.trace_apply (w : World) (f : Function) (args : List Expr) (scope : ScopeId)
    {m : Machine} (room : m.depth < w.maxDepth) (traced : m.tracing = true) :
    ∃ inner, Nested w.maxDepth (m.depth + 1) inner ∧
      (finalMachine (w.apply f args scope m)).trace.toList = m.trace.toList ++
        .enter m.depth f.name args ::
          (inner ++ [.leave m.depth (outcome (w.apply f args scope m))]) := by
  obtain ⟨n, rest, here⟩ := w.apply_eq_framed f args scope room
  have body : Recording w n ((f.program w args scope).run w (applyWithin w n)) :=
    (compositional_recording w).run ((compositional_recording w).applyWithin n) _
  obtain ⟨_, _, inner, nested, trace⟩ := body.trace_framed f.name args rest
  rw [traced] at trace
  rw [here]
  exact ⟨inner, nested, trace⟩

end Lisp
