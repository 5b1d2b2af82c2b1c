import Lisp.Proofs.CallSteps
import Mathlib.Logic.ExistsUnique

/-!
# The lines of the call trace

Each line that begins a call is followed by exactly one line that ends it: the first
one behind it that is not indented further. That line carries what the call came to.
The indentation of both tells how many calls were nested when the call was made.

A begin is traced back to the configuration that made the call, by the steps that lead
up to it. What follows the begin is known from that configuration: the call runs to
its end, and the evaluation goes on from there to its own.
-/

namespace Lisp

open Config

/-- How many blanks a line begins with. -/
def indentation (line : String) : Nat := (line.toList.takeWhile (· == ' ')).length

theorem toList_pushn (s : String) (c : Char) (n : Nat) :
    (s.pushn c n).toList = s.toList ++ List.replicate n c := by
  rw [String.pushn_eq_repeat_push]
  induction n with
  | zero => simp [Nat.repeat]
  | succ n ih => simp [Nat.repeat, ih, List.replicate_succ']

/-- Blanks before a text that begins with another character. -/
theorem indentation_pushn (n : Nat) {c : Char} {rest : String}
    (first : rest.toList.head? = some c) (visible : c ≠ ' ') :
    indentation ("".pushn ' ' n ++ rest) = n := by
  obtain ⟨cs, text⟩ := List.head?_eq_some_iff.mp first
  have stops : rest.toList.takeWhile (· == ' ') = [] := by simp [text, visible]
  unfold indentation
  rw [String.toList_append, toList_pushn, String.toList_empty, List.nil_append,
    List.takeWhile_append_of_pos (by simp), stops, List.append_nil, List.length_replicate]

theorem TraceEvent.indentation_line (event : TraceEvent) :
    indentation event.line = 2 * event.depth := by
  cases event with
  | enter depth name args =>
    exact indentation_pushn (2 * depth) (c := '-') (by simp) (by decide)
  | leave depth r =>
    cases r with
    | ok v => exact indentation_pushn (2 * depth) (c := '<') (by simp) (by decide)
    | error e => exact indentation_pushn (2 * depth) (c := '<') (by simp) (by decide)

/-- The event at `j` ends a call that begins at `i`, at a given depth: in between stand
only events of calls that are nested more deeply. -/
structure Closes (events : List TraceEvent) (i depth j : Nat) : Prop where
  later : i < j
  ends : ∃ r, events[j]? = some (.leave depth r)
  within : ∀ k event, i < k → k < j → events[k]? = some event → depth < event.depth

namespace Closes

variable {events inner : List TraceEvent} {i j k depth : Nat}

theorem not_before (h : Closes events i depth j) (h' : Closes events i depth k) : ¬ j < k := by
  intro before
  obtain ⟨r, ends⟩ := h.ends
  exact Nat.lt_irrefl depth (h'.within j _ h.later before ends)

theorem unique (h : Closes events i depth j) (h' : Closes events i depth k) : j = k :=
  Nat.le_antisymm (Nat.le_of_not_lt (h'.not_before h)) (Nat.le_of_not_lt (h.not_before h'))

/-- The end of a call stands behind what was recorded within the call. -/
theorem of_append (before : List TraceEvent) (name : String) (args : List Expr)
    (r : Except Error Expr) (rest : List TraceEvent)
    (deeper : ∀ event ∈ inner, depth < event.depth) :
    Closes (before ++ .enter depth name args :: (inner ++ .leave depth r :: rest))
      before.length depth (before.length + inner.length + 1) where
  later := by omega
  ends := ⟨r, by simp [Nat.add_assoc]⟩
  within k event after_i before_j found := by
    obtain ⟨l, rfl⟩ : ∃ l, k = before.length + (l + 1) := ⟨k - before.length - 1, by omega⟩
    rw [List.getElem?_append_right (by omega), Nat.add_sub_cancel_left, List.getElem?_cons_succ,
      List.getElem?_append_left (by omega)] at found
    exact deeper event (List.mem_of_getElem? found)

/-- What is recorded of one call is closed once, by the end of the call. -/
theorem existsUnique {before rest : List TraceEvent} {name : String} {args : List Expr}
    {r : Except Error Expr} (deeper : ∀ event ∈ inner, depth < event.depth)
    (whole : events = before ++ .enter depth name args :: (inner ++ .leave depth r :: rest)) :
    (∃! j, Closes events before.length depth j) ∧
      ∀ j, Closes events before.length depth j → events[j]? = some (.leave depth r) := by
  have closes : Closes events before.length depth (before.length + inner.length + 1) :=
    whole ▸ of_append before name args r rest deeper
  refine ⟨⟨_, closes, fun j other => other.unique closes⟩, ?_⟩
  intro j other
  rw [other.unique closes, whole]
  simp [Nat.add_assoc]

end Closes

/-- A configuration that makes a traced call, with the event that begins it. -/
structure MakesCall (w : World) (c : Config) (depth : Nat) (name : String) (args : List Expr)
    (f : Function) (scope : ScopeId) : Prop where
  task : c.task = .apply f args scope
  named : f.name = name
  nested : c.machine.depth = depth
  room : depth < w.maxDepth
  traced : c.machine.tracing = true

variable {w : World} {c d e : Config}

/-- A step records nothing, or the end of a call, or the begin of the call that it makes. -/
theorem CallStep.trace (h : CallStep w c d) :
    ∃ added, d.machine.trace.toList = c.machine.trace.toList ++ added ∧
      (added = [] ∨ (∃ depth r, added = [.leave depth r]) ∨
        ∃ depth name args f scope, added = [.enter depth name args] ∧
          MakesCall w c depth name args f scope) := by
  cases h with
  | @begun f args scope ps m room =>
    refine ⟨_, m.trace_enterCall f.name args, ?_⟩
    cases traced : m.tracing with
    | false => exact .inl rfl
    | true => exact .inr (.inr ⟨m.depth, f.name, args, f, scope, rfl, rfl, rfl, rfl, room, traced⟩)
  | refused full => exact ⟨[], by simp, .inl rfl⟩
  | ended traced depth r left =>
    rw [left]
    refine ⟨_, c.machine.trace_leaveCall traced depth r, ?_⟩
    cases traced with
    | false => exact .inl rfl
    | true => exact .inr (.inl ⟨depth, r, rfl⟩)
  | other depth trace => exact ⟨[], by simp [trace], .inl rfl⟩

/-- Each begin that a run has recorded so far comes from a call that the run has made,
and was recorded right after what the call found in the trace. -/
theorem Config.Reaches.trace (h : Reaches w c d) :
    ∃ events, d.machine.trace.toList = c.machine.trace.toList ++ events ∧
      ∀ i depth name args, events[i]? = some (.enter depth name args) →
        ∃ e f scope, Reaches w c e ∧ MakesCall w e depth name args f scope ∧
          e.machine.trace.toList = c.machine.trace.toList ++ events.take i ∧ Reaches w e d := by
  induction h with
  | refl => exact ⟨[], by simp, by simp⟩
  | @tail d d' reached next ih =>
    obtain ⟨events, recorded, begins⟩ := ih
    obtain ⟨added, recorded', kind⟩ := (Config.callStep next).trace
    refine ⟨events ++ added, by rw [recorded', recorded, List.append_assoc], ?_⟩
    intro i depth name args found
    -- A begin is among the events before the last step, or the last step has recorded it.
    rcases Nat.lt_or_ge i events.length with old | new
    · rw [List.getElem?_append_left old] at found
      obtain ⟨e, f, scope, made, makes, before, goesOn⟩ := begins i depth name args found
      rw [List.take_append_of_le_length (Nat.le_of_lt old)]
      exact ⟨e, f, scope, made, makes, before, goesOn.tail next⟩
    · rw [List.getElem?_append_right new] at found
      rcases kind with rfl | ⟨depth', r, rfl⟩ | ⟨depth', name', args', f, scope, rfl, makes⟩
      · simp at found
      · simp [List.getElem?_singleton] at found
      · obtain ⟨here, same⟩ : i - events.length = 0 ∧
            TraceEvent.enter depth' name' args' = .enter depth name args := by
          simpa [List.getElem?_singleton] using found
        obtain rfl : i = events.length := Nat.le_antisymm (Nat.le_of_sub_eq_zero here) new
        cases same
        refine ⟨d, f, scope, reached, makes, ?_, .single next⟩
        rw [recorded, List.take_append_of_le_length (Nat.le_refl _), List.take_length]

theorem Config.machine_after {α : Type} (ps : List Pending) (r : EStateM.Result Error Machine α)
    (task : α → Task) : (after ps r task).machine = finalMachine r := by
  cases r <;> rfl

/-- A call that is made on the way to the end of a run runs to its own end first. -/
theorem Config.Reaches.call_ends {f : Function} {args : List Expr} {scope : ScopeId}
    (ends : Reaches w c d) (halted : d.step w = none) (task : c.task = .apply f args scope) :
    Reaches w (after c.pending (w.apply f args scope c.machine) .value) d := by
  obtain ⟨_, ps, m⟩ := c
  cases task
  exact (computes_applyWithin w _ f args scope ps m rfl).1.before_end ends halted

/-- What a run that has ended recorded from a call on: the begin of the call, what was
recorded within it, and its end with what the call came to. -/
theorem MakesCall.recorded {depth : Nat} {name : String} {args : List Expr} {f : Function}
    {scope : ScopeId} (makes : MakesCall w c depth name args f scope) (ends : Reaches w c d)
    (halted : d.step w = none) {old before events : List TraceEvent}
    (found : c.machine.trace.toList = old ++ before)
    (left : d.machine.trace.toList = old ++ events) :
    ∃ inner rest, Nested w.maxDepth (depth + 1) inner ∧
      events = before ++ .enter depth name args ::
        (inner ++ .leave depth (outcome (w.apply f args scope c.machine)) :: rest) := by
  obtain ⟨task, rfl, rfl, room, traced⟩ := makes
  obtain ⟨inner, nested, recorded⟩ := w.trace_apply f args scope room traced
  obtain ⟨rest, added, _⟩ := (ends.call_ends halted task).trace
  rw [Config.machine_after, recorded, left, found, List.append_assoc, List.append_assoc] at added
  exact ⟨inner, rest, nested, by simpa using List.append_cancel_left added⟩

/-- Whatever an evaluation records is well nested, and is indented by the depth of calls.
Each begin of a call was recorded by a call that the evaluation made at that depth, below
the limit. Exactly one later event closes it, and that one carries what the call came to.
And each call that the evaluation makes while calls are traced is recorded, right after
what it finds in the trace. -/
theorem World.trace_nested (w : World) (scope : ScopeId) (e : Expr) (m : Machine) :
    ∃ events, (finalMachine (w.eval scope e m)).trace.toList = m.trace.toList ++ events ∧
      Nested w.maxDepth m.depth events ∧
      (∀ event ∈ events, indentation event.line = 2 * event.depth) ∧
      (∀ i depth name args, events[i]? = some (.enter depth name args) →
        ∃ call f scope', Reaches w ⟨.eval scope e, [], m⟩ call ∧
          MakesCall w call depth name args f scope' ∧
          call.machine.trace.toList = m.trace.toList ++ events.take i ∧
          (∃! j, Closes events i depth j) ∧
          ∀ j, Closes events i depth j →
            events[j]? = some (.leave depth (outcome (w.apply f args scope' call.machine)))) ∧
      ∀ call depth name args f scope', Reaches w ⟨.eval scope e, [], m⟩ call →
        MakesCall w call depth name args f scope' →
        ∃ i, events[i]? = some (.enter depth name args) ∧
          call.machine.trace.toList = m.trace.toList ++ events.take i := by
  obtain ⟨reached, halted, _⟩ := w.eval_terminates scope e m
  obtain ⟨events, added, begins⟩ := reached.trace
  obtain ⟨events', added', nested⟩ := (w.records_eval scope e m).events
  rw [← Config.machine_after [] (w.eval scope e m) .value] at added'
  -- The run and the evaluation by recursion have recorded the same events.
  obtain rfl : events' = events := List.append_cancel_left (added'.symm.trans added)
  rw [Config.machine_after] at added'
  refine ⟨events', added', nested, fun event _ => event.indentation_line, ?_, ?_⟩
  · intro i depth name args found
    obtain ⟨call, f, scope', made, makes, before, ends⟩ := begins i depth name args found
    obtain ⟨inner, rest, deeper, whole⟩ := makes.recorded ends halted before added
    have place : (events'.take i).length = i :=
      List.length_take_of_le (Nat.le_of_lt (List.getElem?_eq_some_iff.mp found).1)
    have closed := Closes.existsUnique deeper.le_depth whole
    rw [place] at closed
    exact ⟨call, f, scope', made, makes, before, closed⟩
  · intro call depth name args f scope' made makes
    obtain ⟨before, found, _⟩ := made.trace
    have ends := made.before_end reached halted
    obtain ⟨inner, rest, _, whole⟩ := makes.recorded ends halted found added
    have here : events'.take before.length = before := by simp [whole]
    exact ⟨before.length, by simp [whole], by rw [here, found]⟩

end Lisp
