import Lisp.Library.Site

/-!
# The machine

The state of a run: all scopes, the number of objects made so far, the
evaluation counters, the depth of nested calls, the call trace, and what has
been printed. A failure keeps the state that it was reached in; nothing is
undone.

Whatever a run takes from outside is fixed in a world: how deeply calls may be
nested, the registered functions, the contents of files, and the reading that
the clock gives for a timed evaluation.
-/

namespace Lisp

/-- A function that an embedding program supplies. -/
structure Registered where
  arity : Arity
  run : Site → List Expr → Program Expr

/-- What a run can learn from outside. `elapsed` is the time in milliseconds that
a timed evaluation is found to take. -/
structure World where
  maxDepth : Nat := 1000
  registered : Array Registered := #[]
  fileText : String → Except FileFault String := fun _ => .error .notFound
  elapsed : Float := 0.001

/-- A call that begins, or one that ends, with the depth at which it was made. -/
inductive TraceEvent where
  | enter (depth : Nat) (name : String) (args : List Expr)
  | leave (depth : Nat) (outcome : Except Error Expr)

namespace TraceEvent

def depth : TraceEvent → Nat
  | enter depth _ _ => depth
  | leave depth _ => depth

/-- A line of the call trace, indented by two blanks for each call around it. -/
def line (event : TraceEvent) : String :=
  "".pushn ' ' (2 * event.depth) ++
    match event with
    | enter _ name args => "-> (" ++ " ".intercalate (name :: args.map Sexp.text) ++ ")"
    | leave _ (.ok v) => "<- " ++ v.text
    | leave _ (.error e) => "<- error: " ++ e.message

end TraceEvent

/-- The state of a run. `requested` holds the paths of the files that were asked
for, in order. -/
structure Machine where
  store : Store
  objects : Nat
  counters : Counters := {}
  depth : Nat := 0
  tracing : Bool := false
  printed : Array String := #[]
  trace : Array TraceEvent := #[]
  requested : Array String := #[]

/-- A computation on the machine, which may fail. -/
abbrev Run (α : Type) := EStateM Error Machine α

namespace Machine

/-- A machine whose root scope holds the builtin library. -/
def initial : Machine where
  store := Store.withBuiltins
  objects := Builtin.all.length

/-- A machine whose root scope is empty. -/
def bare : Machine where
  store := Store.empty
  objects := 0

def countEvaluation (m : Machine) : Machine :=
  { m with counters := { m.counters with evaluations := m.counters.evaluations + 1 } }

def countLookup (m : Machine) : Machine :=
  { m with counters := { m.counters with symbolLookups := m.counters.symbolLookups + 1 } }

def countLiteral (m : Machine) : Machine :=
  { m with counters := { m.counters with literals := m.counters.literals + 1 } }

def countCall (m : Machine) : Machine :=
  { m with counters := { m.counters with functionCalls := m.counters.functionCalls + 1 } }

/-- Records an event of the call trace, if the call is traced. -/
def record (m : Machine) (traced : Bool) (event : Unit → TraceEvent) : Machine :=
  if traced then { m with trace := m.trace.push (event ()) } else m

/-- The beginning of a call. -/
def enterCall (m : Machine) (name : String) (args : List Expr) : Machine :=
  let m := m.countCall
  let m := m.record m.tracing fun _ => .enter m.depth name args
  { m with depth := m.depth + 1 }

/-- The end of a call that was made at a given depth, and was traced or not when
it began. -/
def leaveCall (m : Machine) (traced : Bool) (depth : Nat) (outcome : Except Error Expr) : Machine :=
  let m := { m with depth := m.depth - 1 }
  m.record traced fun _ => .leave depth outcome

/-- Changes a binding, unless it is read-only. -/
def update (id : ScopeId) (name : String) (f : Binding → Binding) : Run Unit := fun m =>
  if m.store.isLocked id name then .error (.runtime (.constantModified name)) m
  else .ok () { m with store := m.store.change id name f }

/-- A new identity. -/
def newObject : Run ObjectId := fun m => .ok ⟨m.objects⟩ { m with objects := m.objects + 1 }

end Machine

/-- Gives each pair of a datum an identity, from a number on. The result comes
with the next number that is free. -/
def Datum.place : Datum → Nat → Expr × Nat
  | .nil, n => (.nil, n)
  | .bool b, n => (.bool b, n)
  | .integer i, n => (.integer i, n)
  | .float x, n => (.float x, n)
  | .string s, n => (.string s, n)
  | .symbol s, n => (.symbol s, n)
  | .pair _ mark car cdr, n =>
    let (car, k) := Datum.place car (n + 1)
    let (cdr, l) := Datum.place cdr k
    (.pair ⟨n⟩ mark car cdr, l)
  | .function f, _ => f.elim

/-- Answers a request. -/
def Effect.perform (w : World) : (x : Effect) → Run x.Answer
  | .valueOf scope name => fun m => .ok (m.store.value? scope name) m
  | .functionOf scope name => fun m => .ok (m.store.function? scope name) m
  | .isConstant scope name => fun m => .ok (m.store.isConstant scope name) m
  | .assign scope name v => fun m =>
    Machine.update (m.store.assignee scope name) name (Binding.withValue v) m
  | .defineGlobal name v => Machine.update Store.root name (Binding.withValue v)
  | .defineConstant name v => Machine.update Store.root name (Binding.withConstant v)
  | .defineFunction name f => Machine.update Store.root name (Binding.withFunction f)
  | .enter parent bindings => fun m =>
    let (id, store) := m.store.enter parent bindings
    .ok id { m with store }
  | .cons car cdr => do
    let id ← Machine.newObject
    return .pair id none car cdr
  | .newFunction code => do
    let id ← Machine.newObject
    return .object id code
  | .place d => fun m =>
    let (e, objects) := d.place m.objects
    .ok e { m with objects }
  | .print line => fun m => .ok () { m with printed := m.printed.push line }
  | .counters => fun m => .ok m.counters m
  | .elapsed => fun m => .ok w.elapsed m
  | .file path => fun m =>
    let m := { m with requested := m.requested.push path }
    match w.fileText path with
    | .ok text => .ok text m
    | .error fault => .error (.file path fault) m

end Lisp
