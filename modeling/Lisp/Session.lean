import Lisp.Evaluation

/-!
# Sessions

A session is a machine together with its world. It evaluates texts one after
another; whatever one of them defines or assigns is there for the next, also
when it failed.
-/

namespace Lisp

/-- The origin of texts that come from no file. -/
def defaultOrigin : String := "<STDIN>"

namespace Program

/-- Evaluates a datum in a scope. -/
def evalDatum (scope : ScopeId) (d : Datum) : Program Expr := do
  let e ← place d
  evalIn scope e

/-- Evaluates a text that holds at most one expression in the root scope. -/
def evalSingle (text : String) : Program Expr :=
  match Datum.ofText? text with
  | .ok d => evalDatum Store.root d
  | .error e => fail (.unreadable defaultOrigin e)

end Program

/-- An evaluator with its state and its surroundings. -/
structure Session where
  world : World := {}
  machine : Machine := Machine.initial

namespace Session

variable {α : Type}

/-- Performs a computation on the machine. -/
def perform (s : Session) (run : Run α) : Except Error α × Session :=
  match run s.machine with
  | .ok a m => (.ok a, { s with machine := m })
  | .error e m => (.error e, { s with machine := m })

/-- Runs a program. -/
def run (s : Session) (p : Program α) : Except Error α × Session := s.perform (s.world.run p)

/-- Evaluates a datum in a scope. -/
def evalDatum (s : Session) (scope : ScopeId) (d : Datum) : Except Error Expr × Session :=
  s.run (Program.evalDatum scope d)

/-- Evaluates a text that holds at most one expression. -/
def evalSingle (s : Session) (text : String) : Except Error Expr × Session :=
  s.run (Program.evalSingle text)

/-- Evaluates all forms of a text; the value is that of the last. -/
def evalAll (s : Session) (text : String) : Except Error Expr × Session :=
  s.run (Program.evalText defaultOrigin text)

/-- Evaluates all forms of a text that comes from a given origin. -/
def evalFrom (s : Session) (origin text : String) : Except Error Expr × Session :=
  s.run (Program.evalText origin text)

/-- Evaluates all forms of a text with call tracing switched on. -/
def evalTraced (s : Session) (text : String) : Except Error Expr × Session :=
  s.perform (traced (s.world.run (Program.evalText defaultOrigin text)))

/-- Sets how deeply calls may be nested and whether they are traced. -/
def configure (s : Session) (maxDepth : Nat) (tracing : Bool) : Session where
  world := { s.world with maxDepth }
  machine := { s.machine with tracing }

/-- Registers a function under a name in the root scope. A name that is bound to
a constant is refused. -/
def register (s : Session) (name : String) (r : Registered) : Except Error Unit × Session :=
  let code := Code.registered name s.world.registered.size
  let install : Run Unit := do
    let id ← Machine.newObject
    Machine.update Store.root name (Binding.withFunction (.function (.object id code)))
  match s.perform install with
  | (.ok (), s) =>
    (.ok (), { s with world := { s.world with registered := s.world.registered.push r } })
  | failed => failed

end Session

end Lisp
