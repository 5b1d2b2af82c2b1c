import Std.Data.ExtTreeMap
import Lisp.Error
import Lisp.Value

/-!
# Scopes

A scope binds names. A name has two slots, one for a value and one for a
function, and may be read-only. Scopes are nested: each knows the scopes around
it, the nearest first and the root last, and this never changes. All scopes live
in one store, so that whoever holds the identity of a scope sees every later
change of it.

A name is looked up along the chain of scopes. Looking for a value passes over
bindings without one, and so does looking for a function. An assignment goes to
the nearest scope where the name has a value, and to the root if there is none.
-/

namespace Lisp

/-- The slots of a name in one scope. -/
structure Binding where
  value? : Option Expr := none
  function? : Option Expr := none
  readOnly : Bool := false

namespace Binding

def withValue (v : Expr) (b : Binding) : Binding := { b with value? := some v }

def withFunction (f : Expr) (b : Binding) : Binding := { b with function? := some f }

/-- A value that is to stay for good. -/
def withConstant (v : Expr) (b : Binding) : Binding :=
  { b with value? := some v, readOnly := true }

end Binding

/-- One scope: the scopes around it and its own bindings. -/
structure Scope where
  outer : List ScopeId
  bindings : Std.ExtTreeMap String Binding

/-- All scopes there are. -/
structure Store where
  scopes : Array Scope

namespace Store

/-- The outermost scope of every store. -/
def root : ScopeId := ⟨0⟩

/-- A store with nothing but an empty root scope. -/
def empty : Store := ⟨#[⟨[], ∅⟩]⟩

def outer (s : Store) (id : ScopeId) : List ScopeId :=
  match s.scopes[id.index]? with
  | some scope => scope.outer
  | none => []

/-- A scope and those around it, the nearest first. -/
def chain (s : Store) (id : ScopeId) : List ScopeId := id :: s.outer id

/-- The number of scopes around a scope. -/
def depth (s : Store) (id : ScopeId) : Nat := (s.outer id).length

def parent? (s : Store) (id : ScopeId) : Option ScopeId := (s.outer id).head?

def isRoot (s : Store) (id : ScopeId) : Bool := (s.outer id).isEmpty

/-- The outermost scope around a scope. -/
def rootOf (s : Store) (id : ScopeId) : ScopeId := (s.outer id).getLast?.getD id

/-- The binding of a name in one scope. -/
def local? (s : Store) (id : ScopeId) (name : String) : Option Binding :=
  match s.scopes[id.index]? with
  | some scope => scope.bindings[name]?
  | none => none

def localValue? (s : Store) (name : String) (id : ScopeId) : Option Expr :=
  (s.local? id name).bind Binding.value?

def localFunction? (s : Store) (name : String) (id : ScopeId) : Option Expr :=
  (s.local? id name).bind Binding.function?

/-- The nearest value of a name. -/
def value? (s : Store) (id : ScopeId) (name : String) : Option Expr :=
  (s.chain id).findSome? (s.localValue? name)

/-- The nearest function of a name. -/
def function? (s : Store) (id : ScopeId) (name : String) : Option Expr :=
  (s.chain id).findSome? (s.localFunction? name)

/-- The nearest binding of a name, whichever slots it fills. -/
def binding? (s : Store) (id : ScopeId) (name : String) : Option Binding :=
  (s.chain id).findSome? (s.local? · name)

def isBound (s : Store) (id : ScopeId) (name : String) : Bool := (s.value? id name).isSome

def isFunctionBound (s : Store) (id : ScopeId) (name : String) : Bool :=
  (s.function? id name).isSome

/-- Whether the nearest binding of a name is read-only. -/
def isConstant (s : Store) (id : ScopeId) (name : String) : Bool :=
  ((s.binding? id name).map Binding.readOnly).getD false

/-- The names bound in a scope or around it, in order and without repetition. -/
def names (s : Store) (id : ScopeId) : List String :=
  let merged := (s.chain id).foldl
    (fun names i => match s.scopes[i.index]? with
      | some scope => scope.bindings.keys.foldl (·.insert · ()) names
      | none => names)
    (∅ : Std.ExtTreeMap String Unit)
  merged.keys

/-- Whether the binding of a name in one scope is read-only. -/
def isLocked (s : Store) (id : ScopeId) (name : String) : Bool :=
  ((s.local? id name).map Binding.readOnly).getD false

/-- Changes the binding of a name in one scope, an empty one if there is none. -/
def change (s : Store) (id : ScopeId) (name : String) (f : Binding → Binding) : Store :=
  ⟨s.scopes.modify id.index fun scope =>
    { scope with bindings := scope.bindings.alter name fun b? => some (f (b?.getD {})) }⟩

/-- Changes the binding of a name in one scope, unless it is read-only. -/
def update (s : Store) (id : ScopeId) (name : String) (f : Binding → Binding) :
    Except Error Store :=
  if s.isLocked id name then .error (.runtime (.constantModified name))
  else .ok (s.change id name f)

/-- Gives a name a value in one scope. -/
def define (s : Store) (id : ScopeId) (name : String) (v : Expr) : Except Error Store :=
  s.update id name (Binding.withValue v)

/-- Gives a name a function in one scope. -/
def defineFunction (s : Store) (id : ScopeId) (name : String) (f : Expr) : Except Error Store :=
  s.update id name (Binding.withFunction f)

/-- Gives a name a value in one scope for good. -/
def defineConstant (s : Store) (id : ScopeId) (name : String) (v : Expr) : Except Error Store :=
  s.update id name (Binding.withConstant v)

/-- The scope that an assignment goes to. -/
def assignee (s : Store) (id : ScopeId) (name : String) : ScopeId :=
  ((s.chain id).find? fun i => (s.localValue? name i).isSome).getD (s.rootOf id)

/-- Assigns to the nearest value of a name, or makes one in the root scope. -/
def assign (s : Store) (id : ScopeId) (name : String) (v : Expr) : Except Error Store :=
  s.define (s.assignee id name) name v

/-- Gives a name a function in the root scope. -/
def assignFunction (s : Store) (id : ScopeId) (name : String) (f : Expr) : Except Error Store :=
  s.defineFunction (s.rootOf id) name f

/-- A new scope with given bindings; of two for one name the later holds. -/
def enter (s : Store) (parent : ScopeId) (values : List (String × Expr)) : ScopeId × Store :=
  let bindings := values.foldl (fun m (name, v) => m.insert name { value? := some v }) ∅
  (⟨s.scopes.size⟩, ⟨s.scopes.push ⟨s.chain parent, bindings⟩⟩)

/-- A new empty scope. -/
def child (s : Store) (parent : ScopeId) : ScopeId × Store := s.enter parent []

/-- Installs the builtin library in an empty root scope. A builtin is one object
under all its names. -/
def withBuiltins : Store :=
  Builtin.all.zipIdx.foldl
    (fun s (op, i) =>
      let f : Expr := .function (.object ⟨i⟩ (.builtin op))
      op.names.foldl (fun s name => s.change root name (Binding.withFunction f)) s)
    empty

end Store

end Lisp
