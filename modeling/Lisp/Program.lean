import Lisp.Store
import Lisp.Counters
import Lisp.Datum.Reading

/-!
# Programs of functions

What a function does when it is called is written as a program: a tree of
requests and of continuations that take the answers. A request either is an
effect on the machine, or has an expression evaluated or a function called. A
program never sees the machine itself, nor how deeply calls are nested, and it
cannot catch an error: evaluation of a program ends at its first failure.

Whatever holds of all requests therefore holds of all functions, builtin and
registered ones alike.
-/

namespace Lisp

/-- The requests that involve no evaluation. -/
inductive Effect where
  | valueOf (scope : ScopeId) (name : String)
  | functionOf (scope : ScopeId) (name : String)
  | isConstant (scope : ScopeId) (name : String)
  | assign (scope : ScopeId) (name : String) (value : Expr)
  | defineGlobal (name : String) (value : Expr)
  | defineConstant (name : String) (value : Expr)
  | defineFunction (name : String) (function : Expr)
  | enter (parent : ScopeId) (bindings : List (String × Expr))
  | cons (car cdr : Expr)
  | newFunction (code : Code Expr)
  | place (datum : Datum)
  | print (line : String)
  | counters
  | elapsed
  | file (path : String)

namespace Effect

/-- The type of the answer to a request. -/
def Answer : Effect → Type
  | valueOf _ _ => Option Expr
  | functionOf _ _ => Option Expr
  | isConstant _ _ => Bool
  | assign _ _ _ => Unit
  | defineGlobal _ _ => Unit
  | defineConstant _ _ => Unit
  | defineFunction _ _ => Unit
  | enter _ _ => ScopeId
  | cons _ _ => Expr
  | newFunction _ => Function
  | place _ => Expr
  | print _ => Unit
  | counters => Counters
  | elapsed => Float
  | file _ => String

end Effect

/-- A computation that asks the machine for effects, evaluations and calls.
`traced` evaluates an expression with call tracing switched on. -/
inductive Program (α : Type) where
  | done (result : α)
  | fail (error : Error)
  | perform (effect : Effect) (next : effect.Answer → Program α)
  | eval (scope : ScopeId) (e : Expr) (next : Expr → Program α)
  | call (f : Function) (args : List Expr) (scope : ScopeId) (next : Expr → Program α)
  | traced (scope : ScopeId) (e : Expr) (next : Expr → Program α)

namespace Program

variable {α β : Type}

def bind (p : Program α) (f : α → Program β) : Program β :=
  match p with
  | done a => f a
  | fail e => fail e
  | perform x next => perform x fun a => (next a).bind f
  | eval scope e next => eval scope e fun v => (next v).bind f
  | call g args scope next => call g args scope fun v => (next v).bind f
  | traced scope e next => traced scope e fun v => (next v).bind f

theorem bind_done (p : Program α) : p.bind done = p := by
  induction p with
  | done _ => rfl
  | fail _ => rfl
  | _ => simp_all [bind]

theorem bind_assoc {γ : Type} (p : Program α) (f : α → Program β) (g : β → Program γ) :
    (p.bind f).bind g = p.bind fun a => (f a).bind g := by
  induction p with
  | done _ => rfl
  | fail _ => rfl
  | _ => simp_all [bind]

instance : Monad Program where
  pure := done
  bind := bind

instance : LawfulMonad Program :=
  LawfulMonad.mk' _ bind_done (fun _ _ => rfl) bind_assoc

/-- A computation that needs nothing from the machine. -/
def ofExcept : Except Error α → Program α
  | .ok a => done a
  | .error e => fail e

instance : MonadLift (Except Error) Program := ⟨ofExcept⟩

/-- Asks for one effect. -/
def ask (x : Effect) : Program x.Answer := perform x done

/-- Evaluates one expression. -/
def evalIn (scope : ScopeId) (e : Expr) : Program Expr := eval scope e done

def valueOf (scope : ScopeId) (name : String) : Program (Option Expr) := ask (.valueOf scope name)

def functionOf (scope : ScopeId) (name : String) : Program (Option Expr) :=
  ask (.functionOf scope name)

def isConstant (scope : ScopeId) (name : String) : Program Bool := ask (.isConstant scope name)

def assign (scope : ScopeId) (name : String) (v : Expr) : Program Unit :=
  ask (.assign scope name v)

def defineGlobal (name : String) (v : Expr) : Program Unit := ask (.defineGlobal name v)

def defineConstant (name : String) (v : Expr) : Program Unit := ask (.defineConstant name v)

def defineFunction (name : String) (f : Expr) : Program Unit := ask (.defineFunction name f)

def enter (parent : ScopeId) (bindings : List (String × Expr)) : Program ScopeId :=
  ask (.enter parent bindings)

def cons (car cdr : Expr) : Program Expr := ask (.cons car cdr)

def newFunction (code : Code Expr) : Program Function := ask (.newFunction code)

def place (d : Datum) : Program Expr := ask (.place d)

def print (line : String) : Program Unit := ask (.print line)

def counters : Program Counters := ask .counters

def elapsed : Program Float := ask .elapsed

def file (path : String) : Program String := ask (.file path)

/-- Puts items in front of a list, one after the other. -/
def consAll (rest : Expr) : List Expr → Program Expr
  | [] => done rest
  | item :: items => perform (.cons item rest) fun e => consAll e items

/-- Makes the pairs of a list with a given end. -/
def listWithTail (items : List Expr) (tail : Expr) : Program Expr := consAll tail items.reverse

/-- Makes the pairs of a proper list. -/
def list (items : List Expr) : Program Expr := listWithTail items .nil

/-- Evaluates expressions in order; the value is that of the last, or `nil`. -/
def evalBody (scope : ScopeId) : List Expr → Program Expr
  | [] => done .nil
  | [e] => evalIn scope e
  | e :: rest => eval scope e fun _ => evalBody scope rest

/-- Evaluates forms in the root scope, one after the other, and then reports
the error that ended their text, if one did. The value is that of the last
form, or the one given. -/
def evalForms (origin : String) (error? : Option ReadError) (last : Expr) :
    List Form → Program Expr
  | [] =>
    match error? with
    | some e => fail (.unreadable origin e)
    | none => done last
  | form :: rest => do
    let e ← place form.datum
    eval Store.root e fun v => evalForms origin error? v rest

/-- Evaluates all forms of a text in the root scope. -/
def evalText (origin text : String) : Program Expr :=
  let r := Reading.ofText text
  evalForms origin r.error? .nil r.forms

end Program

end Lisp
