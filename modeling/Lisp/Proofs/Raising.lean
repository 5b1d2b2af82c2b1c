import Lisp.Evaluation
import Lisp.Proofs.Sorting

/-!
# The errors that programs raise

Which errors a program ends with of its own accord, and which results it returns,
whatever the answers to its requests are. The errors of what it has evaluated and of
what it calls are not its own.

A builtin raises errors of three kinds: misuses of itself, under its own name,
failures that are nobody's misuse, and those of a text that it reads.
-/

namespace Lisp

variable {α β : Type} {allowed : Error → Prop} {returns : α → Prop} {returns' : β → Prop}

namespace Program

/-- Every way through a program ends with a result or with an error of a given kind. -/
def Ends (allowed : Error → Prop) (returns : α → Prop) : Program α → Prop
  | done a => returns a
  | fail e => allowed e
  | perform _ next => ∀ a, (next a).Ends allowed returns
  | eval _ _ next => ∀ v, (next v).Ends allowed returns
  | call _ _ _ next => ∀ v, (next v).Ends allowed returns
  | traced _ _ next => ∀ v, (next v).Ends allowed returns

/-- A program that raises nothing else, whatever it returns. -/
abbrev Raises (allowed : Error → Prop) (p : Program α) : Prop := p.Ends allowed fun _ => True

namespace Ends

theorem imp {allowed' : Error → Prop} {returns' : α → Prop} {p : Program α}
    (h : p.Ends allowed returns) (errors : ∀ e, allowed e → allowed' e)
    (results : ∀ a, returns a → returns' a) : p.Ends allowed' returns' := by
  induction p with
  | done a => exact results a h
  | fail e => exact errors e h
  | _ => simp_all [Ends]

theorem raises {p : Program α} (h : p.Ends allowed returns) : p.Raises allowed :=
  h.imp (fun _ => id) fun _ _ => trivial

theorem bind {p : Program α} {f : α → Program β} (first : p.Ends allowed returns)
    (later : ∀ a, returns a → (f a).Ends allowed returns') : (p >>= f).Ends allowed returns' := by
  show (p.bind f).Ends allowed returns'
  induction p with
  | done a => exact later a first
  | fail e => exact first
  | _ => simp_all [Ends, Program.bind]

end Ends

theorem Raises.bind {p : Program α} {f : α → Program β} (first : p.Raises allowed)
    (later : ∀ a, (f a).Raises allowed) : (p >>= f).Raises allowed :=
  Ends.bind first fun a _ => later a

/-- A choice between two programs that the same program goes on from. -/
theorem Raises.ite_bind {c : Prop} [Decidable c] {p q : Program α} {f : α → Program β}
    (yes : p.Raises allowed) (no : q.Raises allowed) (later : ∀ a, (f a).Raises allowed) :
    (if c then p >>= f else q >>= f).Raises allowed := by
  split
  · exact yes.bind later
  · exact no.bind later

theorem raises_consAll (rest : Expr) (items : List Expr) : (consAll rest items).Raises allowed := by
  induction items generalizing rest with
  | nil => trivial
  | cons item items ih => exact fun e => ih e

theorem raises_list (items : List Expr) : (list items).Raises allowed := raises_consAll _ _

theorem raises_listWithTail (items : List Expr) (tail : Expr) :
    (listWithTail items tail).Raises allowed := raises_consAll _ _

theorem raises_evalBody (scope : ScopeId) (body : List Expr) :
    (evalBody scope body).Raises allowed := by
  induction body with
  | nil => trivial
  | cons e rest ih =>
    cases rest with
    | nil => exact fun _ => trivial
    | cons e' rest => exact fun _ => ih

theorem raises_evalForms {origin : String} {error? : Option ReadError} {last : Expr}
    {forms : List Form} (unreadable : ∀ e, allowed (.unreadable origin e)) :
    (evalForms origin error? last forms).Raises allowed := by
  induction forms generalizing last with
  | nil =>
    cases error? with
    | none => trivial
    | some e => exact unreadable e
  | cons form forms ih => exact fun _ _ => ih

/-- Errors and results of programs, as a sort of their comparisons needs it. -/
def endings (allowed : Error → Prop) : Postcondition Program where
  holds returns p := p.Ends allowed returns
  pure h := h
  bind := Ends.bind
  imp h := h.imp fun _ => id

end Program

open Program

/-- What a computation that needs nothing from the machine ends with. -/
abbrev ExceptEnds (allowed : Error → Prop) (returns : α → Prop) (r : Except Error α) : Prop :=
  (ofExcept r).Ends allowed returns

abbrev ExceptRaises (allowed : Error → Prop) (r : Except Error α) : Prop :=
  (ofExcept r).Raises allowed

theorem ExceptEnds.bind {r : Except Error α} {f : α → Except Error β}
    (first : ExceptEnds allowed returns r)
    (later : ∀ a, returns a → ExceptEnds allowed returns' (f a)) :
    ExceptEnds allowed returns' (r >>= f) := by
  cases r with
  | ok a => exact later a first
  | error e => exact first

theorem ExceptRaises.bind {r : Except Error α} {f : α → Except Error β}
    (first : ExceptRaises allowed r) (later : ∀ a, ExceptRaises allowed (f a)) :
    ExceptRaises allowed (r >>= f) :=
  ExceptEnds.bind first fun a _ => later a

theorem ExceptRaises.map {r : Except Error α} (h : ExceptRaises allowed r) (f : α → β) :
    ExceptRaises allowed (r.map f) := by
  cases r with
  | ok a => trivial
  | error e => exact h

def exceptEndings (allowed : Error → Prop) : Postcondition (Except Error) where
  holds returns r := ExceptEnds allowed returns r
  pure h := h
  bind := ExceptEnds.bind
  imp {_ _ _ r} h le := by
    cases r with
    | ok b => exact le b h
    | error e => exact h

namespace Site

/-- The errors that the function at a call site may raise itself. -/
def Raises (site : Site) : Error → Prop
  | .parameters name _ => name = site.name
  | .runtime _ => True
  | .unreadable _ _ => True
  | _ => False

variable {site : Site}

theorem raises_misuse (site : Site) (m : Misuse) : site.Raises (site.misuse m) := rfl

theorem raises_wrongType (site : Site) (index : Nat) (expected : Expectation) (e : Expr) :
    site.Raises (site.wrongType index expected e) := rfl

theorem raises_symbol (index : Nat) (e : Expr) :
    ExceptRaises site.Raises (site.symbol index e) := by
  cases e with
  | symbol name => trivial
  | _ => exact raises_wrongType _ _ _ _

theorem raises_integer (index : Nat) (e : Expr) :
    ExceptRaises site.Raises (site.integer index e) := by
  cases e with
  | integer n => trivial
  | _ => exact raises_wrongType _ _ _ _

theorem raises_string (index : Nat) (e : Expr) :
    ExceptRaises site.Raises (site.string index e) := by
  cases e with
  | string text => trivial
  | _ => exact raises_wrongType _ _ _ _

theorem raises_list (index : Nat) (e : Expr) : ExceptRaises site.Raises (site.list index e) := by
  unfold list
  split
  · split
    · trivial
    · exact raises_wrongType _ _ _ _
  · exact raises_wrongType _ _ _ _

theorem raises_function (index : Nat) (e : Expr) : (site.function index e).Raises site.Raises := by
  cases e with
  | function f => trivial
  | symbol name =>
    have asked : (functionOf site.scope name).Raises site.Raises := fun _ => trivial
    refine asked.bind fun f? => ?_
    split
    · trivial
    · exact raises_misuse _ _
  | _ => exact raises_wrongType _ _ _ _

theorem raises_eval (e : Expr) : (site.eval e).Raises site.Raises := fun _ => trivial

theorem raises_call (f : Function) (args : List Expr) : (site.call f args).Raises site.Raises :=
  fun _ => trivial

end Site

/-- A body whose errors are those of its call site. -/
abbrev Body.Raises (body : Body) : Prop := body.Every fun site _ p => p.Raises site.Raises

end Lisp
