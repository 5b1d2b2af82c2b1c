import Lisp.Proofs.Delivery
import Lisp.Proofs.DottedLists

/-!
# The grammar of expressions

An expression is an atom, a marked expression, or expressions between
parentheses. The grammar is recursive and knows no stack: what it counts is how
many lists and marks are open around an expression, for there is a limit.

What a list denotes depends on the rule by which its last element may become its
end, so the grammar has this rule as a parameter.

A text that is not a sequence of expressions has a first token, or its end, that
nothing in the grammar allows. What stands before it is a sequence of complete
expressions and the beginning of one more; the frames tell which lists and marks
this beginning leaves open.
-/

namespace Lisp

namespace Grammar

/-- A single token that is a bare dot. -/
def isBareDot : List Token → Bool
  | [t] => t.lexeme.isDot
  | _ => false

mutual

/-- `Expression rule n ts d`: the tokens spell the expression `d` where `n` lists
and marks are open around it. -/
inductive Expression (rule : DotRule) : Nat → List Token → Datum → Prop
  | atom {n : Nat} {t : Token} {d : Datum} :
      t.lexeme.datum? = some d → Expression rule n [t] d
  | marked {n : Nat} {t : Token} {m : Mark} {ts : List Token} {d : Datum} :
      t.lexeme = .mark m → n < maxNesting → Expression rule (n + 1) ts d →
      Expression rule n (t :: ts) (Datum.marked m d)
  | list {n : Nat} {opening closing : Token} {ts : List Token} {es : List Element}
      {d : Datum} :
      opening.lexeme = .leftParen → n < maxNesting → Elements rule (n + 1) ts es →
      closing.lexeme = .rightParen → Listed rule es d →
      Expression rule n (opening :: (ts ++ [closing])) d

/-- The expressions that stand directly in a list. -/
inductive Elements (rule : DotRule) : Nat → List Token → List Element → Prop
  | nil {n : Nat} : Elements rule n [] []
  | cons {n : Nat} {ts us : List Token} {d : Datum} {es : List Element} :
      Expression rule n ts d → Elements rule n us es →
      Elements rule n (ts ++ us) (⟨d, isBareDot ts⟩ :: es)

end

/-- The expressions of a text, each with the position of its first token. -/
inductive Forms (rule : DotRule) : List Token → List Form → Prop
  | nil : Forms rule [] []
  | cons {t : Token} {ts us : List Token} {d : Datum} {forms : List Form} :
      Expression rule 0 (t :: ts) d → Forms rule us forms →
      Forms rule (t :: ts ++ us) (⟨d, t.first⟩ :: forms)

/-- `Opened rule ts stack`: the tokens begin an expression and leave the frames
of `stack` open. -/
inductive Opened (rule : DotRule) : List Token → List Frame → Prop
  | nil : Opened rule [] []
  | mark {ts : List Token} {stack : List Frame} {t : Token} {m : Mark} :
      Opened rule ts stack → t.lexeme = .mark m → stack.length < maxNesting →
      Opened rule (ts ++ [t]) (.mark t.first m :: stack)
  | list {ts us : List Token} {stack : List Frame} {t : Token} {es : List Element} :
      Opened rule ts stack → t.lexeme = .leftParen → stack.length < maxNesting →
      Elements rule (stack.length + 1) us es →
      Opened rule (ts ++ t :: us) (.list t.first es.reverse :: stack)

/-- `Refused rule last stack rest e`: where the frames of `stack` are open, no
expression goes on with the tokens `rest`, and `e` says why. The last token of
the text ends at `last`. -/
inductive Refused (rule : DotRule) (last : Position) :
    List Frame → List Token → ReadError → Prop
  | unmatchedClose {t : Token} {rest : List Token} :
      t.lexeme = .rightParen →
      Refused rule last [] (t :: rest) (.malformed t.last .unmatchedClose)
  | missingOperand {t : Token} {rest : List Token} {opened : Position} {m : Mark}
      {stack : List Frame} :
      t.lexeme = .rightParen →
      Refused rule last (.mark opened m :: stack) (t :: rest)
        (.malformed opened (.missingOperand m))
  | missingLeft {t : Token} {rest : List Token} {opened : Position} {dot x : Element}
      {stack : List Frame} :
      t.lexeme = .rightParen → rule dot x →
      Refused rule last (.list opened [x, dot] :: stack) (t :: rest)
        (.malformed t.last .missingLeft)
  | tooDeep {t : Token} {rest : List Token} {stack : List Frame} :
      (t.lexeme = .leftParen ∨ ∃ m, t.lexeme = .mark m) → maxNesting ≤ stack.length →
      Refused rule last stack (t :: rest) (.malformed t.first (.tooDeep maxNesting))
  | openList {opened : Position} {elements : List Element} {stack : List Frame} :
      Refused rule last (.list opened elements :: stack) [] (.unterminated last .list)
  | openMark {opened : Position} {m : Mark} {stack : List Frame} :
      Refused rule last (.mark opened m :: stack) [] (.unterminated opened (.operand m))

/-- The tokens of a text without its comments. -/
def code (ts : List Token) : List Token := ts.filter fun t => !t.lexeme.isComment

/-- The end of the last token, comments included. -/
def lastPosition (ts : List Token) : Position :=
  ((ts.getLast?).map Token.last).getD Place.start.position

/-- Tokens that some further tokens complete to a sequence of expressions. -/
def Viable (rule : DotRule) (ts : List Token) : Prop :=
  ∃ more forms, Forms rule (ts ++ more) forms

/-- A reading that follows the grammar. It has no error exactly if the tokens are
a sequence of expressions, and then yields these. Otherwise it yields the
complete expressions at the beginning, and its error is that of the first token
with which nothing in the grammar goes on. -/
structure Follows (rule : DotRule) (ts : List Token) (r : Reading) : Prop where
  accepted : ∀ forms, Forms rule (code ts) forms ↔ r.forms = forms ∧ r.error? = none
  refused : ∀ e, r.error? = some e → ∃ complete begun rest stack,
    code ts = complete ++ begun ++ rest ∧ Forms rule complete r.forms ∧
      Opened rule begun stack ∧ Refused rule (lastPosition ts) stack rest e ∧
      Viable rule (complete ++ begun) ∧
      ∀ t more, rest = t :: more → ¬ Viable rule (complete ++ begun ++ [t])

variable {rule : DotRule}

theorem Expression.ne_nil {n : Nat} {ts : List Token} {d : Datum}
    (h : Expression rule n ts d) : ts ≠ [] := by
  cases h <;> simp

theorem Elements.append {n : Nat} : {ts us : List Token} → {es fs : List Element} →
    Elements rule n ts es → Elements rule n us fs → Elements rule n (ts ++ us) (es ++ fs)
  | _, _, _, _, .nil, rest => rest
  | _, _, _, _, .cons first middle, rest => by
    rw [List.append_assoc]
    exact .cons first (middle.append rest)

theorem Elements.snoc {n : Nat} {ts us : List Token} {es : List Element} {d : Datum}
    (front : Elements rule n ts es) (last : Expression rule n us d) :
    Elements rule n (ts ++ us) (es ++ [⟨d, isBareDot us⟩]) := by
  have single : Elements rule n (us ++ []) [⟨d, isBareDot us⟩] := .cons last .nil
  rw [List.append_nil] at single
  exact front.append single

theorem Forms.append {ts us : List Token} {forms more : List Form}
    (front : Forms rule ts forms) (rest : Forms rule us more) :
    Forms rule (ts ++ us) (forms ++ more) := by
  induction front with
  | nil => exact rest
  | cons first _ ih =>
    rw [List.append_assoc]
    exact .cons first ih

theorem Forms.snoc {ts us : List Token} {t : Token} {forms : List Form} {d : Datum}
    (front : Forms rule ts forms) (last : Expression rule 0 (t :: us) d) :
    Forms rule (ts ++ t :: us) (forms ++ [⟨d, t.first⟩]) := by
  have single : Forms rule (t :: us ++ []) [⟨d, t.first⟩] := .cons last .nil
  rw [List.append_nil] at single
  exact front.append single

theorem Opened.eq_nil {ts : List Token} (h : Opened rule ts []) : ts = [] := by
  cases h
  rfl

theorem isBareDot_cons_of_ne_nil (t : Token) {ts : List Token} (h : ts ≠ []) :
    isBareDot (t :: ts) = false := by
  cases ts with
  | nil => exact absurd rfl h
  | cons u us => rfl

theorem isComment_of_mem_code {t : Token} {ts : List Token} (h : t ∈ code ts) :
    t.lexeme.isComment = false := by
  simpa using (List.mem_filter.mp h).2

end Grammar

end Lisp
