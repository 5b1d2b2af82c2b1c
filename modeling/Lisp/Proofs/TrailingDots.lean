import Lisp.Proofs.Following

/-!
# Lists that end in two bare dots

A list is documented to be dotted when a bare dot is its last element but one.
Reading asks more of it: the last element must not be a bare dot. So reading
follows the grammar with the strict rule, whatever the text. It follows the
grammar with the plain rule, which is the documented one, exactly as long as no
list that ends in two bare dots shows; where it ends without an error, exactly
if it closes no such list. The shortest example is `(a . .)`, which is read as a
proper list of three symbols.
-/

namespace Lisp

namespace Grammar

/-- No list that reading closes ends in two bare dots. -/
def NoTwoDots (ts : List Token) : Prop :=
  ∀ front t rest before dot last, code ts = front ++ t :: rest →
    (Reader.start.feedAll front).Closes (before ++ [dot, last]) t →
    ¬ (dot.isDot = true ∧ last.isDot = true)

/-- Each list that reading closes and that ends in two bare dots has an element
before them, and no form is complete after it. -/
def TwoDotsUnseen (ts : List Token) : Prop :=
  ∀ front t rest before dot last, code ts = front ++ t :: rest →
    (Reader.start.feedAll front).Closes (before ++ [dot, last]) t →
    dot.isDot = true → last.isDot = true →
    before ≠ [] ∧ (Reader.start.feedAll front).forms.size =
      (Reader.start.feedAll (code ts)).forms.size

theorem noTwoDots_iff_clear {ts : List Token} :
    NoTwoDots ts ↔ Reader.start.Clear (Strays plainDot) (code ts) := by
  rw [Reader.clear_iff]
  constructor
  · intro noDots front t rest es split closes strays
    obtain ⟨before, dot, last, rfl, dots⟩ := strays_plain_iff.mp strays
    exact noDots front t rest before dot last split closes dots
  · intro clear front t rest before dot last split closes dots
    exact clear front t rest _ split closes (strays_plain_iff.mpr ⟨before, dot, last, rfl, dots⟩)

theorem headless_plain_iff {before : List Element} {dot last : Element}
    (dots : dot.isDot = true ∧ last.isDot = true) :
    Headless plainDot (before ++ [dot, last]) ↔ before = [] := by
  constructor
  · rintro ⟨dot', last', same, -⟩
    have split : before ++ [dot, last] = [] ++ [dot', last'] := same
    exact (List.append_inj' split rfl).1
  · rintro rfl
    refine ⟨dot, last, rfl, dots.1, fun strict => ?_⟩
    cases dots.2.symm.trans strict.2

theorem twoDotsUnseen_iff {ts : List Token} : TwoDotsUnseen ts ↔ Unseen plainDot ts := by
  constructor
  · intro unseen front t rest es split closes strays
    obtain ⟨before, dot, last, rfl, dots⟩ := strays_plain_iff.mp strays
    obtain ⟨nonempty, same⟩ := unseen front t rest before dot last split closes dots.1 dots.2
    exact ⟨fun headless => nonempty ((headless_plain_iff dots).mp headless), same⟩
  · intro unseen front t rest before dot last split closes isDot alsoDot
    have strays := strays_plain_iff.mpr ⟨before, dot, last, rfl, isDot, alsoDot⟩
    obtain ⟨headed, same⟩ := unseen front t rest _ split closes strays
    exact ⟨fun empty => headed ((headless_plain_iff ⟨isDot, alsoDot⟩).mpr empty), same⟩

end Grammar

namespace Reading

open Grammar

theorem ofText_eq_ofTokens {text : String} (scanned : (Tokens.ofText text).error? = none) :
    ofText text = ofTokens ⟨(Tokens.ofText text).tokens, none⟩ := by
  rw [ofText, ← scanned]

/-- A text without errors of scanning is read as the grammar with the strict rule
says. It is read as the grammar with the plain rule says exactly if lists that
end in two bare dots do not show. Where there is no error at all, this means that
reading closes no such list. -/
theorem follows_grammar (text : String) (scanned : (Tokens.ofText text).error? = none) :
    Follows strictDot (Tokens.ofText text).tokens (ofText text) ∧
    (Follows plainDot (Tokens.ofText text).tokens (ofText text) ↔
      TwoDotsUnseen (Tokens.ofText text).tokens) ∧
    ((ofText text).error? = none →
      (TwoDotsUnseen (Tokens.ofText text).tokens ↔ NoTwoDots (Tokens.ofText text).tokens)) := by
  have apart := Tokens.apart_ofText text
  have strictly := (follows_iff_unseen flagged_strict apart).mpr
    fun _ _ _ es _ _ strays => absurd strays (not_strays_strict es)
  have plainly := follows_iff_unseen flagged_plain apart
  rw [← twoDotsUnseen_iff] at plainly
  rw [ofText_eq_ofTokens scanned]
  refine ⟨strictly, plainly, fun finished => ?_⟩
  constructor
  · intro unseen
    exact noTwoDots_iff_clear.mpr (clear_of_follows flagged_plain (plainly.mpr unseen) finished)
  · intro noDots front t rest before dot last split closes isDot alsoDot
    exact absurd ⟨isDot, alsoDot⟩ (noDots front t rest before dot last split closes)

/-- A text with an improper list under a mark, a comment and an open list. -/
theorem follows_grammar_open_list :
    (Tokens.ofText "'(a . b) ; c\n(d").error? = none ∧
      Follows strictDot (Tokens.ofText "'(a . b) ; c\n(d").tokens
        (ofText "'(a . b) ; c\n(d") ∧
      (ofText "'(a . b) ; c\n(d").error? = some (.unterminated ⟨14, 2, 2⟩ .list) := by
  have scanned : (Tokens.ofText "'(a . b) ; c\n(d").error? = none := by decide +kernel
  exact ⟨scanned, (follows_grammar _ scanned).1, by decide +kernel⟩

/-- The plain rule makes a dotted pair of `(a . .)`, the reading a list of three
symbols. -/
theorem not_follows_plain_two_dots :
    ¬ Follows plainDot (Tokens.ofText "(a . .)").tokens (ofText "(a . .)") := by
  intro follows
  let opening : Token := ⟨.leftParen, ⟨0, 1, 1⟩, ⟨0, 1, 1⟩⟩
  let a : Token := ⟨.symbol "a" false, ⟨1, 1, 2⟩, ⟨1, 1, 2⟩⟩
  let dot : Token := ⟨.symbol "." false, ⟨3, 1, 4⟩, ⟨3, 1, 4⟩⟩
  let last : Token := ⟨.symbol "." false, ⟨5, 1, 6⟩, ⟨5, 1, 6⟩⟩
  let closing : Token := ⟨.rightParen, ⟨6, 1, 7⟩, ⟨6, 1, 7⟩⟩
  have tokens : code (Tokens.ofText "(a . .)").tokens = [opening, a, dot, last, closing] := rfl
  have elements : Elements plainDot 1 [a, dot, last]
      [⟨.symbol "a", false⟩, ⟨.symbol ".", true⟩, ⟨.symbol ".", true⟩] :=
    .cons (.atom rfl) (.cons (.atom rfl) (.cons (.atom rfl) .nil))
  have dotted : Listed plainDot
      [⟨.symbol "a", false⟩, ⟨.symbol ".", true⟩, ⟨.symbol ".", true⟩]
      (Datum.cons (.symbol "a") (.symbol ".")) :=
    @Listed.improper _ [⟨.symbol "a", false⟩] _ _ (by simp) rfl
  have whole : Expression plainDot 0 [opening, a, dot, last, closing]
      (Datum.cons (.symbol "a") (.symbol ".")) :=
    .list rfl (by decide) elements rfl dotted
  have sentence : Forms plainDot (code (Tokens.ofText "(a . .)").tokens)
      [⟨Datum.cons (.symbol "a") (.symbol "."), ⟨0, 1, 1⟩⟩] := by
    rw [tokens]
    exact .cons whole .nil
  have read : (ofText "(a . .)").forms =
      [⟨Datum.list [.symbol "a", .symbol ".", .symbol "."], ⟨0, 1, 1⟩⟩] := rfl
  have same := ((follows.accepted _).mp sentence).1
  rw [read] at same
  simp [Datum.list, Datum.listWithTail, Datum.cons] at same

end Reading

end Lisp
