import Lisp.Datum.Reading
import Mathlib.Data.List.Forall2

/-!
# What the elements of a list denote

Whether the last element of a list becomes its end is decided by the two last
elements alone. Two rules are of interest. The plain one asks for a bare dot
before the last element; the strict one asks also that the last element is not
itself a bare dot. Closing a list follows the strict rule.

A list that another rule makes dotted and the strict one does not has another
meaning under the two rules, even if the elements before its end have been read
differently: the dots themselves are always the same symbol. If nothing stands
before its dot then it has no meaning at all under the other rule.
-/

namespace Lisp

theorem Datum.listWithTail_inj {xs ys : List Datum} {s t : Datum}
    (lengths : xs.length = ys.length) :
    listWithTail xs s = listWithTail ys t ↔ xs = ys ∧ s = t := by
  induction xs generalizing ys with
  | nil =>
    cases ys with
    | nil => simp [listWithTail]
    | cons y ys => simp at lengths
  | cons x xs ih =>
    cases ys with
    | nil => simp at lengths
    | cons y ys =>
      have rest := ih (Nat.succ.inj lengths)
      simp only [listWithTail, List.foldr_cons, cons, Sexp.pair.injEq, true_and,
        List.cons.injEq] at rest ⊢
      rw [rest, and_assoc]

namespace Grammar

/-- When the last element of a list is its end: a condition on the element
before it and on the last element. -/
abbrev DotRule := Element → Element → Prop

def plainDot : DotRule := fun dot _ => dot.isDot = true

def strictDot : DotRule := fun dot last => dot.isDot = true ∧ last.isDot = false

/-- A rule that looks only at which elements are bare dots, and that makes dotted
at least what the strict rule makes dotted. -/
structure Flagged (rule : DotRule) : Prop where
  bare : ∀ {dot last}, rule dot last → dot.isDot = true
  strict : ∀ {dot last}, strictDot dot last → rule dot last
  flags : ∀ {dot dot' last last'}, dot'.isDot = dot.isDot → last'.isDot = last.isDot →
    rule dot last → rule dot' last'

theorem flagged_strict : Flagged strictDot where
  bare h := h.1
  strict h := h
  flags dots lasts h := ⟨dots.trans h.1, lasts.trans h.2⟩

theorem flagged_plain : Flagged plainDot where
  bare h := h
  strict h := h.1
  flags dots _ h := dots.trans h

/-- What the elements between two parentheses denote. -/
inductive Listed (rule : DotRule) : List Element → Datum → Prop
  | improper {front : List Element} {dot last : Element} :
      front ≠ [] → rule dot last →
      Listed rule (front ++ [dot, last])
        (Datum.listWithTail (front.map Element.datum) last.datum)
  | proper {es : List Element} :
      (∀ front dot last, es = front ++ [dot, last] → ¬ rule dot last) →
      Listed rule es (Datum.list (es.map Element.datum))

/-- A list that a rule makes dotted and the strict rule does not. -/
def Strays (rule : DotRule) (es : List Element) : Prop :=
  ∃ front dot last, es = front ++ [dot, last] ∧ rule dot last ∧ ¬ strictDot dot last

/-- A list that a rule gives no meaning and the strict rule does. -/
def Headless (rule : DotRule) (es : List Element) : Prop :=
  ∃ dot last, es = [dot, last] ∧ rule dot last ∧ ¬ strictDot dot last

theorem Headless.strays {rule : DotRule} {es : List Element} (h : Headless rule es) :
    Strays rule es := by
  obtain ⟨dot, last, rfl, dotted, notStrict⟩ := h
  exact ⟨[], dot, last, rfl, dotted, notStrict⟩

theorem not_strays_strict (es : List Element) : ¬ Strays strictDot es := by
  rintro ⟨_, _, _, _, strict, notStrict⟩
  exact notStrict strict

/-- The plain rule strays on the lists that end in two bare dots. -/
theorem strays_plain_iff {es : List Element} :
    Strays plainDot es ↔
      ∃ front dot last, es = front ++ [dot, last] ∧ dot.isDot = true ∧ last.isDot = true := by
  constructor
  · rintro ⟨front, dot, last, rfl, isDot, notStrict⟩
    refine ⟨front, dot, last, rfl, isDot, ?_⟩
    cases flag : last.isDot with
    | true => rfl
    | false => exact absurd ⟨isDot, flag⟩ notStrict
  · rintro ⟨front, dot, last, rfl, isDot, alsoDot⟩
    refine ⟨front, dot, last, rfl, isDot, fun strict => ?_⟩
    rw [strict.2] at alsoDot
    cases alsoDot

variable {rule : DotRule}

theorem Listed.of_append {front : List Element} {dot last : Element} {d : Datum}
    (h : Listed rule (front ++ [dot, last]) d) :
    (rule dot last ∧ front ≠ [] ∧
      d = Datum.listWithTail (front.map Element.datum) last.datum) ∨
    (¬ rule dot last ∧ d = Datum.list ((front ++ [dot, last]).map Element.datum)) := by
  generalize split : front ++ [dot, last] = es at h
  cases h with
  | improper nonempty dotted =>
    obtain ⟨rfl, same⟩ := List.append_inj' split rfl
    obtain ⟨rfl, rfl⟩ : dot = _ ∧ last = _ := by simpa using same
    exact Or.inl ⟨dotted, nonempty, rfl⟩
  | proper ordinary => exact Or.inr ⟨ordinary front dot last split.symm, rfl⟩

/-- Two readings of one element: both are bare dots, and then the same symbol, or
neither is. -/
structure Twin (e e' : Element) : Prop where
  flag : e'.isDot = e.isDot
  dot : e.isDot = true → e'.datum = e.datum

theorem Twin.symm {e e' : Element} (h : Twin e e') : Twin e' e where
  flag := h.flag.symm
  dot isDot := (h.dot (h.flag ▸ isDot)).symm

theorem Twin.eq_iff {e e' : Element} (h : Twin e e') : e' = e ↔ e'.datum = e.datum := by
  constructor
  · rintro rfl
    rfl
  · intro data
    have flag := h.flag
    cases e
    cases e'
    simp_all

abbrev Twins := List.Forall₂ Twin

theorem Twins.symm {es es' : List Element} (h : Twins es es') : Twins es' es :=
  h.flip.imp fun _ _ => Twin.symm

theorem Twins.map_datum_eq_iff {es es' : List Element} (h : Twins es es') :
    es'.map Element.datum = es.map Element.datum ↔ es' = es := by
  induction h with
  | nil => simp
  | cons first _ ih => rw [List.map_cons, List.map_cons, List.cons.injEq, List.cons.injEq, ih,
      first.eq_iff]

/-- Twins of a list are split where the list is. -/
theorem Twins.of_append {front es' : List Element} {dot last : Element}
    (h : Twins (front ++ [dot, last]) es') :
    ∃ front' dot' last', es' = front' ++ [dot', last'] ∧ Twins front front' ∧
      Twin dot dot' ∧ Twin last last' := by
  induction front generalizing es' with
  | nil =>
    obtain ⟨dot', _, dots, rest, rfl⟩ := List.forall₂_cons_left_iff.mp h
    obtain ⟨last', _, lasts, none_left, rfl⟩ := List.forall₂_cons_left_iff.mp rest
    obtain rfl := List.forall₂_nil_left_iff.mp none_left
    exact ⟨[], dot', last', rfl, .nil, dots, lasts⟩
  | cons e front ih =>
    obtain ⟨e', _, first, rest, rfl⟩ := List.forall₂_cons_left_iff.mp h
    obtain ⟨front', dot', last', rfl, fronts, dots, lasts⟩ := ih rest
    exact ⟨e' :: front', dot', last', rfl, .cons first fronts, dots, lasts⟩

/-- A list that has a meaning under a rule has an element before its dot,
however often its elements are read. -/
theorem Listed.not_headless (flagged : Flagged rule) {es es' : List Element} {d : Datum}
    (h : Listed rule es d) (twins : Twins es es') : ¬ Headless rule es' := by
  rintro ⟨dot', last', rfl, dotted, -⟩
  have reread : Twins ([] ++ [dot', last']) es := twins.symm
  obtain ⟨front, dot, last, rfl, fronts, dots, lasts⟩ := reread.of_append
  obtain rfl := List.forall₂_nil_left_iff.mp fronts
  rcases h.of_append with ⟨-, nonempty, -⟩ | ⟨notDotted, -⟩
  · exact nonempty rfl
  · exact notDotted (flagged.flags dots.flag lasts.flag dotted)

/-- A list that has a meaning under the strict rule has one under another, unless
nothing stands before its dot. -/
theorem Listed.exists_of_strict (flagged : Flagged rule) {es es' : List Element} {d' : Datum}
    (twins : Twins es es') (read : Listed strictDot es' d') (headed : ¬ Headless rule es') :
    ∃ d, Listed rule es d := by
  by_cases h : ∃ front dot last, es = front ++ [dot, last] ∧ rule dot last
  · obtain ⟨front, dot, last, rfl, dotted⟩ := h
    cases front with
    | cons e front => exact ⟨_, .improper (List.cons_ne_nil e front) dotted⟩
    | nil =>
      obtain ⟨front', dot', last', rfl, fronts, dots, lasts⟩ := twins.of_append
      obtain rfl := List.forall₂_nil_left_iff.mp fronts
      have dotted' : rule dot' last' := flagged.flags dots.flag lasts.flag dotted
      rcases read.of_append with ⟨-, nonempty, -⟩ | ⟨notStrict, -⟩
      · exact absurd rfl nonempty
      · exact absurd ⟨dot', last', rfl, dotted', notStrict⟩ headed
  · exact ⟨_, .proper fun front dot last split dotted => h ⟨front, dot, last, split, dotted⟩⟩

/-- A list whose elements have been read a second time has the same meaning
under the strict rule as under another exactly if the elements are the same and
the other rule does not stray on them. -/
theorem Listed.eq_iff (flagged : Flagged rule) {es es' : List Element} {d d' : Datum}
    (twins : Twins es es') (h : Listed rule es d) (read : Listed strictDot es' d') :
    d' = d ↔ es' = es ∧ ¬ Strays rule es' := by
  cases h with
  | @improper front dot last nonempty dotted =>
    obtain ⟨front', dot', last', rfl, fronts, dots, lasts⟩ := twins.of_append
    have lengths : (front'.map Element.datum).length = (front.map Element.datum).length := by
      simpa using fronts.length_eq.symm
    rcases read.of_append with ⟨strict, -, rfl⟩ | ⟨notStrict, rfl⟩
    · have straight : ¬ Strays rule (front' ++ [dot', last']) := by
        rintro ⟨f, a, b, split, -, notStrict⟩
        obtain ⟨-, same⟩ := List.append_inj' split rfl
        obtain ⟨rfl, rfl⟩ : dot' = a ∧ last' = b := by simpa using same
        exact notStrict strict
      have sameDot : dot' = dot := dots.eq_iff.mpr (dots.dot (flagged.bare dotted))
      rw [Datum.listWithTail_inj lengths, fronts.map_datum_eq_iff, ← lasts.eq_iff]
      constructor
      · rintro ⟨rfl, rfl⟩
        exact ⟨by rw [sameDot], straight⟩
      · rintro ⟨same, -⟩
        obtain ⟨sameFront, sameEnd⟩ := List.append_inj' same rfl
        exact ⟨sameFront, by simpa [sameDot] using sameEnd⟩
    · have strays : Strays rule (front' ++ [dot', last']) :=
        ⟨front', dot', last', rfl, flagged.flags dots.flag lasts.flag dotted, notStrict⟩
      have alsoDot : last.isDot = true := by
        cases flag : last.isDot with
        | true => rfl
        | false =>
          have isDot := dots.flag.trans (flagged.bare dotted)
          exact absurd ⟨isDot, lasts.flag.trans flag⟩ notStrict
      have sameEnd := lasts.dot alsoDot
      have apart : Datum.cons dot'.datum (Datum.cons last'.datum .nil) ≠ last.datum := by
        intro same
        have sizes := congrArg sizeOf same
        simp only [Datum.cons, Sexp.pair.sizeOf_spec, sameEnd] at sizes
        omega
      have longer : Datum.list ((front' ++ [dot', last']).map Element.datum) =
          Datum.listWithTail (front'.map Element.datum)
            (Datum.cons dot'.datum (Datum.cons last'.datum .nil)) := by
        simp [Datum.list, Datum.listWithTail]
      rw [longer, Datum.listWithTail_inj lengths]
      exact ⟨fun same => absurd same.2 apart, fun same => absurd strays same.2⟩
  | proper ordinary =>
    have ordinary' : ∀ front dot last, es' = front ++ [dot, last] → ¬ rule dot last := by
      rintro front' dot' last' rfl dotted
      obtain ⟨front, dot, last, rfl, -, dots, lasts⟩ := twins.symm.of_append
      exact ordinary front dot last rfl (flagged.flags dots.flag lasts.flag dotted)
    have straight : ¬ Strays rule es' := by
      rintro ⟨front, dot, last, split, dotted, -⟩
      exact ordinary' front dot last split dotted
    have built : d' = Datum.list (es'.map Element.datum) := by
      cases read with
      | improper _ strict => exact absurd (flagged.strict strict) (ordinary' _ _ _ rfl)
      | proper _ => rfl
    have lengths : (es'.map Element.datum).length = (es.map Element.datum).length := by
      simpa using twins.length_eq.symm
    rw [built, Datum.list, Datum.list, Datum.listWithTail_inj lengths, twins.map_datum_eq_iff]
    simp [straight]

end Grammar

namespace Frame

open Grammar

theorem build_eq (elements : List Element) (tail : Datum) :
    build elements tail =
      Datum.listWithTail (elements.reverse.map Element.datum) tail := by
  simp [build, Datum.listWithTail, List.foldr_reverse, List.foldl_map]

/-- A list that the strict rule gives a meaning closes with this meaning. -/
theorem close_of_listed {es : List Element} {d : Datum} (h : Listed strictDot es d)
    (closing : Position) : close es.reverse closing = .ok d := by
  cases h with
  | @improper front dot last nonempty rule =>
    obtain ⟨isDot, notDot⟩ := rule
    simp [close, isDot, notDot, nonempty, build_eq]
  | proper ordinary =>
    have built : build es.reverse .nil = Datum.list (es.map Element.datum) := by
      simp [build_eq, Datum.list]
    cases hr : es.reverse with
    | nil =>
      rw [hr] at built
      simp [close, built]
    | cons last before =>
      cases before with
      | nil =>
        rw [hr] at built
        simp [close, built]
      | cons dot front =>
        have split : es = front.reverse ++ [dot, last] := by
          simpa using congrArg List.reverse hr
        have plain := ordinary _ _ _ split
        rw [hr] at built
        simp only [strictDot, not_and, Bool.not_eq_false] at plain
        cases isDot : dot.isDot with
        | false => simp [close, isDot, built]
        | true => simp [close, plain isDot, built]

/-- Closing a list gives it its meaning, unless a dot begins it. -/
theorem close_cases (es : List Element) (closing : Position) :
    (∃ d, close es.reverse closing = .ok d ∧ Listed strictDot es d) ∨
      ∃ dot x, es = [dot, x] ∧ strictDot dot x ∧
        close es.reverse closing = .error (.malformed closing .missingLeft) := by
  by_cases h : ∃ front dot last, es = front ++ [dot, last] ∧ strictDot dot last
  · obtain ⟨front, dot, last, rfl, rule⟩ := h
    cases front with
    | nil => exact Or.inr ⟨dot, last, rfl, rule, by simp [close, rule.1, rule.2]⟩
    | cons e front =>
      have listed := Listed.improper (List.cons_ne_nil e front) rule
      exact Or.inl ⟨_, close_of_listed listed closing, listed⟩
  · have listed : Listed strictDot es _ :=
      .proper fun front dot last split rule => h ⟨front, dot, last, split, rule⟩
    exact Or.inl ⟨_, close_of_listed listed closing, listed⟩

end Frame

end Lisp
