import Lisp.Proofs.Grammar

/-!
# Derivations are read

A derivation of the grammar leads a reading from the frames around an expression
to the same frames with an expression handed over. The rule of the grammar need
not be the strict one, which reading follows: a derivation is read without an
error in any case, and to the expression that it derives exactly if no list is
closed on which its rule strays. The beginning of a derivation leads to the frames
that it opens, up to how the elements in them have been read.
-/

namespace Lisp

open Grammar

namespace Reader

/-- The token closes a list of the given elements. -/
def Closes (r : Reader) (es : List Element) (t : Token) : Prop :=
  r.error? = none ∧ t.lexeme = .rightParen ∧
    ∃ opened stack, r.stack = .list opened es.reverse :: stack

/-- Reading on closes no list that is `bad`. -/
def Clear (bad : List Element → Prop) : Reader → List Token → Prop
  | _, [] => True
  | r, t :: ts => (∀ es, r.Closes es t → ¬ bad es) ∧ Clear bad (r.feed t) ts

variable {bad : List Element → Prop}

theorem clear_append (r : Reader) (ts us : List Token) :
    r.Clear bad (ts ++ us) ↔ r.Clear bad ts ∧ (r.feedAll ts).Clear bad us := by
  induction ts generalizing r with
  | nil => simp [Clear]
  | cons t ts ih => rw [List.cons_append, Clear, Clear, ih, feedAll_cons, and_assoc]

/-- The same, token by token. -/
theorem clear_iff (r : Reader) (ts : List Token) :
    r.Clear bad ts ↔
      ∀ front t rest es, ts = front ++ t :: rest → (r.feedAll front).Closes es t → ¬ bad es := by
  constructor
  · rintro clear front t rest es rfl
    exact ((clear_append _ _ _).mp clear).2.1 es
  · intro good
    induction ts generalizing r with
    | nil => trivial
    | cons t ts ih =>
      refine ⟨fun es => good [] t ts es rfl, ih _ fun front u rest es split => ?_⟩
      exact good (t :: front) u rest es (by rw [split]; rfl)

theorem clear_cons_of_ne {t : Token} (h : t.lexeme ≠ .rightParen) (r : Reader)
    (ts : List Token) : r.Clear bad (t :: ts) ↔ (r.feed t).Clear bad ts := by
  rw [Clear]
  exact and_iff_right fun _ closes => absurd closes.2.1 h

theorem clear_close {t : Token} (close : t.lexeme = .rightParen) (opened : Position)
    (es : List Element) (stack : List Frame) (last : Position) (forms : Array Form) :
    (Reader.mk (.list opened es.reverse :: stack) last forms none).Clear bad [t] ↔ ¬ bad es := by
  rw [Clear, Clear, and_true]
  constructor
  · exact fun good => good es ⟨rfl, close, opened, stack, rfl⟩
  · rintro good es' ⟨-, -, opened', stack', same⟩
    simp only [List.cons.injEq, Frame.list.injEq, List.reverse_inj] at same
    rwa [← same.1.2]

/-- Reading does not stray from the rule that it follows. -/
theorem clear_strict (r : Reader) (ts : List Token) : r.Clear (Strays strictDot) ts :=
  (clear_iff r ts).mpr fun _ _ _ es _ _ => not_strays_strict es

theorem accept_list (opened : Position) (before : List Element) (stack : List Frame)
    (last : Position) (forms : Array Form) (d : Datum) (first last' : Position)
    (isDot : Bool) :
    (Reader.mk (.list opened before :: stack) last forms none).accept d first last' isDot =
      ⟨.list opened (⟨d, isDot⟩ :: before) :: stack, last', forms, none⟩ := by
  simp [accept, Frame.deliver]

end Reader

theorem Lexeme.ne_rightParen_of_datum? {l : Lexeme} {d : Datum} (h : l.datum? = some d) :
    l ≠ .rightParen := by
  rintro rfl
  cases h

theorem Datum.marked_inj (m : Mark) {d d' : Datum} :
    Datum.marked m d' = Datum.marked m d ↔ d' = d := by
  simp [Datum.marked, Datum.cons]

namespace Grammar

variable {rule : DotRule}

mutual

/-- The tokens of an expression lead a reading to an expression, and to the same
one exactly if no list is closed on which the rule strays. -/
theorem Expression.read (flagged : Flagged rule) {n : Nat} {ts : List Token} {d : Datum} :
    Expression rule n ts d → ∀ (stack : List Frame) (last : Position) (forms : Array Form),
      stack.length = n → ∃ t us last' d', ts = t :: us ∧
        (Reader.mk stack last forms none).feedAll ts =
          (Reader.mk stack last forms none).accept d' t.first last' (isBareDot ts) ∧
        (isBareDot ts = true → d' = d) ∧
        (Reader.mk stack last forms none).Clear (Headless rule) ts ∧
        (d' = d ↔ (Reader.mk stack last forms none).Clear (Strays rule) ts)
  | @Expression.atom _ _ t _ h, stack, last, forms, _ => by
    have clear : ∀ bad, (Reader.mk stack last forms none).Clear bad [t] := by
      intro bad
      rw [Reader.clear_cons_of_ne (Lexeme.ne_rightParen_of_datum? h)]
      trivial
    refine ⟨t, [], t.last, d, rfl, ?_, fun _ => rfl, clear _, by simp [clear]⟩
    rw [Reader.feedAll_cons, Reader.feed_of_datum? rfl h]
    rfl
  | @Expression.marked _ _ t m _ d mark room operand, stack, last, forms, depth => by
    obtain ⟨u, us, last', d', rfl, read, -, headed, same⟩ :=
      operand.read flagged (.mark t.first m :: stack) t.last forms (by simp [depth])
    have opened : Frame.step stack t = .ok (.mark t.first m :: stack, none) := by
      rw [Frame.step_of_mark mark, Frame.push_of_lt (depth ▸ room)]
    have fed := Reader.feed_of_step_none (r := ⟨stack, last, forms, none⟩) rfl opened
    have clear : ∀ bad, (Reader.mk stack last forms none).Clear bad (t :: u :: us) ↔
        (Reader.mk (.mark t.first m :: stack) t.last forms none).Clear bad (u :: us) := by
      intro bad
      rw [Reader.clear_cons_of_ne (by simp [mark]), fed]
    have bare := isBareDot_cons_of_ne_nil t operand.ne_nil
    refine ⟨t, u :: us, last', Datum.marked m d', rfl, ?_, by simp [bare],
      (clear _).mpr headed, ?_⟩
    · rw [Reader.feedAll_cons, fed, read, bare]
      rfl
    · rw [Datum.marked_inj, same, clear]
  | @Expression.list _ _ opening closing ts es d paren room elements close listed, stack, last,
      forms, depth => by
    obtain ⟨last', es', read, twins, headed, same⟩ :=
      elements.read flagged opening.first [] stack opening.last forms (by simp [depth])
    rw [List.append_nil] at read
    have opened : Frame.step stack opening = .ok (.list opening.first [] :: stack, none) := by
      rw [Frame.step_of_leftParen paren, Frame.push_of_lt (depth ▸ room)]
    have fed := Reader.feed_of_step_none (r := ⟨stack, last, forms, none⟩) rfl opened
    have bare : isBareDot (opening :: (ts ++ [closing])) = false :=
      isBareDot_cons_of_ne_nil opening (by simp)
    have clear : ∀ bad,
        (Reader.mk stack last forms none).Clear bad (opening :: (ts ++ [closing])) ↔
          (Reader.mk (.list opening.first [] :: stack) opening.last forms none).Clear bad ts ∧
            ¬ bad es' := by
      intro bad
      rw [Reader.clear_cons_of_ne (by simp [paren]), fed, Reader.clear_append, read,
        Reader.clear_close close]
    rcases Frame.close_cases es' closing.last with
      ⟨d', closes, listed'⟩ | ⟨dot', x', rfl, strict, -⟩
    · have closed : Frame.step (.list opening.first es'.reverse :: stack) closing =
          .ok (Frame.deliver d' opening.first false stack) := by
        simp only [Frame.step, close, closes]
        rfl
      refine ⟨opening, ts ++ [closing], closing.last, d', rfl, ?_, by simp [bare],
        (clear _).mpr ⟨headed, listed.not_headless flagged twins⟩, ?_⟩
      · rw [Reader.feedAll_cons, fed, Reader.feedAll_append, read, bare, Reader.feedAll_cons,
          Reader.feed_of_step_ok rfl closed]
        rfl
      · rw [Listed.eq_iff flagged twins listed listed', same, clear]
    · -- A derivation has no list that begins with a dot that makes it dotted.
      have reread : Twins ([] ++ [dot', x']) es := twins.symm
      obtain ⟨front, dot, x, rfl, fronts, dots, lasts⟩ := reread.of_append
      obtain rfl := List.forall₂_nil_left_iff.mp fronts
      have dotted : rule dot x := flagged.flags dots.flag lasts.flag (flagged.strict strict)
      rcases listed.of_append with ⟨-, nonempty, -⟩ | ⟨notDotted, -⟩
      · exact absurd rfl nonempty
      · exact absurd dotted notDotted

/-- The tokens of elements add as many elements to the innermost list. -/
theorem Elements.read (flagged : Flagged rule) {n : Nat} {ts : List Token}
    {es : List Element} :
    Elements rule n ts es → ∀ (opened : Position) (before : List Element)
      (stack : List Frame) (last : Position) (forms : Array Form), stack.length + 1 = n →
        ∃ last' es', (Reader.mk (.list opened before :: stack) last forms none).feedAll ts =
            ⟨.list opened (es'.reverse ++ before) :: stack, last', forms, none⟩ ∧
          Twins es es' ∧
          (Reader.mk (.list opened before :: stack) last forms none).Clear (Headless rule) ts ∧
          (es' = es ↔
            (Reader.mk (.list opened before :: stack) last forms none).Clear (Strays rule) ts)
  | .nil, opened, before, stack, last, forms, _ =>
    ⟨last, [], rfl, .nil, trivial, by simp [Reader.Clear]⟩
  | @Elements.cons _ _ ts _ d _ first rest, opened, before, stack, last, forms, depth => by
    obtain ⟨t, us, last', d', split, read, dot, headed, same⟩ :=
      first.read flagged (.list opened before :: stack) last forms (by simpa using depth)
    rw [Reader.accept_list] at read
    obtain ⟨last'', es', more, twins, headedRest, sameRest⟩ :=
      rest.read flagged opened (⟨d', isBareDot ts⟩ :: before) stack last' forms depth
    have twin : Twin ⟨d, isBareDot ts⟩ ⟨d', isBareDot ts⟩ := ⟨rfl, dot⟩
    refine ⟨last'', ⟨d', isBareDot ts⟩ :: es', ?_, .cons twin twins, ?_, ?_⟩
    · rw [Reader.feedAll_append, read, more]
      simp
    · rw [Reader.clear_append, read]
      exact ⟨headed, headedRest⟩
    · rw [List.cons.injEq, twin.eq_iff, sameRest, Reader.clear_append, read]
      exact and_congr_left fun _ => same

end

/-- The tokens of forms lead a reading to as many forms. -/
theorem Forms.read (flagged : Flagged rule) {ts : List Token} {fs : List Form}
    (h : Forms rule ts fs) (last : Position) (forms : Array Form) :
    ∃ (last' : Position) (fs' : List Form), (Reader.mk [] last forms none).feedAll ts =
        ⟨[], last', forms ++ fs', none⟩ ∧
      (Reader.mk [] last forms none).Clear (Headless rule) ts ∧
      (fs' = fs ↔ (Reader.mk [] last forms none).Clear (Strays rule) ts) := by
  induction h generalizing last forms with
  | nil => exact ⟨last, [], by simp, trivial, by simp [Reader.Clear]⟩
  | @cons t ts us d fs first rest ih =>
    obtain ⟨u, us', last', d', split, read, -, headed, same⟩ := first.read flagged [] last forms rfl
    obtain ⟨rfl, rfl⟩ : t = u ∧ ts = us' := by simpa using split
    have accepted : (Reader.mk [] last forms none).accept d' t.first last'
        (isBareDot (t :: ts)) = ⟨[], last', forms.push ⟨d', t.first⟩, none⟩ := by
      simp [Reader.accept, Frame.deliver]
    rw [accepted] at read
    obtain ⟨last'', fs', more, headedRest, sameRest⟩ := ih last' (forms.push ⟨d', t.first⟩)
    refine ⟨last'', ⟨d', t.first⟩ :: fs', ?_, ?_, ?_⟩
    · rw [Reader.feedAll_append, read, more]
      simp
    · rw [Reader.clear_append, read]
      exact ⟨headed, headedRest⟩
    · rw [List.cons.injEq, sameRest, Reader.clear_append, read, ← same]
      simp

/-- The same open lists and marks, the elements of the lists read a second time. -/
inductive Akin : List Frame → List Frame → Prop
  | nil : Akin [] []
  | mark {opened : Position} {m : Mark} {stack stack' : List Frame} :
      Akin stack stack' → Akin (.mark opened m :: stack) (.mark opened m :: stack')
  | list {opened : Position} {before before' : List Element} {stack stack' : List Frame} :
      Twins before before' → Akin stack stack' →
      Akin (.list opened before :: stack) (.list opened before' :: stack')

theorem Akin.length_eq {stack stack' : List Frame} (h : Akin stack stack') :
    stack'.length = stack.length := by
  induction h with
  | nil => rfl
  | mark _ ih => rw [List.length_cons, List.length_cons, ih]
  | list _ _ ih => rw [List.length_cons, List.length_cons, ih]

theorem Akin.symm {stack stack' : List Frame} (h : Akin stack stack') : Akin stack' stack := by
  induction h with
  | nil => exact .nil
  | mark _ ih => exact .mark ih
  | list twins _ ih => exact .list twins.symm ih

/-- The beginning of an expression leads a reading to the frames that it opens. -/
theorem Opened.read (flagged : Flagged rule) {ts : List Token} {stack : List Frame}
    (h : Opened rule ts stack) (last : Position) (forms : Array Form) :
    ∃ last' stack', (Reader.mk [] last forms none).feedAll ts = ⟨stack', last', forms, none⟩ ∧
      Akin stack stack' ∧ (Reader.mk [] last forms none).Clear (Headless rule) ts := by
  induction h with
  | nil => exact ⟨last, [], rfl, .nil, trivial⟩
  | @mark ts stack t m _ isMark room ih =>
    obtain ⟨last', stack', read, akin, headed⟩ := ih
    rw [← akin.length_eq] at room
    have opened : Frame.step stack' t = .ok (.mark t.first m :: stack', none) := by
      rw [Frame.step_of_mark isMark, Frame.push_of_lt room]
    refine ⟨t.last, .mark t.first m :: stack', ?_, .mark akin, ?_⟩
    · rw [Reader.feedAll_append, read, Reader.feedAll_cons, Reader.feed_of_step_none rfl opened]
      rfl
    · rw [Reader.clear_append, Reader.clear_cons_of_ne (by simp [isMark])]
      exact ⟨headed, trivial⟩
  | @list ts us stack t es _ isParen room elements ih =>
    obtain ⟨last', stack', read, akin, headed⟩ := ih
    rw [← akin.length_eq] at room elements
    have opened : Frame.step stack' t = .ok (.list t.first [] :: stack', none) := by
      rw [Frame.step_of_leftParen isParen, Frame.push_of_lt room]
    have fed := Reader.feed_of_step_none (r := ⟨stack', last', forms, none⟩) rfl opened
    obtain ⟨last'', es', more, twins, headedList, -⟩ :=
      elements.read flagged t.first [] stack' t.last forms rfl
    rw [List.append_nil] at more
    refine ⟨last'', _, ?_, .list (List.forall₂_reverse_iff.mpr twins) akin, ?_⟩
    · rw [Reader.feedAll_append, read, Reader.feedAll_cons, fed, more]
    · rw [Reader.clear_append, read, Reader.clear_cons_of_ne (by simp [isParen]), fed]
      exact ⟨headed, headedList⟩

/-- Complete expressions and the beginning of one more lead from the start to the
frames that the beginning opens and to one form for each complete expression. -/
theorem Opened.read_after (flagged : Flagged rule) {complete begun : List Token}
    {fs : List Form} {stack : List Frame} (front : Forms rule complete fs)
    (opened : Opened rule begun stack) :
    ∃ last stack' fs',
      Reader.start.feedAll (complete ++ begun) = ⟨stack', last, fs'.toArray, none⟩ ∧
      Akin stack stack' ∧ Reader.start.Clear (Headless rule) (complete ++ begun) ∧
      (∃ last', Reader.start.feedAll complete = ⟨[], last', fs'.toArray, none⟩) ∧
      (fs' = fs ↔ Reader.start.Clear (Strays rule) complete) := by
  obtain ⟨last₁, fs', first, headed₁, same⟩ := front.read flagged Reader.start.last #[]
  have read : Reader.start.feedAll complete = ⟨[], last₁, fs'.toArray, none⟩ :=
    first.trans (by simp)
  obtain ⟨last₂, stack', second, akin, headed₂⟩ := opened.read flagged last₁ fs'.toArray
  refine ⟨last₂, stack', fs', ?_, akin, ?_, ⟨last₁, read⟩, same⟩
  · rw [Reader.feedAll_append, read, second]
  · rw [Reader.clear_append, read]
    exact ⟨headed₁, headed₂⟩

end Grammar

end Lisp
