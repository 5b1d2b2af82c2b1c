import Lisp.Proofs.Delivery
import Lisp.Proofs.Scanning

/-!
# Closing parentheses

No two closing parentheses of a text stand at one place. A list in which nothing
stands before the dot is reported at the parenthesis that closes it, so the
error tells which list it is.
-/

namespace Lisp

/-- Not two closing parentheses at one place. -/
def Token.Apart (t u : Token) : Prop :=
  t.lexeme = .rightParen → u.lexeme = .rightParen → t.last ≠ u.last

theorem Lexeme.Harmless.ne_rightParen {l : Lexeme} (h : l.Harmless) : l ≠ .rightParen := by
  rintro rfl
  rcases h with comment | ⟨d, hd⟩
  · cases comment
  · cases hd

namespace Mode

/-- Tokens of which at most the last is a closing parenthesis, and stands at a
given position. -/
def ClosesAt (here : Position) (ts : List Token) : Prop :=
  ∃ others closings, ts = others ++ closings ∧ (∀ t ∈ others, t.lexeme ≠ .rightParen) ∧
    (closings = [] ∨ closings = [⟨.rightParen, here, here⟩])

theorem closesAt_of_ne {here : Position} {ts : List Token}
    (h : ∀ t ∈ ts, t.lexeme ≠ .rightParen) : ClosesAt here ts :=
  ⟨ts, [], (List.append_nil ts).symm, h, Or.inl rfl⟩

theorem ClosesAt.cons {here : Position} {t : Token} {ts : List Token} (h : ClosesAt here ts)
    (other : t.lexeme ≠ .rightParen) : ClosesAt here (t :: ts) := by
  obtain ⟨others, closings, rfl, ne, last⟩ := h
  exact ⟨t :: others, closings, rfl, List.forall_mem_cons.mpr ⟨other, ne⟩, last⟩

theorem closesAt_begin (here : Position) (c : Char) : ClosesAt here (begin here c).1 := by
  by_cases close : c = ')'
  · subst close
    exact ⟨[], _, rfl, by simp, Or.inr (by rfl)⟩
  · apply closesAt_of_ne
    unfold begin
    repeat' split
    all_goals simp_all

theorem closesAt_continueAtom (p : Place) (first : Position) (text : List Char)
    (escaped : Bool) (c : Char) :
    ClosesAt p.position (continueAtom p first text escaped c).1 := by
  unfold continueAtom
  split
  · exact (closesAt_begin p.position c).cons (harmless_atomToken _ _ _ _).ne_rightParen
  · repeat' split
    all_goals exact closesAt_of_ne (by simp)

/-- A character completes at most one closing parenthesis, which is itself. -/
theorem closesAt_step (mode : Mode) (p : Place) (c : Char) :
    ClosesAt p.position (mode.step p c).1 := by
  cases mode with
  | between => exact closesAt_begin p.position c
  | atom first text escaped => exact closesAt_continueAtom p first text escaped c
  | hash first =>
    simp only [step]
    split
    · exact closesAt_of_ne (by simp)
    · exact closesAt_continueAtom p first ['#'] false c
  | _ =>
    apply closesAt_of_ne
    simp only [step]
    repeat' split
    all_goals simp

theorem ClosesAt.apart_append {here : Position} {ts us : List Token} (h : ClosesAt here ts)
    (apart : us.Pairwise Token.Apart)
    (later : ∀ u ∈ us, u.lexeme = .rightParen → here.offset < u.last.offset) :
    (ts ++ us).Pairwise Token.Apart ∧
      ∀ t ∈ ts ++ us, t.lexeme = .rightParen → here.offset ≤ t.last.offset := by
  obtain ⟨others, closings, rfl, ne, last⟩ := h
  rw [List.append_assoc]
  have closed : (closings ++ us).Pairwise Token.Apart ∧
      ∀ t ∈ closings ++ us, t.lexeme = .rightParen → here.offset ≤ t.last.offset := by
    have further : ∀ u ∈ us, u.lexeme = .rightParen → here.offset ≤ u.last.offset :=
      fun u hu close => Nat.le_of_lt (later u hu close)
    rcases last with rfl | rfl
    · exact ⟨apart, further⟩
    · constructor
      · refine List.pairwise_cons.mpr ⟨fun u hu _ close same => ?_, apart⟩
        have passed := later u hu close
        rw [← same] at passed
        exact Nat.lt_irrefl _ passed
      · exact List.forall_mem_cons.mpr ⟨fun _ => Nat.le_refl _, further⟩
  constructor
  · refine List.pairwise_append.mpr ⟨?_, closed.1, fun t ht _ _ close => absurd close (ne t ht)⟩
    exact List.pairwise_of_forall_mem_list fun t ht _ _ close => absurd close (ne t ht)
  · intro t ht close
    rcases List.mem_append.mp ht with other | further
    · exact absurd close (ne t other)
    · exact closed.2 t further close

/-- The closing parentheses that a scan completes are apart, and none stands
before the place where it begins. -/
theorem scan_apart (mode : Mode) (p : Place) (cs : List Char) :
    (mode.scan p cs).1.Pairwise Token.Apart ∧
      ∀ t ∈ (mode.scan p cs).1, t.lexeme = .rightParen →
        p.position.offset ≤ t.last.offset := by
  induction cs generalizing mode p with
  | nil => simp
  | cons c cs ih =>
    obtain ⟨apart, later⟩ := ih (mode.step p c).2 (p.past c)
    rw [scan_cons]
    refine (closesAt_step mode p c).apart_append apart fun t ht close => ?_
    have passed := later t ht close
    have wide := Char.utf8Size_pos c
    rw [Place.offset_past] at passed
    omega

end Mode

theorem Tokens.apart_ofText (text : String) :
    (Tokens.ofText text).tokens.Pairwise Token.Apart := by
  rw [Tokens.ofText_eq_tokensOf]
  let scanned := Mode.between.scan Place.start text.toList
  have harmless := scanned.2.harmless_finish (Place.start.pastAll text.toList)
  refine List.pairwise_append.mpr ⟨(Mode.scan_apart _ _ _).1, ?_, ?_⟩
  · exact List.pairwise_of_forall_mem_list fun t ht _ _ close =>
      absurd close (harmless t ht).ne_rightParen
  · exact fun _ _ t ht _ close => absurd close (harmless t ht).ne_rightParen

namespace Frame

theorem at_of_close {elements : List Element} {closing at_ : Position}
    (h : close elements closing = .error (.malformed at_ .missingLeft)) : closing = at_ := by
  unfold close at h
  split at h
  · split at h
    · split at h
      · cases h
        rfl
      · cases h
    · cases h
  · cases h

/-- A list without an element before its dot is reported at its parenthesis. -/
theorem missingLeft_of_step {stack : List Frame} {t : Token} {at_ : Position}
    (h : step stack t = .error (.malformed at_ .missingLeft)) :
    t.lexeme = .rightParen ∧ t.last = at_ := by
  have pushed : ∀ frame here, push frame here stack ≠ .error (.malformed at_ .missingLeft) := by
    intro frame here
    unfold push
    split <;> simp
  by_cases harmless : t.lexeme.Harmless
  · obtain ⟨next, ok⟩ := step_of_harmless harmless stack
    cases ok.symm.trans h
  · cases kind : t.lexeme with
    | leftParen => exact absurd ((step_of_leftParen kind stack).symm.trans h) (pushed _ _)
    | mark m => exact absurd ((step_of_mark kind stack).symm.trans h) (pushed _ _)
    | rightParen =>
      refine ⟨rfl, ?_⟩
      simp only [step, kind] at h
      split at h
      · cases h
      · cases h
      · rename_i opened elements rest
        cases hc : close elements t.last with
        | ok d =>
          rw [hc] at h
          cases h
        | error e =>
          rw [hc] at h
          cases h
          exact at_of_close hc
    | comment text => exact absurd (Or.inl (by rw [kind]; rfl)) harmless
    | _ => exact absurd (Or.inr ⟨_, by rw [kind]; rfl⟩) harmless

end Frame

namespace Reader

theorem missingLeft_of_feedAll {r : Reader} {ts : List Token} {at_ : Position}
    (quiet : r.error? = none)
    (h : (r.feedAll ts).error? = some (.malformed at_ .missingLeft)) :
    ∃ t ∈ ts, t.lexeme = .rightParen ∧ t.last = at_ := by
  induction ts generalizing r with
  | nil =>
    rw [feedAll_nil, quiet] at h
    cases h
  | cons t ts ih =>
    rw [feedAll_cons] at h
    cases hs : Frame.step r.stack t with
    | error e =>
      rw [feed_of_step_error quiet hs, feedAll_of_error rfl] at h
      cases h
      exact ⟨t, List.mem_cons_self, Frame.missingLeft_of_step hs⟩
    | ok next =>
      rw [feed_of_step_ok quiet hs] at h
      obtain ⟨u, hu, closes⟩ := ih rfl h
      exact ⟨u, List.mem_cons_of_mem t hu, closes⟩

end Reader

end Lisp
