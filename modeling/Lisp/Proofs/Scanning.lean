import Lisp.Token.Scan

/-!
# Scanning from the middle of a text

A scan is determined by its mode and its place, so the tokens of a text can be
computed from any point on. What a mode makes of the characters still ahead is
a run of steps followed by the end of the text. A scan of two parts of a text
is the scan of the first, and from where that stopped the scan of the second.

A token is complete at the latest with the character after it. The modes in
which a token may still grow are those of a comment and of an atom, and neither
of the two can make a reading fail.
-/

namespace Lisp

open Text

/-- The tokens of the rest of a text, behind those that came before. -/
def Tokens.precededBy (later : Tokens) (ts : List Token) : Tokens :=
  ⟨ts ++ later.tokens, later.error?⟩

@[simp] theorem Tokens.precededBy_nil (later : Tokens) : later.precededBy [] = later := rfl

@[simp] theorem Tokens.precededBy_precededBy (later : Tokens) (ts us : List Token) :
    (later.precededBy us).precededBy ts = later.precededBy (ts ++ us) := by
  simp [Tokens.precededBy]

@[simp] theorem Tokens.tokens_precededBy (later : Tokens) (ts : List Token) :
    (later.precededBy ts).tokens = ts ++ later.tokens := rfl

@[simp] theorem Tokens.error?_precededBy (later : Tokens) (ts : List Token) :
    (later.precededBy ts).error? = later.error? := rfl

namespace Mode

/-- The tokens that characters complete, and the mode after them. -/
def scan (mode : Mode) (p : Place) : List Char → List Token × Mode
  | [] => ([], mode)
  | c :: cs =>
    let (ts, next) := mode.step p c
    let (us, last) := next.scan (p.past c) cs
    (ts ++ us, last)

/-- The tokens of all characters that are still ahead. -/
def tokensOf (mode : Mode) (p : Place) (cs : List Char) : Tokens :=
  let (ts, last) := mode.scan p cs
  let (us, error?) := last.finish (p.pastAll cs)
  ⟨ts ++ us, error?⟩

@[simp] theorem scan_nil (mode : Mode) (p : Place) : mode.scan p [] = ([], mode) := rfl

theorem scan_cons (mode : Mode) (p : Place) (c : Char) (cs : List Char) :
    mode.scan p (c :: cs) =
      ((mode.step p c).1 ++ ((mode.step p c).2.scan (p.past c) cs).1,
        ((mode.step p c).2.scan (p.past c) cs).2) := rfl

theorem scan_append (mode : Mode) (p : Place) (as bs : List Char) :
    mode.scan p (as ++ bs) =
      ((mode.scan p as).1 ++ ((mode.scan p as).2.scan (p.pastAll as) bs).1,
        ((mode.scan p as).2.scan (p.pastAll as) bs).2) := by
  induction as generalizing mode p with
  | nil => simp
  | cons c as ih => simp [scan_cons, ih]

theorem tokensOf_nil (mode : Mode) (p : Place) :
    mode.tokensOf p [] = ⟨(mode.finish p).1, (mode.finish p).2⟩ := rfl

theorem tokensOf_eq (mode : Mode) (p : Place) (cs : List Char) :
    mode.tokensOf p cs =
      ⟨(mode.scan p cs).1 ++ ((mode.scan p cs).2.finish (p.pastAll cs)).1,
        ((mode.scan p cs).2.finish (p.pastAll cs)).2⟩ := rfl

theorem tokensOf_append (mode : Mode) (p : Place) (as bs : List Char) :
    mode.tokensOf p (as ++ bs) =
      ((mode.scan p as).2.tokensOf (p.pastAll as) bs).precededBy (mode.scan p as).1 := by
  simp [tokensOf, scan_append, Tokens.precededBy, Place.pastAll_append]

theorem tokensOf_cons (mode : Mode) (p : Place) (c : Char) (cs : List Char) :
    mode.tokensOf p (c :: cs) =
      ((mode.step p c).2.tokensOf (p.past c) cs).precededBy (mode.step p c).1 := by
  simp [tokensOf, scan_cons, Tokens.precededBy]

/-- Two modes that take the next character alike scan alike. -/
theorem tokensOf_congr {mode other : Mode} {p : Place} {cs : List Char}
    (step : ∀ c, cs.head? = some c → mode.step p c = other.step p c)
    (finish : mode.finish p = other.finish p) :
    mode.tokensOf p cs = other.tokensOf p cs := by
  cases cs with
  | nil => rw [tokensOf_nil, tokensOf_nil, finish]
  | cons c cs => rw [tokensOf_cons, tokensOf_cons, step c rfl]

end Mode

theorem Scan.feedAll_eq_scan (s : Scan) (cs : List Char) :
    s.feedAll cs =
      ⟨s.place.pastAll cs, (s.mode.scan s.place cs).2,
        s.tokens ++ (s.mode.scan s.place cs).1⟩ := by
  induction cs generalizing s with
  | nil => simp [feedAll]
  | cons c cs ih =>
    have later := ih (s.feed c)
    simp only [feedAll, List.foldl_cons] at later ⊢
    rw [later]
    apply congrArg (Scan.mk _ _)
    apply Array.toList_inj.mp
    simp [feed, Mode.scan_cons]

/-- Scanning a text is scanning it from its beginning, between two tokens. -/
theorem Tokens.ofText_eq_tokensOf (text : String) :
    Tokens.ofText text = Mode.between.tokensOf Place.start text.toList := by
  simp [Tokens.ofText, Scan.feedAll_eq_scan, Scan.start, Mode.tokensOf]

end Lisp
