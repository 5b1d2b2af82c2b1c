import Lisp.Proofs.RoundTrip

/-!
# How deeply a printed form is nested

A printed form consists of atoms, of parentheses and marks, and of the blanks between
elements. Going through it from left to right one knows at every point which parentheses are
open and which marks wait for their operand, and the end of an expression ends all marks in
front of it. The greatest number of parentheses and marks that are open at once is the
nesting of the expression.
-/

namespace Lisp

/-- A part of a printed form. -/
inductive Piece where
  | leftParen
  | rightParen
  | sign (mark : Mark)
  | atom (text : List Char)
  | gap

namespace Piece

def chars : Piece → List Char
  | leftParen => ['(']
  | rightParen => [')']
  | sign m => m.sign
  | atom text => text
  | gap => [' ']

/-- What stays open behind an expression. The innermost comes first, and `none` stands for a
parenthesis. -/
def complete : List (Option Mark) → List (Option Mark)
  | some _ :: rest => complete rest
  | opened => opened

/-- What is open behind a piece. -/
def step (opened : List (Option Mark)) : Piece → List (Option Mark)
  | leftParen => none :: opened
  | sign m => some m :: opened
  | atom _ => complete opened
  | gap => opened
  | rightParen =>
    match opened with
    | none :: rest => complete rest
    | opened => opened

/-- How many parentheses and marks are open at once, at most, in a run of pieces. -/
def peak : List (Option Mark) → List Piece → Nat
  | opened, [] => opened.length
  | opened, piece :: rest => max opened.length (peak (piece.step opened) rest)

end Piece

namespace Sexp

variable {κ φ : Type}

mutual

/-- The pieces of the printed form. -/
def pieces [Described φ] : Sexp κ φ → List Piece
  | .pair _ mark car cdr =>
    match mark, cdr with
    | some m, .pair _ _ operand last =>
      if last.isNil then .sign m :: operand.pieces
      else .leftParen :: (car.pieces ++ .gap :: (operand.pieces ++ last.piecesTail))
    | _, cdr => .leftParen :: (car.pieces ++ cdr.piecesTail)
  | e => [.atom e.writeAtom]

/-- The same for what follows the first element of a list. -/
def piecesTail [Described φ] : Sexp κ φ → List Piece
  | .pair _ _ car cdr => .gap :: (car.pieces ++ cdr.piecesTail)
  | e =>
    if e.isNil then [.rightParen]
    else [.gap, .atom ['.'], .gap, .atom e.writeAtom, .rightParen]

end

/-- Whether a pair with a mark in front of such a rest is printed with its mark. -/
def abbreviates : Option Mark → Sexp κ φ → Bool
  | some _, .pair _ _ _ last => last.isNil
  | _, _ => false

/-- Induction along the printed form, with `P` for expressions on their own and `Q` for what
follows the first element of a list. -/
theorem printed_induction {P Q : Sexp κ φ → Prop}
    (marked : ∀ id m car i mark operand last, last.isNil = true → P operand →
      P (.pair id (some m) car (.pair i mark operand last)))
    (listed : ∀ id mark car cdr, abbreviates mark cdr = false → P car → Q cdr →
      P (.pair id mark car cdr))
    (atom : ∀ e, e.isPair = false → P e)
    (more : ∀ id mark car cdr, P car → Q cdr → Q (.pair id mark car cdr))
    (ended : ∀ e, e.isPair = false → Q e) : (∀ e, P e) ∧ ∀ e, Q e := by
  -- The operand of a mark is the first element of the rest, two pairs below the mark.
  suffices both : ∀ e, (P e ∧ Q e) ∧ ∀ first, e.car? = some first → P first from
    ⟨fun e => (both e).1.1, fun e => (both e).1.2⟩
  intro e
  induction e with
  | pair id mark car cdr ihCar ihCdr =>
    obtain ⟨⟨headCar, -⟩, -⟩ := ihCar
    obtain ⟨⟨-, tailCdr⟩, second⟩ := ihCdr
    refine ⟨⟨?_, more id mark car cdr headCar tailCdr⟩, fun first same => ?_⟩
    · cases plain : abbreviates mark cdr with
      | false => exact listed id mark car cdr plain headCar tailCdr
      | true =>
        match mark, cdr, plain with
        | some m, .pair i mark' operand last, plain =>
          exact marked id m car i mark' operand last plain (second operand rfl)
    · obtain rfl := Option.some.inj same
      exact headCar
  | _ => exact ⟨⟨atom _ rfl, ended _ rfl⟩, nofun⟩

section Listed

variable {mark : Option Mark} {cdr : Sexp κ φ}

/-- A pair that is printed as a list is nested as one. -/
theorem nesting_listed (plain : abbreviates mark cdr = false) (id : κ) (car : Sexp κ φ) :
    (pair id mark car cdr).nesting = max car.nesting cdr.nestingTail + 1 := by
  cases mark <;> cases cdr <;> simp_all [abbreviates, nesting, nestingTail]

theorem write_listed [Described φ] (plain : abbreviates mark cdr = false) (id : κ)
    (car : Sexp κ φ) (rest : List Char) :
    (pair id mark car cdr).write rest = '(' :: car.write (cdr.writeTail rest) := by
  cases mark <;> cases cdr <;> simp_all [abbreviates, write, writeTail]

theorem pieces_listed [Described φ] (plain : abbreviates mark cdr = false) (id : κ)
    (car : Sexp κ φ) :
    (pair id mark car cdr).pieces = .leftParen :: (car.pieces ++ cdr.piecesTail) := by
  cases mark <;> cases cdr <;> simp_all [abbreviates, pieces, piecesTail]

end Listed

variable [Described φ]

/-- The pieces make up the printed form. -/
theorem written_in_pieces :
    (∀ (e : Sexp κ φ) (rest : List Char), e.write rest = e.pieces.flatMap Piece.chars ++ rest) ∧
      ∀ (e : Sexp κ φ) (rest : List Char),
        e.writeTail rest = e.piecesTail.flatMap Piece.chars ++ rest := by
  refine printed_induction ?marked ?listed ?atom ?more ?ended
  case marked =>
    intro id m car i mark operand last ends ih rest
    simp [write, pieces, ends, ih, Piece.chars]
  case listed =>
    intro id mark car cdr plain ihCar ihCdr rest
    simp [write_listed plain, pieces_listed plain, ihCar, ihCdr, Piece.chars]
  case atom =>
    intro e atom rest
    cases e with
    | pair id mark car cdr => cases atom
    | _ => simp [write, pieces, Piece.chars]
  case more =>
    intro id mark car cdr ihCar ihCdr rest
    simp [writeTail, piecesTail, ihCar, ihCdr, Piece.chars]
  case ended =>
    intro e atom rest
    cases e with
    | pair id mark car cdr => cases atom
    | _ =>
      simp only [writeTail, piecesTail]
      split <;> simp [Piece.chars]

/-- The pieces of an expression leave open what was open, and reach its nesting. -/
theorem peak_append :
    (∀ (e : Sexp κ φ) (opened : List (Option Mark)) (rest : List Piece),
      Piece.peak opened (e.pieces ++ rest) =
        max (opened.length + e.nesting) (Piece.peak (Piece.complete opened) rest)) ∧
      ∀ (e : Sexp κ φ) (opened : List (Option Mark)) (rest : List Piece),
        Piece.peak (none :: opened) (e.piecesTail ++ rest) =
          max (opened.length + 1 + e.nestingTail) (Piece.peak (Piece.complete opened) rest) := by
  refine printed_induction ?marked ?listed ?atom ?more ?ended
  case marked =>
    intro id m car i mark operand last ends ih opened rest
    simp only [nesting, pieces, ends, if_true, List.cons_append, Piece.peak, Piece.step, ih,
      Piece.complete, List.length_cons]
    omega
  case listed =>
    intro id mark car cdr plain ihCar ihCdr opened rest
    simp only [nesting_listed plain, pieces_listed plain, List.cons_append, List.append_assoc,
      Piece.peak, Piece.step, ihCar, ihCdr, Piece.complete, List.length_cons]
    omega
  case atom =>
    intro e atom opened rest
    cases e with
    | pair id mark car cdr => cases atom
    | _ => rfl
  case more =>
    intro id mark car cdr ihCar ihCdr opened rest
    simp only [nestingTail, piecesTail, List.cons_append, List.append_assoc, Piece.peak,
      Piece.step, ihCar, ihCdr, Piece.complete, List.length_cons]
    omega
  case ended =>
    intro e atom opened rest
    cases e with
    | pair id mark car cdr => cases atom
    | _ =>
      simp only [nestingTail, piecesTail]
      split
      · simp only [List.cons_append, List.nil_append, Piece.peak, Piece.step, List.length_cons,
          Nat.add_zero]
      · simp only [List.cons_append, List.nil_append, Piece.peak, Piece.step, Piece.complete,
          List.length_cons]
        omega

theorem text_eq_pieces (e : Sexp κ φ) :
    e.text = String.ofList (e.pieces.flatMap Piece.chars) := by
  rw [text, written_in_pieces.1, List.append_nil]

theorem peak_pieces (e : Sexp κ φ) : Piece.peak [] e.pieces = e.nesting := by
  have whole := peak_append.1 e [] []
  rw [List.append_nil] at whole
  simpa [Piece.complete, Piece.peak] using whole

end Sexp

end Lisp
