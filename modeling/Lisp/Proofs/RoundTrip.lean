import Lisp.Proofs.GrammarReading
import Lisp.Proofs.Spelling
import Lisp.Sexp.Comparison

/-!
# Reading undoes printing

An expression is readable when its symbols have names and its strings have no
control characters but line feeds and tabs. The printed form of a readable
expression is a text of the grammar. What it denotes need not be the expression
itself: a mark is lost where its list ends another list, and the false boolean
becomes the empty list. Both losses are such that equality and the printed form
do not see them.

The printed form of a list ends with the printed form of what follows its first
element. So an expression is followed in two roles, on its own and as the end of
a list that is open.
-/

namespace Lisp

open Text Grammar

namespace Mode

theorem tokensOf_leftParen (p : Place) (cs : List Char) :
    between.tokensOf p ('(' :: cs) =
      (between.tokensOf (p.past '(') cs).precededBy [⟨.leftParen, p.position, p.position⟩] := by
  have opened : between.step p '(' = ([⟨.leftParen, p.position, p.position⟩], between) := by
    have blank : isBlank '(' = false := by decide
    simp [step, begin, blank]
  rw [tokensOf_cons, opened]

theorem tokensOf_rightParen (p : Place) (cs : List Char) :
    between.tokensOf p (')' :: cs) =
      (between.tokensOf (p.past ')') cs).precededBy [⟨.rightParen, p.position, p.position⟩] := by
  have closed : between.step p ')' = ([⟨.rightParen, p.position, p.position⟩], between) := by
    have blank : isBlank ')' = false := by decide
    simp [step, begin, blank]
  rw [tokensOf_cons, closed]

theorem tokensOf_blank (p : Place) (cs : List Char) :
    between.tokensOf p (' ' :: cs) = between.tokensOf (p.past ' ') cs := by
  have skipped : between.step p ' ' = ([], between) := by
    have blank : isBlank ' ' = true := by decide
    simp [step, begin, blank]
  rw [tokensOf_cons, skipped, Tokens.precededBy_nil]

theorem tokensOf_sign (m : Mark) (p : Place) (cs : List Char) :
    ∃ t p', between.tokensOf p (m.sign ++ cs) = (between.tokensOf p' cs).precededBy [t] ∧
      t.lexeme = .mark m := by
  cases m with
  | quote =>
    have read : between.step p '\x27' = ([⟨.mark .quote, p.position, p.position⟩], between) := by
      have blank : isBlank '\x27' = false := by decide
      simp [step, begin, blank]
    exact ⟨_, p.past '\x27', by rw [Mark.sign, List.singleton_append, tokensOf_cons, read], rfl⟩
  | function =>
    have sharp : between.step p '#' = ([], hash p.position) := by
      have blank : isBlank '#' = false := by decide
      simp [step, begin, blank]
    let q := p.past '#'
    have read : (hash p.position).step q '\x27' =
        ([⟨.mark .function, p.position, q.position⟩], between) := by
      simp [step]
    refine ⟨⟨.mark .function, p.position, q.position⟩, q.past '\x27', ?_, rfl⟩
    rw [Mark.sign, List.cons_append, List.singleton_append, tokensOf_cons, sharp,
      Tokens.precededBy_nil, tokensOf_cons, read]

/-- A dot between two blanks. -/
theorem tokensOf_dot (p : Place) (cs : List Char) :
    ∃ t p', between.tokensOf p ('.' :: ' ' :: cs) = (between.tokensOf p' cs).precededBy [t] ∧
      t.lexeme = .symbol "." false := by
  have begun : between.step p '.' = ([], atom p.position ['.'] false) :=
    begin_plain (by decide) (by decide) (by decide) p.position
  let q := p.past '.'
  refine ⟨atomToken p.position q.last ['.'] false, q.past ' ', ?_, rfl⟩
  rw [tokensOf_cons, begun, Tokens.precededBy_nil, tokensOf_atom (endsAtom_blank cs),
    tokensOf_blank]

/-- A run of plain characters that ends is one token. -/
theorem tokensOf_word {c : Char} {cs rest : List Char} (ended : EndsAtom rest)
    (plain : ∀ d ∈ c :: cs, isPlain d = true) (semicolon : c ≠ ';') (sharp : c ≠ '#')
    (p : Place) :
    ∃ t p', between.tokensOf p (c :: cs ++ rest) = (between.tokensOf p' rest).precededBy [t] ∧
      t.lexeme = .ofAtom (c :: cs) false := by
  let q := p.pastAll (c :: cs)
  refine ⟨atomToken p.position q.last (c :: cs).reverse false, q, ?_, ?_⟩
  · rw [tokensOf_append, scan_plain plain semicolon sharp, tokensOf_atom ended]
    rfl
  · rw [atomToken, List.reverse_reverse]

end Mode

namespace Sexp

variable {κ φ : Type}

mutual

/-- How many lists and marks are open at once in the printed form. -/
def nesting : Sexp κ φ → Nat
  | .pair _ mark car cdr =>
    match mark, cdr with
    | some _, .pair _ _ operand last =>
      if last.isNil then operand.nesting + 1
      else max car.nesting (max operand.nesting last.nestingTail) + 1
    | _, cdr => max car.nesting cdr.nestingTail + 1
  | _ => 0

/-- The same for what follows the first element of a list. -/
def nestingTail : Sexp κ φ → Nat
  | .pair _ _ car cdr => max car.nesting cdr.nestingTail
  | _ => 0

end

theorem endsAtom_writeTail [Described φ] (e : Sexp κ φ) (rest : List Char) :
    EndsAtom (e.writeTail rest) := by
  cases e with
  | pair id mark car cdr => exact endsAtom_blank _
  | _ =>
    unfold writeTail
    split
    · exact endsAtom_close _
    · exact endsAtom_blank _

end Sexp

namespace Datum

/-- The expressions that are built from atoms with a readable printed form. -/
inductive Readable : Datum → Prop
  | nil : Readable .nil
  | bool (b : Bool) : Readable (.bool b)
  | integer (n : Int64) : Readable (.integer n)
  | string {s : String} :
      (∀ c ∈ s.toList, c = '\n' ∨ c = '\t' ∨ 0x20 ≤ c.toNat) → Readable (.string s)
  | symbol {name : String} : name ≠ "" → Readable (.symbol name)
  | cons {car cdr : Datum} : Readable car → Readable cdr → Readable (Datum.cons car cdr)
  | marked (m : Mark) {operand : Datum} : Readable operand → Readable (Datum.marked m operand)

theorem Readable.listWithTail {items : List Datum} {tail : Datum}
    (readable : ∀ e ∈ items, Readable e) (ending : Readable tail) :
    Readable (Datum.listWithTail items tail) := by
  induction items with
  | nil => exact ending
  | cons e items ih =>
    have rest := ih fun x hx => readable x (List.mem_cons_of_mem e hx)
    exact (readable e List.mem_cons_self).cons rest

theorem write_cons (car cdr : Datum) (rest : List Char) :
    (cons car cdr).write rest = '(' :: car.write (cdr.writeTail rest) := by
  simp [cons, Sexp.write]

theorem write_marked (m : Mark) (operand : Datum) (rest : List Char) :
    (marked m operand).write rest = m.sign ++ operand.write rest := by
  simp [marked, cons, Sexp.write, Sexp.isNil]

theorem writeTail_cons (car cdr : Datum) (rest : List Char) :
    (cons car cdr).writeTail rest = ' ' :: car.write (cdr.writeTail rest) := by
  simp [cons, Sexp.writeTail]

theorem writeTail_of_isNil {e : Datum} (h : e.isNil = true) (rest : List Char) :
    e.writeTail rest = ')' :: rest := by
  cases e with
  | pair id mark car cdr => simp [Sexp.isNil] at h
  | _ => simp [Sexp.writeTail, h]

theorem writeTail_of_isAtom {e : Datum} (atom : e.isPair = false) (h : e.isNil = false)
    (rest : List Char) : e.writeTail rest = ' ' :: '.' :: ' ' :: e.write (')' :: rest) := by
  cases e with
  | pair id mark car cdr => simp [Sexp.isPair] at atom
  | _ => simp [Sexp.writeTail, Sexp.write, h]

/-- What the printed form of `e` denotes is `d`, which equals `e` and has the
same printed form. -/
structure Rereads (e d : Datum) : Prop where
  read : ∀ (n : Nat) (p : Place) (rest : List Char), n + e.nesting ≤ maxNesting →
    EndsAtom rest → ∃ ts p',
      Mode.between.tokensOf p (e.write rest) =
        (Mode.between.tokensOf p' rest).precededBy ts ∧
      Expression strictDot n ts d ∧ isBareDot ts = false
  equal : d.equal e = true
  write : ∀ rest, d.write rest = e.write rest

/-- The same for `e` as the end of a list that has at least one element before
it. -/
structure RereadsTail (e d : Datum) : Prop where
  read : ∀ (n : Nat) (p : Place) (rest : List Char), n + e.nestingTail ≤ maxNesting →
    ∃ ts es closing p',
      Mode.between.tokensOf p (e.writeTail rest) =
        (Mode.between.tokensOf p' rest).precededBy (ts ++ [closing]) ∧
      closing.lexeme = .rightParen ∧ Elements strictDot n ts es ∧
      ∀ front : List Element, front ≠ [] → (∀ x ∈ front, x.isDot = false) →
        Listed strictDot (front ++ es)
          (Datum.listWithTail (front.map Element.datum) d)
  equal : d.equal e = true
  writeTail : ∀ rest, d.writeTail rest = e.writeTail rest

/-- An atom that is one token. -/
theorem Rereads.ofToken {e d : Datum}
    (read : ∀ p rest, EndsAtom rest → ∃ t p',
      Mode.between.tokensOf p (e.write rest) =
        (Mode.between.tokensOf p' rest).precededBy [t] ∧
      t.lexeme.datum? = some d ∧ t.lexeme.isDot = false)
    (equal : d.equal e = true) (write : ∀ rest, d.write rest = e.write rest) :
    Rereads e d where
  read n p rest _ ended := by
    obtain ⟨t, p', tokens, datum, bare⟩ := read p rest ended
    exact ⟨[t], p', tokens, .atom datum, bare⟩
  equal := equal
  write := write

theorem Rereads.marked (m : Mark) {e d : Datum} (h : Rereads e d) :
    Rereads (Datum.marked m e) (Datum.marked m d) where
  read n p rest depth ended := by
    have deeper : n + 1 + e.nesting ≤ maxNesting := by
      simp [Datum.marked, Datum.cons, Sexp.nesting, Sexp.isNil] at depth
      omega
    obtain ⟨t, q, sign, isMark⟩ := Mode.tokensOf_sign m p (e.write rest)
    obtain ⟨ts, p', operand, expression, -⟩ := h.read (n + 1) q rest deeper ended
    refine ⟨t :: ts, p', ?_, .marked isMark (by omega) expression,
      isBareDot_cons_of_ne_nil t expression.ne_nil⟩
    rw [write_marked, sign, operand]
    simp
  equal := by simp [Datum.marked, Datum.cons, Sexp.equal, Sexp.isNil, h.equal]
  write rest := by rw [write_marked, write_marked, h.write]

theorem Rereads.cons {a a' d d' : Datum} (first : Rereads a a') (later : RereadsTail d d') :
    Rereads (Datum.cons a d) (Datum.cons a' d') where
  read n p rest depth ended := by
    have depths : n + 1 + a.nesting ≤ maxNesting ∧ n + 1 + d.nestingTail ≤ maxNesting := by
      simp [Datum.cons, Sexp.nesting] at depth
      omega
    obtain ⟨ts, q, head, expression, bare⟩ :=
      first.read (n + 1) (p.past '(') (d.writeTail rest) depths.1 (Sexp.endsAtom_writeTail d rest)
    obtain ⟨us, es, closing, p', tail, close, elements, listed⟩ :=
      later.read (n + 1) q rest depths.2
    let opening : Token := ⟨.leftParen, p.position, p.position⟩
    have whole : Listed strictDot (⟨a', isBareDot ts⟩ :: es) (Datum.cons a' d') :=
      listed [⟨a', isBareDot ts⟩] (by simp) (by simp [bare])
    refine ⟨opening :: (ts ++ us ++ [closing]), p', ?_,
      .list rfl (by omega) (.cons expression elements) close whole,
      isBareDot_cons_of_ne_nil opening (by simp)⟩
    rw [write_cons, Mode.tokensOf_leftParen, head, tail]
    simp [opening]
  equal := by simp [Datum.cons, Sexp.equal, first.equal, later.equal]
  write rest := by rw [write_cons, write_cons, first.write, later.writeTail]

theorem RereadsTail.cons {a a' d d' : Datum} (first : Rereads a a')
    (later : RereadsTail d d') : RereadsTail (Datum.cons a d) (Datum.cons a' d') where
  read n p rest depth := by
    have depths : n + a.nesting ≤ maxNesting ∧ n + d.nestingTail ≤ maxNesting := by
      simp [Datum.cons, Sexp.nestingTail] at depth
      omega
    obtain ⟨ts, q, head, expression, bare⟩ :=
      first.read n (p.past ' ') (d.writeTail rest) depths.1 (Sexp.endsAtom_writeTail d rest)
    obtain ⟨us, es, closing, p', tail, close, elements, listed⟩ := later.read n q rest depths.2
    refine ⟨ts ++ us, _, closing, p', ?_, close, .cons expression elements, ?_⟩
    · rw [writeTail_cons, Mode.tokensOf_blank, head, tail]
      simp
    · intro front nonempty bares
      have extended := listed (front ++ [⟨a', isBareDot ts⟩]) (by simp) (by
        intro x hx
        rcases List.mem_append.mp hx with old | new
        · exact bares x old
        · rw [List.mem_singleton.mp new]
          exact bare)
      simpa [Datum.listWithTail] using extended
  equal := by simp [Datum.cons, Sexp.equal, first.equal, later.equal]
  writeTail rest := by rw [writeTail_cons, writeTail_cons, first.write, later.writeTail]

/-- The end of a proper list. -/
theorem RereadsTail.ofIsNil {e : Datum} (h : e.isNil = true) : RereadsTail e .nil where
  read n p rest _ := by
    refine ⟨[], [], ⟨.rightParen, p.position, p.position⟩, p.past ')', ?_, rfl, .nil, ?_⟩
    · rw [writeTail_of_isNil h, Mode.tokensOf_rightParen]
      rfl
    · intro front _ bares
      rw [List.append_nil]
      refine .proper fun before dot last split dotted => ?_
      have bare : dot.isDot = false := bares dot (by simp [split])
      exact absurd dotted.1 (by simp [bare])
  equal := by
    cases e with
    | nil => rfl
    | bool b => simpa [Sexp.equal, Sexp.isNil] using h
    | _ => simp [Sexp.isNil] at h
  writeTail rest := by rw [writeTail_of_isNil h, writeTail_of_isNil rfl]

/-- The end of an improper list, behind a dot. -/
theorem RereadsTail.ofIsAtom {e : Datum} (h : Rereads e e) (atom : e.isPair = false)
    (notNil : e.isNil = false) : RereadsTail e e where
  read n p rest depth := by
    have flat : e.nesting = 0 := by
      cases e with
      | pair id mark car cdr => simp [Sexp.isPair] at atom
      | _ => rfl
    obtain ⟨dot, q, before, isDot⟩ :=
      Mode.tokensOf_dot (p.past ' ') (e.write (')' :: rest))
    obtain ⟨ts, q', last, expression, bare⟩ :=
      h.read n q (')' :: rest) (by omega) (endsAtom_close rest)
    let closing : Token := ⟨.rightParen, q'.position, q'.position⟩
    have symbol : Expression strictDot n [dot] (.symbol ".") := .atom (by rw [isDot]; rfl)
    have single : Elements strictDot n (ts ++ []) [⟨e, isBareDot ts⟩] := .cons expression .nil
    refine ⟨[dot] ++ ts, [⟨.symbol ".", true⟩, ⟨e, false⟩], closing, q'.past ')', ?_, rfl, ?_, ?_⟩
    · rw [writeTail_of_isAtom atom notNil, Mode.tokensOf_blank, before, last,
        Mode.tokensOf_rightParen]
      simp [closing]
    · have elements : Elements strictDot n ([dot] ++ (ts ++ []))
          (⟨.symbol ".", isBareDot [dot]⟩ :: [⟨e, isBareDot ts⟩]) := .cons symbol single
      have bareDot : isBareDot [dot] = true := by simp [isBareDot, isDot, Lexeme.isDot]
      rw [bareDot, bare, List.append_nil] at elements
      exact elements
    · exact fun front nonempty _ => .improper nonempty ⟨rfl, rfl⟩
  equal := h.equal
  writeTail _ := rfl

/-- A mark is not printed where its list ends another one. -/
theorem RereadsTail.marked {m : Mark} {e d : Datum}
    (h : RereadsTail (Datum.cons (.symbol m.head) (Datum.cons e .nil)) d) :
    RereadsTail (Datum.marked m e) d where
  read := h.read
  equal := by
    rw [← h.equal]
    cases d with
    | bool b => cases b <;> rfl
    | _ => rfl
  writeTail := h.writeTail

theorem rereads_word {e d : Datum} {c : Char} {cs : List Char}
    (written : ∀ rest, e.write rest = c :: cs ++ rest)
    (plain : ∀ x ∈ c :: cs, isPlain x = true) (semicolon : c ≠ ';') (sharp : c ≠ '#')
    (datum : (Lexeme.ofAtom (c :: cs) false).datum? = some d)
    (bare : (Lexeme.ofAtom (c :: cs) false).isDot = false)
    (equal : d.equal e = true) (write : ∀ rest, d.write rest = e.write rest) :
    Rereads e d := by
  refine .ofToken (fun p rest ended => ?_) equal write
  obtain ⟨t, p', tokens, lexeme⟩ := Mode.tokensOf_word ended plain semicolon sharp p
  rw [written]
  exact ⟨t, p', tokens, by rw [lexeme]; exact datum, by rw [lexeme]; exact bare⟩

theorem rereads_symbol {name : String} (nonempty : name ≠ "") :
    Rereads (.symbol name) (.symbol name) := by
  refine .ofToken (fun p rest ended => ?_) (by simp [Sexp.equal]) fun _ => rfl
  have characters : name.toList ≠ [] := by
    intro empty
    exact nonempty (by simpa using empty)
  obtain ⟨t, p', tokens, datum, bare⟩ := Mode.tokensOf_spelling ended characters p
  rw [String.ofList_toList] at datum
  exact ⟨t, p', by simpa [Sexp.write, Sexp.writeAtom] using tokens, datum, bare⟩

theorem rereads_string {s : String}
    (legible : ∀ c ∈ s.toList, c = '\n' ∨ c = '\t' ∨ 0x20 ≤ c.toNat) :
    Rereads (.string s) (.string s) := by
  refine .ofToken (fun p rest _ => ?_) (by simp [Sexp.equal]) fun _ => rfl
  obtain ⟨t, p', tokens, lexeme⟩ := Mode.tokensOf_literal legible p rest
  rw [String.ofList_toList] at lexeme
  exact ⟨t, p', by simpa [Sexp.write, Sexp.writeAtom] using tokens, by rw [lexeme]; rfl,
    by rw [lexeme]; rfl⟩

theorem rereads_integer (n : Int64) : Rereads (.integer n) (.integer n) := by
  obtain ⟨c, cs, written, plain, semicolon, sharp⟩ := Sexp.writeInteger_plain n
  have lexeme := Lexeme.ofAtom_writeInteger n
  rw [written] at lexeme
  refine rereads_word (fun rest => ?_) plain semicolon sharp (by rw [lexeme]; rfl)
    (by rw [lexeme]; rfl) (by simp [Sexp.equal]) fun _ => rfl
  rw [← written]
  rfl

/-- What prints as the empty list is read as the empty list. -/
theorem rereads_isNil {e : Datum} (h : e.isNil = true) : Rereads e .nil := by
  have written : ∀ rest, e.write rest = ['n', 'i', 'l'] ++ rest := by
    intro rest
    cases e with
    | nil => rfl
    | bool b =>
      obtain rfl : b = false := by simpa [Sexp.isNil] using h
      rfl
    | _ => simp [Sexp.isNil] at h
  refine rereads_word written (List.all_eq_true.mp rfl) (by decide) (by decide) rfl rfl
    (RereadsTail.ofIsNil h).equal fun rest => ?_
  rw [written]
  rfl

theorem rereads_true : Rereads (.bool true) (.bool true) :=
  rereads_word (fun _ => rfl) (List.all_eq_true.mp rfl) (by decide) (by decide) rfl rfl rfl
    fun _ => rfl

/-- A readable expression is reread in both roles. -/
theorem Readable.rereads {e : Datum} (h : Readable e) :
    (∃ d, Rereads e d) ∧ ∃ d, RereadsTail e d := by
  have atom : ∀ {e : Datum}, Rereads e e → e.isPair = false → e.isNil = false →
      (∃ d, Rereads e d) ∧ ∃ d, RereadsTail e d :=
    fun own isAtom notNil => ⟨⟨_, own⟩, _, .ofIsAtom own isAtom notNil⟩
  induction h with
  | nil => exact ⟨⟨_, rereads_isNil rfl⟩, _, .ofIsNil rfl⟩
  | bool b =>
    cases b with
    | false => exact ⟨⟨_, rereads_isNil rfl⟩, _, .ofIsNil rfl⟩
    | true => exact atom rereads_true rfl rfl
  | integer n => exact atom (rereads_integer n) rfl rfl
  | string legible => exact atom (rereads_string legible) rfl rfl
  | symbol nonempty => exact atom (rereads_symbol nonempty) rfl rfl
  | cons _ _ first later =>
    obtain ⟨⟨a, head⟩, -⟩ := first
    obtain ⟨-, d, tail⟩ := later
    exact ⟨⟨_, head.cons tail⟩, _, .cons head tail⟩
  | @marked m _ _ operand =>
    obtain ⟨⟨d, own⟩, -⟩ := operand
    have name : Rereads (.symbol m.head) (.symbol m.head) :=
      rereads_symbol (by cases m <;> decide)
    exact ⟨⟨_, own.marked m⟩, _, .marked (.cons name (.cons own (.ofIsNil rfl)))⟩

/-- The printed form of a readable expression, if it does not nest too deeply, is
read as an expression that equals it and has the same printed form. -/
theorem Readable.text_rereads {e : Datum} (h : Readable e) (depth : e.nesting ≤ maxNesting) :
    ∃ d, Datum.ofText? e.text = .ok d ∧ d.equal e = true ∧ d.text = e.text := by
  obtain ⟨⟨d, rereads⟩, -⟩ := h.rereads
  obtain ⟨ts, p', tokens, expression, -⟩ :=
    rereads.read 0 Place.start [] (by omega) endsAtom_nil
  have scanned : Tokens.ofText e.text = ⟨ts, none⟩ := by
    rw [Tokens.ofText_eq_tokensOf, Sexp.text, String.toList_ofList, tokens, Mode.tokensOf_nil]
    simp [Mode.finish, Tokens.precededBy]
  obtain ⟨t, us, last, d', -, read, -, -, same⟩ :=
    expression.read flagged_strict [] Reader.start.last #[] rfl
  obtain rfl := same.mpr (Reader.clear_strict _ _)
  have finished : Reader.start.feedAll ts = ⟨[], last, #[⟨d', t.first⟩], none⟩ := read
  refine ⟨d', ?_, rereads.equal, ?_⟩
  · simp [Datum.ofText?, Reading.ofText, scanned, Reading.ofTokens, finished, Reading.single]
  · rw [Sexp.text, Sexp.text, rereads.write]

/-- A list that ends in a marked expression, with a name that looks like a number
and one with a closed and an open run. -/
theorem Readable.text_rereads_marked_tail :
    let e := Datum.listWithTail [.symbol "1e5", .string "a\n", .bool false]
      (Datum.marked .quote (.symbol "|a b|c|"))
    Readable e ∧ e.nesting ≤ maxNesting ∧
      ∃ d, Datum.ofText? e.text = .ok d ∧ d.equal e = true ∧ d.text = e.text := by
  intro e
  have items : ∀ x ∈ [Sexp.symbol "1e5", .string "a\n", .bool false], Readable x := by
    intro x hx
    simp only [List.mem_cons, List.not_mem_nil, or_false] at hx
    rcases hx with rfl | rfl | rfl
    · exact .symbol (by decide)
    · exact .string (by simp)
    · exact .bool false
  have readable : Readable e :=
    Readable.listWithTail items (.marked .quote (.symbol (by decide)))
  have depth : e.nesting ≤ maxNesting := by decide
  exact ⟨readable, depth, Readable.text_rereads readable depth⟩

end Datum

end Lisp
