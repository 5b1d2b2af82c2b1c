import Lisp.Proofs.PrintedNesting
import Lisp.Proofs.Tiling

/-!
# The shape of what is read

What is read is built from atoms, from plain pairs and from marked operands. A symbol has a
name because no atom is complete without a character, and a false boolean is never read. A
marked operand is one more level of nesting when it is printed, as the mark was one more
open frame when it was read; where it ends a list it is printed without the mark.

So every element of an open list fits below the frames around it, and a form below none.
-/

namespace Lisp

open Text

/-! ### Scanning -/

/-- Whether a lexeme is not a symbol without a name. -/
def Lexeme.IsNamed : Lexeme → Prop
  | .symbol name _ => name ≠ ""
  | _ => True

theorem Lexeme.isNamed_ofAtom {cs : List Char} (some_ : cs ≠ []) (escaped : Bool) :
    (ofAtom cs escaped).IsNamed := by
  have text := text_ofAtom cs escaped
  cases atom : ofAtom cs escaped with
  | symbol name escaped' =>
    rw [atom] at text
    obtain rfl : name = String.ofList cs := text
    simpa [IsNamed] using some_
  | _ => trivial

namespace Mode

/-- Whether the atom that a scan is in the middle of has a character, unless the next one is
added in any case. -/
def HasText : Mode → Prop
  | atom _ text _ => text ≠ []
  | run _ text => text ≠ []
  | runEscape _ text => text ≠ []
  | _ => True

theorem isNamed_atomToken {text : List Char} (some_ : text ≠ []) (first last : Position)
    (escaped : Bool) : (atomToken first last text escaped).lexeme.IsNamed :=
  Lexeme.isNamed_ofAtom (by simpa using some_) escaped

/-- What a step leads to: tokens with names, and an atom with a character. -/
def Named (next : List Token × Mode) : Prop :=
  (∀ t ∈ next.1, t.lexeme.IsNamed) ∧ next.2.HasText

theorem named_quiet {mode : Mode} (h : mode.HasText) : Named ([], mode) := ⟨nofun, h⟩

theorem named_single {t : Token} {mode : Mode} (named : t.lexeme.IsNamed) (h : mode.HasText) :
    Named ([t], mode) := ⟨by simpa using named, h⟩

theorem named_begin (here : Position) (c : Char) : Named (begin here c) := by
  unfold begin
  repeat' split
  all_goals first
    | exact named_single trivial trivial
    | exact named_quiet trivial
    | exact named_quiet (List.cons_ne_nil _ _)

theorem named_continueAtom {text : List Char} (some_ : text ≠ []) (p : Place) (first : Position)
    (escaped : Bool) (c : Char) : Named (continueAtom p first text escaped c) := by
  unfold continueAtom
  split
  · obtain ⟨others, next⟩ := named_begin p.position c
    exact ⟨List.forall_mem_cons.mpr ⟨isNamed_atomToken some_ _ _ _, others⟩, next⟩
  repeat' split
  all_goals first
    | exact named_quiet trivial
    | exact named_quiet (List.cons_ne_nil _ _)

theorem named_step {mode : Mode} (h : mode.HasText) (p : Place) (c : Char) :
    Named (mode.step p c) := by
  cases mode with
  | between => exact named_begin p.position c
  | hash first =>
    simp only [step]
    split
    · exact named_single trivial trivial
    · exact named_continueAtom (List.cons_ne_nil _ _) p first _ c
  | atom first text escaped => exact named_continueAtom h p first escaped c
  | _ =>
    simp only [step]
    repeat' split
    all_goals first
      | exact named_single trivial trivial
      | exact named_quiet trivial
      | exact named_quiet (List.cons_ne_nil _ _)

theorem named_scan {mode : Mode} (h : mode.HasText) (p : Place) (cs : List Char) :
    Named (mode.scan p cs) := by
  induction cs generalizing mode p with
  | nil => exact named_quiet h
  | cons c cs ih =>
    obtain ⟨first, next⟩ := named_step h p c
    obtain ⟨others, last⟩ := ih next (p.past c)
    exact ⟨List.forall_mem_append.mpr ⟨first, others⟩, last⟩

theorem named_finish {mode : Mode} (h : mode.HasText) (p : Place) :
    ∀ t ∈ (mode.finish p).1, t.lexeme.IsNamed := by
  have single : ∀ {t : Token}, t.lexeme.IsNamed → ∀ u ∈ [t], u.lexeme.IsNamed := by simp
  cases mode with
  | hash first => exact single (isNamed_atomToken (List.cons_ne_nil _ _) _ _ _)
  | atom first text escaped => exact single (isNamed_atomToken h _ _ _)
  | comment first text => exact single trivial
  | _ => exact nofun

end Mode

/-- No token of a text is a symbol without a name. -/
theorem Tokens.isNamed_ofText (text : String) : ∀ t ∈ (ofText text).tokens, t.lexeme.IsNamed := by
  have start : Mode.between.HasText := trivial
  obtain ⟨tokens, last⟩ := Mode.named_scan start Place.start text.toList
  rw [ofText_eq_tokensOf, Mode.tokensOf_eq]
  exact List.forall_mem_append.mpr ⟨tokens, Mode.named_finish last _⟩

/-! ### Pieces and frames -/

/-- The piece of a text that a lexeme is for a reader. -/
def Lexeme.piece : Lexeme → Piece
  | .leftParen => .leftParen
  | .rightParen => .rightParen
  | .mark m => .sign m
  | .comment _ => .gap
  | l => .atom l.text.toList

namespace Frame

/-- What opened a frame. -/
def opener : Frame → Option Mark
  | .list _ _ => none
  | .mark _ m => some m

theorem opener_deliver (d : Datum) (position : Position) (isDot : Bool) (stack : List Frame) :
    (deliver d position isDot stack).1.map opener = Piece.complete (stack.map opener) := by
  induction stack generalizing d position isDot with
  | nil => rfl
  | cons frame rest ih =>
    cases frame with
    | list opened elements => rfl
    | mark opened m => exact ih _ opened false

/-- The frames that a reader has open are what the pieces of the text leave open. -/
theorem opener_step {stack : List Frame} {t : Token} {next : List Frame × Option Form}
    (ok : step stack t = .ok next) :
    next.1.map opener = t.lexeme.piece.step (stack.map opener) := by
  rcases step_cases ok with ⟨d, datum, rfl⟩ | ⟨comment, rfl⟩ | ⟨paren, -, rfl⟩ |
    ⟨m, mark, -, rfl⟩ | ⟨paren, opened, elements, rest, d, rfl, -, rfl⟩
  · rw [opener_deliver]
    cases atom : t.lexeme with
    | integer _ _ | float _ _ | string _ | symbol _ _ => rfl
    | _ => simp [atom, Lexeme.datum?] at datum
  · cases skipped : t.lexeme with
    | comment text => rfl
    | _ => simp [skipped, Lexeme.isComment] at comment
  · rw [paren]
    rfl
  · rw [mark]
    rfl
  · rw [paren]
    exact opener_deliver d opened false rest

end Frame

/-! ### Reading -/

namespace Datum

/-- The expressions that can be read. -/
inductive Formed : Datum → Prop
  | nil : Formed .nil
  | true : Formed (.bool true)
  | integer (n : Int64) : Formed (.integer n)
  | float (x : Float) : Formed (.float x)
  | string (s : String) : Formed (.string s)
  | symbol {name : String} : name ≠ "" → Formed (.symbol name)
  | cons {car cdr : Datum} : Formed car → Formed cdr → Formed (Datum.cons car cdr)
  | marked (m : Mark) {operand : Datum} : Formed operand → Formed (Datum.marked m operand)

theorem nesting_cons (car cdr : Datum) :
    (cons car cdr).nesting = max car.nesting cdr.nestingTail + 1 := by
  simp [cons, Sexp.nesting]

theorem nestingTail_cons (car cdr : Datum) :
    (cons car cdr).nestingTail = max car.nesting cdr.nestingTail := by
  simp [cons, Sexp.nestingTail]

theorem nesting_marked (m : Mark) (operand : Datum) :
    (marked m operand).nesting = operand.nesting + 1 := by
  simp [marked, cons, Sexp.nesting, Sexp.isNil]

/-- As the end of a list, an expression is nested no more than on its own. -/
theorem Formed.nestingTail_le {d : Datum} (formed : d.Formed) : d.nestingTail ≤ d.nesting := by
  cases formed with
  | cons _ _ =>
    rw [nesting_cons, nestingTail_cons]
    exact Nat.le_succ _
  | marked m _ =>
    rw [nesting_marked]
    simp [Datum.marked, Datum.cons, Sexp.nestingTail, Sexp.nesting]
  | _ => exact le_rfl

/-- Whether an expression may stand below so many open frames. -/
structure Fits (d : Datum) (depth : Nat) : Prop where
  formed : d.Formed
  shallow : d.nesting + depth ≤ maxNesting

end Datum

theorem Lexeme.IsNamed.formed {l : Lexeme} {d : Datum} (named : l.IsNamed)
    (datum : l.datum? = some d) : d.Formed ∧ d.nesting = 0 := by
  cases l with
  | symbol name escaped =>
    simp only [datum?] at datum
    repeat' split at datum
    all_goals cases datum
    · exact ⟨.symbol named, rfl⟩
    · exact ⟨.nil, rfl⟩
    · exact ⟨.true, rfl⟩
    · exact ⟨.symbol named, rfl⟩
  | integer text n =>
    cases datum
    exact ⟨.integer n, rfl⟩
  | float text x =>
    cases datum
    exact ⟨.float x, rfl⟩
  | string s =>
    cases datum
    exact ⟨.string s, rfl⟩
  | _ => cases datum

namespace Frame

open Datum

/-- Whether all elements of open lists fit below the frames that they stand in. -/
def ElementsFit : List Frame → Prop
  | [] => True
  | .list _ elements :: rest =>
    (∀ e ∈ elements, e.datum.Fits (rest.length + 1)) ∧ ElementsFit rest
  | .mark _ _ :: rest => ElementsFit rest

/-- Whether open frames are no more than may be open, and what is in them fits. -/
structure Bounded (stack : List Frame) : Prop where
  depth : stack.length ≤ maxNesting
  elements : ElementsFit stack

/-- Frames that are open, and a form that fits below none. -/
def Reached (next : List Frame × Option Form) : Prop :=
  Bounded next.1 ∧ ∀ form, next.2 = some form → form.datum.Fits 0

theorem Bounded.rest {frame : Frame} {rest : List Frame} (h : Bounded (frame :: rest)) :
    Bounded rest := by
  refine ⟨Nat.le_of_succ_le h.depth, ?_⟩
  cases frame with
  | list opened elements => exact h.elements.2
  | mark opened m => exact h.elements

theorem reached_deliver {d : Datum} {stack : List Frame} (bounded : Bounded stack)
    (fits : d.Fits stack.length) (position : Position) (isDot : Bool) :
    Reached (deliver d position isDot stack) := by
  induction stack generalizing d position isDot with
  | nil => exact ⟨bounded, fun form same => Option.some.inj same ▸ fits⟩
  | cons frame rest ih =>
    cases frame with
    | list opened elements =>
      obtain ⟨known, others⟩ := bounded.elements
      exact ⟨⟨bounded.depth, List.forall_mem_cons.mpr ⟨fits, known⟩, others⟩, nofun⟩
    | mark opened m =>
      -- A mark trades the frame that it was for a level of nesting.
      have outside : (marked m d).Fits rest.length := by
        refine ⟨.marked m fits.formed, ?_⟩
        rw [nesting_marked, Nat.succ_add_eq_add_succ]
        exact fits.shallow
      exact ih bounded.rest outside opened false

/-- Elements that fit below a list make a list that fits below what is around it. -/
theorem fits_build {elements : List Element} {tail : Datum} {depth : Nat}
    (known : ∀ e ∈ elements, e.datum.Fits (depth + 1)) (formed : tail.Formed)
    (own : tail.nesting + depth ≤ maxNesting)
    (asTail : tail.nestingTail + (depth + 1) ≤ maxNesting) :
    (build elements tail).Fits depth := by
  induction elements generalizing tail with
  | nil => exact ⟨formed, own⟩
  | cons e elements ih =>
    obtain ⟨first, others⟩ := List.forall_mem_cons.mp known
    have shallow := first.shallow
    refine ih others (.cons first.formed formed) ?_ ?_
    · rw [nesting_cons]
      omega
    · rw [nestingTail_cons]
      omega

theorem fits_close {elements : List Element} {closing : Position} {d : Datum} {depth : Nat}
    (room : depth + 1 ≤ maxNesting) (known : ∀ e ∈ elements, e.datum.Fits (depth + 1))
    (closed : close elements closing = .ok d) : d.Fits depth := by
  have proper : (build elements .nil).Fits depth := by
    refine fits_build known .nil ?_ ?_ <;> simp [Sexp.nesting, Sexp.nestingTail] <;> omega
  unfold close at closed
  split at closed
  · rename_i last dot front
    split at closed
    · split at closed
      · cases closed
      · cases closed
        obtain ⟨ending, -, others⟩ : last.datum.Fits (depth + 1) ∧ dot.datum.Fits (depth + 1) ∧
            ∀ e ∈ front, e.datum.Fits (depth + 1) := by simpa using known
        have shallow := ending.shallow
        have merged := ending.formed.nestingTail_le
        exact fits_build others ending.formed (by omega) (by omega)
    · cases closed
      exact proper
  · cases closed
    exact proper

/-- One token leads to frames that are bounded again. -/
theorem Bounded.step {stack : List Frame} (bounded : Bounded stack) {t : Token}
    (named : t.lexeme.IsNamed) {next : List Frame × Option Form}
    (ok : Frame.step stack t = .ok next) : Reached next := by
  rcases step_cases ok with ⟨d, datum, rfl⟩ | ⟨-, rfl⟩ | ⟨-, room, rfl⟩ | ⟨m, -, room, rfl⟩ |
    ⟨-, opened, elements, rest, d, rfl, closed, rfl⟩
  · obtain ⟨formed, flat⟩ := named.formed datum
    exact reached_deliver bounded ⟨formed, by rw [flat, Nat.zero_add]; exact bounded.depth⟩ _ _
  · exact ⟨bounded, nofun⟩
  · exact ⟨⟨room, nofun, bounded.elements⟩, nofun⟩
  · exact ⟨⟨room, bounded.elements⟩, nofun⟩
  · have fits := fits_close bounded.depth bounded.elements.1 closed
    exact reached_deliver bounded.rest fits opened false

end Frame

namespace Reader

/-- Whether what is open is bounded, and the forms fit below no frame. -/
structure Bounded (r : Reader) : Prop where
  stack : Frame.Bounded r.stack
  forms : ∀ form ∈ r.forms, form.datum.Fits 0

theorem Bounded.feed {r : Reader} (bounded : r.Bounded) {t : Token} (named : t.lexeme.IsNamed) :
    (r.feed t).Bounded := by
  cases failed : r.error? with
  | some e => rwa [feed_of_error failed]
  | none =>
    cases ok : Frame.step r.stack t with
    | error e =>
      rw [feed_of_step_error failed ok]
      exact ⟨bounded.stack, bounded.forms⟩
    | ok next =>
      obtain ⟨stack, completed⟩ := bounded.stack.step named ok
      rw [feed_of_step_ok failed ok]
      refine ⟨stack, fun form mem => ?_⟩
      rw [← Array.mem_toList_iff, Array.toList_appendList, List.mem_append] at mem
      rcases mem with old | new
      · exact bounded.forms form (Array.mem_toList_iff.mp old)
      · exact completed form (Option.mem_toList.mp new)

theorem Bounded.feedAll {r : Reader} (bounded : r.Bounded) {ts : List Token}
    (named : ∀ t ∈ ts, t.lexeme.IsNamed) : (r.feedAll ts).Bounded := by
  induction ts generalizing r with
  | nil => exact bounded
  | cons t ts ih =>
    obtain ⟨first, others⟩ := List.forall_mem_cons.mp named
    exact ih (bounded.feed first) others

theorem bounded_start : start.Bounded := ⟨⟨Nat.zero_le _, trivial⟩, by simp [start]⟩

end Reader

theorem Reading.fits_of_mem {text : String} {form : Form} (read : form ∈ (ofText text).forms) :
    form.datum.Fits 0 := by
  have bounded := Reader.bounded_start.feedAll (Tokens.isNamed_ofText text)
  exact bounded.forms form (Array.mem_toList_iff.mp read)

/-! ### Shapes -/

/-- An expression is another one or a part of it. -/
inductive Sexp.OccursIn {κ φ : Type} (x : Sexp κ φ) : Sexp κ φ → Prop where
  | self : x.OccursIn x
  | car {id mark car cdr} : x.OccursIn car → x.OccursIn (.pair id mark car cdr)
  | cdr {id mark car cdr} : x.OccursIn cdr → x.OccursIn (.pair id mark car cdr)

namespace Datum.Formed

variable {x d : Datum}

theorem head (m : Mark) : Formed (.symbol m.head) := .symbol (by cases m <;> decide)

/-- The parts of what can be read could have been read on their own. -/
theorem of_occursIn (formed : d.Formed) (occurs : x.OccursIn d) : x.Formed := by
  induction formed with
  | cons first second ihFirst ihSecond =>
    cases occurs with
    | self => exact first.cons second
    | car inside => exact ihFirst inside
    | cdr inside => exact ihSecond inside
  | marked m operand ih =>
    cases occurs with
    | self => exact operand.marked m
    | car inside =>
      cases inside
      exact head m
    | cdr inside =>
      cases inside with
      | self => exact operand.cons .nil
      | car inside => exact ih inside
      | cdr inside =>
        cases inside
        exact .nil
  | nil => cases occurs; exact .nil
  | true => cases occurs; exact .true
  | integer n => cases occurs; exact .integer n
  | float y => cases occurs; exact .float y
  | string s => cases occurs; exact .string s
  | symbol named => cases occurs; exact .symbol named

end Datum.Formed

/-- In a form that was read every symbol has a name, the false boolean does not occur, and a
pair with a mark is the list of the symbol of the mark and of one operand. The pieces of its
printed form open no more parentheses and marks at once than a reader may have open. -/
theorem Reading.form_shape {text : String} {form : Form} (read : form ∈ (ofText text).forms) :
    (∀ name, Sexp.OccursIn (.symbol name) form.datum → name ≠ "") ∧
      ¬ Sexp.OccursIn (.bool false) form.datum ∧
      (∀ id m car cdr, Sexp.OccursIn (.pair id (some m) car cdr) form.datum →
        car = .symbol m.head ∧ ∃ operand, cdr = Datum.cons operand .nil) ∧
      form.datum.text = String.ofList (form.datum.pieces.flatMap Piece.chars) ∧
      Piece.peak [] form.datum.pieces ≤ maxNesting := by
  obtain ⟨formed, shallow⟩ := fits_of_mem read
  refine ⟨fun name occurs => ?_, fun occurs => ?_, fun id m car cdr occurs => ?_,
    Sexp.text_eq_pieces form.datum, ?_⟩
  · cases formed.of_occursIn occurs with
    | symbol named => exact named
  · cases formed.of_occursIn occurs
  · cases formed.of_occursIn occurs with
    | marked m operand => exact ⟨rfl, _, rfl⟩
  · rw [Sexp.peak_pieces]
    exact shallow

/-- A mark at the end of a list is read as two more elements of the list, and both are
printed. -/
theorem Reading.form_shape_marked_tail :
    ∃ form ∈ (ofText "'(a . 'b) )").forms, form.datum.text = "'(a quote b)" ∧
      Piece.peak [] form.datum.pieces = 2 ∧ Piece.peak [] form.datum.pieces ≤ maxNesting ∧
      ¬ Sexp.OccursIn (.bool false) form.datum := by
  have printed : (ofText "'(a . 'b) )").forms.map
      (fun form => (form.datum.text, Piece.peak [] form.datum.pieces)) =
        [("'(a quote b)", 2)] := by decide +kernel
  obtain ⟨form, only, same⟩ := List.map_eq_singleton_iff.mp printed
  obtain ⟨text, peak⟩ := Prod.mk.inj same
  have mem : form ∈ (ofText "'(a . 'b) )").forms := by rw [only]; exact List.mem_singleton_self form
  obtain ⟨-, noFalse, -, -, limit⟩ := form_shape mem
  exact ⟨form, mem, text, peak, limit, noFalse⟩

end Lisp
