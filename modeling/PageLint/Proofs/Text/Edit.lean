/-
# PageLint.Proofs.Text.Edit — one stretch of a text replaced by another

An `Edit` is a text with a stretch cut out of it and what is put there instead. What stands
before the stretch stays where it is, and what stands behind it moves along: `Edit.move` says
where a place of the old text lies in the new one (`move_before`, `move_after`). A stretch that
a finding covers is cut out by `Source.splice`, which is how its fix is put in place
(`splice_span`).
-/
import PageLint.Proofs.Text.Extent
import PageLint.Proofs.Text.Tiling

namespace PageLint

set_option autoImplicit false

open Text

namespace Position

/-! ## A place reached from elsewhere -/

/-- A place that lies behind `f`, as it lies when `f` has moved to `n`. -/
def rebase (p f n : Position) : Position where
  offset := p.offset + n.offset - f.offset
  line := p.line + n.line - f.line
  column := if p.line = f.line then p.column + n.column - f.column else p.column

theorem precedes_or_eq_after (p : Position) (cs : List Char) :
    p.Precedes (p.after cs) ∨ p = p.after cs := by
  by_cases none_ : cs = []
  · exact .inr (by rw [none_, after_nil])
  · exact .inl (p.precedes_after none_)

/-- **The way is the same wherever it begins.** -/
theorem rebase_after (f n : Position) (cs : List Char) :
    (f.after cs).rebase f n = n.after cs := by
  induction cs using List.reverseRecOn with
  | nil => simp [rebase]
  | append_singleton cs c ih =>
      rw [after_append, after_append, ← ih]
      have order := f.precedes_or_eq_after cs
      have further : f.offset ≤ (f.after cs).offset := by simp
      generalize f.after cs = q at order further
      have line : f.line ≤ q.line ∧ (q.line = f.line → f.column ≤ q.column) := by
        rcases order with ahead | rfl
        · unfold Precedes at ahead
          omega
        · exact ⟨le_rfl, fun _ => le_rfl⟩
      simp only [after_cons, after_nil, next, rebase]
      split
      · simp only [mk.injEq]
        refine ⟨by omega, by omega, ?_⟩
        rw [if_neg (by omega)]
      · simp only [mk.injEq]
        refine ⟨by omega, trivial, ?_⟩
        split <;> omega

end Position

/-- Quotes of either sort take the same space. -/
theorem Position.after_quoted {q q' : Char} (quote : isQuote q) (quote' : isQuote q') (p : Position)
    (v : List Char) : p.after (q :: (v ++ [q])) = p.after (q' :: (v ++ [q'])) := by
  have step : ∀ q : Char, isQuote q → ∀ p : Position, p.next q = p.next '"' := by
    intro q quote p
    rcases isQuote_iff.mp quote with rfl | rfl <;> rfl
  simp only [Position.after_cons, Position.after_append, Position.after_nil, step q quote,
    step q' quote']

/-! ## Pieces in their places -/

section Pieces

variable {κ : Type}

/-- A token without its place. -/
def Token.lexeme (t : Token κ) : Lexeme κ := ⟨t.kind, t.text⟩

/-- What is located are the pieces. -/
theorem map_lexeme_locate (p : Position) (pieces : List (Lexeme κ)) :
    (locate p pieces).map Token.lexeme = pieces := by
  induction pieces generalizing p with
  | nil => rfl
  | cons piece pieces ih =>
      rw [locate, List.map_cons, ih]
      rfl

theorem textOf_append (ts us : List (Token κ)) : textOf (ts ++ us) = textOf ts ++ textOf us := by
  rw [textOf, List.map_append, List.flatten_append]
  rfl

theorem textOf_cons (t : Token κ) (ts : List (Token κ)) : textOf (t :: ts) = t.text ++ textOf ts := rfl

theorem texts_lexemes (ts : List (Token κ)) :
    ((ts.map Token.lexeme).map Lexeme.text).flatten = textOf ts := by
  rw [List.map_map]
  rfl

/-- Tokens in two parts are their pieces in two parts, each in its place. -/
theorem locate_split {p : Position} {pieces : List (Lexeme κ)} {front back : List (Token κ)}
    (split : locate p pieces = front ++ back) :
    pieces = front.map Token.lexeme ++ back.map Token.lexeme ∧
      locate p (front.map Token.lexeme) = front ∧
      locate (p.after (textOf front)) (back.map Token.lexeme) = back := by
  have whole : pieces = front.map Token.lexeme ++ back.map Token.lexeme := by
    rw [← List.map_append, ← split, map_lexeme_locate]
  have parted : locate p (front.map Token.lexeme) ++
      locate (p.after (textOf front)) (back.map Token.lexeme) = front ++ back := by
    rw [← split, whole, locate_append, List.flatMap_def, texts_lexemes]
  refine ⟨whole, List.append_inj parted ?_⟩
  have count := congrArg List.length (map_lexeme_locate p (front.map Token.lexeme))
  simpa using count

/-- With another text of the same width for one of them, tokens stay in their places. -/
theorem locate_reworded {p : Position} {pieces : List (Lexeme κ)} {lead back : List (Token κ)}
    {t : Token κ} {w : List Char} (split : locate p pieces = lead ++ t :: back)
    (wide : ∀ p : Position, p.after w = p.after t.text) :
    locate p (lead.map Token.lexeme ++ ⟨t.kind, w⟩ :: back.map Token.lexeme) =
      lead ++ { t with text := w } :: back := by
  obtain ⟨-, before, later⟩ := locate_split split
  rw [List.map_cons, locate, List.cons.injEq] at later
  obtain ⟨own, behind⟩ := later
  rw [locate_append, before, List.flatMap_def, texts_lexemes, locate, Span.covering, wide]
  rw [show t.lexeme.text = t.text from rfl] at behind
  rw [behind, ← own]
  rfl

end Pieces

/-! ## Edits -/

/-- A text in which `put` takes the place of `cut`, which is not empty. -/
structure Edit where
  before : List Char
  cut : List Char
  put : List Char
  after : List Char
  some_ : cut ≠ []

namespace Edit

/-- The text as it was. -/
def old (e : Edit) : List Char := e.before ++ (e.cut ++ e.after)

/-- The text as it is to be. -/
def new (e : Edit) : List Char := e.before ++ (e.put ++ e.after)

/-- Where the edit begins. -/
def start (e : Edit) : Position := Position.start.after e.before

/-- The stretch that is cut out. -/
def span (e : Edit) : Span := .covering e.start e.cut

/-- Where the text that is put in ends. -/
def finish (e : Edit) : Position := e.start.after e.put

/-- Where a place of the old text lies in the new one. -/
def move (e : Edit) (p : Position) : Position :=
  if p.offset < e.span.finish.offset then p else p.rebase e.span.finish e.finish

/-- Where a stretch of the old text lies in the new one. -/
def moveSpan (e : Edit) (s : Span) : Span := ⟨e.move s.start, e.move s.finish⟩

variable {e : Edit}

theorem offset_lt_finish (e : Edit) : e.start.offset < e.span.finish.offset := by
  have some_ := bytes_pos e.some_
  simp only [span, Span.covering_finish, Position.offset_after]
  omega

/-- **What stands before the edit stays where it is.** -/
theorem move_before {passed : List Char} (stands : passed <+: e.before) :
    e.move (Position.start.after passed) = Position.start.after passed := by
  obtain ⟨more, whole⟩ := stands
  have ahead := e.offset_lt_finish
  rw [start, ← whole, Position.after_append, Position.offset_after] at ahead
  rw [move, if_pos (by omega)]

@[simp] theorem move_start (e : Edit) : e.move e.start = e.start :=
  move_before (List.prefix_refl _)

/-- **What stands behind the edit moves along with its end.** -/
theorem move_after (e : Edit) (passed : List Char) :
    e.move (e.span.finish.after passed) = e.finish.after passed := by
  rw [move, if_neg (by simp), Position.rebase_after]

@[simp] theorem move_finish (e : Edit) : e.move e.span.finish = e.finish := e.move_after []

/-- The edit takes its own stretch to what is put there. -/
theorem moveSpan_span (e : Edit) : e.moveSpan e.span = .covering e.start e.put := by
  rw [moveSpan, move_finish]
  exact congrArg (Span.mk · e.finish) e.move_start

/-- A stretch of the text before the edit. -/
theorem moveSpan_before {passed part : List Char} (stands : passed ++ part <+: e.before) :
    e.moveSpan (.covering (Position.start.after passed) part) =
      .covering (Position.start.after passed) part := by
  have first := move_before (e := e) ((List.prefix_append passed part).trans stands)
  have last := move_before (e := e) stands
  rw [Position.after_append] at last
  rw [moveSpan, Span.covering, first, last]

/-- A stretch of the text behind the edit. -/
theorem moveSpan_after (e : Edit) (passed part : List Char) :
    e.moveSpan (.covering (e.span.finish.after passed) part) =
      .covering (e.finish.after passed) part := by
  have last := e.move_after (passed ++ part)
  rw [Position.after_append, Position.after_append] at last
  rw [moveSpan, Span.covering, e.move_after, last]
  rfl

/-! ## What the edit leaves alone -/

/-- A part of the old text that stands in front of the edit or behind it. -/
inductive Spares (e : Edit) : Position → List Char → Prop
  | front {passed part : List Char} : passed ++ part <+: e.before →
    Spares e (Position.start.after passed) part
  | behind (passed part : List Char) : Spares e (e.span.finish.after passed) part

variable {p : Position} {part more : List Char}

theorem Spares.left (spares : e.Spares p (part ++ more)) : e.Spares p part := by
  cases spares with
  | front stands =>
      rw [← List.append_assoc] at stands
      exact .front ((List.prefix_append _ more).trans stands)
  | behind passed => exact .behind _ _

theorem Spares.right (spares : e.Spares p (part ++ more)) : e.Spares (p.after part) more := by
  cases spares with
  | front stands =>
      rw [← Position.after_append]
      exact .front (by rwa [List.append_assoc])
  | behind passed =>
      rw [← Position.after_append]
      exact .behind _ _

/-- **What is left alone moves as a whole.** -/
theorem Spares.move_after (spares : e.Spares p part) :
    e.move (p.after part) = (e.move p).after part := by
  cases spares with
  | @front passed _ stands =>
      have whole := move_before stands
      rw [Position.after_append] at whole
      rw [whole, move_before ((List.prefix_append _ _).trans stands)]
  | behind passed =>
      rw [← Position.after_append, e.move_after, e.move_after, Position.after_append]

theorem Spares.moveSpan (spares : e.Spares p part) :
    e.moveSpan (.covering p part) = .covering (e.move p) part := by
  rw [Edit.moveSpan, Span.covering_finish, spares.move_after]
  rfl

/-- What is left alone does not cover the edit. -/
theorem Spares.ne {s : Span} (spares : e.Spares p part) (start : s.start.offset ≤ e.start.offset)
    (finish : e.span.finish.offset ≤ s.finish.offset) : Span.covering p part ≠ s := by
  have some_ := e.offset_lt_finish
  rintro rfl
  cases spares with
  | @front passed _ stands =>
      have short : bytes (passed ++ part) ≤ bytes e.before := by
        obtain ⟨more, whole⟩ := stands
        rw [← whole, bytes_append (passed ++ part)]
        omega
      simp only [Span.covering_finish, ← Position.after_append, Position.offset_after] at finish
      simp only [Edit.start, Position.offset_after] at some_
      omega
  | behind passed =>
      simp only [Span.covering, Position.offset_after] at start
      omega

/-- Where the edit changes no place behind it, or nothing stands there, what it leaves alone stays
where it is. -/
theorem moveSpan_still (still : e.finish = e.span.finish ∨ e.after = []) (spares : e.Spares p part)
    (inside : p.offset < bytes e.old) : e.moveSpan (.covering p part) = .covering p part := by
  cases spares with
  | front stands => exact moveSpan_before stands
  | behind passed =>
      rcases still with same | none_
      · rw [e.moveSpan_after, same]
      · have total : e.span.finish.offset = bytes e.old := by
          simp [Edit.span, Edit.start, Edit.old, none_, Position.start]
        rw [Position.offset_after] at inside
        omega

/-! ## Tokens -/

variable {κ : Type} {pieces : List (Lexeme κ)}

/-- A token, moved along. -/
def moveToken (e : Edit) (t : Token κ) : Token κ := { t with span := e.moveSpan t.span }

/-- Tokens before the edit stay where they are. -/
theorem locate_before {passed : List Char}
    (stands : passed ++ (pieces.map Lexeme.text).flatten <+: e.before) :
    (locate (Position.start.after passed) pieces).map e.moveToken =
      locate (Position.start.after passed) pieces := by
  induction pieces generalizing passed with
  | nil => rfl
  | cons piece pieces ih =>
      rw [List.map_cons, List.flatten_cons, ← List.append_assoc] at stands
      have own := moveSpan_before (e := e) ((List.prefix_append _ _).trans stands)
      have later := ih stands
      rw [Position.after_append] at later
      rw [locate, List.map_cons, later, moveToken, own]

/-- Tokens behind the edit move along. -/
theorem locate_after (e : Edit) (passed : List Char) (pieces : List (Lexeme κ)) :
    (locate (e.span.finish.after passed) pieces).map e.moveToken =
      locate (e.finish.after passed) pieces := by
  induction pieces generalizing passed with
  | nil => rfl
  | cons piece pieces ih =>
      have later := ih (passed ++ piece.text)
      rw [Position.after_append, Position.after_append] at later
      rw [locate, List.map_cons, later, locate, moveToken, e.moveSpan_after]

/-- Tokens before the edit, or behind it, are left alone. -/
theorem spares_locate (spares : e.Spares p (pieces.map Lexeme.text).flatten) :
    ∀ t ∈ locate p pieces, t.span = .covering t.span.start t.text ∧
      e.Spares t.span.start t.text := by
  induction pieces generalizing p with
  | nil => simp [locate]
  | cons piece pieces ih =>
      rw [List.map_cons, List.flatten_cons] at spares
      exact List.forall_mem_cons.mpr ⟨⟨rfl, spares.left⟩, ih spares.right⟩

end Edit

/-! ## Fixes -/

namespace Source

/-- The text with a stretch cut out of it and another text put there. -/
def splice (src : Source) (span : Span) (put : List Char) : List Char :=
  (takeBytes? span.start.offset src.text).getD [] ++
    (put ++ (dropBytes? span.finish.offset src.text).getD [])

/-- **To put a text in the place of a stretch is to edit there.** -/
theorem splice_span (e : Edit) : splice ⟨e.old⟩ e.span e.put = e.new := by
  have first : e.span.start.offset = bytes e.before := by
    simp [Edit.span, Edit.start, Position.start]
  have last : e.span.finish.offset = bytes (e.before ++ e.cut) := by
    simp [Edit.span, Edit.start, Position.start]
  have front := takeBytes?_bytes e.before (e.cut ++ e.after)
  have back := dropBytes?_bytes (e.before ++ e.cut) e.after
  rw [List.append_assoc] at back
  rw [splice, first, last, Edit.old, front, back]
  rfl

end Source

end PageLint
