/-
# PageLint.Text.Token — lexemes and tokens

A lexer cuts a text into lexemes: pieces with a kind. `locate` gives each piece
its place, so that a lexer itself never counts. A `Scan` describes one cut: how
many characters after the first one belong to the piece. Because a piece is taken
by that count, `cut` is lossless (`texts_cut`) and every piece holds a character
(`cut_text_ne_nil`) whatever the scan answers.
-/
import PageLint.Text.Position

namespace PageLint

set_option autoImplicit false

/-- A piece of text with its kind. -/
structure Lexeme (κ : Type) where
  kind : κ
  text : List Char
  deriving DecidableEq, Repr

/-- A piece of text with its kind and its place. -/
structure Token (κ : Type) where
  kind : κ
  text : List Char
  span : Span
  deriving DecidableEq, Repr

/-- One cut: the kind of the piece, how many characters follow its first one, and
the state in which the rest is read. -/
structure Scan (σ κ : Type) where
  kind : κ
  more : Nat
  state : σ

variable {σ κ : Type}

/-- Cuts a text into pieces. `scan` sees the state, the first character of the
piece and all that follows it. -/
def cut (scan : σ → Char → List Char → Scan σ κ) (state : σ) (cs : List Char) : List (Lexeme κ) :=
  match cs with
  | [] => []
  | c :: rest =>
    let s := scan state c rest
    ⟨s.kind, c :: rest.take s.more⟩ :: cut scan s.state (rest.drop s.more)
termination_by cs.length
decreasing_by simp only [List.length_drop, List.length_cons]; omega

@[simp] theorem cut_nil (scan : σ → Char → List Char → Scan σ κ) (state : σ) :
    cut scan state [] = [] := by
  rw [cut]

theorem cut_cons (scan : σ → Char → List Char → Scan σ κ) (state : σ) (c : Char)
    (rest : List Char) :
    cut scan state (c :: rest) =
      ⟨(scan state c rest).kind, c :: rest.take (scan state c rest).more⟩ ::
        cut scan (scan state c rest).state (rest.drop (scan state c rest).more) := by
  rw [cut]

/-- **Cutting loses nothing**: the pieces, put together again, are the text. -/
theorem texts_cut (scan : σ → Char → List Char → Scan σ κ) (state : σ) (cs : List Char) :
    ((cut scan state cs).map Lexeme.text).flatten = cs := by
  fun_induction cut scan state cs with
  | case1 => rfl
  | case2 state c rest s ih => simp [s, ih]

theorem cut_text_ne_nil (scan : σ → Char → List Char → Scan σ κ) (state : σ) (cs : List Char) :
    ∀ piece ∈ cut scan state cs, piece.text ≠ [] := by
  fun_induction cut scan state cs with
  | case1 => simp
  | case2 state c rest s ih => simpa using ih

/-- Gives each piece its place, the first one beginning at `p`. -/
def locate (p : Position) : List (Lexeme κ) → List (Token κ)
  | [] => []
  | piece :: pieces =>
    ⟨piece.kind, piece.text, .covering p piece.text⟩ :: locate (p.after piece.text) pieces

@[simp] theorem map_text_locate (p : Position) (pieces : List (Lexeme κ)) :
    (locate p pieces).map Token.text = pieces.map Lexeme.text := by
  induction pieces generalizing p with
  | nil => rfl
  | cons piece pieces ih => simp [locate, ih]

@[simp] theorem map_kind_locate (p : Position) (pieces : List (Lexeme κ)) :
    (locate p pieces).map Token.kind = pieces.map Lexeme.kind := by
  induction pieces generalizing p with
  | nil => rfl
  | cons piece pieces ih => simp [locate, ih]

/-- The text that tokens cover. -/
def textOf (tokens : List (Token κ)) : List Char :=
  (tokens.map Token.text).flatten

/-- The stretch from the first token to the last. -/
def spanOf? (tokens : List (Token κ)) : Option Span :=
  match tokens.head?, tokens.getLast? with
  | some first, some last => some ⟨first.span.start, last.span.finish⟩
  | _, _ => none

end PageLint
