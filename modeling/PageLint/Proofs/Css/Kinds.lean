/-
# PageLint.Proofs.Css.Kinds — what the kind of a lexeme says about its text

The lexer tries one shape of lexeme after the other. `Shape` lists the shapes, each with its measure
and with what is known of the first characters where it is picked, so that the order in which they are
tried matters in one place only (`shape_lexemeAt`). What a kind says about a text follows by cases on
the shape: white space is all white space, a comment begins with a slash, a colon is a colon.
-/
import PageLint.Proofs.Css.Lexer

namespace PageLint.Css

set_option autoImplicit false

open Text

variable {c d : Char} {cs rest : List Char} {found : TokenKind × Nat}

/-! ## Kinds of several shapes -/

/-- The kinds of numbers. -/
def numberKinds : List TokenKind := [.percentage, .dimension, .number]

/-- The kinds of what begins with a name. -/
def wordKinds : List TokenKind := [.ident, .function, .url]

/-- The signs whose kind says which they are. -/
def ownSigns : List Char := [':', ';', ',', '{', '}', '(', ')', '[', ']']

/-- The kinds of signs of one character. -/
def signKinds : List TokenKind := .delim :: .unknown :: ownSigns.map signKind

theorem kind_numeric (cs : List Char) : (numeric cs).1 ∈ numberKinds := by
  simp only [numeric]
  split_ifs <;> simp [numberKinds]

theorem kind_identLike (cs : List Char) : (identLike cs).1 ∈ wordKinds := by
  simp only [identLike]
  split
  · split_ifs <;> simp [wordKinds]
  · simp [wordKinds]

theorem kind_signKind (c : Char) : signKind c ∈ signKinds := by
  unfold signKind
  split <;> first | decide | skip
  split <;> decide

theorem eq_of_signKind (sign : d ∈ ownSigns) (kind : signKind c = signKind d) : c = d := by
  simp only [ownSigns, List.mem_cons, List.not_mem_nil, or_false] at sign
  unfold signKind at kind
  rcases sign with rfl | rfl | rfl | rfl | rfl | rfl | rfl | rfl | rfl <;>
    (split at kind <;> first | rfl | cases kind | (split at kind <;> cases kind))

/-! ## Shapes -/

/-- **The shapes of lexemes**: why each is picked, and what it comes to. -/
inductive Shape (c : Char) (rest : List Char) : TokenKind → Nat → Prop
  | blank : isBlank c → Shape c rest .blank (extentWhile isBlank (c :: rest))
  | comment : c = '/' → Shape c rest .comment (2 + extentThrough "*/" ((c :: rest).drop 2))
  | cdo : c = '<' → Shape c rest .cdo 4
  | cdc : c = '-' → Shape c rest .cdc 3
  | number {kind : TokenKind} {n : Nat} : isBlank c = false → numeric (c :: rest) = (kind, n) →
    kind ∈ numberKinds → Shape c rest kind n
  | word {kind : TokenKind} {n : Nat} : isBlank c = false → identLike (c :: rest) = (kind, n) →
    kind ∈ wordKinds → Shape c rest kind n
  | string {n : Nat} : isQuote c → stringExtent c rest = (n, true) → Shape c rest .string (n + 1)
  | badString {n : Nat} : isQuote c → stringExtent c rest = (n, false) →
    Shape c rest .badString (n + 1)
  | hash : c = '#' → Shape c rest .hash (1 + nameExtent rest)
  | keyword : c = '@' → Shape c rest .atKeyword (1 + nameExtent rest)
  | sign {kind : TokenKind} : isBlank c = false → signKind c = kind → kind ∈ signKinds →
    Shape c rest kind 1

theorem head_of_isPrefixOf {sign : List Char} (leads : (d :: sign).isPrefixOf (c :: rest)) : c = d :=
  (List.cons_prefix_cons.mp (List.isPrefixOf_iff_prefix.mp leads)).1.symm

/-- **Every lexeme has one of the shapes.** -/
theorem shape_lexemeAt (c : Char) (rest : List Char) :
    Shape c rest (lexemeAt c rest).1 (lexemeAt c rest).2 := by
  simp only [lexemeAt]
  split
  next blank => exact .blank blank
  next solid =>
    have solid' : isBlank c = false := by simpa using solid
    split
    next leads => exact .comment (head_of_isPrefixOf leads)
    split
    next leads => exact .cdo (head_of_isPrefixOf leads)
    split
    next leads => exact .cdc (head_of_isPrefixOf leads)
    split
    next => exact .number solid' Prod.mk.eta.symm (kind_numeric _)
    split
    next => exact .word solid' Prod.mk.eta.symm (kind_identLike _)
    split
    next quote =>
      cases extent : stringExtent c rest with
      | mk n closed =>
          cases closed with
          | false => exact .badString quote extent
          | true => exact .string quote extent
    split
    next hash => exact .hash (by simpa using (Bool.and_eq_true_iff.mp hash).1)
    split
    next keyword => exact .keyword (by simpa using (Bool.and_eq_true_iff.mp keyword).1)
    next => exact .sign solid' rfl (kind_signKind c)

theorem shape_of {kind : TokenKind} {n : Nat} (measured : lexemeAt c rest = (kind, n)) :
    Shape c rest kind n := by
  have shape := shape_lexemeAt c rest
  rwa [measured] at shape

/-! ## What a kind says -/

section Kinds

variable {kind : TokenKind} {n : Nat}

theorem isBlank_of_blank (measured : lexemeAt c rest = (.blank, n)) :
    isBlank c ∧ n = extentWhile isBlank (c :: rest) := by
  cases shape_of measured with
  | blank blank => exact ⟨blank, rfl⟩
  | number _ _ own => exact absurd own (by decide)
  | word _ _ own => exact absurd own (by decide)
  | sign _ _ own => exact absurd own (by decide)

theorem not_isBlank_of_ne_blank (measured : lexemeAt c rest = (kind, n)) (solid : kind ≠ .blank) :
    isBlank c = false := by
  cases shape_of measured with
  | blank => exact absurd rfl solid
  | comment first => exact first ▸ by decide
  | cdo first => exact first ▸ by decide
  | cdc first => exact first ▸ by decide
  | number plain => exact plain
  | word plain => exact plain
  | string quote => rcases isQuote_iff.mp quote with rfl | rfl <;> decide
  | badString quote => rcases isQuote_iff.mp quote with rfl | rfl <;> decide
  | hash first => exact first ▸ by decide
  | keyword first => exact first ▸ by decide
  | sign plain => exact plain

theorem eq_slash_of_comment (measured : lexemeAt c rest = (.comment, n)) : c = '/' := by
  cases shape_of measured with
  | comment first => exact first
  | number _ _ own => exact absurd own (by decide)
  | word _ _ own => exact absurd own (by decide)
  | sign _ _ own => exact absurd own (by decide)

/-- A word with an `@` before it is the only lexeme of its kind. -/
theorem eq_at_of_atKeyword (measured : lexemeAt c rest = (.atKeyword, n)) : c = '@' := by
  cases shape_of measured with
  | keyword first => exact first
  | number _ _ own => exact absurd own (by decide)
  | word _ _ own => exact absurd own (by decide)
  | sign _ _ own => exact absurd own (by decide)

/-- A string begins with a quote and is closed. -/
theorem quote_of_string (measured : lexemeAt c rest = (.string, n)) :
    isQuote c ∧ stringExtent c rest = (n - 1, true) := by
  cases shape_of measured with
  | string quote closed => exact ⟨quote, closed⟩
  | number _ _ own => exact absurd own (by decide)
  | word _ _ own => exact absurd own (by decide)
  | sign _ _ own => exact absurd own (by decide)

theorem identLike_of_function (measured : lexemeAt c rest = (.function, n)) :
    identLike (c :: rest) = (.function, n) := by
  cases shape_of measured with
  | word _ own => exact own
  | number _ _ own => exact absurd own (by decide)
  | sign _ _ own => exact absurd own (by decide)

/-- A lexeme of the kind of a sign is that sign. -/
theorem eq_sign_of_kind (sign : d ∈ ownSigns) (measured : lexemeAt c rest = (signKind d, n)) :
    c = d ∧ n = 1 := by
  have own : signKind d ∈ ownSigns.map signKind := List.mem_map_of_mem sign
  have shape := shape_of measured
  generalize kinded : signKind d = kind at own shape
  cases shape with
  | sign _ same => exact ⟨eq_of_signKind sign (same.trans kinded.symm), rfl⟩
  | number _ _ other =>
      exact absurd own ((by decide : ∀ kind ∈ numberKinds, kind ∉ ownSigns.map signKind) kind other)
  | word _ _ other =>
      exact absurd own ((by decide : ∀ kind ∈ wordKinds, kind ∉ ownSigns.map signKind) kind other)
  | _ => exact absurd own (by decide)

end Kinds

/-! ## Pieces of a text -/

section Pieces

variable {piece : Lexeme TokenKind} {atHead : Bool}

/-- Where a piece of a text was cut off. -/
theorem exists_lexemeAt (atHead : Bool) (cs : List Char) : ∀ piece ∈ cut scan atHead cs,
    piece = ⟨.byteOrderMark, ['\uFEFF']⟩ ∨ ∃ c rest n, lexemeAt c rest = (piece.kind, n) ∧
      piece.text = (c :: rest).take n ∧ 0 < n := by
  fun_induction cut scan atHead cs with
  | case1 => simp
  | case2 atHead c rest s ih =>
      refine List.forall_mem_cons.mpr ⟨?_, ih⟩
      simp only [s, scan]
      split
      next mark =>
        left
        rw [mark.2]
        rfl
      next =>
        obtain ⟨n, extent⟩ := Nat.exists_eq_succ_of_ne_zero (lexemeAt_pos c rest).ne'
        refine .inr ⟨c, rest, n + 1, Prod.ext rfl extent, ?_, Nat.succ_pos n⟩
        rw [extent]
        rfl

/-- White space is white space all through. -/
theorem blanks_of_blank (member : piece ∈ cut scan atHead cs) (kind : piece.kind = .blank) :
    ∀ c ∈ piece.text, isBlank c := by
  rcases exists_lexemeAt atHead cs piece member with rfl | ⟨c, rest, n, measured, text, -⟩
  · cases kind
  · rw [kind] at measured
    obtain ⟨-, rfl⟩ := isBlank_of_blank measured
    rw [text, take_extentWhile]
    exact fun c inside => List.mem_takeWhile_imp inside

/-- What is not white space does not begin with any. -/
theorem solid_of_ne_blank (member : piece ∈ cut scan atHead cs) (kind : piece.kind ≠ .blank) :
    ∃ c more, piece.text = c :: more ∧ isBlank c = false := by
  rcases exists_lexemeAt atHead cs piece member with rfl | ⟨c, rest, n, measured, text, some_⟩
  · exact ⟨_, [], rfl, by decide⟩
  · obtain ⟨n, rfl⟩ := Nat.exists_eq_succ_of_ne_zero some_.ne'
    exact ⟨c, rest.take n, text, not_isBlank_of_ne_blank measured kind⟩

theorem text_of_comment (member : piece ∈ cut scan atHead cs) (kind : piece.kind = .comment) :
    ∃ more, piece.text = '/' :: more := by
  rcases exists_lexemeAt atHead cs piece member with rfl | ⟨c, rest, n, measured, text, some_⟩
  · cases kind
  · obtain ⟨n, rfl⟩ := Nat.exists_eq_succ_of_ne_zero some_.ne'
    rw [kind] at measured
    obtain rfl := eq_slash_of_comment measured
    exact ⟨rest.take n, text⟩

/-- A piece of the kind of a sign is that sign. -/
theorem text_of_sign (sign : d ∈ ownSigns) (member : piece ∈ cut scan atHead cs)
    (kind : piece.kind = signKind d) : piece.text = [d] := by
  rcases exists_lexemeAt atHead cs piece member with rfl | ⟨c, rest, n, measured, text, -⟩
  · have own : signKind d ∈ ownSigns.map signKind := List.mem_map_of_mem sign
    rw [← kind] at own
    exact absurd own (by decide)
  · rw [kind] at measured
    obtain ⟨rfl, rfl⟩ := eq_sign_of_kind sign measured
    exact text

/-- A byte order mark is that character. -/
theorem text_of_byteOrderMark (member : piece ∈ cut scan atHead cs) (kind : piece.kind = .byteOrderMark) :
    piece.text = ['\uFEFF'] := by
  rcases exists_lexemeAt atHead cs piece member with rfl | ⟨c, rest, n, measured, -, -⟩
  · rfl
  · rw [kind] at measured
    cases shape_of measured with
    | number _ _ own => exact absurd own (by decide)
    | word _ _ own => exact absurd own (by decide)
    | sign _ _ own => exact absurd own (by decide)

end Pieces

end PageLint.Css
