/-
# PageLint.Proofs.Css.Addresses — addresses with quotes and without

A `url(` before a quote is a function, and the quote begins a string, which is its argument; only white
space can stand between the two (`blank_of_urlFunction`). A `url(` before anything else is one lexeme up
to the next `)`, whatever stands in between (`cut_url`). So where the quotes of an argument go, what
stands behind it up to the `)` is taken into that lexeme; the tokens in front and those behind the `)`
stay (`tokenize_unquoted`).
-/
import PageLint.Proofs.Css.Splice

namespace PageLint.Css

set_option autoImplicit false

open Text

variable {c d e : Char} {name inside rest cs put : List Char} {front lead back : Tokens}
  {func : Token TokenKind} {origin : Position}

/-! ## Lexemes -/

/-- The name of a `url(`, letter by letter. -/
theorem spelled_url (spelled : sameIgnoringCase name "url(") :
    ∃ c d e, name = [c, d, e, '('] ∧ c.toLower = 'u' ∧ d.toLower = 'r' ∧ e.toLower = 'l' := by
  have letters : name.map Char.toLower = ['u', 'r', 'l', '('] := by
    simpa [sameIgnoringCase, lowerAscii] using spelled
  obtain ⟨c, _, rfl, u, letters⟩ := List.map_eq_cons_iff.mp letters
  obtain ⟨d, _, rfl, r, letters⟩ := List.map_eq_cons_iff.mp letters
  obtain ⟨e, _, rfl, l, letters⟩ := List.map_eq_cons_iff.mp letters
  obtain ⟨paren, _, rfl, sign, letters⟩ := List.map_eq_cons_iff.mp letters
  obtain rfl := List.map_eq_nil_iff.mp letters
  obtain rfl := eq_of_toLower_eq sign rfl
  exact ⟨c, d, e, rfl, u, r, l⟩

theorem isAlpha_of_toLower (small : c.toLower = d) (letter : d.isAlpha) : c.isAlpha := by
  rwa [← Char.isAlpha_toLower_eq_isAlpha, small]

/-- A `url(` before what is no quote goes on to the next `)`. -/
theorem lexemeAt_url (c_ : c.toLower = 'u') (d_ : d.toLower = 'r') (e_ : e.toLower = 'l')
    (plain : (trimStart rest).head?.any isQuote = false) :
    lexemeAt c (d :: e :: '(' :: rest) = (.url, 4 + extentThrough ")" rest) := by
  have letters : c.isAlpha ∧ d.isAlpha ∧ e.isAlpha :=
    ⟨isAlpha_of_toLower c_ rfl, isAlpha_of_toLower d_ rfl, isAlpha_of_toLower e_ rfl⟩
  have named : ∀ {c : Char}, c.isAlpha → isNameChar c := fun letter => by
    simp [isNameChar, isNameStart, letter]
  have paren : isNameChar '(' = false := by decide
  have extent : nameExtent (c :: d :: e :: '(' :: rest) = 3 := by
    have last : nameExtent ('(' :: rest) = 0 := by cases rest <;> simp [nameExtent, paren]
    rw [nameExtent, if_pos (named letters.1), nameExtent, if_pos (named letters.2.1), nameExtent,
      if_pos (named letters.2.2), last]
  have url : sameIgnoringCase [c, d, e] ['u', 'r', 'l'] := by
    simp [sameIgnoringCase, lowerAscii, c_, d_, e_]
  rw [lexemeAt_letter letters.1, identLike_eq, extent]
  simp [url, plain]

/-- **An address without quotes is one lexeme**, up to the next `)`. -/
theorem cut_url (spelled : sameIgnoringCase name "url(") (open_ : ')' ∉ inside)
    (plain : (trimStart (inside ++ ')' :: rest)).head?.any isQuote = false) :
    cut scan false (name ++ (inside ++ ')' :: rest)) =
      ⟨.url, name ++ (inside ++ [')'])⟩ :: cut scan false rest := by
  obtain ⟨c, d, e, rfl, c_, d_, e_⟩ := spelled_url spelled
  have measured : lexemeAt c ((d :: e :: '(' :: (inside ++ [')'])) ++ rest) =
      (.url, (c :: d :: e :: '(' :: (inside ++ [')'])).length) := by
    have whole : (d :: e :: '(' :: (inside ++ [')'])) ++ rest =
        d :: e :: '(' :: (inside ++ ')' :: rest) := by simp
    have through : extentThrough ")" (inside ++ ')' :: rest) = inside.length + 1 :=
      extentThrough_quote open_ rest
    have length : (c :: d :: e :: '(' :: (inside ++ [')'])).length = 4 + (inside.length + 1) := by
      simp only [List.length_cons, List.length_append, List.length_nil]
      omega
    rw [whole, lexemeAt_url c_ d_ e_ plain, through, length]
  have cuts := cut_of_lexemeAt measured
  simpa using cuts

/-! ## Tokens -/

/-- Between the function `url(` and the quote that makes it one there is only white space. -/
theorem blank_of_urlFunction (split : tokenize cs origin = front ++ func :: (lead ++ back))
    (kind : func.kind = .function) (spelled : sameIgnoringCase func.text "url(")
    (trivia : ∀ t ∈ lead, isTrivia t) : ∀ t ∈ lead, t.kind = .blank := by
  have inText : ∀ t ∈ lead, t ∈ tokenize cs origin := fun t member => by simp [split, member]
  obtain ⟨c, rest, n, measured, text, behind⟩ := exists_lexemeAt_split split (by simp [kind])
  rw [kind] at measured
  have own := identLike_of_function measured
  rw [identLike_eq] at own
  split at own
  next paren =>
    split at own
    next =>
      split at own
      next quote =>
        rw [(Prod.mk.inj own).2, ← behind, textOf_append] at quote
        exact blanks_of_head rfl inText trivia quote
      next => cases own
    next other =>
      -- The name before the parenthesis is the text of the function without it.
      refine absurd ?_ other
      rw [← (Prod.mk.inj own).2, List.take_add_one, ← List.head?_drop, paren] at text
      rw [text] at spelled
      have letters : lowerAscii ((c :: rest).take (nameExtent (c :: rest))) ++ ['('] =
          lowerAscii "url" ++ ['('] := by
        simpa [sameIgnoringCase, lowerAscii] using spelled
      simpa [sameIgnoringCase] using List.append_cancel_right letters
  next => cases own

/-- **A stylesheet in which the quotes of an address are left out.** If no `)` comes before the one that
ends the function, and no quote comes first, all that stands there is one token, and the tokens in front
and behind stay. -/
theorem tokenize_unquoted {mid : Tokens} (split : tokenize cs origin = front ++ (func :: mid ++ back))
    (spelled : sameIgnoringCase func.text "url(") (open_ : ')' ∉ inside)
    (plain : (trimStart (inside ++ ')' :: textOf back)).head?.any isQuote = false) :
    tokenize (textOf front ++ (func.text ++ (inside ++ ')' :: textOf back))) origin =
      front ++ locate (origin.after (textOf front))
        (⟨.url, func.text ++ (inside ++ [')'])⟩ :: back.map Token.lexeme) := by
  have cuts := cut_url spelled open_ plain
  obtain ⟨c, d, e, text, c_, -, -⟩ := spelled_url spelled
  have letter : c.isAlpha := isAlpha_of_toLower c_ rfl
  have solid : isBlank c = false := not_isBlank_of_isAlpha letter
  have other : c ≠ 'e' ∧ c ≠ 'E' ∧ c ≠ '\n' ∧ c ≠ '\uFEFF' := by
    refine ⟨?_, ?_, ?_, ?_⟩ <;> rintro rfl <;> cases c_
  have old : textOf (func :: mid ++ back) = c :: d :: (e :: '(' :: textOf (mid ++ back)) := by
    rw [List.cons_append, textOf_cons, text]
    rfl
  have new : (func.text ++ (inside ++ [')'])) ++ textOf back =
      c :: d :: (e :: '(' :: (inside ++ ')' :: textOf back)) := by simp [text]
  have behind : cut scan false (textOf back) = back.map Token.lexeme := by
    have parted : tokenize cs origin = (front ++ func :: mid) ++ back := by simp [split]
    exact cut_behind parted (by simp)
  have alike : Alike (textOf (func :: mid ++ back)) (func.text ++ (inside ++ [')']) ++ textOf back) := by
    rw [old, new]
    exact alike_of_letters letter ⟨other.1, other.2.1⟩ d
  have mark : (func.text ++ (inside ++ [')']) ++ textOf back).head? ≠ some '\uFEFF' := by
    rw [new]
    simpa using other.2.2.2
  have ends : ∀ t ∈ front.getLast?, EndsBefore (textOf (func :: mid ++ back))
      (func.text ++ (inside ++ [')']) ++ textOf back) t.lexeme := by
    rw [old, new]
    exact fun t _ => ⟨by simp [solid], by simp [other.2.2.1]⟩
  have own : cut scan false (func.text ++ (inside ++ [')']) ++ textOf back) =
      [⟨.url, func.text ++ (inside ++ [')'])⟩] ++ back.map Token.lexeme := by
    simpa [behind] using cuts
  simpa using tokenize_spliced split alike mark ends own

end PageLint.Css
