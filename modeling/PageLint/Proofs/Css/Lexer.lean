/-
# PageLint.Proofs.Css.Lexer — the lexer of stylesheets ends and loses nothing

Every shape of lexeme is picked by what its first characters are, and measured from the
first of them on. The two have to fit: what picks a shape must make sure that the measure
takes a character, and no measure may run past the end of the text.

Each measure has a law for the end (`nameExtent_le`, `numberExtent_le`, `stringExtent_le`)
and, where it could come to nothing, one for the start (`nameExtent_pos`,
`numberExtent_pos`). Together they make every lexeme a piece of the text that is there
(`lexemeAt_pos`, `lexemeAt_le`), so the lexer comes to the end of every text and its tokens
tile it (`sheet_tokens_lossless`).
-/
import PageLint.Css.Token
import PageLint.Proofs.Text.Extent
import PageLint.Proofs.Text.Run

namespace PageLint.Css

set_option autoImplicit false

open Text

/-! ## Names -/

theorem nameExtent_le (cs : List Char) : nameExtent cs ≤ cs.length := by
  fun_induction nameExtent cs with
  | case1 => exact le_rfl
  | case2 c => exact le_rfl
  | case3 c => exact Nat.zero_le _
  | case4 c d cs name ih => simp only [List.length_cons] at ih ⊢; omega
  | case5 c d cs name escape ih => simp only [List.length_cons]; omega
  | case6 c d cs name escape => exact Nat.zero_le _

theorem nameExtent_pos_of_isNameChar {c : Char} (cs : List Char) (name : isNameChar c) :
    0 < nameExtent (c :: cs) := by
  cases cs with
  | nil => simp [nameExtent, name]
  | cons d cs => simp [nameExtent, name]

theorem nameExtent_pos_of_startsEscape {cs : List Char} (escape : startsEscape cs) :
    0 < nameExtent cs := by
  rw [startsEscape.eq_def] at escape
  split at escape
  next d cs =>
    have escapes : d ≠ '\n' := by simpa using escape
    have plain : isNameChar '\\' = false := by decide
    simp [nameExtent, plain, escapes]
  next => simp at escape

theorem isNameChar_of_isNameStart {c : Char} (start : isNameStart c) : isNameChar c := by
  simp [isNameChar, start]

/-- An identifier that begins somewhere has a character. -/
theorem nameExtent_pos {cs : List Char} (starts : startsIdent cs) : 0 < nameExtent cs := by
  match cs, starts with
  | c :: rest, starts =>
      by_cases dash : c = '-'
      · subst dash
        exact nameExtent_pos_of_isNameChar rest (by decide)
      · have either : isNameStart c ∨ startsEscape (c :: rest) := by
          simpa [startsIdent, dash] using starts
        cases either with
        | inl start => exact nameExtent_pos_of_isNameChar rest (isNameChar_of_isNameStart start)
        | inr escape => exact nameExtent_pos_of_startsEscape escape

/-! ## Numbers -/

theorem digitsExtent_le (cs : List Char) : digitsExtent cs ≤ cs.length :=
  extentWhile_le Char.isDigit cs

theorem digitsExtent_pos {cs : List Char} (starts : startsDigit cs) : 0 < digitsExtent cs := by
  cases cs with
  | nil => simp [startsDigit] at starts
  | cons c cs =>
      rw [digitsExtent, extentWhile_cons (p := Char.isDigit) starts]
      omega

theorem signExtent_le (cs : List Char) : signExtent cs ≤ cs.length := by
  cases cs with
  | nil => simp [signExtent]
  | cons c cs =>
      rw [signExtent, List.length_cons]
      split <;> omega

theorem fractionExtent_le (cs : List Char) : fractionExtent cs ≤ cs.length := by
  rw [fractionExtent]
  split
  next point =>
    have digits := digitsExtent_le (cs.drop 1)
    cases cs with
    | nil => simp at point
    | cons c cs => simp only [List.drop_one, List.tail_cons, List.length_cons] at digits ⊢; omega
  next => exact Nat.zero_le _

theorem exponentExtent_le (cs : List Char) : exponentExtent cs ≤ cs.length := by
  rw [exponentExtent]
  split
  next =>
    dsimp only
    split
    next starts =>
      have digits := digitsExtent_le (cs.drop (1 + signExtent (cs.drop 1)))
      have some_ := digitsExtent_pos starts
      rw [List.length_drop] at digits
      omega
    next => exact Nat.zero_le _
  next => exact Nat.zero_le _

theorem numberExtent_le (cs : List Char) : numberExtent cs ≤ cs.length := by
  have sign := signExtent_le cs
  have digits := digitsExtent_le (cs.drop (signExtent cs))
  rw [List.length_drop] at digits
  have fraction := fractionExtent_le (cs.drop (signExtent cs + digitsExtent (cs.drop (signExtent cs))))
  rw [List.length_drop] at fraction
  have exponent := exponentExtent_le (cs.drop (signExtent cs + digitsExtent (cs.drop (signExtent cs))
    + fractionExtent (cs.drop (signExtent cs + digitsExtent (cs.drop (signExtent cs))))))
  rw [List.length_drop] at exponent
  simp only [numberExtent]
  omega

theorem unsigned_pos {cs : List Char} (starts : startsUnsigned cs) :
    0 < digitsExtent cs + fractionExtent (cs.drop (digitsExtent cs)) := by
  by_cases digit : startsDigit cs
  · have := digitsExtent_pos digit
    omega
  · have point : cs.head? = some '.' ∧ startsDigit (cs.drop 1) := by
      simpa [startsUnsigned, digit] using starts
    have none_ : digitsExtent cs = 0 := by
      cases cs with
      | nil => rfl
      | cons c cs => simpa [digitsExtent, extentWhile, startsDigit] using digit
    simp only [none_, List.drop_zero, fractionExtent, point, and_self, if_true]
    omega

/-- A number that begins somewhere has a character: its sign, a digit or its point. -/
theorem numberExtent_pos {cs : List Char} (starts : startsNumber cs) : 0 < numberExtent cs := by
  simp only [numberExtent]
  by_cases sign : cs.head? = some '+' ∨ cs.head? = some '-'
  · have one : signExtent cs = 1 := by rw [signExtent, if_pos sign]
    omega
  · have unsigned : startsUnsigned cs := by
      have none_ : (cs.head? == some '+' || cs.head? == some '-') = false := by
        simpa using sign
      simpa [startsNumber, none_] using starts
    have zero : signExtent cs = 0 := by rw [signExtent, if_neg sign]
    have := unsigned_pos unsigned
    simp only [zero, List.drop_zero, Nat.zero_add]
    omega

/-! ## Lexemes of several shapes -/

theorem stringExtent_le (quote : Char) (cs : List Char) : (stringExtent quote cs).1 ≤ cs.length := by
  fun_induction stringExtent quote cs with
  | case1 => exact le_rfl
  | case2 c => exact Nat.zero_le _
  | case3 c => exact le_rfl
  | case4 c d cs => exact Nat.zero_le _
  | case5 c d cs feed escape n closed inner ih =>
      rw [inner] at ih
      simp only [List.length_cons] at ih ⊢
      omega
  | case6 c d cs feed escape closes => simp only [List.length_cons]; omega
  | case7 c d cs feed escape other n closed inner ih =>
      rw [inner] at ih
      simp only [List.length_cons] at ih ⊢
      omega

theorem numeric_le (cs : List Char) : (numeric cs).2 ≤ cs.length := by
  have number := numberExtent_le cs
  have unit := nameExtent_le (cs.drop (numberExtent cs))
  rw [List.length_drop] at unit
  simp only [numeric]
  split
  next percent =>
    have some_ : 0 < (cs.drop (numberExtent cs)).length := by
      cases left : cs.drop (numberExtent cs) with
      | nil => simp [left] at percent
      | cons c rest => simp
    rw [List.length_drop] at some_
    omega
  next =>
    split
    · dsimp only; omega
    · exact number

theorem numeric_pos {cs : List Char} (starts : startsNumber cs) : 0 < (numeric cs).2 := by
  have number := numberExtent_pos starts
  simp only [numeric]
  split
  · exact Nat.succ_pos _
  · split
    · dsimp only; omega
    · exact number

theorem identLike_le (cs : List Char) : (identLike cs).2 ≤ cs.length := by
  have name := nameExtent_le cs
  simp only [identLike]
  split
  next inside left =>
    have parted : cs.length = nameExtent cs + (inside.length + 1) := by
      rw [← List.length_cons, ← left, List.length_drop]
      omega
    have close := extentThrough_le ")".toList inside
    split
    · split
      · dsimp only; omega
      · dsimp only; omega
    · dsimp only; omega
  next => exact name

theorem identLike_pos {cs : List Char} (starts : startsIdent cs) : 0 < (identLike cs).2 := by
  have name := nameExtent_pos starts
  simp only [identLike]
  split
  · split
    · split
      · exact Nat.succ_pos _
      · dsimp only; omega
    · exact Nat.succ_pos _
  · exact name

/-! ## The lexer -/

theorem lexemeAt_le (c : Char) (rest : List Char) : (lexemeAt c rest).2 ≤ (c :: rest).length := by
  simp only [lexemeAt]
  split
  · exact extentWhile_le isBlank (c :: rest)
  split
  next opens =>
    have two := (List.isPrefixOf_iff_prefix.mp opens).length_le
    have close := extentThrough_le "*/".toList ((c :: rest).drop 2)
    rw [List.length_drop] at close
    change 2 ≤ _ at two
    dsimp only
    omega
  split
  next opens => exact (List.isPrefixOf_iff_prefix.mp opens).length_le
  split
  next opens => exact (List.isPrefixOf_iff_prefix.mp opens).length_le
  split
  · exact numeric_le (c :: rest)
  split
  · exact identLike_le (c :: rest)
  have name := nameExtent_le rest
  have string := stringExtent_le c rest
  split
  · rw [List.length_cons]
    exact Nat.succ_le_succ string
  rw [List.length_cons]
  split
  · dsimp only; omega
  split
  · dsimp only; omega
  · exact Nat.succ_pos _

/-- **Every shape takes a character**: what picks it is enough for its measure. -/
theorem lexemeAt_pos (c : Char) (rest : List Char) : 0 < (lexemeAt c rest).2 := by
  simp only [lexemeAt]
  split
  next blank => rw [extentWhile_cons blank]; exact Nat.succ_pos _
  split
  · dsimp only; omega
  split
  · exact Nat.succ_pos _
  split
  · exact Nat.succ_pos _
  split
  next starts => exact numeric_pos starts
  split
  next starts => exact identLike_pos starts
  split
  · exact Nat.succ_pos _
  split
  · dsimp only; omega
  split
  · dsimp only; omega
  · exact Nat.one_pos

/-- One turn of the lexer; the state says whether the character is the first one. -/
def turn (atHead : Bool) (c : Char) (rest : List Char) : Turn Bool TokenKind :=
  if atHead ∧ c = '\uFEFF' then ⟨.byteOrderMark, 1, false⟩
  else ⟨(lexemeAt c rest).1, (lexemeAt c rest).2, false⟩

theorem turn_pos (atHead : Bool) (c : Char) (rest : List Char) : 0 < (turn atHead c rest).extent := by
  rw [turn]
  split
  · exact Nat.one_pos
  · exact lexemeAt_pos c rest

theorem turn_le (atHead : Bool) (c : Char) (rest : List Char) :
    (turn atHead c rest).extent ≤ (c :: rest).length := by
  rw [turn]
  split
  · exact Nat.succ_pos _
  · exact lexemeAt_le c rest

theorem scans_turn : Scans turn scan fun _ => 0 where
  fits := turn_le
  idle atHead c rest none_ := absurd none_ (turn_pos atHead c rest).ne'
  takes atHead c rest _ := by
    simp only [turn, scan]
    split <;> rfl

/-- **Stylesheets are read to the end and nothing is lost**, wherever they begin: the lexer
comes to an end with the tokens that `tokenize` answers, and they tile the text. -/
theorem sheet_tokens_lossless (cs : List Char) (origin : Position) :
    Run turn true origin cs (tokenize cs origin) ∧ Tiles origin cs (tokenize cs origin) := by
  have run : Run turn true origin cs (tokenize cs origin) := run_cut scans_turn true origin cs
  exact ⟨run, run.tiles⟩

end PageLint.Css
