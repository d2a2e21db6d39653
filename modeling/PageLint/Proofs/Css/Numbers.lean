/-
# PageLint.Proofs.Css.Numbers — numbers among their neighbours

A number in a stylesheet may lose the zero before its point: `0.5` and `.5` are lexemes of one kind, the
tokens in front take in neither a digit nor a point more than before, and those behind begin where they
did (`tokenize_pointed`).
-/
import PageLint.Proofs.Css.Numerals
import PageLint.Proofs.Css.Splice

namespace PageLint.Css

set_option autoImplicit false

open Text

variable {c d : Char} {cs rest sign x y z : List Char} {front back : Tokens} {t : Token TokenKind}
  {origin : Position}

theorem take_signExtent (cs : List Char) : cs.take (signExtent cs) ∈ [[], ['+'], ['-']] := by
  cases cs with
  | nil => simp
  | cons c cs =>
      rw [signExtent]
      split
      next sign =>
        rw [List.head?_cons, Option.some.injEq, Option.some.injEq] at sign
        rcases sign with rfl | rfl <;> simp
      next => simp

/-! ## A zero before the point -/

theorem unsignedExtent_digit (digit : c.isDigit) (cs : List Char) :
    unsignedExtent (c :: cs) = unsignedExtent cs + 1 := by
  have digits : digitsExtent (c :: cs) = digitsExtent cs + 1 := extentWhile_cons digit
  have mantissa : mantissaExtent (c :: cs) = mantissaExtent cs + 1 := by
    rw [mantissaExtent, mantissaExtent, digits, List.drop_succ_cons]
    omega
  rw [unsignedExtent, unsignedExtent, mantissa, List.drop_succ_cons]
  omega

/-- With a zero before its point, a number is one character longer and else the same. -/
theorem numeric_zero_point (signed : sign ∈ [[], ['+'], ['-']]) (rest : List Char) :
    numeric (sign ++ '0' :: '.' :: rest) =
      ((numeric (sign ++ '.' :: rest)).1, (numeric (sign ++ '.' :: rest)).2 + 1) := by
  have signs : signExtent (sign ++ '0' :: '.' :: rest) = sign.length ∧
      signExtent (sign ++ '.' :: rest) = sign.length := by
    simp only [List.mem_cons, List.not_mem_nil, or_false] at signed
    rcases signed with rfl | rfl | rfl <;> exact ⟨rfl, rfl⟩
  have extent : numberExtent (sign ++ '0' :: '.' :: rest) =
      numberExtent (sign ++ '.' :: rest) + 1 := by
    rw [numberExtent_eq, numberExtent_eq, signs.1, signs.2, List.drop_left, List.drop_left,
      unsignedExtent_digit rfl]
    rfl
  obtain ⟨n, whole⟩ : ∃ n, numberExtent (sign ++ '.' :: rest) = sign.length + n :=
    ⟨_, by rw [numberExtent_eq, signs.2]⟩
  have behind : (sign ++ '0' :: '.' :: rest).drop (sign.length + n + 1) =
      (sign ++ '.' :: rest).drop (sign.length + n) := by
    rw [Nat.add_assoc, List.drop_length_add_append, List.drop_length_add_append, List.drop_succ_cons]
  simp only [numeric, extent, whole, behind]
  split_ifs
  · rfl
  · rw [Nat.add_right_comm]
  · rfl

/-- A point looks to a lexeme in front of it no different from a zero, with a sign or without. -/
theorem alike_zero_point (signed : sign ∈ [[], ['+'], ['-']]) :
    Alike (sign ++ '0' :: '.' :: rest) (sign ++ '.' :: rest) := by
  simp only [List.mem_cons, List.not_mem_nil, or_false] at signed
  rcases signed with rfl | rfl | rfl <;>
  exact
    { some_ := by simp
      name := by simp [isNameChar, isNameStart]
      escape := by simp [startsEscape]
      ident := by simp [startsIdent, startsEscape, isNameStart]
      dashed := by simp [startsIdent, startsEscape, isNameStart]
      digit := by simp [startsDigit]
      signed := by simp [startsDigit, signExtent]
      fraction := by simp [startsDigit, fractionExtent]
      exponent := by simp [exponentExtent_cons]
      sign := by simp
      tail := by simp [signTails]
      quote := by simp [trimStart, trimStartBy, isBlank, isQuote] }

theorem startsNumber_point (signed : sign ∈ [[], ['+'], ['-']]) (digit : d.isDigit) :
    startsNumber (sign ++ '.' :: d :: rest) ∧ startsNumber (sign ++ '0' :: '.' :: d :: rest) := by
  simp only [List.mem_cons, List.not_mem_nil, or_false] at signed
  rcases signed with rfl | rfl | rfl <;> simp [startsNumber, startsUnsigned, startsDigit, digit]

/-- **A number without the zero before its point is one token of the same kind**, with the same tokens
around it. -/
theorem tokenize_pointed (split : tokenize cs origin = front ++ t :: back) (kind : t.kind ∈ numberKinds)
    (signed : sign ∈ [[], ['+'], ['-']]) (digit : d.isDigit)
    (text : t.text = sign ++ '0' :: '.' :: d :: rest) : ∃ u back',
      tokenize (textOf front ++ (sign ++ '.' :: d :: rest ++ textOf back)) origin =
        front ++ u :: back' ∧
      u.kind = t.kind ∧ u.text = sign ++ '.' :: d :: rest ∧
      back'.map Token.lexeme = back.map Token.lexeme := by
  have parted : tokenize cs origin = (front ++ [t]) ++ back := by simp [split]
  have behind := cut_behind parted (by simp)
  have old : textOf ([t] ++ back) = sign ++ '0' :: '.' :: d :: (rest ++ textOf back) := by
    simp [textOf_cons, text]
  have new : sign ++ '.' :: d :: rest ++ textOf back = sign ++ '.' :: d :: (rest ++ textOf back) := by
    simp
  have measured : numeric (sign ++ '.' :: d :: (rest ++ textOf back)) =
      (t.kind, (sign ++ '.' :: d :: rest).length) := by
    obtain ⟨c, tail, whole, measured⟩ := exists_lexemeAt_text split (by rintro mark; simp [mark, numberKinds] at kind)
    have here : c :: (tail ++ textOf back) = sign ++ '0' :: '.' :: d :: (rest ++ textOf back) := by
      rw [← List.cons_append, ← whole, text]
      simp
    rw [lexemeAt_number (here ▸ (startsNumber_point signed digit).2), here, ← whole, text,
      numeric_zero_point signed, Prod.mk.injEq] at measured
    refine Prod.ext measured.1 ?_
    have length := measured.2
    simp only [List.length_append, List.length_cons] at length ⊢
    omega
  have own : cut scan false (sign ++ '.' :: d :: rest ++ textOf back) =
      [⟨t.kind, sign ++ '.' :: d :: rest⟩] ++ back.map Token.lexeme := by
    obtain ⟨e, tail, first⟩ := List.exists_cons_of_ne_nil
      (show sign ++ '.' :: d :: rest ≠ [] by simp)
    have starts : startsNumber (sign ++ '.' :: d :: (rest ++ textOf back)) :=
      (startsNumber_point signed digit).1
    rw [← new, first, List.cons_append] at starts measured
    rw [← behind, first]
    exact cut_of_lexemeAt (by rw [lexemeAt_number starts, measured])
  have ends : ∀ u ∈ front.getLast?, EndsBefore (textOf ([t] ++ back))
      (sign ++ '.' :: d :: rest ++ textOf back) u.lexeme := by
    rw [old, new]
    simp only [List.mem_cons, List.not_mem_nil, or_false] at signed
    rcases signed with rfl | rfl | rfl <;> exact fun u _ => ⟨by simp [isBlank], by simp⟩
  have mark : (sign ++ '.' :: d :: rest ++ textOf back).head? ≠ some '\uFEFF' := by
    simp only [List.mem_cons, List.not_mem_nil, or_false] at signed
    rcases signed with rfl | rfl | rfl <;> simp
  have alike : Alike (textOf ([t] ++ back)) (sign ++ '.' :: d :: rest ++ textOf back) := by
    rw [old, new]
    exact alike_zero_point signed
  exact ⟨_, _, tokenize_spliced split alike mark ends own, rfl, rfl, map_lexeme_locate _ _⟩

end PageLint.Css
