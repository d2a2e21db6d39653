/-
# PageLint.Proofs.Css.Dimensions — numbers and the units behind them

A dimension is taken apart twice. The lexer reads a number and the identifier behind it off what is left
of the stylesheet, and may look past the end of the token to do so. `Numeral.split` has no more than the
text of the token. Both part it at the same place (`dimension_parted`): on one text the two scanners
agree (`Numeral.text_split_eq`), and in front of the unit the number ends with or without what follows
the token (`numberExtent_cut_off`).

The number is one in full, with a digit in front of its exponent (`Numeral.Literal`), and such a number
can be read as a double (`Numeral.Literal.readsAsDouble`), so that of every dimension it can be said
whether it is zero.
-/
import PageLint.Proofs.Css.Kinds
import PageLint.Proofs.Css.Numbers

namespace PageLint.Css

set_option autoImplicit false

open Text

variable {c d : Char} {cs rest x : List Char} {n : Nat} {front back : Tokens} {t : Token TokenKind}
  {origin : Position}

/-! ## Texts that are read as doubles -/

/-- Digits, at least one. -/
def Digits (ds : List Char) : Prop := ds ≠ [] ∧ ∀ d ∈ ds, d.isDigit

/-- The part of a decimal number before its exponent: digits, with a point behind or among them or in
front. -/
inductive Mantissa : List Char → Prop
  | whole {ds : List Char} : Digits ds → Mantissa ds
  | pointed {ds fs : List Char} : Digits ds → (∀ d ∈ fs, d.isDigit) → Mantissa (ds ++ '.' :: fs)
  | fraction {ds fs : List Char} : (∀ d ∈ ds, d.isDigit) → Digits fs → Mantissa (ds ++ '.' :: fs)

/-- The exponent of a decimal number, or none. -/
inductive Exponent : List Char → Prop
  | absent : Exponent []
  | present {e : Char} {sign ds : List Char} : e = 'e' ∨ e = 'E' → sign ∈ [[], ['+'], ['-']] →
    Digits ds → Exponent (e :: (sign ++ ds))

/-- The decimal numbers that can be read as doubles, however large or long they are. The words for what
is infinite or no number are left out. -/
inductive ReadsAsDouble : List Char → Prop
  | decimal {sign mantissa exponent : List Char} : sign ∈ [[], ['+'], ['-']] → Mantissa mantissa →
    Exponent exponent → ReadsAsDouble (sign ++ (mantissa ++ exponent))

/-! ## Numbers as written -/

namespace Numeral

/-- A fraction with its point. -/
def fractionText : List Char → List Char
  | [] => []
  | digits => '.' :: digits

/-- An exponent with its letter and sign. -/
def exponentText : Option (Char × Option Char × List Char) → List Char
  | none => []
  | some (e, sign, digits) => e :: (sign.toList ++ digits)

/-- A number as written. -/
def text (n : Numeral) : List Char :=
  n.sign.toList ++ (n.whole ++ fractionText n.fraction ++ exponentText n.exponent)

theorem splitSign_text (cs : List Char) : (splitSign cs).1.toList ++ (splitSign cs).2 = cs := by
  unfold splitSign
  split <;> rfl

theorem splitDigits_text (cs : List Char) : (splitDigits cs).1 ++ (splitDigits cs).2 = cs := by
  rw [splitDigits, List.span_eq_takeWhile_dropWhile]
  exact List.takeWhile_append_dropWhile

theorem splitFraction_text (cs : List Char) :
    fractionText (splitFraction cs).1 ++ (splitFraction cs).2 = cs := by
  unfold splitFraction
  split
  next rest =>
    have parted := splitDigits_text rest
    split
    next => rfl
    next digits rest' some_ same =>
      rw [same] at parted
      cases digits with
      | nil => exact absurd rfl some_
      | cons d ds => exact congrArg ('.' :: ·) parted
  next => rfl

theorem splitExponent_text (cs : List Char) :
    exponentText (splitExponent cs).1 ++ (splitExponent cs).2 = cs := by
  cases cs with
  | nil => rfl
  | cons e rest =>
      rw [splitExponent]
      split
      next =>
        have signed := splitSign_text rest
        have parted := splitDigits_text (splitSign rest).2
        dsimp only
        split
        next => rfl
        next digits rest' some_ same =>
          rw [same] at parted
          rw [← parted] at signed
          show e :: ((splitSign rest).1.toList ++ digits) ++ rest' = e :: rest
          rw [List.cons_append, List.append_assoc, signed]
      next => rfl

/-- **Splitting loses nothing**: the number, written again, and its unit are the text. -/
theorem text_split (cs : List Char) : (split cs).1.text ++ (split cs).2 = cs := by
  simp only [split, text, List.append_assoc, splitExponent_text, splitFraction_text, splitDigits_text,
    splitSign_text]

/-- **The two scanners agree on one text**: what is split off is as much as the lexer takes for a
number. -/
theorem text_split_eq (cs : List Char) : (split cs).1.text = cs.take (numberExtent cs) := by
  have whole := text_split cs
  rw [split_snd] at whole
  exact List.append_cancel_right (whole.trans (List.take_append_drop _ _).symm)

/-! ## Numbers in full -/

/-- A number in full: digits before the exponent, at least one in all, and the exponent, if there is
one, with its digits. -/
structure Literal (n : Numeral) : Prop extends Decimal n where
  sign : n.sign.toList ∈ [[], ['+'], ['-']]
  some_ : n.whole ++ n.fraction ≠ []
  exponent : Exponent (exponentText n.exponent)

theorem sign_splitSign (cs : List Char) : (splitSign cs).1.toList ∈ [[], ['+'], ['-']] := by
  unfold splitSign
  split <;> simp

theorem exponent_splitExponent (cs : List Char) : Exponent (exponentText (splitExponent cs).1) := by
  cases cs with
  | nil => exact .absent
  | cons e rest =>
      rw [splitExponent]
      split
      next letter =>
        dsimp only
        split
        next => exact .absent
        next digits rest' some_ same =>
          refine .present letter (sign_splitSign rest) ⟨some_, ?_⟩
          rw [splitDigits, List.span_eq_takeWhile_dropWhile, Prod.mk.injEq] at same
          rw [← same.1]
          exact fun d member => List.mem_takeWhile_imp member
      next => exact .absent

/-- Where digits begin, or a point before a digit, some are split off. -/
theorem mantissa_ne_nil (starts : startsUnsigned cs) :
    (splitDigits cs).1 ++ (splitFraction (splitDigits cs).2).1 ≠ [] := by
  by_cases digit : startsDigit cs
  · obtain ⟨d, ds, parted⟩ := splitDigits_of_digit digit
    simp [parted]
  · have point : cs.head? = some '.' ∧ startsDigit (cs.drop 1) := by
      simpa [startsUnsigned, digit] using starts
    obtain ⟨rest, rfl⟩ := List.head?_eq_some_iff.mp point.1
    have whole : splitDigits ('.' :: rest) = ([], '.' :: rest) := splitDigits_of_not_digit rfl
    have some_ : startsDigit rest := point.2
    obtain ⟨d, ds, parted⟩ := splitDigits_of_digit some_
    simp [whole, splitFraction, parted]

/-- **Where the lexer sees a number, one in full is split off.** -/
theorem literal_split (starts : startsNumber cs) : (split cs).1.Literal where
  toDecimal := decimal_split cs
  sign := sign_splitSign cs
  some_ := by
    rw [startsNumber_eq, ← splitSign_snd] at starts
    exact mantissa_ne_nil starts
  exponent := exponent_splitExponent _

/-- **A number in full can be read as a double.** -/
theorem Literal.readsAsDouble {n : Numeral} (literal : n.Literal) : ReadsAsDouble n.text := by
  refine .decimal literal.sign ?_ literal.exponent
  cases digits : n.fraction with
  | nil =>
      have some_ : n.whole ≠ [] := by simpa [digits] using literal.some_
      rw [fractionText, List.append_nil]
      exact .whole ⟨some_, literal.whole⟩
  | cons d ds =>
      exact .fraction literal.whole ⟨List.cons_ne_nil d ds, digits ▸ literal.fraction⟩

end Numeral

/-! ## Texts cut off -/

/-- No number goes on at the end of a text. -/
theorem numbersAlike_nil (x : List Char) : NumbersAlike x [] where
  digit := fun digit => absurd digit Bool.false_ne_true
  signed := fun digit => absurd digit Bool.false_ne_true
  fraction := fun _ _ => rfl
  exponent := fun _ => rfl

/-- **A number is the same with the text cut off behind it.** -/
theorem numberExtent_cut_off (some_ : cs ≠ []) (within : numberExtent (cs ++ x) ≤ cs.length) :
    numberExtent cs = numberExtent (cs ++ x) := by
  simpa using numberExtent_alike (numbersAlike_nil x) some_ within

theorem startsNumber_cut_off (some_ : cs ≠ []) (within : numberExtent (cs ++ x) ≤ cs.length) :
    startsNumber cs = startsNumber (cs ++ x) := by
  simpa using startsNumber_alike (numbersAlike_nil x) some_ fun _ => within

theorem startsEscape_take (escape : startsEscape cs) : startsEscape (cs.take (nameExtent cs)) := by
  match cs, escape with
  | [c], escape => simp [startsEscape] at escape
  | c :: d :: cs, escape =>
      rw [startsEscape_cons] at escape
      have other : isNameChar c = false := by
        obtain ⟨rfl, -⟩ : c = '\\' ∧ d ≠ '\n' := by simpa using escape
        rfl
      rw [nameExtent, if_neg (by simp [other]), if_pos escape, Nat.add_comm, List.take_succ_cons,
        List.take_succ_cons, startsEscape_cons, escape]

/-- **An identifier is one by itself**, with the text cut off behind it. -/
theorem startsIdent_take (starts : startsIdent cs) : startsIdent (cs.take (nameExtent cs)) := by
  cases cs with
  | nil => cases starts
  | cons c rest =>
      by_cases dash : c = '-'
      · subst dash
        have long := one_lt_nameExtent_dash starts
        rw [nameExtent_cons (by decide)] at long
        rw [startsIdent_dash, Bool.or_eq_true] at starts
        rw [nameExtent_cons (by decide), List.take_succ_cons, startsIdent_dash, Bool.or_eq_true]
        refine starts.imp startsEscape_take fun first => ?_
        rwa [List.head?_take, if_neg (by omega)]
      · have some_ := nameExtent_pos starts
        obtain ⟨n, extent⟩ := Nat.exists_eq_succ_of_ne_zero some_.ne'
        have escape : startsEscape (c :: rest) →
            startsEscape ((c :: rest).take (nameExtent (c :: rest))) := startsEscape_take
        rw [extent, List.take_succ_cons] at escape ⊢
        rw [startsIdent_cons dash, Bool.or_eq_true] at starts ⊢
        exact starts.imp_right escape

/-! ## Dimensions -/

/-- The lexer reads a number only where one begins. -/
theorem startsNumber_of_kind (number : (lexemeAt c rest).1 ∈ numberKinds) :
    startsNumber (c :: rest) := by
  by_contra other
  simp only [lexemeAt, if_neg other] at number
  split at number
  next => exact absurd number (by simp [numberKinds])
  split at number
  next => exact absurd number (by simp [numberKinds])
  split at number
  next => exact absurd number (by simp [numberKinds])
  split at number
  next => exact absurd number (by simp [numberKinds])
  split at number
  next =>
    have word := kind_identLike (c :: rest)
    exact absurd number ((by decide : ∀ kind ∈ wordKinds, kind ∉ numberKinds) _ word)
  split at number
  next =>
    dsimp only at number
    split at number <;> exact absurd number (by simp [numberKinds])
  split at number
  next => exact absurd number (by simp [numberKinds])
  split at number
  next => exact absurd number (by simp [numberKinds])
  next =>
    have sign := kind_signKind c
    exact absurd number ((by decide : ∀ kind ∈ signKinds, kind ∉ numberKinds) _ sign)

/-- A dimension is a number and the identifier behind it. -/
theorem numeric_dimension (measured : numeric cs = (.dimension, n)) :
    startsIdent (cs.drop (numberExtent cs)) ∧
      n = numberExtent cs + nameExtent (cs.drop (numberExtent cs)) := by
  simp only [numeric] at measured
  split_ifs at measured with percent starts
  · cases measured
  · exact ⟨starts, (Prod.mk.inj measured).2.symm⟩
  · cases measured

/-- Where a dimension was read, and how far. -/
theorem dimension_read (split : tokenize cs origin = front ++ t :: back) (kind : t.kind = .dimension) :
    startsNumber (t.text ++ textOf back) ∧
      numeric (t.text ++ textOf back) = (.dimension, t.text.length) := by
  obtain ⟨c, tail, text, measured⟩ := exists_lexemeAt_text split (by simp [kind])
  rw [kind] at measured
  have starts : startsNumber (c :: (tail ++ textOf back)) :=
    startsNumber_of_kind (by simp [measured, numberKinds])
  rw [lexemeAt_number starts] at measured
  rw [text]
  exact ⟨starts, measured⟩

/-- **A dimension is parted where it was read.** Let `here` be what was left of the stylesheet when the
lexer came to the token. It took a number there and the identifier behind it, and these two are what the
text of the token is split into. The unit begins an identifier by itself; the number is one in full and
can be read as a double. -/
theorem dimension_parted (split : tokenize cs origin = front ++ t :: back) (kind : t.kind = .dimension) :
    let here := cs.drop (textOf front).length
    let number := here.take (numberExtent here)
    let behind := here.drop (numberExtent here)
    let unit := behind.take (nameExtent behind)
    (startsNumber here ∧ startsIdent behind ∧ t.text = number ++ unit) ∧
      ((Numeral.split t.text).1.text = number ∧ (Numeral.split t.text).2 = unit) ∧
      (unit ≠ [] ∧ startsIdent unit) ∧
      (Numeral.split t.text).1.Literal ∧ ReadsAsDouble number := by
  intro here number behind unit
  have left : here = t.text ++ textOf back := by
    show cs.drop _ = _
    rw [textOf_split split, List.drop_left, textOf_cons]
  obtain ⟨starts, measured⟩ := dimension_read split kind
  obtain ⟨named, extent⟩ := numeric_dimension (left ▸ measured)
  have some_ : t.text ≠ [] := text_ne_nil (show t ∈ tokenize cs origin by simp [split])
  have within : numberExtent (t.text ++ textOf back) ≤ t.text.length := by
    rw [extent, ← left]
    exact Nat.le_add_right _ _
  have whole : t.text = number ++ unit := by
    calc t.text
      _ = here.take t.text.length := by rw [left, List.take_left]
      _ = number ++ unit := by rw [extent, List.take_add]
  -- The lexer has looked past the token; with the text cut off there it sees the number end where it did.
  have length : numberExtent t.text = number.length := by
    rw [numberExtent_cut_off some_ within, ← left, List.length_take_of_le (numberExtent_le here)]
  have text : (Numeral.split t.text).1.text = number := by
    rw [Numeral.text_split_eq, length, whole, List.take_left]
  have literal : (Numeral.split t.text).1.Literal :=
    Numeral.literal_split ((startsNumber_cut_off some_ within).trans starts)
  have own : startsIdent unit := startsIdent_take named
  refine ⟨⟨left ▸ starts, named, whole⟩, ⟨text, ?_⟩, ⟨?_, own⟩, literal, text ▸ literal.readsAsDouble⟩
  · rw [Numeral.split_snd, length, whole, List.drop_left]
  · rintro none_
    rw [none_] at own
    cases own

/-- An exponent of the number, and behind it a unit that begins like another one. -/
theorem dimension_parted_behind_exponent :
    let cs := "a\x7bb:-.5e-3e-é+7\x7d".toList
    ∃ front t back, tokenize cs .start = front ++ t :: back ∧ t.kind = .dimension ∧
      (Numeral.split t.text).1.text = "-.5e-3".toList ∧ (Numeral.split t.text).2 = "e-é".toList ∧
      ReadsAsDouble "-.5e-3".toList := by
  intro cs
  let front := (tokenize cs .start).take 4
  let t : Token TokenKind := ⟨.dimension, "-.5e-3e-é".toList, ⟨⟨4, 1, 5⟩, ⟨14, 1, 14⟩⟩⟩
  let back := (tokenize cs .start).drop 5
  have split : tokenize cs .start = front ++ t :: back := by decide +kernel
  let here := cs.drop (textOf front).length
  obtain ⟨-, ⟨text, unit⟩, -, -, double⟩ := dimension_parted split rfl
  have number : here.take (numberExtent here) = "-.5e-3".toList := by decide +kernel
  have name : (here.drop (numberExtent here)).take (nameExtent (here.drop (numberExtent here))) =
      "e-é".toList := by decide +kernel
  exact ⟨front, t, back, split, rfl, text.trans number, unit.trans name, number ▸ double⟩

end PageLint.Css
