/-
# PageLint.Proofs.Css.Zeros — a zero in the place of a dimension

A lone `0` has neither the sign or the point nor the unit of the dimension it stands for, and may run
into what stands around it. It is a lexeme of its own if, and only if, what stands in front takes no
digit in (`TakesDigit`) and what stands behind begins with neither a percent sign nor a fraction
(`zeroed_iff`).
-/
import PageLint.Proofs.Css.Numbers
import PageLint.Proofs.Css.Quoted

namespace PageLint.Css

set_option autoImplicit false

open Text

variable {c d : Char} {cs rest tail v x z : List Char} {n : Nat} {kind : TokenKind}

/-! ## Where digits are taken in -/

/-- A lexeme that goes on with a digit behind it: a name or what ends with one, a number, and the signs
that begin a number or a hash. -/
def TakesDigit (piece : Lexeme TokenKind) : Prop :=
  piece.kind ∈ [.ident, .hash, .atKeyword, .number, .dimension] ∨
    piece.text ∈ [['#'], ['.'], ['+'], ['-']]

instance (piece : Lexeme TokenKind) : Decidable (TakesDigit piece) :=
  inferInstanceAs (Decidable (_ ∨ _))

theorem not_startsDigit (none_ : nameExtent cs = 0) : startsDigit cs = false := by
  have other := (nameExtent_eq_zero.mp none_).1
  cases cs with
  | nil => rfl
  | cons c cs =>
      by_contra digit
      simp only [startsDigit, Bool.not_eq_false] at digit
      simp [isNameChar, digit] at other

theorem startsDigit_drop_digits (cs : List Char) : startsDigit (cs.drop (digitsExtent cs)) = false := by
  rw [digitsExtent, drop_extentWhile, startsDigit_eq]
  cases left : cs.dropWhile Char.isDigit with
  | nil => rfl
  | cons c rest =>
      have stops := List.head?_dropWhile_not Char.isDigit cs
      rw [left] at stops
      simpa using stops

theorem startsDigit_drop_mantissa (cs : List Char) :
    startsDigit (cs.drop (mantissaExtent cs)) = false := by
  rw [mantissaExtent, ← List.drop_drop, fractionExtent]
  split
  · rw [← List.drop_drop]
    exact startsDigit_drop_digits _
  · exact startsDigit_drop_digits cs

/-- A number ends where no digit follows. -/
theorem startsDigit_drop_number (cs : List Char) : startsDigit (cs.drop (numberExtent cs)) = false := by
  rw [numberExtent_eq, unsignedExtent, ← List.drop_drop, ← List.drop_drop]
  generalize cs.drop (signExtent cs) = cs
  cases left : cs.drop (mantissaExtent cs) with
  | nil => simp [startsDigit]
  | cons e rest =>
      rw [exponentExtent_cons]
      split
      · rw [Nat.add_assoc, Nat.add_comm 1, List.drop_succ_cons, ← List.drop_drop]
        exact startsDigit_drop_digits _
      · rw [List.drop_zero, ← left]
        exact startsDigit_drop_mantissa cs

theorem numeric_ends (measured : numeric cs = (kind, n)) (kinds : kind = .number ∨ kind = .dimension) :
    startsDigit (cs.drop n) = false := by
  simp only [numeric] at measured
  split_ifs at measured
  · obtain ⟨rfl, -⟩ := Prod.mk.inj measured
    simp at kinds
  · rw [← (Prod.mk.inj measured).2, ← List.drop_drop]
    exact not_startsDigit (nameExtent_drop _)
  · rw [← (Prod.mk.inj measured).2]
    exact startsDigit_drop_number cs

theorem identLike_ends (measured : identLike cs = (.ident, n)) : nameExtent (cs.drop n) = 0 := by
  rw [identLike_eq] at measured
  split_ifs at measured <;> cases measured
  exact nameExtent_drop cs

/-- These signs are no lexemes in front of a digit. -/
theorem two_le_of_sign (sign : c ∈ ['#', '.', '+', '-']) : 2 ≤ (lexemeAt c ('0' :: z)).2 := by
  have digit : 0 < nameExtent ('0' :: z) := nameExtent_pos_of_isNameChar z rfl
  by_cases sharp : c = '#'
  · subst sharp
    simp [lexemeAt, isBlank, List.isPrefixOf, startsNumber, startsUnsigned, startsDigit, startsIdent,
      isNameStart, startsEscape, isQuote, digit.ne']
    omega
  · have starts : startsNumber (c :: '0' :: z) := by
      simp only [List.mem_cons, List.not_mem_nil, or_false, sharp, false_or] at sign
      rcases sign with rfl | rfl | rfl <;> simp [startsNumber, startsUnsigned, startsDigit]
    have digits := unsignedExtent_digit (c := '0') rfl z
    rw [lexemeAt_number starts]
    refine le_trans ?_ (numberExtent_le_numeric _)
    rw [numberExtent_eq]
    simp only [List.mem_cons, List.not_mem_nil, or_false, sharp, false_or] at sign
    rcases sign with rfl | rfl | rfl
    · have fraction : fractionExtent ('.' :: '0' :: z) = 1 + digitsExtent ('0' :: z) := rfl
      have some_ := digitsExtent_pos (show startsDigit ('0' :: z) from rfl)
      show 2 ≤ 0 + unsignedExtent ('.' :: '0' :: z)
      rw [unsignedExtent, mantissaExtent]
      show 2 ≤ 0 + (0 + fractionExtent ('.' :: '0' :: z) + _)
      omega
    all_goals
      show 2 ≤ 1 + unsignedExtent ('0' :: z)
      omega

/-- **A lexeme that a digit follows takes no digit in.** -/
theorem not_takesDigit (measured : lexemeAt c (tail ++ '0' :: z) = (kind, (c :: tail).length)) :
    ¬ TakesDigit ⟨kind, c :: tail⟩ := by
  have digit : 0 < nameExtent ('0' :: z) := nameExtent_pos_of_isNameChar z rfl
  rintro (named | signed)
  · have behind : (c :: (tail ++ '0' :: z)).drop (c :: tail).length = '0' :: z := by
      rw [← List.cons_append, List.drop_left]
    have shape := shape_of measured
    generalize (c :: tail).length = n at shape behind
    dsimp only at named
    cases shape with
    | number _ own kinds =>
        have ends := numeric_ends own (by
          simp only [numberKinds, List.mem_cons, List.not_mem_nil, or_false] at kinds
          rcases kinds with rfl | rfl | rfl <;> simp at named ⊢)
        rw [behind] at ends
        cases ends
    | word _ own kinds =>
        obtain rfl : kind = .ident := by
          simp only [wordKinds, List.mem_cons, List.not_mem_nil, or_false] at kinds
          rcases kinds with rfl | rfl | rfl <;> simp at named ⊢
        rw [← behind, identLike_ends own] at digit
        omega
    | hash first =>
        rw [Nat.add_comm, List.drop_succ_cons] at behind
        rw [← behind, nameExtent_drop] at digit
        omega
    | keyword first =>
        rw [Nat.add_comm, List.drop_succ_cons] at behind
        rw [← behind, nameExtent_drop] at digit
        omega
    | sign _ _ kinds =>
        exact (by decide : ∀ kind ∈ signKinds,
          kind ∉ [.ident, .hash, .atKeyword, .number, .dimension]) kind kinds named
    | _ => simp at named
  · simp only [List.mem_cons, List.cons.injEq, List.not_mem_nil, or_false] at signed
    obtain ⟨sign, rfl⟩ : c ∈ ['#', '.', '+', '-'] ∧ tail = [] := by
      rcases signed with ⟨rfl, rfl⟩ | ⟨rfl, rfl⟩ | ⟨rfl, rfl⟩ | ⟨rfl, rfl⟩ <;> simp
    have two := two_le_of_sign (z := z) sign
    rw [List.nil_append] at measured
    simp [measured] at two

/-! ## What takes no digit in -/

section Behind

variable {e : Char} {a : List Char}

theorem startsDigit_append (some_ : v ≠ []) (a b : List Char) :
    startsDigit (v ++ a) = startsDigit (v ++ b) := by
  cases v with
  | nil => exact absurd rfl some_
  | cons c v => rfl

theorem startsEscape_behind (solid : isBlank e = false) (some_ : v ≠ [])
    (escape : startsEscape (v ++ '0' :: z)) : startsEscape (v ++ e :: a) := by
  match v, some_ with
  | [c], _ =>
      have feed : e ≠ '\n' := by
        rintro rfl
        cases solid
      simp only [List.singleton_append, startsEscape_cons] at escape ⊢
      simpa [feed] using escape
  | c :: d :: v, _ => exact (startsEscape_cons c d _).trans ((startsEscape_cons c d _).symm.trans escape)

theorem startsIdent_behind (solid : isBlank e = false) (minus : c :: tail ≠ ['-'])
    (starts : startsIdent (c :: tail ++ '0' :: z)) : startsIdent (c :: tail ++ e :: a) := by
  by_cases dash : c = '-'
  · subst dash
    have some_ : tail ≠ [] := fun none_ => minus (by rw [none_])
    obtain ⟨d, more, rfl⟩ := List.exists_cons_of_ne_nil some_
    simp only [List.cons_append, startsIdent_dash, Bool.or_eq_true] at starts ⊢
    exact starts.imp_left (startsEscape_behind solid (List.cons_ne_nil d more))
  · simp only [List.cons_append, startsIdent_cons dash, Bool.or_eq_true] at starts ⊢
    exact starts.imp_right (startsEscape_behind solid (List.cons_ne_nil c tail))

/-- A sign that holds no zero ends before the zero. -/
theorem prefix_of_zero {sign : List Char} (plain : '0' ∉ sign) (leads : sign <+: v ++ '0' :: z) :
    sign <+: v := by
  rcases le_total sign.length v.length with short | long
  · exact List.prefix_of_prefix_length_le leads (List.prefix_append v _) short
  · obtain ⟨rest, rfl⟩ := List.prefix_of_prefix_length_le (List.prefix_append v _) leads long
    rw [List.prefix_append_right_inj] at leads
    cases rest with
    | nil => simp
    | cons d rest =>
        obtain ⟨rfl, -⟩ := List.cons_prefix_cons.mp leads
        simp at plain

/-- A sign in front of a zero is all there, and it is where it was in front of another lexeme. -/
theorem sign_zero {sign : List Char} (plain : '0' ∉ sign) (within : sign <+: v ++ x → sign.length ≤ v.length) :
    sign.isPrefixOf (v ++ '0' :: z) ↔ sign.isPrefixOf (v ++ x) := by
  rw [List.isPrefixOf_iff_prefix, List.isPrefixOf_iff_prefix]
  constructor
  · exact fun leads => (prefix_of_zero plain leads).trans (List.prefix_append v x)
  · exact fun leads => (List.prefix_of_prefix_length_le leads (List.prefix_append v x)
      (within leads)).trans (List.prefix_append v _)

/-- The digits of an exponent come before a parenthesis. -/
theorem drop_signExtent (paren : '(' ∈ tail) : ∃ more, more ≠ [] ∧
    ∀ w, (tail ++ w).drop (signExtent (tail ++ w)) = more ++ w := by
  cases tail with
  | nil => cases paren
  | cons d tail =>
      by_cases sign : d = '+' ∨ d = '-'
      · refine ⟨tail, ?_, fun w => by simp [signExtent, sign]⟩
        rintro rfl
        rcases sign with rfl | rfl <;> simp at paren
      · exact ⟨d :: tail, List.cons_ne_nil d tail, fun w => by simp [signExtent, sign]⟩

/-- **What stands in front of a lexeme sees no zero behind it**, unless the lexeme is one of a few signs
and words. -/
theorem alike_behind (solid : isBlank e = false) (quote : isQuote e = false)
    (sign : c :: tail ∉ [['.'], ['+'], ['-']]) (letter : c = 'e' ∨ c = 'E' → '(' ∈ tail) :
    Alike (c :: tail ++ e :: a) (c :: tail ++ '0' :: z) := by
  simp only [List.mem_cons, List.cons.injEq, List.not_mem_nil, or_false, not_or, not_and] at sign
  obtain ⟨point, plus, minus⟩ := sign
  have escape : startsEscape (c :: tail ++ '0' :: z) → startsEscape (c :: tail ++ e :: a) :=
    startsEscape_behind solid (List.cons_ne_nil c tail)
  exact
    { some_ := by simp
      name := id
      escape := escape
      ident := startsIdent_behind solid (by simpa using minus)
      dashed := by
        simp only [startsIdent_dash, Bool.or_eq_true]
        exact Or.imp_left escape
      digit := id
      signed := by
        by_cases sign : c = '+' ∨ c = '-'
        · have some_ : tail ≠ [] := sign.elim plus minus
          simp only [List.cons_append, signExtent, List.head?_cons, Option.some.injEq, sign, if_true,
            List.drop_one, List.tail_cons]
          rw [startsDigit_append some_ ('0' :: z) (e :: a)]
          exact id
        · simp [signExtent, sign, startsDigit]
      fraction := by
        intro _ none_
        by_cases dot : c = '.'
        · simp only [List.cons_append, fractionExtent, List.head?_cons, dot, true_and, List.drop_one,
            List.tail_cons] at none_ ⊢
          rw [startsDigit_append (point dot) ('0' :: z) (e :: a)]
          split at none_
          · omega
          next other => rw [if_neg other]
        · simp [fractionExtent, dot]
      exponent := by
        intro none_
        by_cases begins : c = 'e' ∨ c = 'E'
        · obtain ⟨more, some_, behind⟩ := drop_signExtent (letter begins)
          have other : startsDigit (more ++ e :: a) = false := by
            by_contra digit
            have some' := startsDigit_iff.mp (by simpa using digit)
            rw [List.cons_append, exponentExtent_cons, behind, if_pos ⟨begins, by simpa using digit⟩] at none_
            omega
          rw [List.cons_append, exponentExtent_cons, behind, startsDigit_append some_ _ (e :: a), other]
          simp
        · simp [exponentExtent_cons, begins]
      sign := fun _ _ first => first
      tail := by
        intro part member leads
        have plain : '0' ∉ part := by
          have each : ∀ part ∈ signTails, '0' ∉ part := by decide
          exact each part member
        exact (prefix_of_zero plain leads).trans (List.prefix_append _ _)
      quote := by
        have stays : (e :: a).dropWhile isBlank = e :: a := List.dropWhile_cons_of_neg (by simp [solid])
        simp only [trimStart, trimStartBy, List.dropWhile_append]
        cases left : (c :: tail).dropWhile isBlank with
        | nil => simp [stays, quote]
        | cons d more => exact id }

/-- What begins with a name and is more than the name holds a parenthesis behind it. -/
theorem exists_paren (measured : identLike (v ++ x) = (kind, v.length)) (other : kind ≠ .ident) :
    ∃ name inside, v = name ++ '(' :: inside ∧ nameExtent (v ++ x) = name.length := by
  rw [identLike_eq] at measured
  split at measured
  next paren =>
    have long : nameExtent (v ++ x) + 1 ≤ v.length := by
      split_ifs at measured <;> (have length := (Prod.mk.inj measured).2; omega)
    rw [List.drop_append_of_le_length (Nat.le_of_succ_le long)] at paren
    obtain ⟨inside, behind⟩ : ∃ inside, v.drop (nameExtent (v ++ x)) = '(' :: inside := by
      cases left : v.drop (nameExtent (v ++ x)) with
      | nil =>
          have none_ := List.drop_eq_nil_iff.mp left
          omega
      | cons d inside =>
          rw [left, List.cons_append, List.head?_cons, Option.some.injEq] at paren
          exact ⟨inside, by rw [paren]⟩
    refine ⟨v.take (nameExtent (v ++ x)), inside, ?_, ?_⟩
    · rw [← behind, List.take_append_drop]
    · rw [List.length_take_of_le (Nat.le_of_succ_le long)]
  next => exact absurd (Prod.mk.inj measured).1.symm other

/-- A function or an address in front of another lexeme is the same in front of a zero. -/
theorem word_zero (solid : isBlank e = false) (quote : isQuote e = false)
    (starts : startsIdent (v ++ e :: a)) (measured : identLike (v ++ e :: a) = (kind, v.length))
    (other : kind ≠ .ident) :
    startsIdent (v ++ '0' :: z) ∧ identLike (v ++ '0' :: z) = (kind, v.length) := by
  obtain ⟨name, inside, rfl, extent⟩ := exists_paren measured other
  have alike : Alike ('(' :: inside ++ e :: a) ('(' :: inside ++ '0' :: z) :=
    alike_behind solid quote (by simp) (by simp)
  have feeds (cs : List Char) : Feeds ('(' :: inside ++ e :: a) ('(' :: inside ++ '0' :: z) cs := by
    simp [Feeds]
  rw [List.append_assoc] at extent starts measured
  rw [List.append_assoc]
  have extent' := nameExtent_alike alike name extent.le (feeds _)
  refine ⟨(startsIdent_alike alike name (fun _ => feeds _) fun _ => extent.le).trans starts, ?_⟩
  have behind (w : List Char) : (name ++ '(' :: w).drop (name.length + 1) = w := by
    rw [List.drop_length_add_append]
    rfl
  have length : (name ++ '(' :: inside).length = name.length + 1 + inside.length := by
    rw [List.length_append, List.length_cons]
    omega
  rw [identLike_eq, extent, List.drop_left, List.take_left, List.cons_append, List.head?_cons,
    if_pos rfl, behind, length] at measured
  rw [identLike_eq, extent', extent, List.drop_left, List.take_left, List.cons_append, List.head?_cons,
    if_pos rfl, behind, length]
  by_cases url : sameIgnoringCase name "url"
  · rw [if_pos url] at measured ⊢
    by_cases opens : (trimStart (inside ++ e :: a)).head?.any isQuote
    · -- Nothing stands behind the parenthesis, and the lexeme that comes next is no string.
      rw [if_pos opens, Prod.mk.injEq] at measured
      obtain rfl : inside = [] := List.length_eq_zero_iff.mp (by omega)
      simp [trimStart, trimStartBy, solid, quote] at opens
    · rw [if_neg opens, Prod.mk.injEq] at measured
      have within : extentThrough ")" (inside ++ e :: a) ≤ inside.length := by omega
      obtain ⟨same, closed⟩ :=
        extentThrough_within (by decide) (List.cons_ne_nil e a) within ('0' :: z)
      have closes : ¬ (trimStart (inside ++ '0' :: z)).head?.any isQuote := by
        simp only [trimStart, trimStartBy, List.dropWhile_append] at opens ⊢
        cases left : inside.dropWhile isBlank with
        | nil =>
            have blank := List.dropWhile_eq_nil_iff.mp left ')' (closed.subset List.mem_cons_self)
            cases blank
        | cons d more =>
            rw [left] at opens
            exact opens
      rw [if_neg closes, same]
      exact Prod.ext measured.1 measured.2
  · rw [if_neg url] at measured ⊢
    exact measured

theorem exists_percent (measured : numeric (v ++ x) = (.percentage, v.length)) :
    ∃ digits, v = digits ++ ['%'] ∧ numberExtent (v ++ x) = digits.length := by
  simp only [numeric] at measured
  split_ifs at measured with percent
  · have length : numberExtent (v ++ x) + 1 = v.length := (Prod.mk.inj measured).2
    rw [List.drop_append_of_le_length (by omega)] at percent
    obtain ⟨d, last⟩ : ∃ d, v.drop (numberExtent (v ++ x)) = [d] :=
      List.length_eq_one_iff.mp (by rw [List.length_drop]; omega)
    rw [last, List.singleton_append, List.head?_cons, Option.some.injEq] at percent
    refine ⟨v.take (numberExtent (v ++ x)), ?_, ?_⟩
    · rw [← percent, ← last, List.take_append_drop]
    · rw [List.length_take_of_le (by omega)]
  · cases measured
  · cases measured

/-- A percentage in front of another lexeme is the same in front of a zero. -/
theorem percentage_zero (solid : isBlank e = false) (quote : isQuote e = false)
    (starts : startsNumber (v ++ e :: a)) (measured : numeric (v ++ e :: a) = (.percentage, v.length)) :
    startsNumber (v ++ '0' :: z) ∧ numeric (v ++ '0' :: z) = (.percentage, v.length) := by
  have number := numberExtent_pos starts
  obtain ⟨digits, rfl, extent⟩ := exists_percent measured
  rw [extent] at number
  have some_ : digits ≠ [] := List.length_pos_iff.mp number
  have alike : Alike (['%'] ++ e :: a) (['%'] ++ '0' :: z) := alike_behind solid quote (by simp) (by simp)
  rw [List.append_assoc] at extent starts
  have extent' := (numberExtent_alike alike.numbers some_ extent.le).trans extent
  rw [List.append_assoc]
  refine ⟨(startsNumber_alike alike.numbers some_ fun _ => extent.le).trans starts, ?_⟩
  simp only [numeric, extent', List.drop_left]
  simp

/-- No number begins in front of a zero where none does in front of another lexeme. -/
theorem not_startsNumber_zero (measured : lexemeAt c (tail ++ e :: a) = (kind, (c :: tail).length))
    (signs : c :: tail ∉ [['.'], ['+'], ['-']]) (other : startsNumber (c :: tail ++ e :: a) = false) :
    startsNumber (c :: tail ++ '0' :: z) = false := by
  simp only [List.mem_cons, List.cons.injEq, List.not_mem_nil, or_false, not_or, not_and] at signs
  obtain ⟨point, plus, minus⟩ := signs
  by_contra number
  rw [Bool.not_eq_false, List.cons_append, startsNumber_cons] at number
  have none_ := other
  rw [Bool.eq_false_iff, List.cons_append, ne_eq, startsNumber_cons] at other
  rcases number with digit | ⟨rfl, digit⟩ | ⟨sign, unsigned⟩
  · exact other (.inl digit)
  · rw [startsDigit_append (point rfl) ('0' :: z) (e :: a)] at digit
    exact other (.inr (.inl ⟨rfl, digit⟩))
  · obtain ⟨d, more, rfl⟩ := List.exists_cons_of_ne_nil (sign.elim plus minus)
    rw [List.cons_append, startsUnsigned_cons] at unsigned other
    rcases unsigned with digit | ⟨rfl, digit⟩
    · exact other (.inr (.inr ⟨sign, .inl digit⟩))
    · rcases eq_or_ne more [] with rfl | some_
      · -- A sign and a point in front of no digit are lexemes of one character.
        simp only [List.cons_append, List.nil_append] at none_
        rcases sign with rfl | rfl <;>
          simp [lexemeAt, isBlank, List.isPrefixOf, startsIdent, isNameStart, startsEscape, isQuote,
            none_] at measured
      · rw [startsDigit_append some_ ('0' :: z) (e :: a)] at digit
        exact other (.inr (.inr ⟨sign, .inr ⟨rfl, digit⟩⟩))

/-- **A lexeme that takes no digit in is the same in front of a zero** as in front of another lexeme
that is no string. -/
theorem lexemeAt_zero (solid : isBlank e = false) (quote : isQuote e = false)
    (measured : lexemeAt c (tail ++ e :: a) = (kind, (c :: tail).length))
    (takes : ¬ TakesDigit ⟨kind, c :: tail⟩) :
    lexemeAt c (tail ++ '0' :: z) = (kind, (c :: tail).length) := by
  rw [TakesDigit, not_or] at takes
  obtain ⟨named, signs⟩ := takes
  have some_ : e :: a ≠ [] := List.cons_ne_nil e a
  refine Eq.trans ?_ measured
  have number : startsNumber (c :: tail ++ e :: a) → (kind, (c :: tail).length) = numeric (c :: tail ++ e :: a) →
      startsNumber (c :: tail ++ '0' :: z) ∧
        numeric (c :: tail ++ '0' :: z) = numeric (c :: tail ++ e :: a) := by
    intro starts found
    have percent : kind = .percentage := by
      have own := kind_numeric (c :: tail ++ e :: a)
      rw [← found] at own
      simp only [numberKinds, List.mem_cons, List.not_mem_nil, or_false] at own
      rcases own with rfl | rfl | rfl <;> simp at named ⊢
    rw [percent] at found
    rw [← found]
    exact percentage_zero solid quote starts found.symm
  have word : startsIdent (c :: tail ++ e :: a) → (kind, (c :: tail).length) = identLike (c :: tail ++ e :: a) →
      startsIdent (c :: tail ++ '0' :: z) ∧
        identLike (c :: tail ++ '0' :: z) = identLike (c :: tail ++ e :: a) := by
    intro starts found
    rw [← found]
    refine word_zero solid quote starts found.symm ?_
    rintro rfl
    simp at named
  have found := measured.symm
  simp only [lexemeAt, ← List.cons_append] at found ⊢
  refine ite_alike found (fun _ => Iff.rfl) (fun _ found => ?_) fun _ found => ?_
  · obtain ⟨rfl, length⟩ := Prod.mk.inj found
    refine congrArg _ (settled_extentWhile (fun first => ?_) (c :: tail) length.ge)
    cases first
  have within {sign : List Char} {kind' : TokenKind} {n : Nat} (long : sign.length ≤ n)
      (own : sign.isPrefixOf (c :: tail ++ e :: a) → (kind, (c :: tail).length) = (kind', n)) :
      sign <+: c :: tail ++ e :: a → sign.length ≤ (c :: tail).length := by
    intro leads
    rw [(Prod.mk.inj (own (List.isPrefixOf_iff_prefix.mpr leads))).2]
    exact long
  refine ite_alike found (fun own => sign_zero (by decide) (within (Nat.le_add_right 2 _) own))
    (fun _ found => ?_) fun _ found => ?_
  · have two : 2 ≤ (c :: tail).length := (Nat.le_add_right 2 _).trans (Prod.mk.inj found).2.ge
    have length := (Prod.mk.inj found).2
    have room := List.length_drop (l := c :: tail) (i := 2)
    rw [List.drop_append_of_le_length two] at length ⊢
    rw [List.drop_append_of_le_length two, (extentThrough_within (by decide) some_ (by omega) _).1]
  refine ite_alike found (fun own => sign_zero (by decide) (within le_rfl own)) (fun _ _ => rfl)
    fun _ found => ?_
  refine ite_alike found (fun own => sign_zero (by decide) (within le_rfl own)) (fun _ _ => rfl)
    fun _ found => ?_
  refine ite_alike found (fun own => ⟨fun starts => ?_, fun starts => (number starts (own starts)).1⟩)
    (fun starts found => (number starts found).2) fun _ found => ?_
  · by_contra other
    have none_ := not_startsNumber_zero (z := z) measured
      (fun sign => signs (List.mem_cons_of_mem _ sign)) (by simpa using other)
    exact Bool.false_ne_true (none_.symm.trans starts)
  refine ite_alike found (fun own => ⟨fun starts => ?_, fun starts => (word starts (own starts)).1⟩)
    (fun starts found => (word starts found).2) fun _ found => ?_
  · exact startsIdent_behind solid (fun same => signs (by simp [same])) starts
  refine ite_alike found (fun _ => Iff.rfl) (fun string found => ?_) fun _ found => ?_
  · have length : tail.length + 1 = (stringExtent c (tail ++ e :: a)).1 + 1 := (Prod.mk.inj found).2
    have feed : e ≠ '\n' := by
      rintro rfl
      cases solid
    rw [stringExtent_settled some_ string tail (by omega) (by simp [feed])]
  by_cases sharp : c = '#'
  · subst sharp
    split at found
    · simp [(Prod.mk.inj found).1] at named
    · rw [if_neg (by simp)] at found
      obtain rfl : tail = [] := by simpa using (Prod.mk.inj found).2
      simp at signs
  have plain : ∀ n : Nat, ¬ (c == '#' && n != 0) = true := by simp [sharp]
  rw [if_neg (plain _)] at found ⊢
  rw [if_neg (plain _)]
  split at found
  · simp [(Prod.mk.inj found).1] at named
  next other =>
    obtain rfl : tail = [] := by simpa using (Prod.mk.inj found).2
    have none_ : startsIdent ('0' :: z) = false := by simp [startsIdent, isNameStart, startsEscape]
    rw [if_neg other, if_neg (by simp [none_])]

/-- Where a text is cut off that is no byte order mark. -/
theorem lexemeAt_of_cut {atHead : Bool} {later : List (Lexeme TokenKind)}
    (mark : ¬ (atHead ∧ c = '\uFEFF')) (cuts : cut scan atHead (c :: tail ++ x) = ⟨kind, c :: tail⟩ :: later) :
    lexemeAt c (tail ++ x) = (kind, (c :: tail).length) := by
  have short := lexemeAt_le c (tail ++ x)
  obtain ⟨n, extent⟩ := Nat.exists_eq_succ_of_ne_zero (lexemeAt_pos c (tail ++ x)).ne'
  rw [extent, List.length_cons] at short
  rw [List.cons_append, cut_cons, scan, if_neg mark] at cuts
  simp only [extent, Nat.succ_sub_one, List.cons.injEq, Lexeme.mk.injEq, true_and] at cuts
  have length := congrArg List.length cuts.1.2
  rw [List.length_take_of_le (Nat.le_of_succ_le_succ short)] at length
  exact Prod.ext cuts.1.1 (by rw [extent, length, List.length_cons])

/-- **A lexeme that takes no digit in is cut off in front of a zero** as in front of another lexeme. -/
theorem cut_zero {atHead : Bool} {later : List (Lexeme TokenKind)} (solid : isBlank e = false)
    (quote : isQuote e = false) (takes : ¬ TakesDigit ⟨kind, c :: tail⟩)
    (cuts : cut scan atHead (c :: tail ++ e :: a) = ⟨kind, c :: tail⟩ :: later) :
    cut scan atHead (c :: tail ++ '0' :: z) = ⟨kind, c :: tail⟩ :: cut scan false ('0' :: z) := by
  by_cases mark : atHead ∧ c = '\uFEFF'
  · rw [List.cons_append, cut_cons, scan, if_pos mark] at cuts
    obtain ⟨rfl, rfl⟩ : .byteOrderMark = kind ∧ [] = tail := by simpa using (List.cons.inj cuts).1
    rw [List.cons_append, cut_cons, scan, if_pos mark]
    rfl
  · have measured := lexemeAt_zero (z := z) solid quote (lexemeAt_of_cut mark cuts) takes
    rw [List.cons_append, cut_cons, scan, if_neg mark]
    simp [measured]

end Behind

/-! ## The sheet -/

/-- A zero that no unit follows is a lexeme if neither a percent sign nor a fraction does. -/
theorem lone_zero_iff (unit : nameExtent z = 0) :
    lexemeAt '0' z = (.number, 1) ↔ z.head? ≠ some '%' ∧ fractionExtent z = 0 := by
  have digits : digitsExtent z = 0 := by
    by_contra some_
    have digit := startsDigit_iff.mpr (Nat.pos_of_ne_zero some_)
    simp [not_startsDigit unit] at digit
  have exponent : exponentExtent z = 0 := by
    cases z with
    | nil => rfl
    | cons d z =>
        have other : ¬ (d = 'e' ∨ d = 'E') := by
          have name := (nameExtent_eq_zero.mp unit).1
          rintro (rfl | rfl) <;> simp [isNameChar, isNameStart] at name
        simp [exponentExtent_cons, other]
  have ident : startsIdent z = false := by
    by_contra starts
    have some_ := nameExtent_pos (by simpa using starts)
    omega
  have extent : numberExtent ('0' :: z) =
      fractionExtent z + exponentExtent (z.drop (fractionExtent z)) + 1 := by
    have mantissa : mantissaExtent z = fractionExtent z := by
      rw [mantissaExtent, digits, Nat.zero_add, List.drop_zero]
    rw [numberExtent_eq, ← mantissa, ← unsignedExtent]
    show 0 + unsignedExtent ('0' :: z) = _
    rw [unsignedExtent_digit rfl, Nat.zero_add]
  rw [lexemeAt_number rfl]
  constructor
  · intro measured
    have long := numberExtent_le_numeric ('0' :: z)
    rw [measured] at long
    have one : numberExtent ('0' :: z) = 1 := by omega
    refine ⟨fun percent => ?_, by omega⟩
    simp only [numeric, one, List.drop_one, List.tail_cons, percent, if_true] at measured
    cases measured
  · rintro ⟨percent, fraction⟩
    rw [fraction, List.drop_zero, exponent] at extent
    simp [numeric, extent, percent, ident]

/-- A dimension ends where no name goes on. -/
theorem dimension_ends (measured : lexemeAt c rest = (.dimension, n)) :
    nameExtent ((c :: rest).drop n) = 0 := by
  cases shape_of measured with
  | number _ own =>
      simp only [numeric] at own
      split_ifs at own
      · cases own
      · rw [← (Prod.mk.inj own).2, ← List.drop_drop]
        exact nameExtent_drop _
      · cases own
  | word _ _ kinds => exact absurd kinds (by decide)
  | sign _ _ kinds => exact absurd kinds (by decide)

/-- A dimension begins with neither white space nor a quote. -/
theorem head_of_dimension (measured : lexemeAt c rest = (.dimension, n)) :
    isBlank c = false ∧ isQuote c = false := by
  refine ⟨not_isBlank_of_ne_blank measured (by decide), ?_⟩
  by_contra quote
  rw [lexemeAt_quote (by simpa using quote)] at measured
  split_ifs at measured <;> cases measured

section Sheet

variable {front back : Tokens} {s t : Token TokenKind} {origin : Position}

/-- What is a token in front of a digit takes none in. -/
theorem not_takesDigit_of_split (split : tokenize cs origin = front ++ s :: back)
    (digit : (textOf back).head? = some '0') : ¬ TakesDigit s.lexeme := by
  by_cases mark : s.kind = .byteOrderMark
  · have member : s ∈ tokenize cs origin := by simp [split]
    have text : s.text = ['\uFEFF'] := text_of_byteOrderMark (mem_of_mem_locate member) mark
    rw [Token.lexeme, text, mark]
    decide
  · obtain ⟨c, tail, text, measured⟩ := exists_lexemeAt_text split mark
    obtain ⟨z, behind⟩ := List.head?_eq_some_iff.mp digit
    rw [behind] at measured
    rw [Token.lexeme, text]
    exact not_takesDigit measured

/-- In front of a zero the lexemes stay if the last of them takes no digit in. -/
theorem lexemes_before_zero {mid : Tokens} {e : Char} {a : List Char}
    (split : tokenize cs origin = front ++ s :: mid) (shown : textOf mid = e :: a)
    (solid : isBlank e = false) (quote : isQuote e = false) (takes : ¬ TakesDigit s.lexeme)
    (z : List Char) : lexemes (textOf front ++ (s.text ++ '0' :: z)) =
      front.map Token.lexeme ++ s.lexeme :: cut scan false ('0' :: z) := by
  have member : s ∈ tokenize cs origin := by simp [split]
  obtain ⟨c, tail, text⟩ := List.exists_cons_of_ne_nil (text_ne_nil member)
  have own : s.lexeme = ⟨s.kind, c :: tail⟩ := by rw [Token.lexeme, text]
  have inside : textOf (s :: mid) = c :: tail ++ e :: a := by rw [textOf_cons, text, shown]
  obtain ⟨cuts, -, -⟩ := locate_split split
  rw [textOf_split split, lexemes, inside, List.map_cons, own] at cuts
  rw [own] at takes
  rw [text, own]
  rcases eq_or_ne front [] with rfl | some_
  · exact cut_zero solid quote takes cuts
  · have later := cut_behind split some_
    rw [inside, List.map_cons, own] at later
    have letter : c = 'e' ∨ c = 'E' → '(' ∈ tail := by
      intro letter
      have alpha : c.isAlpha := by rcases letter with rfl | rfl <;> rfl
      have measured := lexemeAt_of_cut (by simp) later
      rw [lexemeAt_letter alpha] at measured
      obtain ⟨name, inside, paren, -⟩ := exists_paren (v := c :: tail) measured fun ident =>
        takes (.inl (by simp [ident]))
      have member : '(' ∈ c :: tail := by simp [paren]
      refine (List.mem_cons.mp member).resolve_left ?_
      rintro rfl
      cases alpha
    have alike : Alike (c :: tail ++ e :: a) (c :: tail ++ '0' :: z) :=
      alike_behind solid quote (fun sign => takes (.inr (List.mem_cons_of_mem _ sign))) letter
    have ends : ∀ piece ∈ (front.map Token.lexeme).getLast?,
        EndsBefore (c :: tail ++ e :: a) (c :: tail ++ '0' :: z) piece :=
      fun piece _ => ⟨fun _ blank => blank, .inl⟩
    rw [lexemes, cut_alike alike (fun _ none_ => absurd (List.map_eq_nil_iff.mp none_) some_) ends cuts
      (texts_lexemes front), cut_zero solid quote takes later]

/-- **A zero in the place of a dimension.** The lexemes around it stay and it is a lexeme of its own if,
and only if, the one in front takes no digit in, and neither a percent sign nor a fraction follows. -/
theorem zeroed_iff (split : tokenize cs origin = front ++ t :: back) (kind : t.kind = .dimension) :
    lexemes (textOf front ++ ('0' :: textOf back)) =
        front.map Token.lexeme ++ ⟨.number, ['0']⟩ :: back.map Token.lexeme ↔
      (∀ s ∈ front.getLast?, ¬ TakesDigit s.lexeme) ∧ (textOf back).head? ≠ some '%' ∧
        fractionExtent (textOf back) = 0 := by
  obtain ⟨e, more, text, measured⟩ := exists_lexemeAt_text split (by simp [kind])
  rw [kind] at measured
  obtain ⟨solid, quote⟩ := head_of_dimension measured
  have shown : textOf (t :: back) = e :: (more ++ textOf back) := by
    rw [textOf_cons, text]
    rfl
  have unit : nameExtent (textOf back) = 0 := by
    have ends := dimension_ends measured
    rwa [← List.cons_append, List.drop_left] at ends
  have parted : tokenize cs origin = (front ++ [t]) ++ back := by simp [split]
  rw [← lone_zero_iff unit]
  constructor
  · intro tokens
    obtain ⟨-, first, -⟩ := locate_split split
    have located : tokenize (textOf front ++ '0' :: textOf back) origin =
        front ++ locate (origin.after (textOf front)) (⟨.number, ['0']⟩ :: back.map Token.lexeme) := by
      rw [tokenize, tokens, locate_append, first, List.flatMap_def, texts_lexemes]
    rw [locate] at located
    have behind' (p : Position) : textOf (locate p (back.map Token.lexeme)) = textOf back := by
      rw [textOf, map_text_locate, texts_lexemes]
    refine ⟨fun s last => ?_, ?_⟩
    · obtain ⟨before, rfl⟩ := List.getLast?_eq_some_iff.mp last
      rw [List.append_assoc] at located
      exact not_takesDigit_of_split located rfl
    · obtain ⟨c', tail, text', measured'⟩ := exists_lexemeAt_text located (by simp)
      obtain ⟨rfl, rfl⟩ := List.cons.inj text'
      rw [behind'] at measured'
      exact measured'
  · rintro ⟨takes, lone⟩
    have zero : cut scan false ('0' :: textOf back) = ⟨.number, ['0']⟩ :: back.map Token.lexeme := by
      rw [← cut_behind parted (by simp)]
      exact cut_of_lexemeAt (show lexemeAt '0' ([] ++ textOf back) = _ from lone)
    rcases List.eq_nil_or_concat' front with rfl | ⟨before, s, rfl⟩
    · rw [lexemes, cut_head (by simp [textOf])]
      exact zero
    · have whole : tokenize cs origin = before ++ s :: (t :: back) := by simp [split]
      have tokens := lexemes_before_zero whole shown solid quote (takes s (by simp)) (textOf back)
      rw [zero] at tokens
      simpa [textOf_append, textOf_cons, textOf] using tokens

end Sheet

end PageLint.Css
