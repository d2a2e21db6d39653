/-
# PageLint.Proofs.Css.Numerals — what a number comes to

The value of a number as written is a rational number: its digits, scaled by a power of ten
(`Numeral.value`). Nothing is rounded there, so it is zero only if all digits before the exponent are
(`Numeral.value_eq_zero_iff`). Double precision holds as zero whatever is at most half of its least
positive number, which is what `Numeral.isZero` decides (`Numeral.isZero_iff`).

`Numeral.split` leaves the unit where the lexer sees the number end (`Numeral.split_snd`), and a zero
before the point counts for nothing (`Numeral.split_point`).
-/
import PageLint.Css.Numeral
import PageLint.Proofs.Css.Lookahead

namespace PageLint

set_option autoImplicit false

/-! ## Digits -/

namespace Text

variable {d : Char} {ds : List Char}

theorem digitsValue_concat (base : Nat) (ds : List Char) (d : Char) :
    digitsValue base (ds ++ [d]) = digitsValue base ds * base + hexValue d := by
  simp [digitsValue]

theorem digitsValue_zero_cons (base : Nat) (ds : List Char) :
    digitsValue base ('0' :: ds) = digitsValue base ds := by
  have zero : hexValue '0' = 0 := by decide
  simp [digitsValue, zero]

theorem hexValue_of_isDigit (digit : d.isDigit) : hexValue d = d.toNat - '0'.toNat := by
  rw [hexValue, if_pos digit]

theorem toNat_of_isDigit (digit : d.isDigit) : '0'.toNat ≤ d.toNat ∧ d.toNat ≤ '9'.toNat := by
  simpa [Char.isDigit, UInt32.le_iff_toNat_le] using digit

theorem hexValue_lt_ten (digit : d.isDigit) : hexValue d < 10 := by
  obtain ⟨-, most⟩ := toNat_of_isDigit digit
  have nine : '9'.toNat = '0'.toNat + 9 := by decide
  rw [hexValue_of_isDigit digit]
  omega

theorem hexValue_eq_zero_iff (digit : d.isDigit) : hexValue d = 0 ↔ d = '0' := by
  obtain ⟨least, -⟩ := toNat_of_isDigit digit
  rw [hexValue_of_isDigit digit, ← Char.toNat_inj]
  omega

/-- Some digits come to less than the power of ten that has one digit more. -/
theorem digitsValue_lt (digits : ∀ d ∈ ds, d.isDigit) : digitsValue 10 ds < 10 ^ ds.length := by
  induction ds using List.reverseRecOn with
  | nil => simp [digitsValue]
  | append_singleton ds d ih =>
      have last := hexValue_lt_ten (digits d (by simp))
      have front := ih fun d member => digits d (List.mem_append_left _ member)
      rw [digitsValue_concat, List.length_append, List.length_singleton, Nat.pow_succ]
      omega

theorem digitsValue_eq_zero_iff (digits : ∀ d ∈ ds, d.isDigit) :
    digitsValue 10 ds = 0 ↔ ∀ d ∈ ds, d = '0' := by
  induction ds using List.reverseRecOn with
  | nil => simp [digitsValue]
  | append_singleton ds d ih =>
      have last := hexValue_eq_zero_iff (digits d (by simp))
      have front := ih fun d member => digits d (List.mem_append_left _ member)
      rw [digitsValue_concat, Nat.add_eq_zero_iff, Nat.mul_eq_zero, front, last]
      simp [or_imp, forall_and]

end Text

namespace Css.Numeral

open Text

variable {n : Numeral} {cs : List Char}

/-! ## Values -/

/-- The exact value of a number. -/
def value (n : Numeral) : ℚ := (if n.sign = some '-' then -1 else 1) * (n.digits * 10 ^ n.scale)

/-- What stands before the exponent are digits. -/
structure Decimal (n : Numeral) : Prop where
  whole : ∀ d ∈ n.whole, d.isDigit
  fraction : ∀ d ∈ n.fraction, d.isDigit

theorem Decimal.mantissa (decimal : n.Decimal) : ∀ d ∈ n.whole ++ n.fraction, d.isDigit :=
  List.forall_mem_append.mpr ⟨decimal.whole, decimal.fraction⟩

theorem abs_value (n : Numeral) : |n.value| = n.digits * 10 ^ n.scale := by
  have sign : |(if n.sign = some '-' then -1 else 1 : ℚ)| = 1 := by split <;> simp
  have size : (0 : ℚ) ≤ n.digits * 10 ^ n.scale := by positivity
  rw [value, abs_mul, sign, one_mul, abs_of_nonneg size]

/-- **A number is zero if and only if its digits are**, whatever its exponent. -/
theorem value_eq_zero_iff (decimal : n.Decimal) :
    n.value = 0 ↔ ∀ d ∈ n.whole ++ n.fraction, d = '0' := by
  have power : (10 : ℚ) ^ n.scale ≠ 0 := zpow_ne_zero _ (by norm_num)
  rw [← abs_eq_zero, abs_value, mul_eq_zero_iff_right power, Nat.cast_eq_zero, digits,
    digitsValue_eq_zero_iff decimal.mantissa]

/-! ## Zero in double precision -/

theorem two_pow_le_ten_pow (n : Nat) : 2 ^ (3 * n) ≤ 10 ^ n := by
  rw [Nat.pow_mul]
  exact Nat.pow_le_pow_left (by norm_num) n

/-- How small digits scaled down are, without a fraction. -/
theorem scaled_le_iff (digits n : Nat) : (digits : ℚ) * 10 ^ (Int.negSucc n) ≤ 2 ^ (-1075 : ℤ) ↔
    digits * 2 ^ 1075 ≤ 10 ^ (n + 1) := by
  have two : (0 : ℚ) < 2 ^ 1075 := by positivity
  have ten : (0 : ℚ) < 10 ^ (n + 1) := by positivity
  rw [zpow_negSucc, zpow_neg, zpow_ofNat, ← div_eq_mul_inv, ← one_div, div_le_div_iff₀ ten two,
    one_mul]
  exact_mod_cast Iff.rfl

/-- A whole number is either zero or far too large. -/
theorem whole_le_iff (digits n : Nat) :
    (digits : ℚ) * 10 ^ (Int.ofNat n) ≤ 2 ^ (-1075 : ℤ) ↔ digits = 0 := by
  constructor
  · intro small
    by_contra some_
    have one : (1 : ℚ) ≤ digits * 10 ^ (Int.ofNat n) := by
      rw [Int.ofNat_eq_natCast, zpow_natCast]
      exact_mod_cast Nat.mul_pos (Nat.pos_of_ne_zero some_) (Nat.pow_pos (by norm_num))
    have less : (2 : ℚ) ^ (-1075 : ℤ) < 1 := zpow_lt_one_of_neg₀ (by norm_num) (by norm_num)
    exact absurd (one.trans small) less.not_ge
  · rintro rfl
    rw [Nat.cast_zero, zero_mul]
    positivity

/-- The bound on the number of digits is only a short cut. -/
theorem vanishes_iff {digits count : Nat} (bounded : digits < 10 ^ count) (scale : Int) :
    vanishes digits count scale ↔ (digits : ℚ) * 10 ^ scale ≤ 2 ^ (-1075 : ℤ) := by
  cases scale with
  | ofNat n => rw [whole_le_iff, vanishes, beq_iff_eq]
  | negSucc n =>
      have short : count + 400 ≤ n + 1 → digits * 2 ^ 1075 ≤ 10 ^ (n + 1) := fun far =>
        calc digits * 2 ^ 1075
          _ ≤ 10 ^ count * 2 ^ (3 * 400) :=
            Nat.mul_le_mul bounded.le (Nat.pow_le_pow_right (by norm_num) (by norm_num))
          _ ≤ 10 ^ count * 10 ^ 400 := Nat.mul_le_mul_left _ (two_pow_le_ten_pow 400)
          _ = 10 ^ (count + 400) := by rw [Nat.pow_add]
          _ ≤ 10 ^ (n + 1) := Nat.pow_le_pow_right (by norm_num) far
      have none_ : digits = 0 → digits * 2 ^ 1075 ≤ 10 ^ (n + 1) := by
        rintro rfl
        rw [Nat.zero_mul]
        exact Nat.zero_le _
      rw [scaled_le_iff]
      simp only [vanishes, Nat.pow_eq, Bool.or_eq_true, beq_iff_eq, decide_eq_true_eq]
      exact ⟨fun either => either.elim (fun either => either.elim none_ short) id, .inr⟩

/-- **Zero in double precision is what lies no further from zero than half of its least positive
number**, which is 2 to the power of -1074. -/
theorem isZero_iff (decimal : n.Decimal) : n.isZero ↔ |n.value| ≤ 2 ^ (-1075 : ℤ) := by
  have bounded : n.digits < 10 ^ (n.whole.length + n.fraction.length) := by
    rw [← List.length_append]
    exact digitsValue_lt decimal.mantissa
  rw [isZero, vanishes_iff bounded, abs_value]

/-! ## Parts of a text -/

theorem splitSign_snd (cs : List Char) : (splitSign cs).2 = cs.drop (signExtent cs) := by
  unfold splitSign
  split
  · rfl
  · rfl
  next plus minus =>
    have none_ : ¬ (cs.head? = some '+' ∨ cs.head? = some '-') := by
      rintro (first | first) <;> obtain ⟨rest, rfl⟩ := List.head?_eq_some_iff.mp first
      · exact plus rest rfl
      · exact minus rest rfl
    rw [signExtent, if_neg none_, List.drop_zero]

theorem splitDigits_snd (cs : List Char) : (splitDigits cs).2 = cs.drop (digitsExtent cs) := by
  rw [splitDigits, List.span_eq_takeWhile_dropWhile, digitsExtent, drop_extentWhile]

theorem splitDigits_of_digit (digit : startsDigit cs) : ∃ d ds,
    splitDigits cs = (d :: ds, cs.drop (digitsExtent cs)) := by
  cases cs with
  | nil => cases digit
  | cons d rest =>
      refine ⟨d, rest.takeWhile Char.isDigit, Prod.ext ?_ (splitDigits_snd _)⟩
      rw [splitDigits, List.span_eq_takeWhile_dropWhile]
      exact List.takeWhile_cons_of_pos digit

theorem splitDigits_of_not_digit (other : startsDigit cs = false) : splitDigits cs = ([], cs) := by
  cases cs with
  | nil => rfl
  | cons d rest =>
      have stops : d.isDigit = false := other
      simp [splitDigits, List.span_eq_takeWhile_dropWhile, stops]

theorem splitFraction_snd (cs : List Char) : (splitFraction cs).2 = cs.drop (fractionExtent cs) := by
  unfold splitFraction
  split
  next rest =>
    by_cases digit : startsDigit rest
    · obtain ⟨d, ds, parted⟩ := splitDigits_of_digit digit
      simp [fractionExtent, digit, parted, Nat.add_comm 1]
    · simp [fractionExtent, digit, splitDigits_of_not_digit (by simpa using digit)]
  next other =>
    have none_ : cs.head? ≠ some '.' := fun first =>
      (List.head?_eq_some_iff.mp first).elim fun rest same => other rest same
    simp [fractionExtent, none_]

theorem splitExponent_snd (cs : List Char) : (splitExponent cs).2 = cs.drop (exponentExtent cs) := by
  cases cs with
  | nil => rfl
  | cons e rest =>
      by_cases letter : e = 'e' ∨ e = 'E'
      · by_cases digit : startsDigit (rest.drop (signExtent rest))
        · obtain ⟨d, ds, parted⟩ := splitDigits_of_digit digit
          have extent : 1 + signExtent rest + digitsExtent (rest.drop (signExtent rest)) =
              signExtent rest + digitsExtent (rest.drop (signExtent rest)) + 1 := by omega
          simp only [splitExponent, exponentExtent_cons, letter, digit, and_self, if_true,
            splitSign_snd, parted, extent, List.drop_succ_cons, List.drop_drop]
        · have parted := splitDigits_of_not_digit (by simpa using digit)
          rw [← splitSign_snd] at parted
          simp [splitExponent, exponentExtent_cons, letter, digit, parted]
      · simp [splitExponent, exponentExtent_cons, letter]

/-- **The unit of a number begins where the lexer sees the number end.** -/
theorem split_snd (cs : List Char) : (split cs).2 = cs.drop (numberExtent cs) := by
  simp only [split, splitExponent_snd, splitFraction_snd, splitDigits_snd, splitSign_snd,
    List.drop_drop, numberExtent]

theorem decimal_split (cs : List Char) : (split cs).1.Decimal := by
  have digits (cs : List Char) : ∀ d ∈ (splitDigits cs).1, d.isDigit := by
    rw [splitDigits, List.span_eq_takeWhile_dropWhile]
    exact fun d member => List.mem_takeWhile_imp member
  refine ⟨digits _, fun d member => ?_⟩
  simp only [split, splitFraction] at member
  split at member
  · split at member
    · cases member
    next digits' rest' some_ parted => exact digits _ d (by rwa [parted])
  · cases member

/-- **A zero in front of the point counts for nothing**: without it the number has the same value and
the same unit. -/
theorem split_point {sign : List Char} (signed : sign ∈ [[], ['+'], ['-']]) (rest : List Char) :
    (split (sign ++ '.' :: rest)).2 = (split (sign ++ '0' :: '.' :: rest)).2 ∧
      (split (sign ++ '.' :: rest)).1.value = (split (sign ++ '0' :: '.' :: rest)).1.value := by
  have point : splitDigits ('.' :: rest) = ([], '.' :: rest) := splitDigits_of_not_digit rfl
  have zero : splitDigits ('0' :: '.' :: rest) = (['0'], '.' :: rest) := by
    simp [splitDigits, List.span_eq_takeWhile_dropWhile]
  have signs : splitSign (sign ++ '.' :: rest) = (sign.head?, '.' :: rest) ∧
      splitSign (sign ++ '0' :: '.' :: rest) = (sign.head?, '0' :: '.' :: rest) := by
    simp only [List.mem_cons, List.not_mem_nil, or_false] at signed
    rcases signed with rfl | rfl | rfl <;> exact ⟨rfl, rfl⟩
  constructor
  · simp only [split, signs, point, zero]
  · simp only [split, signs, point, zero, value, digits, scale, List.nil_append, List.singleton_append,
      digitsValue_zero_cons]

end Css.Numeral

end PageLint
