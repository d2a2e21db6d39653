/-
# PageLint.Number.Rounding — quotients, rounded

`roundDiv` rounds a quotient to the nearest integer, a half going to the even
neighbour. `fixedPlaces` writes a quotient with a fixed number of decimals, and
`toBinary` rounds it to a number of 53 significant bits, the precision of a double.
-/

namespace PageLint.Number

set_option autoImplicit false

/-- The integer nearest to `num / den`; of two, the even one. -/
def roundDiv (num den : Nat) : Nat :=
  let q := num / den
  let twice := 2 * (num % den)
  if twice < den then q
  else if twice > den then q + 1
  else if q % 2 = 0 then q else q + 1

/-- A rounded quotient is off by at most half. -/
theorem roundDiv_near (num den : Nat) (pos : 0 < den) :
    2 * num ≤ (2 * roundDiv num den + 1) * den ∧ 2 * (roundDiv num den * den) ≤ 2 * num + den := by
  have split := Nat.div_add_mod num den
  have below := Nat.mod_lt num pos
  simp only [roundDiv]
  rw [Nat.mul_comm den] at split
  generalize num / den = q at *
  generalize num % den = r at *
  have up : (q + 1) * den = q * den + den := by rw [Nat.add_mul, Nat.one_mul]
  split
  · rw [Nat.add_mul, Nat.mul_assoc]
    omega
  · split
    · rw [Nat.add_mul, Nat.mul_assoc, up]
      omega
    · split
      · rw [Nat.add_mul, Nat.mul_assoc]
        omega
      · rw [Nat.add_mul, Nat.mul_assoc, up]
        omega

/-- A number that is not negative, as a quotient. -/
structure Ratio where
  num : Nat
  den : Nat
  deriving DecidableEq, Repr

namespace Ratio

/-- An integer. -/
def ofNat (n : Nat) : Ratio := ⟨n, 1⟩

/-- The sum, without rounding. -/
def add (a b : Ratio) : Ratio := ⟨a.num * b.den + b.num * a.den, a.den * b.den⟩

/-- The product with an integer, without rounding. -/
def times (a : Ratio) (n : Nat) : Ratio := ⟨a.num * n, a.den⟩

/-- The quotient by an integer, without rounding. -/
def divBy (a : Ratio) (n : Nat) : Ratio := ⟨a.num, a.den * n⟩

/-- The nearest number of 53 significant bits; of two, the one whose last bit is
zero. The exponents of a double that bound its range are not reached by times. -/
def toBinary (a : Ratio) : Ratio :=
  if a.num = 0 then ⟨0, 1⟩
  else
    -- the quotient lies between 2 ^ (magnitude - 1) and 2 ^ (magnitude + 1)
    let bits (n : Nat) : Int := Nat.log2 n
    let magnitude := bits a.num - bits a.den
    let atLeast (e : Int) : Bool :=
      match e with
      | .ofNat n => a.den * Nat.pow 2 n ≤ a.num
      | .negSucc n => a.den ≤ a.num * Nat.pow 2 (n + 1)
    let exponent := if atLeast magnitude then magnitude else magnitude - 1
    match exponent - 52 with
    | .ofNat n => ⟨roundDiv a.num (a.den * Nat.pow 2 n) * Nat.pow 2 n, 1⟩
    | .negSucc n => ⟨roundDiv (a.num * Nat.pow 2 (n + 1)) a.den, Nat.pow 2 (n + 1)⟩

/-- The number with `places` decimals, a half going to the even neighbour. -/
def fixedPlaces (places : Nat) (a : Ratio) : String :=
  let scaled := roundDiv (a.num * Nat.pow 10 places) a.den
  let decimals := toString (scaled % Nat.pow 10 places)
  let zeros := String.ofList (List.replicate (places - decimals.length) '0')
  toString (scaled / Nat.pow 10 places) ++ "." ++ zeros ++ decimals

end Ratio

end PageLint.Number
