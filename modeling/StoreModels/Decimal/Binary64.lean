/-!
Finite binary floating-point numbers of 64 bits, as exact values. Every rounding is to the nearest number, a tie going
to the even mantissa.
-/
namespace StoreModels.Decimal

/-- A finite number of 64 bits: the mantissa times two to the power of the exponent, with a sign that zero has too. A
    mantissa is below 2^53, and at least 2^52 unless the exponent is the least one. -/
structure Binary64 where
  negative : Bool
  mantissa : Nat
  exponent : Int
  deriving DecidableEq, Repr

namespace Binary64

/-- The least exponent. -/
def leastExponent : Int := -1074

/-- The greatest exponent. -/
def greatestExponent : Int := 971

/-- The quotient of two numbers rounded to the nearest integer, a half to the even one. -/
def roundedDiv (num den : Nat) : Nat :=
  let q := num / den
  let r := num % den
  if den < 2 * r ∨ (2 * r = den ∧ q % 2 = 1) then q + 1 else q

/-- A ratio divided by a power of two, again as a ratio. -/
def scaled (num den : Nat) (exponent : Int) : Nat × Nat :=
  if 0 ≤ exponent then (num, den * Nat.pow 2 exponent.toNat) else (num * Nat.pow 2 (-exponent).toNat, den)

/-- The exponent at which a positive ratio has a mantissa of 53 bits. -/
def exponentFor (num den : Nat) : Int :=
  let guess : Int := (num.log2 : Int) - (den.log2 : Int) - 52
  let (n, d) := scaled num den guess
  if n / d < Nat.pow 2 52 then guess - 1 else guess

/-- The number nearest to a ratio, unless it is too large. -/
def ofRatio? (negative : Bool) (num den : Nat) : Option Binary64 :=
  if num = 0 then some ⟨negative, 0, leastExponent⟩
  else
    let exponent := max (exponentFor num den) leastExponent
    let (n, d) := scaled num den exponent
    let mantissa := roundedDiv n d
    let (mantissa, exponent) := if mantissa = Nat.pow 2 53 then (Nat.pow 2 52, exponent + 1) else (mantissa, exponent)
    if greatestExponent < exponent then none else some ⟨negative, mantissa, exponent⟩

/-- The number nearest to `digits` times ten to the power of `exponent`, unless it is too large. Far beyond the range
    of the exponents no power is computed. -/
def ofDecimal? (negative : Bool) (digits : Nat) (exponent : Int) : Option Binary64 :=
  let magnitude := exponent + ((toString digits).length : Int)
  if digits = 0 ∨ magnitude < -400 then some ⟨negative, 0, leastExponent⟩
  else if 400 < magnitude then none
  else if 0 ≤ exponent then ofRatio? negative (digits * Nat.pow 10 exponent.toNat) 1
  else ofRatio? negative digits (Nat.pow 10 (-exponent).toNat)

/-- The number with the other sign. -/
def negate (b : Binary64) : Binary64 := { b with negative := !b.negative }

/-- The absolute value as an integer, when it is one. -/
def natAbs? (b : Binary64) : Option Nat :=
  if 0 ≤ b.exponent then some (b.mantissa * Nat.pow 2 b.exponent.toNat)
  else
    let d := Nat.pow 2 (-b.exponent).toNat
    if b.mantissa % d = 0 then some (b.mantissa / d) else none

end Binary64

end StoreModels.Decimal
