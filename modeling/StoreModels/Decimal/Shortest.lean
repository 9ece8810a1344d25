import StoreModels.Decimal.Binary64

/-!
The shortest decimal that reads back as a given number, and how it is written. Among the decimals with the fewest
digits the one nearest to the number is taken.
-/
namespace StoreModels.Decimal

/-- Digits times a power of ten. -/
structure Numeral where
  digits : Nat
  exponent : Int
  deriving DecidableEq, Repr

/-- The decimals that read back as a positive number: those between `low` and `high`, the ends counting where `closed`
    is set. All three are numerators over `den`. -/
structure Rounding where
  low : Nat
  value : Nat
  high : Nat
  den : Nat
  closed : Bool

/-- The interval of the decimals that read back as a number. Below a power of two the neighbours lie twice as
    close. -/
def Binary64.rounding (b : Binary64) : Rounding :=
  let below := if b.mantissa = Nat.pow 2 52 ∧ Binary64.leastExponent < b.exponent then 1 else 2
  let shift := b.exponent - 2
  let up := Nat.pow 2 shift.toNat
  { low := (4 * b.mantissa - below) * up
    value := 4 * b.mantissa * up
    high := (4 * b.mantissa + 2) * up
    den := Nat.pow 2 (-shift).toNat
    closed := b.mantissa % 2 = 0 }

/-- A multiple of a power of ten and a numerator over `den`, brought to one denominator. -/
def Rounding.level (r : Rounding) (digits : Nat) (exponent : Int) (num : Nat) : Nat × Nat :=
  (digits * Nat.pow 10 exponent.toNat * r.den, num * Nat.pow 10 (-exponent).toNat)

/-- Whether a decimal reads back as the number. -/
def Rounding.holds (r : Rounding) (digits : Nat) (exponent : Int) : Bool :=
  let (c, low) := r.level digits exponent r.low
  let (_, high) := r.level digits exponent r.high
  if r.closed then low ≤ c && c ≤ high else low < c && c < high

/-- The number in units of a power of ten, rounded down. -/
def Rounding.floor (r : Rounding) (exponent : Int) : Nat :=
  let (unit, value) := r.level 1 exponent r.value
  value / unit

/-- The exponent of the first digit. -/
def Rounding.magnitude (r : Rounding) : Int :=
  let guess : Int := ((toString r.value).length : Int) - ((toString r.den).length : Int)
  if 1 ≤ r.floor guess then guess else guess - 1

/-- The decimal with `count` digits nearest to the number, if one reads back as it. -/
def Rounding.within? (r : Rounding) (count : Nat) : Option Numeral :=
  let exponent := r.magnitude - (count : Int) + 1
  let d := r.floor exponent
  let (low, value) := r.level d exponent r.value
  let (high, _) := r.level (d + 1) exponent r.value
  match r.holds d exponent, r.holds (d + 1) exponent with
  | true, true => some ⟨if high - value < value - low then d + 1 else d, exponent⟩
  | true, false => some ⟨d, exponent⟩
  | false, true => some ⟨d + 1, exponent⟩
  | false, false => none

/-- The shortest decimal that reads back as a positive number. -/
def Rounding.shortest (r : Rounding) : Numeral :=
  ((List.range 17).findSome? fun n => r.within? (n + 1)).getD ⟨0, 0⟩

/-- Digits without the zeros at their end. -/
def significant (digits : List Char) : List Char := (digits.reverse.dropWhile (· == '0')).reverse

/-- The digits of a number after one another, with the point after the first `before` of them. -/
def withPoint (digits : List Char) (before : Nat) : List Char :=
  digits.take before ++ List.replicate (before - digits.length) '0' ++ '.' ::
    (if digits.length ≤ before then ['0'] else digits.drop before)

/-- A decimal as text, its first digit having exponent `magnitude`: with a point from -5 up to 15, otherwise with an
    exponent that always shows its sign. -/
def decimalText (digits : List Char) (magnitude : Int) : List Char :=
  if -5 ≤ magnitude ∧ magnitude < 0 then
    '0' :: '.' :: List.replicate ((-magnitude).toNat - 1) '0' ++ digits
  else if 0 ≤ magnitude ∧ magnitude < 16 then withPoint digits (magnitude.toNat + 1)
  else
    (if digits.length ≤ 1 then digits else digits.take 1 ++ '.' :: digits.drop 1) ++
      'e' :: (if 0 ≤ magnitude then '+' else '-') :: (toString magnitude.natAbs).toList

/-- How a number is written: the shortest decimal that reads back as it. -/
def Binary64.text (b : Binary64) : List Char :=
  let sign := if b.negative then ['-'] else []
  if b.mantissa = 0 then sign ++ ['0', '.', '0']
  else
    let d := b.rounding.shortest
    let digits := (toString d.digits).toList
    sign ++ decimalText (significant digits) (d.exponent + (digits.length : Int) - 1)

end StoreModels.Decimal
