import StoreModels.Decimal.Shortest

/-!
Digits and the numbers that texts of digits spell, and number literals. Integers are exact: in decimal up to 2^63 - 1,
after a radix prefix up to 2^64 - 1; all other numbers are floating-point.
-/
namespace StoreModels.Literal
open Decimal (Binary64)

/-- The value of a digit in the bases up to sixteen. -/
def digitValue? (c : Char) : Option Nat :=
  if '0' ≤ c ∧ c ≤ '9' then some (c.toNat - '0'.toNat)
  else if 'a' ≤ c ∧ c ≤ 'f' then some (c.toNat - 'a'.toNat + 10)
  else if 'A' ≤ c ∧ c ≤ 'F' then some (c.toNat - 'A'.toNat + 10)
  else none

/-- The value of a digit of one base. -/
def digitOf? (base : Nat) (c : Char) : Option Nat := (digitValue? c).filter (· < base)

/-- A hexadecimal digit. -/
def isHexDigit (c : Char) : Bool := (digitValue? c).isSome

/-- The number that digits of a base spell after a number read so far. -/
def numberFrom? (base : Nat) : Nat → List Char → Option Nat
  | value, [] => some value
  | value, c :: rest => match digitOf? base c with
    | some d => numberFrom? base (value * base + d) rest
    | none => none

/-- The number that one or more digits spell. -/
def number? (base : Nat) (text : List Char) : Option Nat :=
  if text.isEmpty then none else numberFrom? base 0 text

/-- The number that digits spell, a plus sign in front of them allowed, if it is below `limit`. -/
def unsigned? (base limit : Nat) (text : List Char) : Option Nat :=
  let digits := match text with
    | '+' :: rest => rest
    | _ => text
  (number? base digits).filter (· < limit)

/-! ## Literals -/

/-- The value of a number literal. -/
inductive Number
  | integer (value : Int)
  | float (value : Binary64)
  deriving DecidableEq, Repr

/-- The base that the first two characters of a literal announce. -/
def radix? : List Char → Option Nat
  | '0' :: 'x' :: _ | '0' :: 'X' :: _ => some 16
  | '0' :: 'o' :: _ | '0' :: 'O' :: _ => some 8
  | '0' :: 'b' :: _ | '0' :: 'B' :: _ => some 2
  | _ => none

/-- A sign and what follows it. -/
def splitSign : List Char → Bool × List Char
  | '+' :: rest => (false, rest)
  | '-' :: rest => (true, rest)
  | rest => (false, rest)

/-- A signed decimal integer of 64 bits. -/
def signed? (text : List Char) : Option Int :=
  let (negative, digits) := splitSign text
  (number? 10 digits).bind fun n =>
    if negative then (if n ≤ Nat.pow 2 63 then some (-(n : Int)) else none)
    else if n < Nat.pow 2 63 then some n else none

/-- The exponent that follows the digits of a decimal: none written counts as zero. -/
def exponent? : List Char → Option Int
  | [] => some 0
  | c :: rest =>
    if c = 'e' ∨ c = 'E' then
      let (negative, digits) := splitSign rest
      (number? 10 digits).map fun n => if negative then -(n : Int) else n
    else none

/-- A decimal with an optional sign, point and exponent and at least one digit, as the nearest finite number. -/
def float? (text : List Char) : Option Binary64 :=
  let (negative, unsigned) := splitSign text
  let whole := unsigned.takeWhile Char.isDigit
  let afterWhole := unsigned.dropWhile Char.isDigit
  let (fraction, rest) := match afterWhole with
    | '.' :: more => (more.takeWhile Char.isDigit, more.dropWhile Char.isDigit)
    | _ => ([], afterWhole)
  match number? 10 (whole ++ fraction), exponent? rest with
  | some digits, some exponent => Binary64.ofDecimal? negative digits (exponent - (fraction.length : Int))
  | _, _ => none

/-- The value of a literal, underscores aside; none for a literal that ends in `n` or has no finite value. -/
def Number.read? (raw : List Char) : Option Number :=
  let text := raw.filter (· ≠ '_')
  if text.getLast? = some 'n' then none
  else match radix? text with
    | some base => (unsigned? base (Nat.pow 2 64) (text.drop 2)).map fun n => .integer n
    | none =>
      let whole := if text.any (fun c => c = '.' ∨ c = 'e' ∨ c = 'E') then none else signed? text
      match whole with
      | some n => some (.integer n)
      | none => (float? text).map .float

/-- The number with the other sign. An integer whose negative does not fit in 64 bits becomes floating-point. -/
def Number.negate? : Number → Option Number
  | .integer n =>
    if n.natAbs < Nat.pow 2 63 then some (.integer (-n))
    else (Binary64.ofRatio? (decide (0 < n)) n.natAbs 1).map .float
  | .float b => some (.float b.negate)

/-- How a number is written. -/
def Number.text : Number → List Char
  | .integer n => (toString n).toList
  | .float b => b.text

/-- The property name that a number has as a key: a whole number below 2^53 is written without a point. -/
def Number.keyText : Number → List Char
  | .integer n => (toString n).toList
  | .float b => match b.natAbs? with
    | some n => if n < Nat.pow 2 53 then (toString (if b.negative then -(n : Int) else (n : Int))).toList else b.text
    | none => b.text

end StoreModels.Literal
