import Mathlib.Data.List.TakeWhile
import StoreModels.Json.Value
import StoreModels.Proofs.Literal.Spelled

/-!
The strings and the whole numbers of data exchange texts are literals of the language, and they stand there for what
they stand for in a data exchange text.
-/
namespace StoreModels.Literal

/-! ## Strings -/

/-- The digits that a control character is written with in an escape. -/
def controlDigits (n : Nat) : List Char := ['0', '0', Nat.digitChar (n / 16), Nat.digitChar (n % 16)]

theorem hex_controlDigits {n : Nat} (control : n < 0x20) : ∀ d ∈ controlDigits n, isHexDigit d = true := by
  -- The statement as it stands could be decided over all characters there are.
  have all : (controlDigits n).all isHexDigit = true := by decide +revert
  exact List.all_eq_true.mp all

theorem number_controlDigits {n : Nat} (control : n < 0x20) : number? 16 (controlDigits n) = some n := by
  decide +revert

/-- As many digits as are read at most are all read. -/
theorem readHex_append {digits : List Char} (hex : ∀ d ∈ digits, isHexDigit d = true) (rest : List Char) :
    readHex digits.length (digits ++ rest) = (number? 16 digits, rest) := by
  have all : digits.takeWhile isHexDigit = digits := List.takeWhile_eq_self_iff.mpr hex
  simp only [readHex, List.take_left, all, List.drop_left]

theorem readEscape_controlDigits {n : Nat} (control : n < 0x20) (rest : List Char) :
    readEscape 'u' (controlDigits n ++ rest) = (some n, rest) := by
  rw [← number_controlDigits control]
  exact readHex_append (hex_controlDigits control) rest

/-- How a character is written in a string: escaped by one letter, escaped by its code, or as it is. -/
theorem charText_cases (c : Char) :
    (∃ e ∈ escapable, Json.charText c = ['\\', e] ∧ ∀ rest, readEscape e rest = (some c.toNat, rest)) ∨
      (c.toNat < 0x20 ∧ Json.charText c = '\\' :: 'u' :: controlDigits c.toNat) ∨
      (isPlain '"' c = true ∧ Json.charText c = [c]) := by
  unfold Json.charText
  split
  · exact .inl ⟨'"', by decide, rfl, fun _ => rfl⟩
  · exact .inl ⟨'\\', by decide, rfl, fun _ => rfl⟩
  · exact .inl ⟨'b', by decide, rfl, fun _ => rfl⟩
  · exact .inl ⟨'f', by decide, rfl, fun _ => rfl⟩
  · exact .inl ⟨'n', by decide, rfl, fun _ => rfl⟩
  · exact .inl ⟨'r', by decide, rfl, fun _ => rfl⟩
  · exact .inl ⟨'t', by decide, rfl, fun _ => rfl⟩
  next quote slash _ _ feed ret _ =>
    split
    next control => exact .inr (.inl ⟨control, rfl⟩)
    next =>
      refine .inr (.inr ⟨?_, rfl⟩)
      simp only [isPlain, Bool.and_eq_true, bne_iff_ne]
      exact ⟨⟨⟨quote, slash⟩, feed⟩, ret⟩

theorem inside_charText (c : Char) : Inside '"' (Json.charText c) := by
  rcases charText_cases c with ⟨e, known, is, _⟩ | ⟨control, is⟩ | ⟨plain, is⟩
  · rw [is]
    exact .escape known .nil
  · rw [is, ← List.append_nil ('\\' :: _)]
    exact .code rfl (hex_controlDigits control) .nil
  · rw [is]
    exact .plain plain .nil

theorem pieces_charText (c : Char) (rest : List Char) :
    pieces (Json.charText c ++ rest) = .code c.toNat :: pieces rest := by
  rcases charText_cases c with ⟨e, _, is, read⟩ | ⟨control, is⟩ | ⟨plain, is⟩
  · rw [is, List.cons_append, List.singleton_append, pieces_escape, read]
    rfl
  · rw [is, List.cons_append, List.cons_append, pieces_escape, readEscape_controlDigits control]
    rfl
  · rw [is, List.singleton_append, pieces_plain]
    rintro rfl
    cases plain

/-- The string of a data exchange text is a string literal. -/
theorem spelled_stringText (text : List Char) : Spelled '"' (Json.stringText text) :=
  ⟨_, rfl, .flatMap inside_charText text⟩

/-- The string of a data exchange text stands for what it was written for. -/
theorem unquoted_stringText (text : List Char) : unquoted (Json.stringText text) = text := by
  have read : pieces (text.flatMap Json.charText) = text.map fun c => .code c.toNat := by
    induction text with
    | nil => rw [List.flatMap_nil, pieces, List.map_nil]
    | cons c rest ih => rw [List.flatMap_cons, pieces_charText, ih, List.map_cons]
  have wide : 2 ≤ Text.byteLength (Json.stringText text) := by
    refine Nat.le_trans ?_ (length_le_byteLength (Json.stringText text))
    simp [Json.stringText]
  have inside : ((Json.stringText text).drop 1).dropLast = text.flatMap Json.charText := by simp [Json.stringText]
  rw [unquoted, if_pos wide, inside, unescape, read, decode_codes]

/-! ## Whole numbers -/

/-- The digits of a number in decimal: none needless. -/
structure Numeral (text : List Char) : Prop where
  some : text ≠ []
  digits : ∀ c ∈ text, c.isDigit = true
  leading : text.head? = Option.some '0' → text = ['0']

/-- The digits of a number. -/
def digitsOf (n : Nat) : List Char := Nat.toDigits 10 n

theorem isDigit_digitsOf {n : Nat} {c : Char} (member : c ∈ digitsOf n) : c.isDigit = true :=
  Nat.isDigit_of_mem_toDigits (by decide) (by decide) member

theorem numeral_digitsOf (n : Nat) : Numeral (digitsOf n) where
  some := Nat.toDigits_ne_nil
  digits _ := isDigit_digitsOf
  leading := by
    induction n using Nat.strongRecOn with
    | _ n ih =>
      intro zero
      by_cases small : n < 10
      · rw [digitsOf, Nat.toDigits_of_lt_base small] at zero ⊢
        have is : n.digitChar = '0' := by simpa using zero
        rw [is]
      · -- The first digit is the one of the number without its last digit, which is not zero.
        rw [digitsOf, Nat.toDigits_of_base_le (by decide) (by omega), List.head?_append] at zero
        have shorter := ih (n / 10) (by omega)
        cases first : (digitsOf (n / 10)).head? with
        | none => exact absurd (List.head?_eq_none_iff.mp first) Nat.toDigits_ne_nil
        | some c =>
          rw [digitsOf] at first
          rw [first] at zero
          have only := shorter (first.trans zero)
          have value : Nat.ofDigitChars 10 (Nat.toDigits 10 (n / 10)) 0 = 0 := by
            rw [show Nat.toDigits 10 (n / 10) = ['0'] from only]
            rfl
          rw [Nat.ofDigitChars_ten_toDigits] at value
          omega

theorem digitOf?_ten {c : Char} (digit : c.isDigit = true) : digitOf? 10 c = some (c.toNat - '0'.toNat) := by
  have range : '0' ≤ c ∧ c ≤ '9' := by
    simpa [Char.isDigit, Char.le_def, UInt32.le_iff_toNat_le] using digit
  have bound : c.toNat ≤ '9'.toNat := range.2
  have small : c.toNat - '0'.toNat < 10 := by
    have nine : '9'.toNat = 57 := rfl
    have zero : '0'.toNat = 48 := rfl
    omega
  rw [digitOf?, digitValue?, if_pos range, Option.filter_some, if_pos (by simpa using small)]

theorem numberFrom?_ten {text : List Char} (digits : ∀ c ∈ text, c.isDigit = true) (value : Nat) :
    numberFrom? 10 value text = some (Nat.ofDigitChars 10 text value) := by
  induction text generalizing value with
  | nil => rfl
  | cons c rest ih =>
    rw [numberFrom?, digitOf?_ten (digits c (by simp)), Nat.ofDigitChars_cons, Nat.mul_comm]
    exact ih (fun c member => digits c (by simp [member])) _

theorem number?_digitsOf (n : Nat) : number? 10 (digitsOf n) = some n := by
  have full : (digitsOf n).isEmpty = false := by simpa using (numeral_digitsOf n).some
  rw [number?, full, numberFrom?_ten (numeral_digitsOf n).digits, digitsOf, Nat.ofDigitChars_ten_toDigits]
  rfl

/-- A character that is no digit is not among digits. -/
theorem not_mem_decimal {text : List Char} (digits : ∀ c ∈ text, c.isDigit = true) {c : Char} (other : c.isDigit = false) :
    c ∉ text := by
  intro member
  rw [digits c member] at other
  cases other

/-- A character that is no digit is not among those of a number. -/
theorem not_mem_digitsOf {c : Char} (other : c.isDigit = false) (n : Nat) : c ∉ digitsOf n :=
  not_mem_decimal (fun _ => isDigit_digitsOf) other

theorem radix?_decimal {text : List Char} (digits : ∀ c ∈ text, c.isDigit = true) : radix? text = none := by
  unfold radix?
  split
  all_goals first | rfl | exact absurd (digits _ (List.mem_cons_of_mem _ List.mem_cons_self)) (by decide)

theorem splitSign_decimal {text : List Char} (digits : ∀ c ∈ text, c.isDigit = true) : splitSign text = (false, text) := by
  unfold splitSign
  split
  next => exact absurd (by simp) (not_mem_decimal digits (c := '+') (by decide))
  next => exact absurd (by simp) (not_mem_decimal digits (c := '-') (by decide))
  next => rfl

/-- Digits are read as the number that they spell if it is below the limit, and otherwise as a floating-point one. -/
theorem read?_decimal {text : List Char} (digits : ∀ c ∈ text, c.isDigit = true) {n : Nat}
    (spelled : number? 10 text = some n) :
    Number.read? text = if n < Nat.pow 2 63 then some (.integer n) else (float? text).map .float := by
  have plain : text.filter (· ≠ '_') = text := by
    rw [List.filter_eq_self]
    intro c member
    have digit := digits c member
    simp only [decide_eq_true_eq]
    rintro rfl
    cases digit
  have ends : text.getLast? ≠ some 'n' := fun last =>
    not_mem_decimal digits (c := 'n') (by decide) (List.mem_of_getLast? last)
  have whole : text.any (fun c => c = '.' ∨ c = 'e' ∨ c = 'E') = false := by
    rw [List.any_eq_false]
    intro c member
    have digit := digits c member
    simp only [decide_eq_true_eq]
    rintro (rfl | rfl | rfl) <;> cases digit
  have value : signed? text = if n < Nat.pow 2 63 then some (n : Int) else none := by
    rw [signed?, splitSign_decimal digits]
    simp only [spelled, Option.bind_some, Bool.false_eq_true, if_false]
  simp only [Number.read?, plain, if_neg ends, radix?_decimal digits, whole, value, Bool.false_eq_true, if_false]
  by_cases small : n < Nat.pow 2 63
  · simp only [if_pos small]
  · simp only [if_neg small]

/-- The digits of a number below the limit are read as the number. -/
theorem read?_digitsOf {n : Nat} (small : n < Nat.pow 2 63) : Number.read? (digitsOf n) = some (.integer n) := by
  rw [read?_decimal (fun _ => isDigit_digitsOf) (number?_digitsOf n), if_pos small]

/-- The text of a number from zero on is its digits. -/
theorem text_ofNat (n : Nat) : Number.text (.integer (.ofNat n)) = digitsOf n := by
  rw [Number.text, Int.toString_eq_repr]
  exact Nat.toList_repr

/-- The text of a number below zero has a sign before the digits. -/
theorem text_negSucc (n : Nat) : Number.text (.integer (.negSucc n)) = '-' :: digitsOf (n + 1) := by
  rw [Number.text, Int.toString_eq_repr]
  show ("-" ++ (n + 1).repr).toList = _
  rw [String.toList_append, Nat.toList_repr]
  rfl

theorem negate?_succ {n : Nat} (small : n + 1 < Nat.pow 2 63) :
    Number.negate? (.integer (n + 1 : Nat)) = some (.integer (.negSucc n)) := by
  rw [Number.negate?, Int.natAbs_natCast]
  exact if_pos small

end StoreModels.Literal
