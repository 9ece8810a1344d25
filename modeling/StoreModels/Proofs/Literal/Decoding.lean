import StoreModels.Proofs.Literal.Integers

/-!
What the inside of a string literal stands for. It is a sequence of spellings, and each of them denotes code units of
UTF-16; the literal stands for the text of all these units together, wherever one spelling ends and the next begins.
-/
namespace StoreModels.Literal

/-! ## Code units -/

/-- The code units of a code. -/
def utf16 (code : Nat) : List Nat :=
  if code < 0x10000 then [code] else [0xD800 + (code - 0x10000) / 0x400, 0xDC00 + (code - 0x10000) % 0x400]

/-- The text of code units: two that form a pair stand for one character, and half a pair is replaced. -/
def lossy : List Nat → List Char
  | [] => []
  | [unit] => [charOf unit]
  | unit :: next :: rest =>
    if isHighSurrogate unit && isLowSurrogate next then charOf (combine unit next) :: lossy rest
    else charOf unit :: lossy (next :: rest)

theorem charOf_high {unit : Nat} (high : isHighSurrogate unit = true) : charOf unit = replacement := by
  simp only [isHighSurrogate, Bool.and_eq_true, decide_eq_true_eq] at high
  rw [charOf, if_neg]
  simp only [Nat.isValidChar]
  omega

theorem lossy_single {unit : Nat} (single : isHighSurrogate unit = false) (rest : List Nat) :
    lossy (unit :: rest) = charOf unit :: lossy rest := by
  cases rest with
  | nil => rfl
  | cons next rest => rw [lossy, single, Bool.false_and, if_neg Bool.false_ne_true]

theorem lossy_pair {high low : Nat} (first : isHighSurrogate high = true) (second : isLowSurrogate low = true)
    (rest : List Nat) : lossy (high :: low :: rest) = charOf (combine high low) :: lossy rest := by
  rw [lossy, first, second, Bool.and_self, if_pos rfl]

/-- A first half is replaced unless a second one stands behind it. -/
theorem lossy_unpaired {pending : Option Nat} (waits : ∀ unit ∈ pending, isHighSurrogate unit = true) {rest : List Nat}
    (alone : ∀ unit ∈ rest.head?, isLowSurrogate unit = false) :
    lossy (pending.toList ++ rest) = unpaired pending ++ lossy rest := by
  cases pending with
  | none => rfl
  | some high =>
    have first : isHighSurrogate high = true := waits high rfl
    show lossy (high :: rest) = replacement :: lossy rest
    rw [← charOf_high first]
    cases rest with
    | nil => rfl
    | cons next rest =>
      have other : isLowSurrogate next = false := alone next rfl
      rw [lossy, other, Bool.and_false, if_neg Bool.false_ne_true]

theorem utf16_small {code : Nat} (small : code < 0x10000) : utf16 code = [code] := if_pos small

/-- A code beyond the single units has a pair of units, which stands for it. -/
theorem utf16_wide {code : Nat} (wide : 0x10000 ≤ code) (range : code ≤ 0x10FFFF) :
    ∃ high low, utf16 code = [high, low] ∧ isHighSurrogate high = true ∧ isLowSurrogate low = true ∧
      combine high low = code := by
  obtain ⟨d, rfl⟩ := Nat.exists_eq_add_of_le wide
  refine ⟨0xD800 + d / 0x400, 0xDC00 + d % 0x400, ?_, ?_⟩
  · simp only [utf16, Nat.not_lt.mpr wide, if_false, Nat.add_sub_cancel_left]
  · simp only [isHighSurrogate, isLowSurrogate, Bool.and_eq_true, decide_eq_true_eq]
    unfold combine
    omega

/-- Half a pair is a unit of its own. -/
theorem utf16_half {unit : Nat} (half : isHighSurrogate unit = true ∨ isLowSurrogate unit = true) :
    utf16 unit = [unit] := by
  simp only [isHighSurrogate, isLowSurrogate, Bool.and_eq_true, decide_eq_true_eq] at half
  exact utf16_small (by omega)

theorem high_not_low {unit : Nat} (high : isHighSurrogate unit = true) : isLowSurrogate unit = false := by
  simp only [isHighSurrogate, Bool.and_eq_true, decide_eq_true_eq] at high
  simp only [isLowSurrogate, Bool.and_eq_false_iff, decide_eq_false_iff_not]
  omega

/-- The units of a code that is no second half do not start with one. -/
theorem utf16_alone {code : Nat} (range : code ≤ 0x10FFFF) (other : isLowSurrogate code = false) (rest : List Nat) :
    ∀ unit ∈ (utf16 code ++ rest).head?, isLowSurrogate unit = false := by
  by_cases small : code < 0x10000
  · simpa [utf16_small small] using other
  · obtain ⟨high, low, is, first, _⟩ := utf16_wide (Nat.not_lt.mp small) range
    simpa [is] using high_not_low first

/-- The units of a code that is no first half stand for its character, whatever follows. -/
theorem lossy_code {code : Nat} (range : code ≤ 0x10FFFF) (whole : isHighSurrogate code = false) (rest : List Nat) :
    lossy (utf16 code ++ rest) = charOf code :: lossy rest := by
  by_cases small : code < 0x10000
  · rw [utf16_small small]
    exact lossy_single whole rest
  · obtain ⟨high, low, is, first, second, both⟩ := utf16_wide (Nat.not_lt.mp small) range
    rw [is, ← both]
    exact lossy_pair first second rest

theorem toNat_range (c : Char) : c.toNat ≤ 0x10FFFF := by
  have valid := c.valid
  simp only [UInt32.isValidChar, Nat.isValidChar] at valid
  simp only [Char.toNat]
  omega

/-! ## Codes and their units -/

theorem decode_high {code : Nat} (high : isHighSurrogate code = true) (pending : Option Nat) (rest : List Piece) :
    decode pending (.code code :: rest) = unpaired pending ++ decode (some code) rest := by
  rw [decode.eq_def]
  exact if_pos high

theorem decode_pair {code : Nat} (low : isLowSurrogate code = true) (whole : isHighSurrogate code = false) (high : Nat)
    (rest : List Piece) : decode (some high) (.code code :: rest) = charOf (combine high code) :: decode none rest := by
  rw [decode.eq_def]
  simp only [whole, low, Bool.false_eq_true, if_false, if_true]

theorem decode_whole {code : Nat} (whole : isHighSurrogate code = false) {pending : Option Nat}
    (alone : pending ≠ none → isLowSurrogate code = false) (rest : List Piece) :
    decode pending (.code code :: rest) = unpaired pending ++ charOf code :: decode none rest := by
  rw [decode.eq_def]
  cases pending with
  | none => simp only [whole, unpaired, Bool.false_eq_true, if_false, List.nil_append]
  | some high =>
    have other : isLowSurrogate code = false := alone (by simp)
    simp only [whole, other, unpaired, Bool.false_eq_true, if_false, List.singleton_append]

/-- Codes are decoded as their units, with the first half that still waits for its second one in front of them. -/
theorem decode_lossy {codes : List Nat} (range : ∀ code ∈ codes, code ≤ 0x10FFFF) {pending : Option Nat}
    (waits : ∀ unit ∈ pending, isHighSurrogate unit = true) :
    decode pending (codes.map .code) = lossy (pending.toList ++ codes.flatMap utf16) := by
  induction codes generalizing pending with
  | nil =>
    rw [List.flatMap_nil, lossy_unpaired waits (by simp)]
    cases pending <;> rfl
  | cons code rest ih =>
    obtain ⟨here, later⟩ := List.forall_mem_cons.mp range
    have next : decode none (rest.map .code) = lossy (rest.flatMap utf16) := ih later (by simp)
    rw [List.map_cons, List.flatMap_cons]
    by_cases half : isHighSurrogate code = true
    · have alone := utf16_alone here (high_not_low half) (rest.flatMap utf16)
      have waiting : decode (some code) (rest.map .code) = lossy ([code] ++ rest.flatMap utf16) :=
        ih later (by simpa using half)
      rw [decode_high half, lossy_unpaired waits alone, utf16_half (.inl half), waiting]
    · have whole : isHighSurrogate code = false := Bool.eq_false_iff.mpr half
      by_cases second : isLowSurrogate code = true
      · -- A second half ends the pair that waits for it; with none waiting it stands alone.
        cases pending with
        | none =>
          rw [decode_whole whole (by simp), next]
          exact (lossy_code here whole _).symm
        | some high =>
          rw [decode_pair second whole, utf16_half (.inr second), next]
          exact (lossy_pair (waits high rfl) second _).symm
      · have alone : isLowSurrogate code = false := Bool.eq_false_iff.mpr second
        rw [decode_whole whole (fun _ => alone), lossy_unpaired waits (utf16_alone here alone _),
          lossy_code here whole, next]

/-! ## Escapes -/

/-- As many digits as an escape has are read as the number that they spell. -/
theorem readHex_digits {digits : List Char} (each : ∀ c ∈ digits, isDigitOf 16 c = true) {count : Nat}
    (length : digits.length = count + 1) (rest : List Char) :
    readHex (count + 1) (digits ++ rest) = (some (valueOf 16 digits), rest) := by
  have hex : ∀ d ∈ digits, isHexDigit d = true := by
    intro d member
    have known := digitOf?_eq (each d member)
    rw [digitOf?, Option.filter_eq_some_iff] at known
    rw [isHexDigit, known.1]
    rfl
  have full : digits ≠ [] := by
    rintro rfl
    cases length
  rw [← length, readHex_append hex, number?_digits each full]

theorem readEscape_unit {digits : List Char} (each : ∀ c ∈ digits, isDigitOf 16 c = true) (length : digits.length = 4)
    (rest : List Char) : readEscape 'u' (digits ++ rest) = (some (valueOf 16 digits), rest) := by
  rw [← readHex_digits each length]
  show readCodePoint (digits ++ rest) = _
  cases digits with
  | nil => cases length
  | cons d digits =>
    rw [List.cons_append]
    unfold readCodePoint
    split
    next same =>
      cases same
      exact absurd List.mem_cons_self (not_mem_digits each (c := '{') rfl)
    next => rfl

theorem readEscape_point {digits : List Char} (each : ∀ c ∈ digits, isDigitOf 16 c = true) (some : digits ≠ [])
    (range : valueOf 16 digits ≤ 0x10FFFF) (rest : List Char) :
    readEscape 'u' ('{' :: digits ++ '}' :: rest) = (.some (valueOf 16 digits), rest) := by
  have inside : ∀ c ∈ digits, decide (c ≠ '}') = true := by
    intro c member
    rw [decide_eq_true_eq]
    rintro rfl
    exact not_mem_digits each (c := '}') rfl member
  have small : valueOf 16 digits < Nat.pow 2 32 := Nat.lt_of_le_of_lt range (by decide)
  show readBraced (digits ++ '}' :: rest) = _
  rw [readBraced, List.takeWhile_append_of_pos inside, List.dropWhile_append_of_pos inside,
    List.takeWhile_cons_of_neg (by decide), List.dropWhile_cons_of_neg (by decide), List.append_nil,
    unsigned?_digits each some, if_pos small, List.drop_one, List.tail_cons]

/-! ## Spellings -/

/-- The letters that an escape has for a code. -/
def letterCodes : List (Char × Nat) := [('n', 10), ('r', 13), ('t', 9), ('b', 8), ('f', 12), ('v', 11)]

/-- The characters apart from digits that do not stand for themselves behind a backslash. -/
def reserved : List Char := ['n', 'r', 't', 'b', 'f', 'v', 'x', 'u', '\n', '\r', '\u2028', '\u2029']

/-- What the inside of a literal is written with: a character as it is, the escape of a letter, of zero, of two or four
    hexadecimal digits or of some in braces, a backslash before a character that stands for itself, and one before a
    line break. -/
inductive Spelling
  | plain (c : Char) (raw : c ∉ ['\\', '\n', '\r'])
  | letter (c : Char) (code : Nat) (known : (c, code) ∈ letterCodes)
  | zero
  | byte (digits : List Char) (each : ∀ c ∈ digits, isDigitOf 16 c = true) (count : digits.length = 2)
  | unit (digits : List Char) (each : ∀ c ∈ digits, isDigitOf 16 c = true) (count : digits.length = 4)
  | point (digits : List Char) (each : ∀ c ∈ digits, isDigitOf 16 c = true) (some : digits ≠ [])
    (range : valueOf 16 digits ≤ 0x10FFFF)
  | itself (c : Char) (other : c ∉ reserved) (letter : c.isDigit = false)
  | continuation (ending : List Char) (known : ending ∈ [['\n'], ['\r'], ['\r', '\n']])

namespace Spelling

def text : Spelling → List Char
  | plain c _ => [c]
  | letter c _ _ | itself c _ _ => ['\\', c]
  | zero => ['\\', '0']
  | byte digits _ _ => '\\' :: 'x' :: digits
  | unit digits _ _ => '\\' :: 'u' :: digits
  | point digits _ _ _ => '\\' :: 'u' :: '{' :: digits ++ ['}']
  | continuation ending _ => '\\' :: ending

/-- The code that a spelling denotes; none for the end of a line. -/
def code? : Spelling → Option Nat
  | plain c _ | itself c _ _ => c.toNat
  | letter _ code _ => code
  | zero => some 0
  | byte digits _ _ | unit digits _ _ | point digits _ _ _ => some (valueOf 16 digits)
  | continuation _ _ => none

/-- The code units that a spelling denotes. -/
def units (spelling : Spelling) : List Nat := spelling.code?.toList.flatMap utf16

/-- Whether no zero stands before a digit. -/
def Legible : List Spelling → Prop
  | [] => True
  | spelling :: rest => (spelling = zero → startsWithDigit (rest.flatMap text) = false) ∧ Legible rest

theorem text_head (spelling : Spelling) : ∃ c rest, spelling.text = c :: rest ∧ c ≠ '\n' := by
  cases spelling with
  | plain c raw =>
    refine ⟨c, [], rfl, ?_⟩
    rintro rfl
    exact raw (by decide)
  | _ => exact ⟨'\\', _, rfl, by decide⟩

/-- No spelling goes on with the line feed that a carriage return before it would take in. -/
theorem dropFeed_text (spellings : List Spelling) :
    dropFeed (spellings.flatMap text) = spellings.flatMap text := by
  cases spellings with
  | nil => rfl
  | cons spelling rest =>
    obtain ⟨c, more, is, other⟩ := spelling.text_head
    rw [List.flatMap_cons, is, List.cons_append]
    unfold dropFeed
    split
    next same =>
      cases same
      exact absurd rfl other
    next => rfl

theorem code?_range {spelling : Spelling} {code : Nat} (denotes : spelling.code? = some code) : code ≤ 0x10FFFF := by
  cases spelling with
  | plain c | itself c =>
    cases denotes
    exact toNat_range c
  | letter c code' known =>
    cases denotes
    have all : ∀ m ∈ letterCodes, m.2 ≤ 0x10FFFF := by decide
    exact all (c, code) known
  | zero =>
    cases denotes
    exact Nat.zero_le _
  | byte digits each count | unit digits each count =>
    cases denotes
    have below := valueOf_lt each
    rw [count] at below
    exact Nat.le_trans (Nat.le_of_lt below) (by decide)
  | point digits _ _ range =>
    cases denotes
    exact range
  | continuation => cases denotes

/-- A spelling is a character as it is, or an escape that is read as its code whatever follows. -/
theorem text_read (spelling : Spelling) :
    (∃ c, c ≠ '\\' ∧ spelling.text = [c] ∧ spelling.code? = some c.toNat) ∨
      ∃ e tail, spelling.text = '\\' :: e :: tail ∧ ∀ rest, (spelling = zero → startsWithDigit rest = false) →
        dropFeed rest = rest → readEscape e (tail ++ rest) = (spelling.code?, rest) := by
  cases spelling with
  | plain c raw =>
    refine .inl ⟨c, ?_, rfl, rfl⟩
    rintro rfl
    exact raw (by decide)
  | letter c code known =>
    refine .inr ⟨c, [], rfl, fun rest _ _ => ?_⟩
    simp only [letterCodes, List.mem_cons, Prod.mk.injEq, List.not_mem_nil, or_false] at known
    rcases known with ⟨rfl, rfl⟩ | ⟨rfl, rfl⟩ | ⟨rfl, rfl⟩ | ⟨rfl, rfl⟩ | ⟨rfl, rfl⟩ | ⟨rfl, rfl⟩ <;> rfl
  | zero =>
    refine .inr ⟨'0', [], rfl, fun rest zeroed _ => ?_⟩
    have other : startsWithDigit rest = false := zeroed rfl
    simp [readEscape, other, code?]
  | byte digits each count => exact .inr ⟨'x', digits, rfl, fun rest _ _ => readHex_digits each count rest⟩
  | unit digits each count => exact .inr ⟨'u', digits, rfl, fun rest _ _ => readEscape_unit each count rest⟩
  | point digits each some range =>
    refine .inr ⟨'u', '{' :: digits ++ ['}'], rfl, fun rest _ _ => ?_⟩
    rw [List.append_assoc, List.singleton_append]
    exact readEscape_point each some range rest
  | itself c other letter =>
    refine .inr ⟨c, [], rfl, fun rest _ _ => ?_⟩
    simp only [reserved, List.mem_cons, List.not_mem_nil, or_false, not_or] at other
    obtain ⟨n, r, t, b, f, v, x, u, feed, ret, _⟩ := other
    have zeroless : c ≠ '0' := by
      rintro rfl
      cases letter
    simp only [readEscape, letterCode?, n, r, t, b, f, v, x, u, feed, ret, zeroless, if_false, false_and]
    rfl
  | continuation ending known =>
    simp only [List.mem_cons, List.not_mem_nil, or_false] at known
    rcases known with rfl | rfl | rfl
    · exact .inr ⟨'\n', [], rfl, fun _ _ _ => rfl⟩
    · exact .inr ⟨'\r', [], rfl, fun rest _ fed => congrArg (Prod.mk none) fed⟩
    · exact .inr ⟨'\r', ['\n'], rfl, fun _ _ _ => rfl⟩

theorem pieces_text (spelling : Spelling) {rest : List Char}
    (zeroed : spelling = zero → startsWithDigit rest = false) (fed : dropFeed rest = rest) :
    pieces (spelling.text ++ rest) = spelling.code?.toList.map .code ++ pieces rest := by
  rcases spelling.text_read with ⟨c, plain, is, denotes⟩ | ⟨e, tail, is, read⟩
  · rw [is, denotes, List.singleton_append, pieces_plain plain]
    rfl
  · rw [is, List.cons_append, List.cons_append, pieces_escape, read rest zeroed fed]
    cases spelling.code? <;> rfl

/-- Spellings are read one after the other. -/
theorem pieces_spellings {spellings : List Spelling} (legible : Legible spellings) :
    pieces (spellings.flatMap text) = (spellings.filterMap code?).map .code := by
  induction spellings with
  | nil => rw [List.flatMap_nil, pieces, List.filterMap_nil, List.map_nil]
  | cons spelling rest ih =>
    rw [List.flatMap_cons, pieces_text spelling legible.1 (dropFeed_text rest), ih legible.2, List.filterMap_cons]
    cases spelling.code? <;> rfl

theorem units_eq (spellings : List Spelling) : spellings.flatMap units = (spellings.filterMap code?).flatMap utf16 := by
  induction spellings with
  | nil => rfl
  | cons spelling rest ih =>
    rw [List.flatMap_cons, ih, units, List.filterMap_cons]
    cases spelling.code? with
    | none => rfl
    | some code => simp

end Spelling

/-- The inside of a literal stands for the text of all the code units that its spellings denote, one after the other. -/
theorem unescape_spellings {spellings : List Spelling} (legible : Spelling.Legible spellings) :
    unescape (spellings.flatMap Spelling.text) = lossy (spellings.flatMap Spelling.units) := by
  have range : ∀ code ∈ spellings.filterMap Spelling.code?, code ≤ 0x10FFFF := by
    intro code member
    obtain ⟨spelling, _, denotes⟩ := List.mem_filterMap.mp member
    exact Spelling.code?_range denotes
  rw [unescape, Spelling.pieces_spellings legible, Spelling.units_eq]
  exact decode_lossy range (by simp)

/-! ## A sample -/

/-- A pair whose halves a line break parts, a letter before one that could be its digit, a zero before a letter, and a
    code in braces behind half a pair. -/
def brokenPair : List Spelling :=
  [.unit ['D', '8', '3', 'd'] (List.all_eq_true.mp rfl) rfl, .continuation ['\r', '\n'] (by decide),
    .unit ['d', 'E', '0', '0'] (List.all_eq_true.mp rfl) rfl, .byte ['4', '1'] (List.all_eq_true.mp rfl) rfl,
    .plain 'B' (by decide), .zero, .letter 'n' 10 (by decide),
    .unit ['D', '8', '3', 'D'] (List.all_eq_true.mp rfl) rfl,
    .point ['0', '1', 'F', '6', '0', '0'] (List.all_eq_true.mp rfl) (by decide) (by decide),
    .itself '\'' (by decide) rfl]

/-- How the sample is written. -/
def brokenText : List Char :=
  "\\uD83d\\\r\n\\udE00\\x41B\\0\\n\\uD83D\\u\x7b01F600\x7d\\'".toList

theorem unescape_spellings_broken :
    unescape brokenText = ['😀', 'A', 'B', '\x00', '\n', replacement, '😀', '\''] := by
  have legible : Spelling.Legible brokenPair :=
    ⟨nofun, nofun, nofun, nofun, nofun, fun _ => rfl, nofun, nofun, nofun, nofun, trivial⟩
  have text : brokenPair.flatMap Spelling.text = brokenText := by decide +kernel
  rw [← text, unescape_spellings legible]
  decide +kernel

end StoreModels.Literal
