import StoreModels.Proofs.Literal.Quoting

/-!
How string literals are spelled: two quotes of one kind, and between them characters that stand for themselves and
escapes. A text that is written as a literal is spelled so, whatever characters it has.
-/
namespace StoreModels.Literal

/-- The characters of bare names lie between the dollar sign and the last letter. -/
theorem isNamePart_range {c : Char} (part : isNamePart c = true) : '$'.val ≤ c.val ∧ c.val ≤ 'z'.val := by
  unfold isNamePart isNameStart at part
  delta Char.isAlpha Char.isUpper Char.isLower Char.isDigit at part
  simp only [Bool.or_eq_true, Bool.and_eq_true, decide_eq_true_eq, beq_iff_eq] at part
  rcases part with (((⟨low, high⟩ | ⟨low, high⟩) | rfl) | rfl) | ⟨low, high⟩
  · exact ⟨UInt32.le_trans (by decide) low, UInt32.le_trans high (by decide)⟩
  · exact ⟨UInt32.le_trans (by decide) low, UInt32.le_trans high (by decide)⟩
  · decide
  · decide
  · exact ⟨UInt32.le_trans (by decide) low, UInt32.le_trans high (by decide)⟩

/-- A character that stands for itself between two quotes. -/
def isPlain (quote c : Char) : Bool := c != quote && c != '\\' && c != '\n' && c != '\r'

/-- The characters that an escape of one character may have behind its backslash. -/
def escapable : List Char := ['\'', '"', '\\', 'b', 'f', 'n', 'r', 't', 'v']

/-- What may stand between two quotes: plain characters, escapes of one character, and escapes of a code. -/
inductive Inside (quote : Char) : List Char → Prop
  | nil : Inside quote []
  | plain {c : Char} {rest : List Char} (plain : isPlain quote c = true) (later : Inside quote rest) :
    Inside quote (c :: rest)
  | escape {c : Char} {rest : List Char} (known : c ∈ escapable) (later : Inside quote rest) :
    Inside quote ('\\' :: c :: rest)
  | code {digits rest : List Char} (four : digits.length = 4) (hexadecimal : ∀ d ∈ digits, isHexDigit d = true)
    (later : Inside quote rest) : Inside quote ('\\' :: 'u' :: digits ++ rest)

/-- A string literal between two quotes. -/
def Spelled (quote : Char) (raw : List Char) : Prop := ∃ inside, raw = quote :: inside ++ [quote] ∧ Inside quote inside

theorem Inside.append {quote : Char} {first second : List Char} (left : Inside quote first)
    (right : Inside quote second) : Inside quote (first ++ second) := by
  induction left with
  | nil => exact right
  | plain plain _ ih => exact .plain plain ih
  | escape known _ ih => exact .escape known ih
  | @code digits rest four hexadecimal _ ih =>
    rw [List.cons_append, List.cons_append, List.append_assoc]
    exact .code four hexadecimal ih

/-- A text whose characters are all written in a way that may stand between two quotes. -/
theorem Inside.flatMap {quote : Char} {write : Char → List Char} (each : ∀ c, Inside quote (write c))
    (text : List Char) : Inside quote (text.flatMap write) := by
  induction text with
  | nil => exact .nil
  | cons c rest ih =>
    rw [List.flatMap_cons]
    exact (each c).append ih

theorem inside_escapeChar {quote : Char} (isQuote : isQuote quote = true) (c : Char) :
    Inside quote (escapeChar quote c) := by
  have known : quote = '\'' ∨ quote = '"' := by simpa [Literal.isQuote] using isQuote
  have letter : ∀ d, d ∈ escapable → Inside quote ['\\', d] := fun d member => .escape member .nil
  unfold escapeChar
  split
  · exact letter _ (by decide)
  split
  · exact letter _ (by decide)
  split
  · exact letter _ (by decide)
  split
  · exact letter _ (by decide)
  split
  next same =>
    refine letter c ?_
    rcases known with rfl | rfl <;> rw [same] <;> decide
  next slash feed ret _ other =>
    refine .plain ?_ .nil
    simp [isPlain, slash, feed, ret, other]

/-- A text is written as a string literal. -/
theorem spelled_quoted {quote : Char} (isQuote : isQuote quote = true) (text : List Char) :
    Spelled quote (quoted text quote) :=
  ⟨_, rfl, .flatMap (inside_escapeChar isQuote) text⟩

end StoreModels.Literal
