import StoreModels.Model.Edit

/-!
Writing a text as a literal and reading it back gives the text. Every character is written as one escape or stands for
itself, and no character of a text is half of a surrogate pair.
-/
namespace StoreModels.Literal

/-- The two characters that literals are written between. -/
def isQuote (c : Char) : Bool := c == '\'' || c == '"'

theorem isQuote_quoteOf (raw : List Char) : isQuote (quoteOf raw) = true := by
  unfold quoteOf
  split <;> rfl

theorem pieces_plain {c : Char} (plain : c ≠ '\\') (rest : List Char) :
    pieces (c :: rest) = .code c.toNat :: pieces rest := by
  rw [pieces.eq_def]
  split
  · cases ‹c :: rest = []›
  next same =>
    cases same
    exact absurd rfl plain
  next same =>
    cases same
    exact absurd rfl plain
  next same =>
    cases same
    rfl

theorem pieces_escape (c : Char) (rest : List Char) :
    pieces ('\\' :: c :: rest) = ((readEscape c rest).1.map Piece.code).toList ++ pieces (readEscape c rest).2 := by
  rw [pieces]

/-- A character as it is written is read as its code. -/
theorem pieces_escapeChar {quote : Char} (isQuote : isQuote quote = true) (c : Char) (rest : List Char) :
    pieces (escapeChar quote c ++ rest) = .code c.toNat :: pieces rest := by
  have known : quote = '\'' ∨ quote = '"' := by simpa [Literal.isQuote] using isQuote
  unfold escapeChar
  split
  next same =>
    subst same
    exact pieces_escape _ rest
  next plain =>
    split
    next same =>
      subst same
      exact pieces_escape _ rest
    split
    next same =>
      subst same
      exact pieces_escape _ rest
    split
    next same =>
      subst same
      exact pieces_escape _ rest
    split
    next same =>
      subst same
      rcases known with rfl | rfl <;> exact pieces_escape _ rest
    next => exact pieces_plain plain rest

theorem pieces_quoted {quote : Char} (isQuote : isQuote quote = true) (text : List Char) :
    pieces (text.flatMap (escapeChar quote)) = text.map fun c => .code c.toNat := by
  induction text with
  | nil => rw [List.flatMap_nil, pieces, List.map_nil]
  | cons c rest ih => rw [List.flatMap_cons, pieces_escapeChar isQuote, ih, List.map_cons]

/-- Line feeds and carriage returns are written as letters. -/
theorem not_mem_escapeChar {b : Char} (breaks : b = '\n' ∨ b = '\r') (quote c : Char) : b ∉ escapeChar quote c := by
  have letters : b ∉ ['\\', 'n', 'r', 't'] := by
    rcases breaks with rfl | rfl <;> decide
  simp only [List.mem_cons, List.not_mem_nil, or_false, not_or] at letters
  obtain ⟨slash, n, r, t⟩ := letters
  unfold escapeChar
  split
  · simp [slash]
  split
  · simp [slash, n]
  next feed =>
    split
    · simp [slash, r]
    next ret =>
      have other : b ≠ c := by
        rcases breaks with rfl | rfl
        · exact Ne.symm feed
        · exact Ne.symm ret
      split
      · simp [slash, t]
      split <;> simp [slash, other]

/-- No literal goes over the end of a line. -/
theorem not_mem_quoted_break {b : Char} (breaks : b = '\n' ∨ b = '\r') {quote : Char} (isQuote : isQuote quote = true)
    (text : List Char) : b ∉ quoted text quote := by
  have other : b ≠ quote := by
    rcases breaks with rfl | rfl <;> (rintro rfl; cases isQuote)
  simp [quoted, other, not_mem_escapeChar breaks quote]

theorem not_mem_quoted {quote : Char} (isQuote : isQuote quote = true) (text : List Char) : '\n' ∉ quoted text quote :=
  not_mem_quoted_break (.inl rfl) isQuote text

theorem not_mem_bareName {name : List Char} (bare : isBareName name = true) : '\n' ∉ name := by
  cases name with
  | nil => exact List.not_mem_nil
  | cons c rest =>
    simp only [isBareName, Bool.and_eq_true, List.all_eq_true] at bare
    intro member
    rcases List.mem_cons.mp member with rfl | later
    · exact absurd bare.1 (by decide)
    · exact absurd (bare.2 _ later) (by decide)

/-- No character is half of a surrogate pair. -/
theorem not_isHighSurrogate (c : Char) : isHighSurrogate c.toNat = false := by
  have valid := c.valid
  simp only [UInt32.isValidChar, Nat.isValidChar] at valid
  simp only [isHighSurrogate, Char.toNat, Bool.and_eq_false_iff, decide_eq_false_iff_not]
  omega

theorem charOf_toNat (c : Char) : charOf c.toNat = c := by
  have valid : c.toNat.isValidChar := c.valid
  rw [charOf, if_pos valid, Char.ofNat_toNat]

theorem decode_codes (text : List Char) : decode none (text.map fun c => .code c.toNat) = text := by
  induction text with
  | nil => rfl
  | cons c rest ih =>
    rw [List.map_cons, decode, not_isHighSurrogate, charOf_toNat, ih]
    rfl

/-- Every character takes up some bytes. -/
theorem length_le_byteLength (text : List Char) : text.length ≤ Text.byteLength text := by
  have counted : ∀ bytes, bytes + text.length ≤ text.foldl (fun bytes c => bytes + c.utf8Size) bytes := by
    induction text with
    | nil => simp
    | cons c rest ih =>
      intro bytes
      have positive := c.utf8Size_pos
      have later := ih (bytes + c.utf8Size)
      simp only [List.length_cons, List.foldl_cons]
      omega
  simpa [Text.byteLength] using counted 0

/-- A literal stands for the text it was written for. -/
theorem unquoted_quoted {quote : Char} (isQuote : isQuote quote = true) (text : List Char) :
    unquoted (quoted text quote) = text := by
  have wide : 2 ≤ Text.byteLength (quoted text quote) := by
    refine Nat.le_trans ?_ (length_le_byteLength (quoted text quote))
    simp [quoted]
  have inside : ((quoted text quote).drop 1).dropLast = text.flatMap (escapeChar quote) := by
    simp [quoted]
  rw [unquoted, if_pos wide, inside, unescape, pieces_quoted isQuote, decode_codes]

/-- A literal says which quotes it is written in. -/
theorem quoteOf_quoted {quote : Char} (isQuote : isQuote quote = true) (text : List Char) :
    quoteOf (quoted text quote) = quote := by
  have cases : quote = '\'' ∨ quote = '"' := by simpa [Literal.isQuote] using isQuote
  rcases cases with rfl | rfl <;> rfl

end StoreModels.Literal

namespace StoreModels.Model

/-- A model's names are written between quotes. -/
theorem isQuote_quote (doc : Document) (model : Model) : Literal.isQuote (model.quote doc) = true := by
  unfold quote
  split
  · exact Literal.isQuote_quoteOf _
  · rfl

end StoreModels.Model
