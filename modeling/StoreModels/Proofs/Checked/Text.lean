import StoreModels.Document.Print
import StoreModels.Literal.Quoted
import StoreModels.Proofs.Text.Breaks
import StoreModels.Proofs.Text.Splice

/-!
Parts of texts, where asking for a part that is not there fails. Positions count characters, but a part is cut out by
bytes: it fails where the first byte comes after the second, where one of them is beyond the text, and where one of them
is inside a character.
-/
namespace StoreModels.Checked
open Text (byteLength takeBytes)

variable {text raw part : List Char} {c : Char} {start stop position : Nat}

/-! ## Bytes -/

theorem foldl_utf8Size (text : List Char) (n : Nat) :
    text.foldl (fun bytes c => bytes + c.utf8Size) n = n + byteLength text := by
  induction text generalizing n with
  | nil => rfl
  | cons c rest ih =>
    rw [byteLength, List.foldl_cons, List.foldl_cons, ih, ih]
    omega

theorem byteLength_cons (c : Char) (rest : List Char) : byteLength (c :: rest) = c.utf8Size + byteLength rest := by
  rw [byteLength, List.foldl_cons, foldl_utf8Size]
  omega

theorem byteLength_append (before after : List Char) :
    byteLength (before ++ after) = byteLength before + byteLength after := by
  rw [byteLength, List.foldl_append, foldl_utf8Size]
  rfl

theorem takeBytes_byteLength (before after : List Char) : takeBytes (byteLength before) (before ++ after) = before := by
  induction before with
  | nil =>
    cases after with
    | nil => rfl
    | cons c rest =>
      have wide : ¬ c.utf8Size ≤ byteLength [] := Nat.not_le_of_gt c.utf8Size_pos
      rw [List.nil_append, takeBytes, if_neg wide]
  | cons c rest ih =>
    rw [byteLength_cons, List.cons_append, takeBytes, if_pos (by omega), Nat.add_sub_cancel_left, ih]

/-- Whether a byte offset lies between two characters of a text, or at one of its ends. -/
def IsBoundary (text : List Char) (offset : Nat) : Prop := byteLength (takeBytes offset text) = offset

instance (text : List Char) (offset : Nat) : Decidable (IsBoundary text offset) := inferInstanceAs (Decidable (_ = _))

theorem isBoundary_append (before after : List Char) : IsBoundary (before ++ after) (byteLength before) := by
  rw [IsBoundary, takeBytes_byteLength]

/-- The part of a text between two byte offsets. -/
def bytes (text : List Char) (start stop : Nat) : Option (List Char) :=
  if start ≤ stop ∧ IsBoundary text start ∧ IsBoundary text stop then
    some ((takeBytes stop text).drop (takeBytes start text).length)
  else none

theorem bytes_middle (before part after : List Char) :
    bytes (before ++ part ++ after) (byteLength before) (byteLength (before ++ part)) = some part := by
  have start : IsBoundary (before ++ part ++ after) (byteLength before) := by
    rw [List.append_assoc]
    exact isBoundary_append before (part ++ after)
  have stop := isBoundary_append (before ++ part) after
  have taken : takeBytes (byteLength before) (before ++ part ++ after) = before := by
    rw [List.append_assoc, takeBytes_byteLength]
  rw [bytes, if_pos ⟨by rw [byteLength_append]; omega, start, stop⟩, takeBytes_byteLength, taken, List.drop_left]

/-! ## Parts between positions -/

/-- The byte offset of a position. -/
def offset (text : List Char) (position : Nat) : Option Nat :=
  if position ≤ text.length then some (byteLength (text.take position)) else none

/-- The part of a text between two positions. -/
def slice (text : List Char) (start stop : Nat) : Option (List Char) := do
  bytes text (← offset text start) (← offset text stop)

theorem slice_some (le : start ≤ stop) (inside : stop ≤ text.length) :
    slice text start stop = some (Text.slice text start stop) := by
  have cut : text.take start ++ Text.slice text start stop = text.take stop := Text.take_append_slice text le
  have whole : text.take start ++ Text.slice text start stop ++ text.drop stop = text := by
    rw [cut, List.take_append_drop]
  have middle := bytes_middle (text.take start) (Text.slice text start stop) (text.drop stop)
  rw [whole, cut] at middle
  rw [slice, offset, offset, if_pos (by omega), if_pos inside]
  exact middle

/-! ## Lines -/

/-- Where the last line of a text starts. -/
def lastLineStart (text : List Char) : Nat := text.length - (Text.lastLine text).length

/-- The indentation of the line that holds a position, or of the last line for one beyond the text: the text before it,
    from the start of its last line the rest of the whole, and from that the blanks. -/
def lineIndent (text : List Char) (position : Nat) : Option (List Char) := do
  let before ← slice text 0 (min position text.length)
  let line ← slice text (lastLineStart before) text.length
  slice line 0 (line.takeWhile Text.isIndent).length

/-- The indentation of the last line of a text. -/
def lastIndent (text : List Char) : Option (List Char) := lineIndent text (lastLineStart text)

theorem getLast_lines_cons {rest : List Char} (other : c ≠ '\n') (feed : '\n' ∈ rest) :
    (Text.lines (c :: rest)).getLast? = (Text.lines rest).getLast? := by
  cases split : Text.lines rest with
  | nil => exact absurd split (Text.lines_ne_nil rest)
  | cons head more =>
    have more' : more ≠ [] := by
      rcases Text.lines_cons split with ⟨rfl, rfl⟩ | ⟨more', _⟩
      · exact absurd feed (Text.not_mem_lines (by rw [split]; exact List.mem_cons_self))
      · exact more'
    rw [Text.lines, if_neg other, split, List.modifyHead_cons, List.getLast?_cons_of_ne_nil more',
      List.getLast?_cons_of_ne_nil more']

/-- The last line of a text comes after its last line feed. -/
theorem getLast_lines (text : List Char) : ∃ before line, text = before ++ line ∧
    (Text.lines text).getLast? = some line ∧ (before = [] ∨ before.getLast? = some '\n') := by
  induction text with
  | nil => exact ⟨[], [], rfl, rfl, .inl rfl⟩
  | cons c rest ih =>
    obtain ⟨before, line, is, last, ends⟩ := ih
    by_cases feed : c = '\n'
    · refine ⟨c :: before, line, by rw [is, List.cons_append], ?_, .inr ?_⟩
      · rw [Text.lines, if_pos feed, List.getLast?_cons_of_ne_nil (Text.lines_ne_nil rest), last]
      · rcases ends with rfl | ends
        · rw [feed]
          rfl
        · rw [List.getLast?_cons, ends]
          rfl
    · by_cases inner : '\n' ∈ rest
      · refine ⟨c :: before, line, by rw [is, List.cons_append], ?_, .inr ?_⟩
        · rw [getLast_lines_cons feed inner, last]
        · rcases ends with rfl | ends
          · rw [is, List.nil_append] at inner
            exact absurd inner (Text.not_mem_lines (List.mem_of_getLast? last))
          · rw [List.getLast?_cons, ends]
            rfl
      · refine ⟨[], c :: rest, rfl, ?_, .inl rfl⟩
        cases split : Text.lines rest with
        | nil => exact absurd split (Text.lines_ne_nil rest)
        | cons head more =>
          rcases Text.lines_cons split with ⟨rfl, rfl⟩ | ⟨_, behind, is⟩
          · rw [Text.lines, if_neg feed, split]
            rfl
          · rw [is] at inner
            exact absurd (List.mem_append_right _ List.mem_cons_self) inner

theorem lastLine_split (text : List Char) : ∃ before, text = before ++ Text.lastLine text ∧
    (before = [] ∨ before.getLast? = some '\n') := by
  obtain ⟨before, line, is, last, ends⟩ := getLast_lines text
  exact ⟨before, by rw [Text.lastLine, last, Option.getD_some, ← is], ends⟩

theorem lastLineStart_append {before : List Char} (is : text = before ++ Text.lastLine text) :
    lastLineStart text = before.length := by
  have length := congrArg List.length is
  rw [List.length_append] at length
  rw [lastLineStart]
  omega

/-- The last line of a text is what stands from its start on. -/
theorem drop_lastLineStart (text : List Char) : text.drop (lastLineStart text) = Text.lastLine text := by
  obtain ⟨before, is, _⟩ := lastLine_split text
  rw [lastLineStart_append is]
  conv_lhs => rw [is]
  rw [List.drop_left]

/-- Nothing stands between the last line feed and the last line. -/
theorem lastLine_take (text : List Char) : Text.lastLine (text.take (lastLineStart text)) = [] := by
  obtain ⟨before, is, ends⟩ := lastLine_split text
  have taken : text.take (lastLineStart text) = before := by
    rw [lastLineStart_append is]
    conv_lhs => rw [is]
    rw [List.take_left]
  rw [taken]
  rcases ends with rfl | ends
  · rfl
  · obtain ⟨early, line, split, last, _⟩ := getLast_lines before
    rcases List.eq_nil_or_concat line with rfl | ⟨more, d, rfl⟩
    · rw [Text.lastLine, last]
      rfl
    · rw [List.concat_eq_append] at split last
      have feed : d = '\n' := by
        rw [split, ← List.append_assoc, List.getLast?_append] at ends
        simpa using ends
      have inside : '\n' ∈ more ++ [d] := by simp [feed]
      exact absurd inside (Text.not_mem_lines (List.mem_of_getLast? last))

theorem lineIndent_min (text : List Char) (position : Nat) :
    Text.lineIndent text (min position text.length) = Text.lineIndent text position := by
  by_cases inside : position ≤ text.length
  · rw [Nat.min_eq_left inside]
  · have beyond : text.length ≤ position := Nat.le_of_not_le inside
    rw [Nat.min_eq_right beyond, Text.lineIndent, Text.lineIndent, List.take_length, List.drop_length,
      List.take_of_length_le beyond, List.drop_of_length_le beyond]

theorem lineIndent_some (text : List Char) (position : Nat) :
    lineIndent text position = some (Text.lineIndent text position) := by
  rw [← lineIndent_min, lineIndent]
  have inside : min position text.length ≤ text.length := Nat.min_le_right _ _
  generalize min position text.length = position at inside ⊢
  have before := @slice_some text _ _ (Nat.zero_le position) inside
  rw [Text.slice_zero] at before
  have early : lastLineStart (text.take position) ≤ position := by
    rw [lastLineStart, List.length_take]
    omega
  have line := @slice_some text _ _ (Nat.le_trans early inside) (Nat.le_refl text.length)
  have cut : text.drop (lastLineStart (text.take position)) =
      Text.lastLine (text.take position) ++ text.drop position := by
    have within : lastLineStart (text.take position) ≤ (text.take position).length := Nat.sub_le _ _
    rw [← drop_lastLineStart (text.take position), ← List.drop_append_of_le_length within, List.take_append_drop]
  rw [Text.slice_end, cut] at line
  rw [before]
  simp only [Option.bind_eq_bind, Option.bind_some, line]
  rw [slice_some (Nat.zero_le _) (List.takeWhile_prefix _).length_le, Text.slice_zero, Text.lineIndent,
    ← List.prefix_iff_eq_take.mp (List.takeWhile_prefix _)]

theorem lastIndent_some (text : List Char) : lastIndent text = some (StoreModels.lastIndent text) := by
  rw [lastIndent, lineIndent_some, Text.lineIndent, lastLine_take, drop_lastLineStart, List.nil_append,
    StoreModels.lastIndent]

/-! ## Literals -/

/-- Whether a text starts and ends with characters of one byte, if it has any. -/
def IsPeelable (raw : List Char) : Prop :=
  (∀ c ∈ raw.head?, c.utf8Size = 1) ∧ ∀ c ∈ raw.getLast?, c.utf8Size = 1

/-- The text that a literal stands for, its first and last byte taken for quotes. -/
def unquoted (raw : List Char) : Option (List Char) := do
  let inside ← if 2 ≤ byteLength raw then bytes raw 1 (byteLength raw - 1) else some raw
  return Literal.unescape inside

theorem unquoted_some (peelable : IsPeelable raw) : unquoted raw = some (Literal.unquoted raw) := by
  by_cases wide : 2 ≤ byteLength raw
  · obtain ⟨c, inside, d, rfl⟩ : ∃ c inside d, raw = c :: (inside ++ [d]) := by
      cases raw with
      | nil => simp [byteLength] at wide
      | cons c rest =>
        rcases List.eq_nil_or_concat rest with rfl | ⟨inside, d, rfl⟩
        · have narrow := peelable.1 c rfl
          rw [byteLength_cons, narrow] at wide
          simp [byteLength] at wide
        · exact ⟨c, inside, d, by rw [List.concat_eq_append]⟩
    have front : c.utf8Size = 1 := peelable.1 c rfl
    have back : d.utf8Size = 1 := peelable.2 d (by simp [List.getLast?_cons])
    have one : ∀ c : Char, c.utf8Size = 1 → byteLength [c] = 1 := fun c is => by rw [byteLength_cons, is]; rfl
    have middle := bytes_middle [c] inside [d]
    have stop : byteLength ([c] ++ inside) = byteLength (c :: (inside ++ [d])) - 1 := by
      rw [show c :: (inside ++ [d]) = [c] ++ inside ++ [d] by simp, byteLength_append ([c] ++ inside), one d back]
      rfl
    rw [stop, one c front, show [c] ++ inside ++ [d] = c :: (inside ++ [d]) by simp] at middle
    rw [unquoted, if_pos wide, middle, Literal.unquoted, if_pos wide]
    simp
  · rw [unquoted, if_neg wide, Literal.unquoted, if_neg wide]
    rfl

end StoreModels.Checked
