import StoreModels.Proofs.Text.Lines

/-!
Blocks of lines moved to the right. What is moved are the contents of the lines, without the carriage returns of their line
breaks: the first one stays where it is, and so do the empty ones. The line breaks are all written anew. So a block that is
moved twice is moved by both indentations together.
-/
namespace StoreModels.Text

variable {text line indent inner outer : List Char} {parts : List (List Char)} {newline : Newline}

/-- What the lines of a text hold without the carriage returns of their line breaks. -/
def contents (text : List Char) : List (List Char) := (lines text).map dropReturn

/-- A line moved to the right; an empty one stays empty. -/
def shifted (indent line : List Char) : List Char := (if line.isEmpty then [] else indent) ++ line

/-- Lines of which all but the first are moved to the right. -/
def shiftedRest (indent : List Char) : List (List Char) → List (List Char)
  | [] => []
  | first :: rest => first :: rest.map (shifted indent)

/-- A line as it stands between line breaks: without a line feed, and without a carriage return at its end. -/
def IsBare (line : List Char) : Prop := '\n' ∉ line ∧ line.getLast? ≠ some '\r'

/-! ## Contents -/

theorem dropReturn_bare (bare : IsBare line) : dropReturn line = line := if_neg bare.2

theorem dropReturn_return (line : List Char) : dropReturn (line ++ ['\r']) = line := by
  rw [dropReturn, if_pos List.getLast?_concat, List.dropLast_concat]

/-- A line that does not end in two carriage returns has none at its end without the one of its line break. -/
theorem dropReturn_single (single : ¬ ['\r', '\r'] <:+ line) : (dropReturn line).getLast? ≠ some '\r' := by
  intro ends
  obtain ⟨front, is⟩ := List.getLast?_eq_some_iff.mp ends
  rw [dropReturn] at is
  split at is
  next last =>
    obtain ⟨most, same⟩ := List.getLast?_eq_some_iff.mp last
    rw [same, List.dropLast_concat] at is
    exact single ⟨front, by rw [same, is, List.append_assoc, List.singleton_append]⟩
  next other => exact other (List.getLast?_eq_some_iff.mpr ⟨front, is⟩)

theorem contents_bare (single : ∀ line ∈ lines text, ¬ ['\r', '\r'] <:+ line) : ∀ line ∈ contents text, IsBare line := by
  intro line member
  obtain ⟨full, listed, rfl⟩ := List.mem_map.mp member
  exact ⟨fun feed => not_mem_lines listed (mem_dropReturn feed), dropReturn_single (single full listed)⟩

/-- A line break is a line feed, with a carriage return before it that belongs to no line. -/
theorem newline_text (newline : Newline) : ∃ before, newline.text = before ++ ['\n'] ∧ '\n' ∉ before ∧
    ∀ line, IsBare line → dropReturn (line ++ before) = line := by
  cases newline with
  | lf => exact ⟨[], rfl, List.not_mem_nil, fun line bare => by rw [List.append_nil, dropReturn_bare bare]⟩
  | crlf => exact ⟨['\r'], rfl, by decide, fun line _ => dropReturn_return line⟩

/-- Bare lines are what a text of them holds, whatever its line break. -/
theorem contents_intercalate (newline : Newline) (bare : ∀ line ∈ parts, IsBare line) (some : parts ≠ []) :
    contents (newline.text.intercalate parts) = parts := by
  obtain ⟨before, is, free, drops⟩ := newline_text newline
  induction parts with
  | nil => exact absurd rfl some
  | cons line rest ih =>
    obtain ⟨here, later⟩ := List.forall_mem_cons.mp bare
    cases rest with
    | nil => rw [List.intercalate_singleton, contents, lines_unbroken here.1, List.map_singleton, dropReturn_bare here]
    | cons next rest =>
      have split : newline.text.intercalate (line :: next :: rest) =
          (line ++ before) ++ '\n' :: newline.text.intercalate (next :: rest) := by
        rw [List.intercalate_cons_cons, is]
        simp only [List.append_assoc, List.singleton_append]
      have alone : '\n' ∉ line ++ before := fun feed => (List.mem_append.mp feed).elim here.1 free
      have known := ih later (List.cons_ne_nil _ _)
      rw [contents] at known ⊢
      rw [split, lines_break, lines_unbroken alone, List.map_append, List.map_singleton, drops line here, known,
        List.singleton_append]

theorem intercalate_cons (separator first : List Char) (rest : List (List Char)) :
    separator.intercalate (first :: rest) = first ++ rest.flatMap (separator ++ ·) := by
  induction rest generalizing first with
  | nil => rw [List.intercalate_singleton, List.flatMap_nil, List.append_nil]
  | cons next rest ih => rw [List.intercalate_cons_cons, ih, List.flatMap_cons, List.append_assoc, List.append_assoc]

/-! ## Moving -/

theorem indentLine_eq (indent lineBreak line : List Char) :
    indentLine indent lineBreak line = lineBreak ++ shifted indent (dropReturn line) := by
  rw [indentLine, shifted, List.append_assoc]

/-- A text of several lines is written anew from their contents. -/
theorem reindent_many (many : 1 < (lines text).length) (indent : List Char) (newline : Newline) :
    reindent text indent newline.text = newline.text.intercalate (shiftedRest indent (contents text)) := by
  unfold reindent
  split
  next none => simp [none] at many
  next line alone => simp [alone] at many
  next first rest _ split =>
    rw [contents, split, List.map_cons, shiftedRest, intercalate_cons, List.map_map, List.flatMap_map]
    congr 2
    exact funext fun line => indentLine_eq indent newline.text line

theorem reindent_one (one : ¬ 1 < (lines text).length) (indent lineBreak : List Char) :
    reindent text indent lineBreak = text := by
  unfold reindent
  split
  next none => exact absurd none (lines_ne_nil text)
  next => rfl
  next first rest more split =>
    cases rest with
    | nil => exact absurd rfl more
    | cons second rest => simp [split] at one

theorem shifted_shifted (outer inner line : List Char) : shifted outer (shifted inner line) = shifted (outer ++ inner) line := by
  cases line with
  | nil => simp [shifted]
  | cons c rest => simp [shifted]

theorem shiftedRest_shiftedRest (outer inner : List Char) (parts : List (List Char)) :
    shiftedRest outer (shiftedRest inner parts) = shiftedRest (outer ++ inner) parts := by
  cases parts with
  | nil => rfl
  | cons first rest => simp only [shiftedRest, List.map_map, Function.comp_def, shifted_shifted]

theorem length_shiftedRest (indent : List Char) (parts : List (List Char)) :
    (shiftedRest indent parts).length = parts.length := by
  cases parts with
  | nil => rfl
  | cons first rest => rw [shiftedRest, List.length_cons, List.length_map, List.length_cons]

theorem shifted_bare (free : '\n' ∉ indent) (bare : IsBare line) : IsBare (shifted indent line) := by
  cases line with
  | nil => exact bare
  | cons c rest =>
    refine ⟨fun feed => ?_, ?_⟩
    · exact (List.mem_append.mp feed).elim free bare.1
    · have last := bare.2
      rw [List.getLast?_cons] at last
      rwa [shifted, List.getLast?_append, List.getLast?_cons, Option.some_or]

theorem shiftedRest_bare (free : '\n' ∉ indent) (bare : ∀ line ∈ parts, IsBare line) :
    ∀ line ∈ shiftedRest indent parts, IsBare line := by
  cases parts with
  | nil => exact bare
  | cons first rest =>
    obtain ⟨here, later⟩ := List.forall_mem_cons.mp bare
    refine List.forall_mem_cons.mpr ⟨here, fun line member => ?_⟩
    obtain ⟨part, listed, rfl⟩ := List.mem_map.mp member
    exact shifted_bare free (later part listed)

/-- What a block of lines holds after it was moved. -/
theorem contents_reindent (single : ∀ line ∈ lines text, ¬ ['\r', '\r'] <:+ line) (free : '\n' ∉ indent)
    (newline : Newline) : contents (reindent text indent newline.text) = shiftedRest indent (contents text) := by
  by_cases many : 1 < (lines text).length
  · have some : shiftedRest indent (contents text) ≠ [] := by
      rw [ne_eq, ← List.length_eq_zero_iff, length_shiftedRest, contents, List.length_map]
      omega
    rw [reindent_many many, contents_intercalate newline (shiftedRest_bare free (contents_bare single)) some]
  · obtain ⟨line, rest, split⟩ := List.exists_cons_of_ne_nil (lines_ne_nil text)
    have alone : rest = [] := by
      rw [split, List.length_cons] at many
      exact List.length_eq_zero_iff.mp (by omega)
    rw [reindent_one many, contents, split, alone]
    rfl

/-- A block of lines against the one that it was moved from. -/
structure Reindented (text indent : List Char) (newline : Newline) (result : List Char) : Prop where
  count : (lines result).length = (lines text).length
  first : (contents result).head? = (contents text).head?
  rest : ∀ i : Nat, (contents result)[i + 1]? = (contents text)[i + 1]?.map (shifted indent)
  empty : ∀ i : Nat, (contents result)[i]? = some [] ↔ (contents text)[i]? = some []
  /-- Several lines have the one line break between each two. -/
  breaks : 1 < (lines text).length →
    result = newline.text.intercalate (contents result) ∧ ∀ line ∈ contents result, IsBare line
  /-- Where carriage returns only stood at line breaks, they only do so now. -/
  returns : (∀ line ∈ contents text, '\r' ∉ line) → ∀ line ∈ contents result, '\r' ∉ line

theorem shifted_eq_nil : shifted indent line = [] ↔ line = [] := by
  cases line with
  | nil => simp [shifted]
  | cons c rest => simp [shifted]

theorem not_mem_shifted {c : Char} (free : c ∉ indent) (none : c ∉ line) : c ∉ shifted indent line := by
  unfold shifted
  split
  · simpa using none
  · exact fun member => (List.mem_append.mp member).elim free none

theorem reindented (single : ∀ line ∈ lines text, ¬ ['\r', '\r'] <:+ line) (blank : ∀ c ∈ indent, isIndent c = true)
    (newline : Newline) : Reindented text indent newline (reindent text indent newline.text) := by
  have free : '\n' ∉ indent := fun feed => absurd (blank _ feed) (by decide)
  have unreturned : '\r' ∉ indent := fun back => absurd (blank _ back) (by decide)
  have now := contents_reindent single free newline
  obtain ⟨line, rest, old⟩ := List.exists_cons_of_ne_nil (l := contents text) (by simpa [contents] using lines_ne_nil text)
  have length := congrArg List.length now
  rw [length_shiftedRest] at length
  have count : (lines (reindent text indent newline.text)).length = (lines text).length := by
    simpa only [contents, List.length_map] using length
  refine ⟨count, ?first, ?rest, ?empty, ?breaks, ?returns⟩
  case first => rw [now, old, shiftedRest, List.head?_cons, List.head?_cons]
  case rest =>
    intro i
    rw [now, old, shiftedRest, List.getElem?_cons_succ, List.getElem?_cons_succ, List.getElem?_map]
  case empty =>
    intro i
    rw [now, old, shiftedRest]
    cases i with
    | zero => rfl
    | succ i =>
      rw [List.getElem?_cons_succ, List.getElem?_cons_succ, List.getElem?_map, Option.map_eq_some_iff]
      simp only [shifted_eq_nil, exists_eq_right]
  case breaks =>
    intro many
    rw [now, ← reindent_many many]
    exact ⟨rfl, shiftedRest_bare free (contents_bare single)⟩
  case returns =>
    rw [now, old]
    intro none
    obtain ⟨here, later⟩ := List.forall_mem_cons.mp none
    refine List.forall_mem_cons.mpr ⟨here, fun line member => ?_⟩
    obtain ⟨part, listed, rfl⟩ := List.mem_map.mp member
    exact not_mem_shifted unreturned (later part listed)

/-- A block of lines that is moved twice is moved by both indentations together. Its lines stay as many as they were, the
    first one and the empty ones hold what they held, and of several lines each ends in the one line break. -/
theorem reindent_reindent (single : ∀ line ∈ lines text, ¬ ['\r', '\r'] <:+ line)
    (blank : ∀ c ∈ inner, isIndent c = true) (outer : List Char) (newline : Newline) :
    reindent (reindent text inner newline.text) outer newline.text = reindent text (outer ++ inner) newline.text ∧
      Reindented text inner newline (reindent text inner newline.text) := by
  have moved := reindented single blank newline
  refine ⟨?_, moved⟩
  have free : '\n' ∉ inner := fun feed => absurd (blank _ feed) (by decide)
  by_cases many : 1 < (lines text).length
  · have many' : 1 < (lines (reindent text inner newline.text)).length := moved.count ▸ many
    rw [reindent_many many', contents_reindent single free, shiftedRest_shiftedRest, reindent_many many]
  · rw [reindent_one many, reindent_one many, reindent_one many]

/-- A block with both line breaks and an empty line, moved by two blanks and then by a tab. -/
theorem reindent_reindent_mixed :
    (∀ line ∈ lines "f(\r\n\n a,\r\nb)".toList, ¬ ['\r', '\r'] <:+ line) ∧
      reindent (reindent "f(\r\n\n a,\r\nb)".toList [' ', ' '] Newline.crlf.text) ['\t'] Newline.crlf.text =
        "f(\r\n\r\n\t   a,\r\n\t  b)".toList ∧
      reindent (reindent "f(\r\n\n a,\r\nb)".toList [' ', ' '] Newline.crlf.text) ['\t'] Newline.crlf.text =
        reindent "f(\r\n\n a,\r\nb)".toList (['\t'] ++ [' ', ' ']) Newline.crlf.text ∧
      Reindented "f(\r\n\n a,\r\nb)".toList [' ', ' '] .crlf
        (reindent "f(\r\n\n a,\r\nb)".toList [' ', ' '] Newline.crlf.text) := by
  have single : ∀ line ∈ lines "f(\r\n\n a,\r\nb)".toList, ¬ ['\r', '\r'] <:+ line := by decide +kernel
  have blank : ∀ c ∈ [' ', ' '], isIndent c = true := by simp [isIndent]
  exact ⟨single, by decide +kernel, reindent_reindent single blank ['\t'] .crlf⟩

end StoreModels.Text
