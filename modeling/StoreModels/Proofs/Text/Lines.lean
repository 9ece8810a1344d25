import StoreModels.Proofs.Text.Breaks

/-!
The lines of texts that are put one behind the other. The last line of the first text and the first line of the second
one become one line; all others stay as they are.
-/
namespace StoreModels.Text

variable {text before after line first : List Char} {done rest : List (List Char)}

theorem lines_eq_splitOn (text : List Char) : lines text = text.splitOn '\n' := by
  induction text with
  | nil => rfl
  | cons c rest ih => simp only [lines, List.splitOn_cons_eq_if_modifyHead, ih, beq_iff_eq]

theorem lines_break (before after : List Char) : lines (before ++ '\n' :: after) = lines before ++ lines after := by
  simp only [lines_eq_splitOn, List.splitOn_append_cons_self]

theorem lines_unbroken (none : '\n' ∉ text) : lines text = [text] := by
  rw [lines_eq_splitOn, List.splitOn_eq_singleton none]

theorem length_lines (text : List Char) : (lines text).length = text.count '\n' + 1 := by
  induction text with
  | nil => rfl
  | cons c rest ih =>
    by_cases feed : c = '\n'
    · rw [lines, if_pos feed, List.length_cons, ih, feed, List.count_cons_self]
    · rw [lines, if_neg feed, List.length_modifyHead, ih, List.count_cons_of_ne feed]

theorem lastLine_eq (split : lines text = done ++ [line]) : lastLine text = line := by
  rw [lastLine, split, List.getLast?_concat, Option.getD_some]

/-- The last line of a text stands behind all others. -/
theorem lines_last (text : List Char) : ∃ done, lines text = done ++ [lastLine text] := by
  rcases List.eq_nil_or_concat (lines text) with none | ⟨done, line, split⟩
  · exact absurd none (lines_ne_nil text)
  · rw [List.concat_eq_append] at split
    exact ⟨done, by rw [lastLine_eq split, split]⟩

theorem lines_append (left : lines before = done ++ [line]) (right : lines after = first :: rest) :
    lines (before ++ after) = done ++ (line ++ first) :: rest := by
  induction before generalizing done line with
  | nil =>
    have single : [[]] = done ++ [line] := left
    cases done with
    | nil =>
      cases single
      exact right
    | cons head more => simp at single
  | cons c before ih =>
    obtain ⟨done', split⟩ := lines_last before
    rw [lines, split] at left
    rw [List.cons_append, lines, ih split]
    by_cases feed : c = '\n'
    · rw [if_pos feed, ← List.cons_append] at left
      rw [if_pos feed, ← List.cons_append]
      obtain ⟨rfl, same⟩ := List.append_inj' left rfl
      cases same
      rfl
    · rw [if_neg feed] at left ⊢
      cases done' with
      | nil =>
        cases done with
        | nil =>
          cases left
          rfl
        | cons head more => simp at left
      | cons head more =>
        rw [List.cons_append, List.modifyHead_cons, ← List.cons_append] at left ⊢
        obtain ⟨rfl, same⟩ := List.append_inj' left rfl
        cases same
        rfl

theorem lastLine_break (before after : List Char) : lastLine (before ++ '\n' :: after) = lastLine after := by
  obtain ⟨done, split⟩ := lines_last after
  have whole : lines (before ++ '\n' :: after) = lines before ++ done ++ [lastLine after] := by
    rw [lines_break, split, List.append_assoc]
  exact lastLine_eq whole

/-- What has no line feed goes on in the last line of the text before it. -/
theorem lastLine_append (before : List Char) (none : '\n' ∉ after) : lastLine (before ++ after) = lastLine before ++ after := by
  obtain ⟨done, split⟩ := lines_last before
  exact lastLine_eq (lines_append split (lines_unbroken none))

end StoreModels.Text
