import StoreModels.Proofs.Text.Indented
import StoreModels.Proofs.Text.Splice

/-!
Passages of a block of lines that is moved to the right. What stands on one line of the block stands on one line again,
behind what the lines before it have become.
-/
namespace StoreModels.Text

variable {text text' before after line part indent newline : List Char} {done : List (List Char)} {start stop a b place : Nat}

instance (line : List Char) : Decidable (IsBare line) := inferInstanceAs (Decidable (_ ∧ _))

/-- What the start of a block has become once the block has been moved, if there is more on its last line. -/
def movedBefore (indent newline before : List Char) : List Char :=
  match (lines before).dropLast with
  | [] => before
  | first :: rest => dropReturn first ++ rest.flatMap (indentLine indent newline) ++ newline ++ indent ++ lastLine before

/-- Where a place in a part of a text, counted from its start, comes to stand once the part has been moved. -/
def movedTo (indent newline text : List Char) (start place : Nat) : Nat :=
  (movedBefore indent newline (slice text start place)).length

/-- What goes on in the last line only adds to it. -/
theorem movedBefore_append (indent newline : List Char) (bare : '\n' ∉ part) :
    movedBefore indent newline (before ++ part) = movedBefore indent newline before ++ part := by
  obtain ⟨done, split⟩ := lines_last before
  have longer : lines (before ++ part) = done ++ [lastLine before ++ part] := lines_append split (lines_unbroken bare)
  unfold movedBefore
  rw [longer, split, List.dropLast_concat, List.dropLast_concat]
  cases done with
  | nil => rfl
  | cons first rest => simp only [lastLine_eq longer, List.append_assoc]

/-- The carriage return of a line break is no part of what stands bare on the line. -/
theorem dropReturn_append (bare : IsBare part) (some : part ≠ []) (line rest : List Char) :
    dropReturn (line ++ (part ++ rest)) = line ++ (part ++ dropReturn rest) := by
  have keeps : ∀ front c, c ≠ '\r' → dropReturn (front ++ [c]) = front ++ [c] := fun front c other =>
    if_neg (by simpa using other)
  rcases List.eq_nil_or_concat rest with rfl | ⟨front, c, rfl⟩
  · rw [List.append_nil, show dropReturn [] = [] from rfl, List.append_nil, dropReturn, if_neg]
    rw [List.getLast?_append_of_ne_nil _ some]
    exact bare.2
  · rw [List.concat_eq_append, ← List.append_assoc, ← List.append_assoc]
    by_cases back : c = '\r'
    · rw [back, dropReturn_return, dropReturn_return, List.append_assoc]
    · rw [keeps _ c back, keeps _ c back]
      simp only [List.append_assoc]

/-- A part of a block that stands on one line stands behind what the lines before it have become. -/
theorem reindent_split (bare : IsBare part) (some : part ≠ []) (before after indent newline : List Char) :
    ∃ rest, reindent (before ++ (part ++ after)) indent newline =
      movedBefore indent newline before ++ (part ++ rest) := by
  obtain ⟨done, split⟩ := lines_last before
  obtain ⟨first, later, split'⟩ := List.exists_cons_of_ne_nil (lines_ne_nil after)
  have behind : lines (part ++ after) = (part ++ first) :: later :=
    lines_append (show lines part = [] ++ [part] from lines_unbroken bare.1) split'
  have whole : lines (before ++ (part ++ after)) = done ++ (lastLine before ++ (part ++ first)) :: later :=
    lines_append split behind
  unfold reindent movedBefore
  rw [whole, split, List.dropLast_concat]
  cases done with
  | nil =>
    have alone : lastLine before = before := by
      rcases lines_cons split with ⟨_, is⟩ | ⟨more, _⟩
      · exact is.symm
      · exact absurd rfl more
    rw [alone]
    cases later with
    | nil => exact ⟨after, rfl⟩
    | cons next later =>
      refine ⟨dropReturn first ++ (next :: later).flatMap (indentLine indent newline), ?_⟩
      simp only [List.nil_append, dropReturn_append bare some, List.append_assoc]
  | cons head done =>
    refine ⟨dropReturn first ++ later.flatMap (indentLine indent newline), ?_⟩
    rcases done with _ | ⟨next, done⟩ <;>
      simp [indentLine, dropReturn_append bare some, some]

/-- A part of a text that lies within another part. -/
theorem slice_within {rest : List Char}
    (there : slice text place (place + (before ++ (part ++ rest)).length) = before ++ (part ++ rest)) :
    slice text (place + before.length) (place + (before ++ part).length) = part := by
  have shown : text.drop place = before ++ (part ++ rest) ++ text.drop (place + (before ++ (part ++ rest)).length) := by
    rw [← slice_append_drop text (Nat.le_add_right place _), there]
  rw [slice, ← List.drop_drop, shown, List.append_assoc, List.drop_left, List.append_assoc]
  exact List.take_left' (by rw [List.length_append]; omega)

/-- What stands on one line of a moved part has its text again, at the places where its ends have come to stand. -/
theorem slice_moved (there : slice text' place (place + (reindent (slice text start stop) indent newline).length) =
      reindent (slice text start stop) indent newline)
    (low : start ≤ a) (le : a ≤ b) (high : b ≤ stop) (bare : IsBare (slice text a b)) :
    slice text' (place + movedTo indent newline text start a) (place + movedTo indent newline text start b) =
      slice text a b := by
  have whole : slice text start stop = slice text start a ++ (slice text a b ++ slice text b stop) := by
    rw [slice_append text le high, slice_append text low (le.trans high)]
  have until_b : slice text start b = slice text start a ++ slice text a b := (slice_append text low le).symm
  have moved : movedTo indent newline text start b =
      (movedBefore indent newline (slice text start a) ++ slice text a b).length := by
    rw [movedTo, until_b, movedBefore_append _ _ bare.1]
  rw [moved, movedTo]
  by_cases none : slice text a b = []
  · rw [none, List.append_nil, slice_self]
  · obtain ⟨rest, is⟩ := reindent_split bare none (slice text start a) (slice text b stop) indent newline
    rw [whole, is] at there
    exact slice_within there

end StoreModels.Text
