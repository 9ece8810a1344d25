import Mathlib.Data.List.TakeWhile
import StoreModels.Proofs.Text.Splice
import StoreModels.Text.Lines

/-!
Texts in which every line feed stands behind a carriage return. Such texts can be put one behind the other, and cut
anywhere but between the two characters of a line break. What has no line feed is one of them, and so is a block of
lines that was moved over with the longer line break, whatever the line breaks it had before.
-/
namespace StoreModels.Text

variable {text first second indent : List Char} {place start stop : Nat}

/-- Every line feed stands behind a carriage return. -/
def Paired (text : List Char) : Prop :=
  ∀ before after, text = before ++ '\n' :: after → before.getLast? = some '\r'

/-- A position does not lie between a carriage return and a line feed. -/
def Uncut (text : List Char) (place : Nat) : Prop :=
  (text.take place).getLast? = some '\r' → (text.drop place).head? ≠ some '\n'

instance (text : List Char) (place : Nat) : Decidable (Uncut text place) :=
  inferInstanceAs (Decidable (_ → _))

/-! ## Putting together -/

theorem Paired.of_not_mem (none : '\n' ∉ text) : Paired text := by
  intro before after is
  exact absurd (is ▸ List.mem_append_right before List.mem_cons_self) none

theorem paired_nil : Paired [] := Paired.of_not_mem (by simp)

theorem Paired.append (left : Paired first) (right : Paired second) : Paired (first ++ second) := by
  intro before after is
  rcases List.append_eq_append_iff.mp is with ⟨middle, rfl, tail⟩ | ⟨middle, rfl, tail⟩
  · rw [List.getLast?_append, right middle after tail]
    rfl
  · cases middle with
    | nil =>
      -- A line feed at the very start of the second text would stand behind nothing.
      have impossible := right [] after tail.symm
      cases impossible
    | cons c rest =>
      cases tail
      exact left before rest rfl

theorem Paired.cons {c : Char} (other : c ≠ '\n') (paired : Paired text) : Paired (c :: text) := by
  have single : Paired [c] := .of_not_mem (by simpa using other.symm)
  exact single.append paired

theorem Paired.flatMap {α : Type} {parts : List α} {write : α → List Char}
    (paired : ∀ part ∈ parts, Paired (write part)) : Paired (parts.flatMap write) := by
  induction parts with
  | nil => exact paired_nil
  | cons part rest ih =>
    rw [List.flatMap_cons]
    exact (paired part (by simp)).append (ih fun other member => paired other (by simp [member]))

/-- The longer line break with a text without line feeds behind it. -/
theorem Paired.break (none : '\n' ∉ text) : Paired ('\r' :: '\n' :: text) := by
  intro before after is
  rcases before with - | ⟨c, - | ⟨d, rest⟩⟩
  · cases is
  · cases is
    rfl
  · cases is
    simp at none

/-! ## Cutting -/

theorem Paired.left (second : List Char) (paired : Paired (first ++ second)) : Paired first := by
  intro before after is
  refine paired before (after ++ second) ?_
  rw [is, List.append_assoc, List.cons_append]

theorem Paired.right (first : List Char) (paired : Paired (first ++ second))
    (uncut : first.getLast? = some '\r' → second.head? ≠ some '\n') : Paired second := by
  intro before after is
  have behind := paired (first ++ before) after (by rw [is, List.append_assoc])
  rw [List.getLast?_append] at behind
  cases last : before.getLast? with
  | some c =>
    rw [last] at behind
    exact behind
  | none =>
    -- The line feed is the first character of the second text.
    rw [List.getLast?_eq_none_iff] at last
    rw [last] at behind is
    exact absurd (congrArg List.head? is) (uncut behind)

theorem Paired.take (paired : Paired text) (place : Nat) : Paired (text.take place) := by
  refine Paired.left (text.drop place) ?_
  rwa [List.take_append_drop]

theorem Paired.drop (paired : Paired text) (uncut : Uncut text place) : Paired (text.drop place) := by
  refine Paired.right (text.take place) ?_ uncut
  rwa [List.take_append_drop]

theorem Paired.slice (paired : Paired text) (uncut : Uncut text start) : Paired (slice text start stop) :=
  (paired.drop uncut).take _

/-- Inside of a part without line feeds nothing is cut. -/
theorem uncut_inside (none : '\n' ∉ slice text start stop) (low : start ≤ place) (high : place < stop) :
    Uncut text place := by
  intro _ feed
  obtain ⟨rest, is⟩ := List.head?_eq_some_iff.mp feed
  have here : '\n' ∈ slice text place stop := by
    rw [slice, is]
    obtain ⟨n, more⟩ : ∃ n, stop - place = n + 1 := ⟨stop - place - 1, by omega⟩
    rw [more, List.take_succ_cons]
    exact List.mem_cons_self
  exact none (mem_slice_mono low (Nat.le_refl _) here)

theorem Paired.trimEnd (paired : Paired text) : Paired (trimEnd text) := by
  refine Paired.left (text.reverse.takeWhile isBlank).reverse ?_
  rwa [Text.trimEnd, ← List.reverse_append, List.takeWhile_append_dropWhile, List.reverse_reverse]

/-- Blanks are cut off up to a character that is none. -/
theorem Paired.trimStart (paired : Paired text) : Paired (trimStart text) := by
  refine Paired.right (text.takeWhile isBlank) ?_ fun _ starts => ?_
  · rwa [Text.trimStart, List.takeWhile_append_dropWhile]
  · have solid := List.head?_dropWhile_not isBlank text
    rw [Text.trimStart] at starts
    rw [starts] at solid
    exact absurd solid (by decide)

/-! ## Lines -/

theorem lines_ne_nil (text : List Char) : lines text ≠ [] := by
  induction text with
  | nil => exact List.cons_ne_nil _ _
  | cons c rest ih =>
    unfold lines
    split
    · exact List.cons_ne_nil _ _
    · rwa [ne_eq, List.modifyHead_eq_nil_iff]

theorem not_mem_lines {line : List Char} (member : line ∈ lines text) : '\n' ∉ line := by
  induction text generalizing line with
  | nil =>
    rw [List.mem_singleton.mp member]
    exact List.not_mem_nil
  | cons c rest ih =>
    unfold lines at member
    split at member
    · rcases List.mem_cons.mp member with rfl | later
      · exact List.not_mem_nil
      · exact ih later
    next other =>
      cases split : lines rest with
      | nil => exact absurd split (lines_ne_nil rest)
      | cons head more =>
        rw [split, List.modifyHead_cons] at member
        rw [split] at ih
        rcases List.mem_cons.mp member with rfl | later
        · intro inside
          rcases List.mem_cons.mp inside with same | inside
          · exact other same.symm
          · exact ih List.mem_cons_self inside
        · exact ih (List.mem_cons_of_mem _ later)

/-- What stands before the first line feed of a text is its first line. -/
theorem lines_cons {line : List Char} {more : List (List Char)} (split : lines text = line :: more) :
    (more = [] ∧ text = line) ∨ (more ≠ [] ∧ ∃ rest, text = line ++ '\n' :: rest) := by
  induction text generalizing line with
  | nil =>
    cases split
    exact .inl ⟨rfl, rfl⟩
  | cons c rest ih =>
    unfold lines at split
    split at split
    next feed =>
      cases split
      exact .inr ⟨lines_ne_nil rest, rest, by rw [feed, List.nil_append]⟩
    next =>
      cases inner : lines rest with
      | nil => exact absurd inner (lines_ne_nil rest)
      | cons head others =>
        rw [inner, List.modifyHead_cons] at split
        cases split
        rcases ih inner with ⟨none, same⟩ | ⟨some, behind, same⟩
        · exact .inl ⟨none, by rw [same]⟩
        · exact .inr ⟨some, behind, by rw [same, List.cons_append]⟩

/-- A file whose line feeds stand behind carriage returns shows the longer line break. -/
theorem newlineOf_paired (paired : Paired text) (feed : '\n' ∈ text) : newlineOf text = .crlf := by
  unfold newlineOf
  split
  next line second more split =>
    rcases lines_cons split with ⟨none, _⟩ | ⟨_, rest, is⟩
    · cases none
    · rw [if_pos (paired line rest is)]
  next alone =>
    cases split : lines text with
    | nil => exact absurd split (lines_ne_nil text)
    | cons line more =>
      rcases lines_cons split with ⟨_, same⟩ | ⟨some, _⟩
      · exact absurd (same ▸ feed) (not_mem_lines (split ▸ List.mem_cons_self))
      · cases more with
        | nil => exact absurd rfl some
        | cons second others => exact absurd split (alone line second others)

theorem not_mem_indent (text : List Char) : '\n' ∉ text.takeWhile isIndent := fun member =>
  absurd (List.mem_takeWhile_imp member) (by decide)

theorem not_mem_lineIndent (text : List Char) (offset : Nat) : '\n' ∉ lineIndent text offset := not_mem_indent _

/-- The unit that a file shows is a tab or made of spaces. -/
theorem not_mem_indentUnit {unit : List Char} (shown : indentUnit? text = some unit) : '\n' ∉ unit := by
  unfold indentUnit? at shown
  obtain ⟨least, _, rfl⟩ := Option.map_eq_some_iff.mp shown
  split
  next tab => simp [tab]
  next => exact fun member => absurd (List.eq_of_mem_replicate member) (by decide)

theorem mem_dropReturn {line : List Char} {c : Char} (member : c ∈ dropReturn line) : c ∈ line := by
  unfold dropReturn at member
  split at member
  · exact List.dropLast_subset line member
  · exact member

/-- A block of lines that was moved over has the longer line breaks alone. -/
theorem paired_reindent (text : List Char) (none : '\n' ∉ indent) :
    Paired (reindent text indent Newline.crlf.text) := by
  have lineFree := @not_mem_lines text
  unfold reindent
  split
  · exact paired_nil
  next line alone =>
    rcases lines_cons alone with ⟨_, same⟩ | ⟨some, _⟩
    · rw [same]
      exact .of_not_mem (lineFree (by simp [alone]))
    · exact absurd rfl some
  next line more _ split =>
    rw [split] at lineFree
    refine Paired.append (.of_not_mem fun inside => lineFree (by simp) (mem_dropReturn inside))
      (Paired.flatMap fun other member => ?_)
    have body : '\n' ∉ dropReturn other := fun inside => lineFree (by simp [member]) (mem_dropReturn inside)
    simp only [indentLine, Newline.text, List.cons_append, List.nil_append]
    refine Paired.break fun inside => ?_
    rcases List.mem_append.mp inside with shift | rest
    · split at shift
      · cases shift
      · exact none shift
    · exact body rest

end StoreModels.Text
