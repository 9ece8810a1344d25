import StoreModels.Literal.Quoted
import StoreModels.Proofs.Literal.Exchange
import StoreModels.Yaml.Node

/-!
Words in a configuration text: scalars of letters, digits, underscores and dollar signs on one line. A word is read
whether a colon or a line break follows it, and so is a word in single quotes.
-/
namespace StoreModels.Yaml

/-- Whether a text is a word: of one character or more, all of which may stand in a name. -/
def IsWord (text : List Char) : Prop := text ≠ [] ∧ ∀ c ∈ text, Literal.isNamePart c = true

instance (text : List Char) : Decidable (IsWord text) :=
  decidable_of_iff (text ≠ [] ∧ text.all Literal.isNamePart = true) (and_congr_right fun _ => List.all_eq_true)

/-- Whether no blank and no line break comes first, nor a character that means something outside of scalars. -/
inductive IsSolid : List Char → Prop
  | nil : IsSolid []
  | cons (blank : isBlank c = false) (break_ : isBreak c = false) (hash : c ≠ '#') (mark : c ≠ '\uFEFF') : IsSolid (c :: rest)

variable {text word rest : List Char} {c : Char} {p : Place} {floor : Int} {k n : Nat} {gap : Gap}

theorem IsSolid.head (solid : IsSolid (c :: rest)) :
    isBlank c = false ∧ isBreak c = false ∧ c ≠ '#' ∧ c ≠ '\uFEFF' := by
  cases solid with
  | cons blank break_ hash mark => exact ⟨blank, break_, hash, mark⟩

/-! ## Characters -/

/-- The characters of names are no marks. -/
theorem namePart_ne {d : Char} (part : Literal.isNamePart c = true) (other : Literal.isNamePart d = false) : c ≠ d := by
  rintro rfl
  rw [part] at other
  cases other

theorem namePart_isBlank (part : Literal.isNamePart c = true) : isBlank c = false := by
  simp [isBlank, namePart_ne part (by decide : Literal.isNamePart ' ' = false),
    namePart_ne part (by decide : Literal.isNamePart '\t' = false)]

theorem namePart_isBreak (part : Literal.isNamePart c = true) : isBreak c = false := by
  simp [isBreak, namePart_ne part (by decide : Literal.isNamePart '\n' = false),
    namePart_ne part (by decide : Literal.isNamePart '\r' = false),
    namePart_ne part (by decide : Literal.isNamePart '\u0085' = false),
    namePart_ne part (by decide : Literal.isNamePart '\u2028' = false),
    namePart_ne part (by decide : Literal.isNamePart '\u2029' = false)]

theorem namePart_not_mem {marks : List Char} (part : Literal.isNamePart c = true)
    (others : marks.any Literal.isNamePart = false) : c ∉ marks := by
  intro member
  exact List.any_eq_false.mp others c member part

theorem namePart_startsBlank (part : Literal.isNamePart c = true) (rest : List Char) :
    startsBlank (c :: rest) = false := by
  simp [startsBlank, namePart_isBlank part, namePart_isBreak part]

theorem IsWord.solid (isWord : IsWord word) (rest : List Char) : IsSolid (word ++ rest) := by
  obtain ⟨c, more, rfl⟩ := List.exists_cons_of_ne_nil isWord.1
  have part : Literal.isNamePart c = true := isWord.2 c (by simp)
  exact .cons (namePart_isBlank part) (namePart_isBreak part) (namePart_ne part (by decide)) (namePart_ne part (by decide))

/-! ## Plain words -/

/-- A word reaches up to a blank, a line break, or a colon before one of these. -/
theorem plainPart_word (parts : ∀ c ∈ word, Literal.isNamePart c = true) (ends : plainPart false rest = some 0) :
    plainPart false (word ++ rest) = some word.length := by
  induction word with
  | nil => exact ends
  | cons c more ih =>
    have part := parts c (by simp)
    have later := ih fun d member => parts d (by simp [member])
    have colon : c ≠ ':' := namePart_ne part (by decide)
    rw [List.cons_append, plainPart, namePart_startsBlank part]
    simp [colon, later]

theorem plainPart_break (rest : List Char) : plainPart false ('\n' :: rest) = some 0 := rfl

theorem plainPart_colon (blank : startsBlank rest = true) : plainPart false (':' :: rest) = some 0 := by
  rw [plainPart]
  simp [blank, show startsBlank (':' :: rest) = false from rfl]

theorem IsWord.not_boundary (isWord : IsWord word) (starts : p.rest = word ++ rest) : p.atBoundary = false := by
  obtain ⟨c, more, rfl⟩ := List.exists_cons_of_ne_nil isWord.1
  have part : Literal.isNamePart c = true := isWord.2 c (by simp)
  have dash : ¬ '-' = c := (namePart_ne part (by decide)).symm
  have dot : ¬ '.' = c := (namePart_ne part (by decide)).symm
  simp [Place.atBoundary, Place.atMarker, starts, dash, dot]

theorem IsWord.not_atChar (isWord : IsWord word) (starts : p.rest = word ++ rest) {mark : Char}
    (other : Literal.isNamePart mark = false) : p.atChar mark = false := by
  obtain ⟨c, more, rfl⟩ := List.exists_cons_of_ne_nil isWord.1
  have part : Literal.isNamePart c = true := isWord.2 c (by simp)
  simpa [Place.atChar, starts] using namePart_ne part other

@[simp]
theorem skip_zero (p : Place) : p.skip 0 = p := rfl

theorem skip_rest (starts : p.rest = word ++ rest) : (p.skip word.length).rest = rest := by
  simp [Place.skip, starts]

/-- A word before a colon. -/
theorem plain_key (isWord : IsWord word) (starts : p.rest = word ++ ':' :: rest) (blank : startsBlank rest = true) :
    plain false floor p = some (word, false, p.skip word.length) := by
  have more : 0 < word.length := List.length_pos_iff.mpr isWord.1
  have fuel : p.rest.length = (p.rest.length - 1) + 1 := by
    rw [starts, List.length_append]
    omega
  have after : (p.skip word.length).rest = ':' :: rest := skip_rest starts
  have colon : startsBlank (':' :: rest) = false := rfl
  rw [plain, fuel, plainFrom, isWord.not_boundary starts, isWord.not_atChar starts (by decide)]
  rw [show plainPart false p.rest = some word.length by
    rw [starts]; exact plainPart_word isWord.2 (plainPart_colon blank)]
  simp [isWord.1, after, colon, Gap.fold, Gap.crossesLine, starts]

/-- After the first line break of a gap, blanks do not count. -/
theorem readGap_spaces (starts : p.rest = List.replicate k ' ' ++ rest) (solid : IsSolid rest) (more : k < n)
    (crosses : gap.crossesLine = true) : readGap floor n gap p = some (gap, p.skip k) := by
  induction k generalizing n p with
  | zero =>
    obtain ⟨n, rfl⟩ : ∃ m, n = m + 1 := ⟨n - 1, by omega⟩
    rw [readGap]
    cases rest with
    | nil => simp [starts]
    | cons c more =>
      have starts : p.rest = c :: more := starts
      simp [starts, solid.head.1, solid.head.2.1]
  | succ k ih =>
    obtain ⟨n, rfl⟩ : ∃ m, n = m + 1 := ⟨n - 1, by omega⟩
    have starts : p.rest = ' ' :: (List.replicate k ' ' ++ rest) := starts
    have blank : gap.blank ' ' = gap := by
      cases gap with
      | blanks _ => cases crosses
      | breaks _ _ => rfl
    rw [readGap]
    simp only [starts, show isBlank ' ' = true from rfl, if_true, show ¬ ' ' = '\t' by decide, false_and, if_false, blank]
    rw [ih (by simp [Place.skip, starts]) (by omega)]
    simp [Place.skip]
    omega

/-- The place on the next line behind `k` spaces. -/
def Place.nextLine (p : Place) (k : Nat) : Place := ⟨p.rest.drop (k + 1), p.index + 1 + k, p.line + 1, k⟩

theorem nextLine_rest (starts : p.rest = '\n' :: (List.replicate k ' ' ++ rest)) : (p.nextLine k).rest = rest := by
  simp [Place.nextLine, starts]

theorem skipBreak_skip (starts : p.rest = '\n' :: rest) (k : Nat) : p.skipBreak.skip k = p.nextLine k := by
  simp [Place.skipBreak, Place.nextLine, Place.skip, starts, isBreak]

/-- The gap up to the first word of the next line. -/
theorem readGap_line (starts : p.rest = '\n' :: (List.replicate k ' ' ++ rest)) (solid : IsSolid rest) (more : k < n) :
    readGap floor (n + 1) (.blanks []) p = some (.breaks ['\n'] [], p.nextLine k) := by
  have broken : p.skipBreak.rest = List.replicate k ' ' ++ rest := by simp [Place.skipBreak, starts, isBreak]
  rw [readGap]
  simp only [starts, show isBlank '\n' = false from rfl, Bool.false_eq_true, if_false, show isBreak '\n' = true from rfl,
    if_true]
  rw [readGap_spaces broken solid more rfl, skipBreak_skip starts]
  simp [Gap.lineBreak, Place.breakText, starts, isBreak]

/-- A word before a line break ends there, if the next line starts left of where it could go on. -/
theorem plain_value (isWord : IsWord word) (starts : p.rest = word ++ '\n' :: (List.replicate k ' ' ++ rest))
    (solid : IsSolid rest) (left : (k : Int) < floor) :
    plain false floor p = some (word, true, (p.skip word.length).nextLine k) := by
  have more : 0 < word.length := List.length_pos_iff.mpr isWord.1
  have fuel : p.rest.length = (p.rest.length - 1) + 1 := by
    rw [starts, List.length_append]
    omega
  have after : (p.skip word.length).rest = '\n' :: (List.replicate k ' ' ++ rest) := skip_rest starts
  have blank : startsBlank ('\n' :: (List.replicate k ' ' ++ rest)) = true := rfl
  have read := @readGap_line _ _ floor _ _ after solid (by omega : k < k + rest.length + 1)
  have column : (((p.skip word.length).nextLine k).column : Int) < floor := left
  rw [plain, fuel, plainFrom, isWord.not_boundary starts, isWord.not_atChar starts (by decide)]
  rw [show plainPart false p.rest = some word.length by
    rw [starts]; exact plainPart_word isWord.2 (plainPart_break _)]
  simp [isWord.1, after, blank, Gap.fold, starts, read, column]
  rfl

/-! ## Words in quotes -/

/-- What is left of a word in single quotes is read up to the closing one. -/
theorem quotedFrom_word (parts : ∀ c ∈ word, Literal.isNamePart c = true) (starts : p.rest = word ++ '\'' :: rest)
    (within : 0 < p.column) (closes : rest.head? ≠ some '\'') (more : word.length < n) :
    quotedFrom '\'' n text p = some (text ++ word, p.skip (word.length + 1)) := by
  obtain ⟨n, rfl⟩ : ∃ m, n = m + 1 := ⟨n - 1, by omega⟩
  have inner : p.atBoundary = false := by simp [Place.atBoundary, Place.atMarker, Nat.ne_of_gt within]
  induction word generalizing n p text with
  | nil =>
    have step : quotedStep? '\'' p.rest = some .close := by
      rw [starts, List.nil_append, quotedStep?]
      simp [startsBlank, isBlank, isBreak, closes]
    simp [quotedFrom, inner, step]
  | cons c word ih =>
    have part := parts c (by simp)
    have step : quotedStep? '\'' p.rest = some (.char c 1) := by
      rw [starts, List.cons_append, quotedStep?, namePart_startsBlank part]
      simp [namePart_ne part (by decide : Literal.isNamePart '\'' = false)]
    obtain ⟨n, rfl⟩ : ∃ m, n = m + 1 := ⟨n - 1, by simp at more; omega⟩
    have next : (p.skip 1).rest = word ++ '\'' :: rest := by simp [Place.skip, starts]
    have later := @ih (text ++ [c]) _ (fun d member => parts d (by simp [member])) next (by simp [Place.skip]) n
      (by simpa using more) (by simp [Place.atBoundary, Place.atMarker, Place.skip])
    rw [quotedFrom, inner, step]
    simp only [Bool.false_eq_true, if_false, Option.bind_eq_bind, Option.bind_some, later]
    simp [Place.skip, Nat.add_comm, Nat.add_left_comm]

/-- A word in single quotes. -/
theorem quoted_word (parts : ∀ c ∈ word, Literal.isNamePart c = true) (starts : p.rest = '\'' :: (word ++ '\'' :: rest))
    (closes : rest.head? ≠ some '\'') : quoted p = some (word, p.skip (word.length + 2)) := by
  have next : (p.skip 1).rest = word ++ '\'' :: rest := by simp [Place.skip, starts]
  have enough : word.length < p.rest.length := by
    rw [starts, List.length_cons, List.length_append]
    omega
  have read := @quotedFrom_word [] _ _ _ p.rest.length parts next (by simp [Place.skip]) closes enough
  rw [quoted]
  simp only [starts, true_or, if_true]
  rw [← starts, read]
  simp [Place.skip]
  omega

end StoreModels.Yaml
