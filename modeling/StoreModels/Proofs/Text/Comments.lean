import Mathlib.Data.List.Infix
import StoreModels.Proofs.Text.Lines

/-!
Texts of comments and blanks, and whether one ends inside a line comment. The last line is searched for the first `//` and
behind it for a `*/`. Where the answer is yes, the text does end inside a line comment. Where it does end inside one, the
answer is yes exactly if that comment holds no `*/` and no `//` stands before it on its line.
-/
namespace StoreModels.Text

/-! ## Searching -/

section
variable {text part found front behind : List Char}

theorem occursIn_iff (part text : List Char) : occursIn part text = true ↔ part <:+: text := by
  induction text with
  | nil => rw [occursIn, List.isEmpty_iff, List.infix_nil]
  | cons c rest ih => rw [occursIn, Bool.or_eq_true, ih, List.isPrefixOf_iff_prefix, List.infix_cons_iff]

theorem fromFirst?_none : fromFirst? part text = none ↔ ¬ part <:+: text := by
  induction text with
  | nil =>
    rw [fromFirst?, List.infix_nil]
    cases part <;> simp
  | cons c rest ih =>
    rw [fromFirst?, List.infix_cons_iff, ← List.isPrefixOf_iff_prefix]
    split
    next starts => simp [starts]
    next other => simp [other, ih]

/-- What is found starts with the part, and every place where the part occurs lies in it. -/
theorem fromFirst?_some (is : fromFirst? part text = some found) :
    part <+: found ∧ found <:+ text ∧ ∀ rest, part <+: rest → rest <:+ text → rest <:+ found := by
  induction text with
  | nil =>
    rw [fromFirst?] at is
    split at is
    next empty =>
      cases is
      rw [List.isEmpty_iff] at empty
      exact ⟨empty ▸ List.nil_prefix, List.suffix_refl [], fun rest _ inside => inside⟩
    next => cases is
  | cons c text ih =>
    rw [fromFirst?] at is
    split at is
    next starts =>
      cases is
      exact ⟨List.isPrefixOf_iff_prefix.mp starts, List.suffix_refl _, fun rest _ inside => inside⟩
    next other =>
      obtain ⟨starts, inside, first⟩ := ih is
      refine ⟨starts, inside.trans (List.suffix_cons c text), fun rest here within => ?_⟩
      rcases List.suffix_cons_iff.mp within with rfl | later
      · exact absurd (List.isPrefixOf_iff_prefix.mpr here) other
      · exact first rest here later

/-- Two characters of which the second one does not follow occur before what follows, if anywhere. -/
theorem pair_infix_append {c d : Char} (none : d ∉ behind) (inside : [c, d] <:+: front ++ behind) : [c, d] <:+: front := by
  obtain ⟨before, after, is⟩ := inside
  rcases List.append_eq_append_iff.mp is with ⟨middle, rfl, _⟩ | ⟨middle, cut, rfl⟩
  · exact ⟨before, middle, rfl⟩
  · rcases List.eq_nil_or_concat middle with rfl | ⟨most, last, rfl⟩
    · rw [List.append_nil] at cut
      exact ⟨before, [], by rw [List.append_nil, cut]⟩
    · have same : last = d := by
        have ends := congrArg List.getLast? cut
        simpa using ends.symm
      simp [same] at none

end

/-! ## Comments and blanks -/

/-- What may stand between two tokens: a blank, or a comment of one of the two forms. -/
inductive Filler
  | blank (c : Char)
  | block (content : List Char)
  | line (content : List Char)
  deriving DecidableEq, Repr

namespace Filler

def text : Filler → List Char
  | .blank c => [c]
  | .block content => '/' :: '*' :: content ++ ['*', '/']
  | .line content => '/' :: '/' :: content

/-- A block comment ends with its first `*/`, and a line comment with its line. -/
def IsWhole : Filler → Prop
  | .blank c => isBlank c = true
  | .block content => ¬ ['*', '/'] <:+: content
  | .line content => '\n' ∉ content

def isLine : Filler → Bool
  | .line _ => true
  | _ => false

/-- Whether a blank leaves the line. -/
def staysOn : Filler → Bool
  | .blank c => c != '\n'
  | _ => false

instance : (filler : Filler) → Decidable filler.IsWhole
  | .blank c => inferInstanceAs (Decidable (isBlank c = true))
  | .block content => inferInstanceAs (Decidable (¬ ['*', '/'] <:+: content))
  | .line content => inferInstanceAs (Decidable ('\n' ∉ content))

end Filler

variable {fillers before after : List Filler} {line content : List Char}

/-- The text of comments and blanks. -/
def textOf (fillers : List Filler) : List Char := fillers.flatMap Filler.text

/-- Every line comment but the last one is ended by a line feed. -/
def Ended : List Filler → Prop
  | [] => True
  | .line _ :: rest => (rest.any Filler.isLine = true → rest.head? = some (.blank '\n')) ∧ Ended rest
  | _ :: rest => Ended rest

/-- The last comment is a line comment that no line feed follows. -/
def EndsInLine (fillers : List Filler) : Prop :=
  ∃ before content after, fillers = before ++ .line content :: after ∧ after.all Filler.staysOn = true

theorem textOf_cons (filler : Filler) (rest : List Filler) : textOf (filler :: rest) = filler.text ++ textOf rest :=
  List.flatMap_cons

theorem textOf_append (before after : List Filler) : textOf (before ++ after) = textOf before ++ textOf after :=
  List.flatMap_append

theorem Ended.head (ended : Ended (before ++ .line content :: after)) (more : after.any Filler.isLine = true) :
    after.head? = some (.blank '\n') := by
  induction before with
  | nil => exact ended.1 more
  | cons filler before ih =>
    cases filler with
    | line other => exact ih ended.2
    | blank c => exact ih ended
    | block other => exact ih ended

/-- What stands before a line comment does not end inside of one. -/
theorem Ended.early (ended : Ended (before ++ .line content :: after)) : ¬ EndsInLine before := by
  rintro ⟨front, other, blanks, rfl, stay⟩
  rw [List.append_assoc, List.cons_append] at ended
  have feed := ended.head (by simp [Filler.isLine])
  cases blanks with
  | nil => cases feed
  | cons filler blanks =>
    cases feed
    simp [Filler.staysOn] at stay

/-- Blanks that stay on the line hold neither its end nor a slash. -/
theorem not_mem_blanks (stay : after.all Filler.staysOn = true) (whole : ∀ filler ∈ after, filler.IsWhole) :
    '\n' ∉ textOf after ∧ '/' ∉ textOf after := by
  induction after with
  | nil => exact ⟨List.not_mem_nil, List.not_mem_nil⟩
  | cons filler after ih =>
    rw [List.all_cons, Bool.and_eq_true] at stay
    obtain ⟨here, later⟩ := List.forall_mem_cons.mp whole
    obtain ⟨feed, slash⟩ := ih stay.2 later
    cases filler with
    | blank c =>
      have other : c ≠ '\n' := by simpa [Filler.staysOn] using stay.1
      have solid : c ≠ '/' := fun same => absurd (same ▸ here : isBlank '/' = true) (by decide)
      rw [textOf_cons, Filler.text, List.singleton_append, List.mem_cons, List.mem_cons]
      exact ⟨fun member => member.elim (other ·.symm) feed, fun member => member.elim (solid ·.symm) slash⟩
    | block content => exact absurd stay.1 Bool.false_ne_true
    | line content => exact absurd stay.1 Bool.false_ne_true

/-! ## The last line -/

/-- Behind each `//` of a line stands a `*/`. -/
def IsShut (line : List Char) : Prop := ∀ rest, ['/', '/'] <+: rest → rest <:+ line → ['*', '/'] <:+: rest

theorem isShut_nil : IsShut [] := by
  intro rest starts inside
  rw [List.suffix_nil.mp inside] at starts
  exact absurd starts (by decide)

theorem isShut_blank {c : Char} (solid : c ≠ '/') (shut : IsShut line) : IsShut (line ++ [c]) := by
  intro rest starts inside
  obtain ⟨front, is⟩ := inside
  rcases List.eq_nil_or_concat rest with rfl | ⟨most, last, rfl⟩
  · exact absurd starts (by decide)
  · rw [List.concat_eq_append] at is starts ⊢
    rw [← List.append_assoc] at is
    obtain ⟨same, rfl⟩ : front ++ most = line ∧ last = c := by
      obtain ⟨same, last⟩ := List.append_inj' is rfl
      exact ⟨same, (List.cons.inj last).1⟩
    rcases List.prefix_concat_iff.mp starts with whole | early
    · have slash := congrArg List.getLast? whole
      rw [List.getLast?_concat] at slash
      exact absurd (Option.some.inj slash).symm solid
    · exact (shut most early ⟨front, same⟩).trans (List.prefix_append most [last]).isInfix

theorem isShut_block (front : List Char) : IsShut (front ++ ['*', '/']) := by
  intro rest starts inside
  rcases List.suffix_or_suffix_of_suffix inside (List.suffix_append front ['*', '/']) with short | long
  · have same : rest = ['*', '/'] := short.eq_of_length_le starts.length_le
    rw [same] at starts
    exact absurd starts (by decide)
  · exact long.isInfix

/-- A text that does not end inside a line comment ends in a line that is shut. -/
theorem isShut_lastLine (whole : ∀ filler ∈ fillers, filler.IsWhole) (closed : ¬ EndsInLine fillers) :
    IsShut (lastLine (textOf fillers)) := by
  induction fillers using List.reverseRecOn with
  | nil => exact isShut_nil
  | append_singleton before last ih =>
    have here := whole last (by simp)
    cases last with
    | blank c =>
      have is : textOf (before ++ [.blank c]) = textOf before ++ [c] := textOf_append before [.blank c]
      by_cases feed : c = '\n'
      · rw [is, feed, lastLine_break]
        exact isShut_nil
      · have solid : c ≠ '/' := fun same => absurd (same ▸ here : isBlank '/' = true) (by decide)
        have still : ¬ EndsInLine before := by
          rintro ⟨front, content, after, rfl, stay⟩
          exact closed ⟨front, content, after ++ [.blank c], by simp, by simp [stay, Filler.staysOn, feed]⟩
        rw [is, lastLine_append _ (by simpa using (feed ·.symm))]
        exact isShut_blank solid (ih (fun filler member => whole filler (by simp [member])) still)
    | block content =>
      have is : textOf (before ++ [.block content]) = (textOf before ++ '/' :: '*' :: content) ++ ['*', '/'] := by
        rw [textOf_append, List.append_assoc]
        simp [textOf, Filler.text]
      rw [is, lastLine_append _ (by decide)]
      exact isShut_block _
    | line content => exact absurd ⟨before, content, [], rfl, rfl⟩ closed

/-- The last line of a text that ends inside a line comment holds the comment to its end. -/
theorem lastLine_comment (whole : ∀ filler ∈ before ++ .line content :: after, filler.IsWhole)
    (stay : after.all Filler.staysOn = true) : lastLine (textOf (before ++ .line content :: after)) =
      lastLine (textOf before) ++ '/' :: '/' :: (content ++ textOf after) := by
  have inside : '\n' ∉ content := whole (.line content) (by simp)
  have blanks := not_mem_blanks stay fun filler member => whole filler (by simp [member])
  have free : '\n' ∉ '/' :: '/' :: (content ++ textOf after) := by simpa using ⟨inside, blanks.1⟩
  rw [textOf_append, textOf_cons, Filler.text, List.cons_append, List.cons_append, lastLine_append _ free]

theorem endsInLineComment_found (text : List Char) : endsInLineComment text = true ↔
    ∃ found, fromFirst? ['/', '/'] (lastLine text) = some found ∧ ¬ ['*', '/'] <:+: found := by
  unfold endsInLineComment
  split
  next found is => simp [is, ← occursIn_iff]
  next none => simp [none]

/-- In front of a line comment at most one slash is taken for its start. -/
theorem found_comment {rest found : List Char} (clear : ¬ ['/', '/'] <:+: line)
    (is : fromFirst? ['/', '/'] (line ++ '/' :: '/' :: rest) = some found) :
    found = '/' :: '/' :: rest ∨ found = '/' :: '/' :: '/' :: rest := by
  obtain ⟨starts, ⟨front, cut⟩, first⟩ := fromFirst?_some is
  obtain ⟨extra, rfl⟩ := first ('/' :: '/' :: rest) ⟨rest, rfl⟩ (List.suffix_append line _)
  rw [← List.append_assoc, List.append_cancel_right_eq] at cut
  rcases extra with - | ⟨c, - | ⟨d, extra⟩⟩
  · exact .inl rfl
  · obtain ⟨rfl, _⟩ := List.cons_prefix_cons.mp starts
    exact .inr rfl
  · obtain ⟨rfl, next⟩ := List.cons_prefix_cons.mp starts
    obtain ⟨rfl, _⟩ := List.cons_prefix_cons.mp next
    exact absurd ⟨front, extra, by rw [← cut]; simp⟩ clear

/-- A text of comments and blanks is taken to end inside a line comment exactly if its last comment is one that no line feed
    follows, without a `*/` in it and without a `//` before it on its line. -/
theorem endsInLineComment_fillers (whole : ∀ filler ∈ fillers, filler.IsWhole) (ended : Ended fillers) :
    endsInLineComment (textOf fillers) = true ↔
      ∃ before content after, fillers = before ++ .line content :: after ∧ after.all Filler.staysOn = true ∧
        ¬ ['*', '/'] <:+: content ∧ ¬ ['/', '/'] <:+: lastLine (textOf before) := by
  rw [endsInLineComment_found]
  constructor
  · rintro ⟨found, is, none⟩
    obtain ⟨starts, inside, first⟩ := fromFirst?_some is
    have opened : EndsInLine fillers := by
      by_contra closed
      exact none (isShut_lastLine whole closed found starts inside)
    obtain ⟨before, content, after, rfl, stay⟩ := opened
    rw [lastLine_comment whole stay] at first
    refine ⟨before, content, after, rfl, stay, fun hidden => none ?_, fun early => none ?_⟩
    · have comment := first ('/' :: '/' :: (content ++ textOf after)) ⟨_, rfl⟩ (List.suffix_append _ _)
      have within : content <:+: '/' :: '/' :: (content ++ textOf after) := ⟨['/', '/'], textOf after, rfl⟩
      exact (hidden.trans within).trans comment.isInfix
    · -- Before the comment every `//` has a `*/` behind it.
      obtain ⟨front, behind, cut⟩ := early
      have earlier : ∀ filler ∈ before, filler.IsWhole := fun filler member => whole filler (by simp [member])
      have shut := isShut_lastLine earlier ended.early (['/', '/'] ++ behind) ⟨behind, rfl⟩
        ⟨front, by rw [← cut, List.append_assoc]⟩
      have all := first (['/', '/'] ++ behind ++ '/' :: '/' :: (content ++ textOf after)) ⟨_, rfl⟩
        ⟨front, by rw [← cut]; simp⟩
      exact (shut.trans (List.prefix_append _ _).isInfix).trans all.isInfix
  · rintro ⟨before, content, after, rfl, stay, plain, clear⟩
    have slash := (not_mem_blanks stay fun filler member => whole filler (by simp [member])).2
    have bare : ¬ ['*', '/'] <:+: content ++ textOf after := fun inside => plain (pair_infix_append slash inside)
    cases is : fromFirst? ['/', '/'] (lastLine (textOf (before ++ .line content :: after))) with
    | none =>
      rw [fromFirst?_none, lastLine_comment whole stay] at is
      exact absurd ⟨lastLine (textOf before), content ++ textOf after, by simp⟩ is
    | some found =>
      refine ⟨found, rfl, ?_⟩
      rw [lastLine_comment whole stay] at is
      rcases found_comment clear is with rfl | rfl <;>
        simpa [List.infix_cons_iff, List.cons_prefix_cons] using bare

/-- A line comment, and on the next line a block comment and a line comment. -/
def lastFillers : List Filler :=
  [.line " //*/".toList, .blank '\n', .block " a ".toList, .blank ' ', .line " b /*".toList, .blank ' ']

theorem endsInLineComment_fillers_last :
    (∀ filler ∈ lastFillers, filler.IsWhole) ∧ Ended lastFillers ∧
      textOf lastFillers = "// //*/\n/* a */ // b /* ".toList ∧ endsInLineComment (textOf lastFillers) = true ∧
      (endsInLineComment (textOf lastFillers) = true ↔
        ∃ before content after, lastFillers = before ++ .line content :: after ∧ after.all Filler.staysOn = true ∧
          ¬ ['*', '/'] <:+: content ∧ ¬ ['/', '/'] <:+: lastLine (textOf before)) := by
  have whole : ∀ filler ∈ lastFillers, filler.IsWhole := by decide +kernel
  have ended : Ended lastFillers := ⟨fun _ => rfl, fun _ => by contradiction, trivial⟩
  exact ⟨whole, ended, by decide +kernel, by decide +kernel, endsInLineComment_fillers whole ended⟩

/-- A line comment that holds a `*/` is missed, and so is one behind a block comment that holds a `//`. -/
theorem endsInLineComment_missed :
    (∀ filler ∈ [Filler.line " see */".toList], filler.IsWhole) ∧ Ended [.line " see */".toList] ∧
      EndsInLine [.line " see */".toList] ∧ endsInLineComment (textOf [.line " see */".toList]) = false ∧
      (∀ filler ∈ [Filler.block "//".toList, .line " b".toList], filler.IsWhole) ∧
      Ended [.block "//".toList, .line " b".toList] ∧ EndsInLine [.block "//".toList, .line " b".toList] ∧
      endsInLineComment (textOf [.block "//".toList, .line " b".toList]) = false := by
  refine ⟨by decide +kernel, ⟨fun _ => by contradiction, trivial⟩, ⟨[], _, [], rfl, rfl⟩, by decide +kernel, by decide +kernel,
    ⟨fun _ => by contradiction, trivial⟩, ⟨[.block "//".toList], _, [], rfl, rfl⟩, by decide +kernel⟩

end StoreModels.Text
