import StoreModels.Proofs.Text.Comments

/-!
How the text of an object literal is read: an opening brace, entries with commas between them, blanks and comments wherever
they may stand, and a closing brace. A comment up to the end of its line takes in all that stands there, so that only blanks
may follow it up to the next line feed. A text that was put together from several parts is read part by part.
-/
namespace StoreModels.Text

/-! ## Reading -/

/-- What is read besides blanks and comments. Of an entry it is told whether it ends inside a line comment. -/
inductive Solid
  | comma
  | entry (text : List Char) (line : Bool)

/-- A text is read from one state to another. The states tell whether what has been read ends inside a line comment. -/
inductive Scans : Bool → List Solid → List Char → Bool → Prop
  | nil (line : Bool) : Scans line [] [] line
  /-- Inside a line comment. -/
  | inside {c : Char} {solids : List Solid} {rest : List Char} {last : Bool} (blank : isBlank c = true)
    (later : Scans (c != '\n') solids rest last) : Scans true solids (c :: rest) last
  | filler {filler : Filler} {solids : List Solid} {rest : List Char} {last : Bool} (whole : filler.IsWhole)
    (later : Scans filler.isLine solids rest last) : Scans false solids (filler.text ++ rest) last
  | comma {solids : List Solid} {rest : List Char} {last : Bool} (later : Scans false solids rest last) :
    Scans false (.comma :: solids) (',' :: rest) last
  | entry {text : List Char} {line : Bool} {solids : List Solid} {rest : List Char} {last : Bool}
    (later : Scans line solids rest last) : Scans false (.entry text line :: solids) (text ++ rest) last

/-- Whether a text is blank up to its first line feed, or as a whole. -/
def Lowered (text : List Char) : Prop := ∀ c ∈ (text.dropWhile fun c => isBlank c && c != '\n').head?, c = '\n'

namespace Scans
variable {line middle last : Bool} {solids more : List Solid} {text rest : List Char}

/-- Two texts are read one after the other. -/
theorem append (scans : Scans line solids text middle) (later : Scans middle more rest last) :
    Scans line (solids ++ more) (text ++ rest) last := by
  induction scans with
  | nil => exact later
  | inside blank _ ih => exact .inside blank (ih later)
  | filler whole _ ih =>
    rw [List.append_assoc]
    exact .filler whole (ih later)
  | comma _ ih => exact .comma (ih later)
  | entry _ ih =>
    rw [List.append_assoc]
    exact .entry (ih later)

/-- A comment by itself. -/
theorem comment {filler : Filler} (whole : filler.IsWhole) : Scans false [] filler.text filler.isLine := by
  simpa using Scans.filler whole (.nil filler.isLine)

/-- Blanks leave a line comment if there is a line feed among them. -/
theorem blanks (line : Bool) (blank : ∀ c ∈ text, isBlank c = true) : Scans line [] text (line && !text.contains '\n') := by
  induction text generalizing line with
  | nil => simpa using Scans.nil line
  | cons c rest ih =>
    obtain ⟨here, later⟩ := List.forall_mem_cons.mp blank
    cases line with
    | false => exact @filler (.blank c) _ _ _ here (ih false later)
    | true =>
      refine .inside here ?_
      have further := ih (c != '\n') later
      by_cases feed : c = '\n'
      · subst feed
        exact further
      · rw [show (c != '\n') = true by simpa using feed] at further ⊢
        simpa [Ne.symm feed] using further

/-- Behind a line comment blanks have to hold a line feed. -/
theorem closing (blank : ∀ c ∈ text, isBlank c = true) (feed : line = true → '\n' ∈ text) : Scans line [] text false := by
  have scans := blanks line blank
  cases line with
  | false => exact scans
  | true => simpa [feed rfl] using scans

/-- What starts with blanks and a line feed is also read behind a line comment. -/
theorem behind (scans : Scans line solids text last) (start : line = false) (bare : solids = [])
    (lowered : Lowered text) (feed : '\n' ∈ text) : Scans true [] text last := by
  induction scans with
  | nil => cases feed
  | inside => cases start
  | @filler filler _ rest _ whole later ih =>
    subst bare
    cases filler with
    | blank c =>
      have blank : isBlank c = true := whole
      refine .inside blank ?_
      by_cases here : c = '\n'
      · subst here
        exact later
      · have other : (c != '\n') = true := by simpa using here
        have further : '\n' ∈ rest := by simpa [Filler.text, Ne.symm here] using feed
        rw [other]
        refine ih rfl rfl ?_ further
        simpa [Lowered, Filler.text, blank, other] using lowered
    | block content =>
      have slash := lowered '/' (by simp [Filler.text, isBlank])
      exact absurd slash (by decide)
    | line content =>
      have slash := lowered '/' (by simp [Filler.text, isBlank])
      exact absurd slash (by decide)
  | comma => cases bare
  | entry => cases bare

/-- The blanks in front may go. -/
theorem trimStart (scans : Scans line solids text last) (start : line = false) (bare : solids = []) :
    Scans false [] (trimStart text) last := by
  induction scans with
  | nil => exact start ▸ .nil _
  | inside => cases start
  | @filler filler _ rest _ whole later ih =>
    subst bare
    cases filler with
    | blank c =>
      have blank : isBlank c = true := whole
      have same : Text.trimStart ((Filler.blank c).text ++ rest) = Text.trimStart rest := by
        simp [Text.trimStart, Filler.text, blank]
      rw [same]
      exact ih rfl rfl
    | block content => exact .filler whole later
    | line content => exact .filler whole later
  | comma => cases bare
  | entry => cases bare

/-- Where a line comment is left open there are two slashes. -/
theorem slashes (scans : Scans line solids text last) (start : line = false) (bare : solids = []) (open' : last = true) :
    ['/', '/'] <:+: text := by
  have inside : ∀ {line solids text last}, Scans line solids text last → solids = [] → last = true →
      line = true ∨ ['/', '/'] <:+: text := by
    intro line solids text last scans
    induction scans with
    | nil => exact fun _ is => .inl is
    | inside => exact fun _ _ => .inl rfl
    | @filler filler _ rest _ whole later ih =>
      intro bare is
      refine .inr ?_
      cases filler with
      | line content => exact ⟨[], content ++ rest, rfl⟩
      | blank c => exact ((ih bare is).resolve_left Bool.false_ne_true).trans (List.suffix_append _ _).isInfix
      | block content => exact ((ih bare is).resolve_left Bool.false_ne_true).trans (List.suffix_append _ _).isInfix
    | comma => intro bare; cases bare
    | entry => intro bare; cases bare
  exact (inside scans bare open').resolve_left (by simp [start])

/-- A line comment without a line feed behind it takes in all that follows. -/
theorem swallowed (scans : Scans false [] ('/' :: '/' :: text) last) (single : '\n' ∉ text) : last = true := by
  have inside : ∀ {line solids text last}, Scans line solids text last → line = true → '\n' ∉ text → last = true := by
    intro line solids text last scans
    induction scans with
    | nil => exact fun is _ => is
    | @inside c _ rest _ _ _ ih =>
      intro _ single
      obtain ⟨other, single⟩ := not_or.mp fun member => single (List.mem_cons.mpr member)
      exact ih (by simpa using Ne.symm other) single
    | filler => exact fun is => by cases is
    | comma => exact fun is => by cases is
    | entry => exact fun is => by cases is
  generalize marks : '/' :: '/' :: text = all at scans
  generalize start : false = line at scans
  generalize bare : ([] : List Solid) = solids at scans
  cases scans with
  | nil => cases marks
  | inside => cases start
  | comma => cases bare
  | entry => cases bare
  | @filler filler _ rest _ whole later =>
    cases filler with
    | blank c =>
      obtain ⟨rfl, _⟩ := List.cons.inj marks
      cases whole
    | block content => cases marks
    | line content =>
      refine inside later rfl fun member => single ?_
      obtain rfl : text = content ++ rest := by simpa [Filler.text] using marks
      exact List.mem_append_right _ member

end Scans

/-! ## Trimming -/

theorem trimEnd_append (front rest : List Char) :
    trimEnd (front ++ rest) = if trimEnd rest = [] then trimEnd front else front ++ trimEnd rest := by
  simp only [trimEnd, List.reverse_append, List.dropWhile_append, List.reverse_eq_nil_iff, List.isEmpty_iff]
  split <;> simp

theorem trimEnd_solid {front : List Char} {c : Char} (solid : isBlank c = false) : trimEnd (front ++ [c]) = front ++ [c] := by
  simp [trimEnd, solid]

/-- The blanks at the end of a line comment are its own. -/
theorem trimEnd_line (content : List Char) :
    trimEnd (Filler.line content).text = (Filler.line (trimEnd content)).text := by
  have marks : trimEnd ['/', '/'] = ['/', '/'] := by decide
  rw [show (Filler.line content).text = ['/', '/'] ++ content from rfl, trimEnd_append, marks]
  split
  next none => rw [none]; rfl
  next => rfl

theorem prefix_trimEnd (text : List Char) : trimEnd text <+: text := by
  refine ⟨(text.reverse.takeWhile isBlank).reverse, ?_⟩
  rw [trimEnd, ← List.reverse_append, List.takeWhile_append_dropWhile, List.reverse_reverse]

/-- A text that is more than blanks starts with a line feed without the blanks at its end too. -/
theorem Lowered.trimEnd {text : List Char} (lowered : Lowered text) (some : trimEnd text ≠ []) :
    Lowered (trimEnd text) ∧ '\n' ∈ trimEnd text := by
  obtain ⟨blanks, split⟩ := prefix_trimEnd text
  have solid : ∃ c ∈ Text.trimEnd text, isBlank c = false := by
    have back : text.reverse.dropWhile isBlank ≠ [] := fun none => some (by rw [Text.trimEnd, none]; rfl)
    refine ⟨_, List.mem_reverse.mpr (List.head_mem back), ?_⟩
    simpa using List.head_dropWhile_not isBlank back
  obtain ⟨c, member, solid⟩ := solid
  cases kept : (Text.trimEnd text).dropWhile fun c => isBlank c && c != '\n' with
  | nil =>
    have blank := List.dropWhile_eq_nil_iff.mp kept c member
    simp [solid] at blank
  | cons first rest =>
    have same : (text.dropWhile fun c => isBlank c && c != '\n').head? = Option.some first := by
      rw [← split, List.dropWhile_append, kept]
      rfl
    have feed : first = '\n' := lowered first same
    subst feed
    refine ⟨?_, (List.dropWhile_sublist _).subset (kept ▸ List.mem_cons_self)⟩
    rw [Lowered, kept]
    simp

/-- The blanks at the end may go, also those of a line comment. -/
theorem Scans.trimEnd {line last : Bool} {solids : List Solid} {text : List Char} (scans : Scans line solids text last)
    (bare : solids = []) : ∃ last', Scans line [] (trimEnd text) last' := by
  induction scans with
  | nil line => exact ⟨line, .nil line⟩
  | @inside c _ rest _ blank _ ih =>
    obtain ⟨last', later⟩ := ih bare
    have gone : Text.trimEnd [c] = [] := by simp [Text.trimEnd, blank]
    rw [← List.singleton_append, trimEnd_append, gone]
    split
    next => exact ⟨true, .nil true⟩
    next => exact ⟨last', .inside blank later⟩
  | @filler filler _ rest _ whole later ih =>
    obtain ⟨last', further⟩ := ih bare
    rw [trimEnd_append]
    split
    next =>
      cases filler with
      | blank c =>
        have blank : isBlank c = true := whole
        have gone : Text.trimEnd (Filler.blank c).text = [] := by simp [Text.trimEnd, Filler.text, blank]
        exact ⟨false, gone ▸ .nil false⟩
      | block content =>
        have same := @trimEnd_solid ('/' :: '*' :: content ++ ['*']) '/' (by decide)
        rw [List.append_assoc] at same
        exact ⟨false, same ▸ .comment whole⟩
      | line content =>
        have short : (Filler.line (Text.trimEnd content)).IsWhole := fun member => whole ((prefix_trimEnd content).subset member)
        exact ⟨true, trimEnd_line content ▸ .comment short⟩
    next => exact ⟨last', .filler whole further⟩
  | comma => cases bare
  | entry => cases bare

/-- A line comment at the end of a line is noticed where no `*/` stands behind two slashes. -/
theorem Scans.noticed {text : List Char} (scans : Scans false [] text true) (single : '\n' ∉ text)
    (clear : ∀ rest, ['/', '/'] <+: rest → rest <:+ text → ¬ ['*', '/'] <:+: rest) : endsInLineComment text = true := by
  have last : lastLine text = text := lastLine_append [] single
  rw [endsInLineComment_found, last]
  cases is : fromFirst? ['/', '/'] text with
  | none => exact absurd (scans.slashes rfl rfl rfl) (fromFirst?_none.mp is)
  | some found =>
    obtain ⟨starts, inside, _⟩ := fromFirst?_some is
    exact ⟨found, rfl, clear found starts inside⟩

/-! ## Listings -/

/-- Entries with a comma behind each but the last one, and perhaps behind that one too. -/
def listed (trailing : Bool) : List (List Char × Bool) → List Solid
  | [] => []
  | (text, line) :: rest =>
    .entry text line :: (if !rest.isEmpty || trailing then [.comma] else []) ++ listed trailing rest

/-- A text is that of an object literal with some entries. Of each entry it is told whether it ends inside a line comment. -/
def Listing (entries : List (List Char × Bool)) (text : List Char) : Prop :=
  ∃ inner trailing, text = '\x7b' :: (inner ++ ['\x7d']) ∧ Scans false (listed trailing entries) inner false

/-- A listing from what stands above its entries, the entries, and what stands below them. -/
theorem Listing.join {entries : List (List Char × Bool)} {above body below : List Char} {trailing line last : Bool}
    (first : Scans false [] above line) (middle : Scans line (listed trailing entries) body last)
    (final : Scans last [] below false) : Listing entries ('\x7b' :: above ++ body ++ below ++ ['\x7d']) := by
  have inner := (first.append middle).append final
  rw [List.nil_append, List.append_nil] at inner
  exact ⟨_, trailing, by simp, inner⟩

end StoreModels.Text
