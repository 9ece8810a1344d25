import StoreModels.Document.Layout
import StoreModels.Proofs.Pairing
import StoreModels.Proofs.Syntax.Shape

/-!
The slots of a parsed object literal. What stands between two entries is shared out without loss: the tail of the first
ends before the lead of the second starts, every entry but the last has its comma, and where a tail ends in a line
comment the line feed that ends it lies in the gap behind.
-/
namespace StoreModels
open Syntax (Span Role Outline)
open Text (slice Ordered)

variable {text : List Char} {entry : Span} {next : Option Nat} {passed : Bool} {closing : Closing} {items : List Item}
  {stop stop' : Nat}

/-! ## Gaps -/

/-- The place that an item takes up. -/
def Item.part (item : Item) : String × Span := (item.kind, item.span)

/-- Where the first of some items starts. -/
def startOf (stop : Nat) (items : List Item) : Nat := (items.head?.map (·.span.start)).getD stop

/-- What has been shared out between an entry and what starts at `stop` lies there in order. -/
structure Closing.Placed (entry : Span) (stop : Nat) (closing : Closing) : Prop where
  tail : entry.stop ≤ closing.tailEnd
  lead : closing.tailEnd ≤ closing.lead.getD stop
  stops : closing.lead.getD stop ≤ stop
  comma : ∀ span ∈ closing.comma, entry.stop ≤ span.start ∧ span.start ≤ span.stop ∧ span.stop ≤ closing.tailEnd

/-- What has been shared out between an entry and what starts at `stop` lies there in order, and the line feed that ends
    its last line comment does so too. -/
structure Closing.Within (text : List Char) (entry : Span) (stop : Nat) (closing : Closing) : Prop
    extends closing.Placed entry stop where
  feed : closing.lineComment = true → '\n' ∈ slice text closing.tailEnd (closing.lead.getD stop)

theorem getD_mono (lead : Option Nat) (le : stop ≤ stop') : lead.getD stop ≤ lead.getD stop' := by
  cases lead with
  | none => exact le
  | some s => exact Nat.le_refl s

theorem Closing.Placed.mono (placed : closing.Placed entry stop) (le : stop ≤ stop') : closing.Placed entry stop' := by
  refine ⟨placed.tail, Nat.le_trans placed.lead (getD_mono _ le), ?_, placed.comma⟩
  have stops := placed.stops
  cases lead : closing.lead with
  | none => exact Nat.le_refl stop'
  | some s =>
    rw [lead] at stops
    exact Nat.le_trans stops le

/-- Nothing has been shared out yet. -/
theorem Closing.Placed.none (le : entry.stop ≤ stop) : Closing.Placed entry stop ⟨.none, entry.stop, false, .none⟩ :=
  ⟨Nat.le_refl _, le, Nat.le_refl _, nofun⟩

theorem startOf_le {start : Nat} (ordered : Ordered start stop (items.map Item.span)) :
    start ≤ startOf stop items ∧ startOf stop items ≤ stop := by
  cases items with
  | nil => exact ⟨ordered, Nat.le_refl _⟩
  | cons item rest => exact ⟨ordered.1, Nat.le_trans ordered.2.1 ordered.2.2.le⟩

/-- A line comment among items has a line feed before the next item, or before what comes after them. -/
theorem feed_of_endsLines {item : Item} {last : String × Span} (ends : Outline.endsLines text
    ((item :: items).map Item.part ++ [last])) (starts : last.2.start = stop) (comment : item.isComment = true)
    (line : ['/', '/'].isPrefixOf (slice text item.span.start item.span.stop) = true) :
    '\n' ∈ slice text item.span.stop (startOf stop items) := by
  have isLine : Outline.isLineComment text item.kind item.span = true := by
    simp only [Outline.isLineComment, Bool.and_eq_true]
    exact ⟨comment, line⟩
  cases items with
  | nil =>
    simp only [List.map_cons, List.map_nil, List.cons_append, List.nil_append, Item.part, Outline.endsLines, isLine,
      Bool.not_true, Bool.false_or, Bool.and_true] at ends
    rw [starts] at ends
    simpa [startOf] using ends
  | cons second rest =>
    simp only [List.map_cons, List.cons_append, Item.part, Outline.endsLines, isLine, Bool.not_true, Bool.false_or,
      Bool.and_eq_true] at ends
    simpa [startOf] using ends.1

theorem endsLines_tail {part : String × Span} {outline : Outline} (ends : Outline.endsLines text (part :: outline)) :
    Outline.endsLines text outline = true := by
  cases outline with
  | nil => rfl
  | cons second rest =>
    obtain ⟨kind, span⟩ := part
    obtain ⟨kind', span'⟩ := second
    simp only [Outline.endsLines, Bool.and_eq_true] at ends
    exact ends.2

/-- The first comma is the entry's. -/
theorem closeGap_takes {item : Item} {rest : List Item} (comma : (item.isComma && !passed) = true) :
    closeGap text entry next passed closing (item :: rest) = closeGap text entry next true
      { closing with tailEnd := max closing.tailEnd item.span.stop, lineComment := false, comma := some item.span }
      rest :=
  if_pos comma

/-- What is neither the first comma nor a comment goes with nothing. -/
theorem closeGap_skips {item : Item} {rest : List Item} (other : ¬ (item.isComma && !passed) = true)
    (plain : ¬ item.isComment = true) :
    closeGap text entry next passed closing (item :: rest) = closeGap text entry next passed closing rest :=
  (if_neg other).trans (if_neg plain)

/-- A comment goes with the entry before it, at least where that one's comma is still to come, or else with the next
    entry, together with all comments behind it. -/
theorem closeGap_comment {item : Item} {rest : List Item} (other : ¬ (item.isComma && !passed) = true)
    (comment : item.isComment = true) :
    ∃ joins : Bool, (joins = false → passed = true ∨ rest.any Item.isComma = false) ∧
      closeGap text entry next passed closing (item :: rest) =
        closeGap text entry next passed
          (if closing.lead.isSome then closing
          else if joins then
            { closing with
              tailEnd := item.span.stop
              lineComment := ['/', '/'].isPrefixOf (slice text item.span.start item.span.stop) }
          else { closing with lead := some item.span.start }) rest := by
  refine ⟨_, fun apart => ?_, (if_neg other).trans (if_pos comment)⟩
  rw [Bool.or_eq_false_iff, Bool.and_eq_false_iff, Bool.not_eq_false'] at apart
  exact apart.1

/-- The items between two entries are shared out in order. -/
theorem closeGap_placed {start : Nat} (ordered : Ordered start stop (items.map Item.span)) (low : entry.stop ≤ start)
    (placed : closing.Placed entry (startOf stop items))
    (later : closing.lead.isSome = true → passed = true ∨ items.any Item.isComma = false) :
    (closeGap text entry next passed closing items).Placed entry stop := by
  induction items generalizing start passed closing with
  | nil => exact placed
  | cons item rest ih =>
    obtain ⟨before, inside, behind⟩ := ordered
    have low' : entry.stop ≤ item.span.stop := by omega
    obtain ⟨reach, _⟩ := startOf_le behind
    have here : startOf stop (item :: rest) = item.span.start := rfl
    rw [here] at placed
    have kept := placed.mono (Nat.le_trans inside reach)
    have later' : closing.lead.isSome = true → passed = true ∨ rest.any Item.isComma = false := fun led => by
      refine (later led).imp_right fun none => ?_
      rw [List.any_cons, Bool.or_eq_false_iff] at none
      exact none.2
    by_cases comma : (item.isComma && !passed) = true
    · -- The comma: no comment before it can have gone to the next entry.
      rw [closeGap_takes comma]
      rw [Bool.and_eq_true, Bool.not_eq_true'] at comma
      have noLead : closing.lead = none := by
        cases lead : closing.lead with
        | none => rfl
        | some s =>
          rcases later (by simp [lead]) with impossible | none
          · rw [comma.2] at impossible
            cases impossible
          · rw [List.any_cons, comma.1] at none
            cases none
      have before := placed.lead
      rw [noLead] at before
      have tail : max closing.tailEnd item.span.stop = item.span.stop := Nat.max_eq_right (Nat.le_trans before inside)
      refine ih behind low' ⟨?_, ?_, ?_, ?_⟩ fun _ => .inl rfl
      · exact Nat.le_trans placed.tail (Nat.le_max_left _ _)
      · simp only [noLead, tail]
        exact reach
      · simp only [noLead]
        exact Nat.le_refl _
      · rintro span ⟨⟩
        exact ⟨by omega, inside, Nat.le_max_right _ _⟩
    · by_cases comment : item.isComment = true
      · obtain ⟨joins, apart, step⟩ := closeGap_comment comma comment
        rw [step]
        by_cases led : closing.lead.isSome = true
        · rw [if_pos led]
          exact ih behind low' kept later'
        · have lead : closing.lead = none := by simpa using led
          have before := placed.lead
          rw [lead] at before
          rw [if_neg led]
          cases joins with
          | true =>
            have more : closing.tailEnd ≤ item.span.stop := Nat.le_trans before inside
            refine ih behind low' ⟨Nat.le_trans placed.tail more, ?_, ?_, fun span member => ?_⟩ ?_
            · simp only [lead, if_true]
              exact reach
            · simp only [lead, if_true]
              exact Nat.le_refl _
            · obtain ⟨first, second, third⟩ := placed.comma span member
              exact ⟨first, second, Nat.le_trans third more⟩
            · simp [lead]
          | false =>
            refine ih behind low' ⟨placed.tail, before, Nat.le_trans inside reach, placed.comma⟩ fun _ => apart rfl
      · rw [closeGap_skips comma comment]
        exact ih behind low' kept later'

/-- The line feed that ends a tail's last line comment goes to the gap behind. -/
theorem closeGap_feed {start : Nat} {last : String × Span} (ordered : Ordered start stop (items.map Item.span))
    (ends : Outline.endsLines text (items.map Item.part ++ [last])) (starts : last.2.start = stop)
    (feed : closing.lineComment = true →
      '\n' ∈ slice text closing.tailEnd (closing.lead.getD (startOf stop items)))
    (line : (closeGap text entry next passed closing items).lineComment = true) :
    '\n' ∈ slice text (closeGap text entry next passed closing items).tailEnd
      ((closeGap text entry next passed closing items).lead.getD stop) := by
  induction items generalizing start passed closing with
  | nil => exact feed line
  | cons item rest ih =>
    obtain ⟨_, inside, behind⟩ := ordered
    obtain ⟨reach, _⟩ := startOf_le behind
    have ends' := endsLines_tail ends
    have here : startOf stop (item :: rest) = item.span.start := rfl
    rw [here] at feed
    have kept : closing.lineComment = true →
        '\n' ∈ slice text closing.tailEnd (closing.lead.getD (startOf stop rest)) := fun line =>
      Text.mem_slice_mono (Nat.le_refl _) (getD_mono _ (Nat.le_trans inside reach)) (feed line)
    by_cases comma : (item.isComma && !passed) = true
    · rw [closeGap_takes comma] at line ⊢
      exact ih behind ends' (fun impossible => by cases impossible) line
    · by_cases comment : item.isComment = true
      · obtain ⟨joins, _, step⟩ := @closeGap_comment text entry next _ closing _ _ comma comment
        rw [step] at line ⊢
        refine ih behind ends' ?_ line
        by_cases led : closing.lead.isSome = true
        · rw [if_pos led]
          exact kept
        · have lead : closing.lead = none := by simpa using led
          rw [if_neg led]
          cases joins with
          | true =>
            intro line
            simp only [lead, if_true]
            exact feed_of_endsLines ends starts comment line
          | false =>
            rw [lead] at feed
            exact feed
      · rw [closeGap_skips comma comment] at line ⊢
        exact ih behind ends' kept line

theorem closeGap_within {start : Nat} {last : String × Span} (ordered : Ordered start stop (items.map Item.span))
    (low : entry.stop ≤ start) (ends : Outline.endsLines text (items.map Item.part ++ [last]))
    (starts : last.2.start = stop) :
    (closeGap text entry next false ⟨none, entry.stop, false, none⟩ items).Within text entry stop where
  toPlaced := closeGap_placed ordered low (Closing.Placed.none (Nat.le_trans low (startOf_le ordered).1)) nofun
  feed := closeGap_feed ordered ends starts nofun

theorem closeGap_comma_stays (given : closing.comma.isSome = true) :
    (closeGap text entry next passed closing items).comma.isSome = true := by
  induction items generalizing passed closing with
  | nil => exact given
  | cons item rest ih =>
    by_cases comma : (item.isComma && !passed) = true
    · rw [closeGap_takes comma]
      exact ih rfl
    · by_cases comment : item.isComment = true
      · obtain ⟨joins, _, step⟩ := closeGap_comment comma comment
        rw [step]
        refine ih ?_
        cases closing.lead.isSome <;> cases joins <;> exact given
      · rw [closeGap_skips comma comment]
        exact ih given

/-- An entry gets the comma behind it. -/
theorem closeGap_comma (found : items.any Item.isComma = true) :
    (closeGap text entry next false closing items).comma.isSome = true := by
  induction items generalizing closing with
  | nil => cases found
  | cons item rest ih =>
    by_cases comma : (item.isComma && !false) = true
    · rw [closeGap_takes comma]
      exact closeGap_comma_stays rfl
    · have later : rest.any Item.isComma = true := by
        simp only [List.any_cons, Bool.or_eq_true] at found
        refine found.resolve_left fun here => comma ?_
        rw [here]
        rfl
      by_cases comment : item.isComment = true
      · obtain ⟨joins, _, step⟩ := closeGap_comment comma comment
        rw [step]
        exact ih later
      · rw [closeGap_skips comma comment]
        exact ih later

/-- What goes with an entry ends with the entry itself, or with an item, which is a line comment just where a flag says
    so. -/
def Told (text : List Char) (items : List Item) (stop tailEnd : Nat) (line : Bool) : Prop :=
  line = false ∧ tailEnd = stop ∨
    ∃ item ∈ items, item.span.stop = tailEnd ∧ Outline.isLineComment text item.kind item.span = line

/-- The items between two entries are shared out with the flag set for a line comment at the end. -/
theorem closeGap_told {all : List Item} {start : Nat} (ordered : Ordered start stop (items.map Item.span))
    (sub : items ⊆ all) (low : closing.tailEnd ≤ start)
    (told : Told text all entry.stop closing.tailEnd closing.lineComment) :
    Told text all entry.stop (closeGap text entry next passed closing items).tailEnd
      (closeGap text entry next passed closing items).lineComment := by
  induction items generalizing start passed closing with
  | nil => exact told
  | cons item rest ih =>
    obtain ⟨before, inside, behind⟩ := ordered
    obtain ⟨here, later⟩ := List.cons_subset.mp sub
    have low' : closing.tailEnd ≤ item.span.stop := Nat.le_trans (Nat.le_trans low before) inside
    by_cases comma : (item.isComma && !passed) = true
    · rw [closeGap_takes comma]
      have tail : max closing.tailEnd item.span.stop = item.span.stop := Nat.max_eq_right low'
      rw [Bool.and_eq_true] at comma
      have kind : item.kind = "," := beq_iff_eq.mp comma.1
      refine ih behind later (Nat.le_of_eq tail) (.inr ⟨item, here, tail.symm, ?_⟩)
      rw [kind]
      rfl
    · by_cases comment : item.isComment = true
      · obtain ⟨joins, _, step⟩ := @closeGap_comment text entry next _ closing _ _ comma comment
        rw [step]
        cases closing.lead.isSome with
        | true => exact ih behind later low' told
        | false =>
          cases joins with
          | true =>
            refine ih behind later (Nat.le_refl _) (.inr ⟨item, here, rfl, ?_⟩)
            have isComment : (Role.ofKind item.kind == .comment) = true := comment
            rw [Outline.isLineComment, isComment, Bool.true_and]
            rfl
          | false => exact ih behind later low' told
      · rw [closeGap_skips comma comment]
        exact ih behind later low' told

/-- Whether an item behind an entry that no other one follows goes with it: its comma, a comment in front of that, or a
    comment that begins on the line on which the entry ends. -/
def Item.Trails (text : List Char) (stop : Nat) (passed : Bool) (before : List Item) (item : Item) (behind : List Item) :
    Prop :=
  (passed = false ∧ before.any Item.isComma = false) ∧
      (item.isComma = true ∨ item.isComment = true ∧ behind.any Item.isComma = true) ∨
    item.isComment = true ∧ '\n' ∉ slice text stop item.span.start

/-- A position is where the items that trail an entry end, or another position if there are none. -/
structure TrailEnd (text : List Char) (stop : Nat) (passed : Bool) (items : List Item) (start tailEnd : Nat) : Prop where
  low : start ≤ tailEnd
  covers : ∀ before item behind, items = before ++ item :: behind → item.Trails text stop passed before behind →
    item.span.stop ≤ tailEnd
  ends : tailEnd = start ∨ ∃ before item behind, items = before ++ item :: behind ∧
    item.Trails text stop passed before behind ∧ item.span.stop = tailEnd

namespace TrailEnd
variable {item : Item} {rest : List Item} {p : Bool} {start tailEnd : Nat}

/-- An item in front that trails the entry. -/
theorem joins (trails : item.Trails text stop passed [] rest) (le : start ≤ item.span.stop)
    (same : ∀ before (i : Item) behind, i.Trails text stop passed (item :: before) behind ↔ i.Trails text stop p before behind)
    (later : TrailEnd text stop p rest item.span.stop tailEnd) :
    TrailEnd text stop passed (item :: rest) start tailEnd where
  low := Nat.le_trans le later.low
  covers before i behind split is := by
    cases before with
    | nil =>
      cases split
      exact later.low
    | cons first before =>
      cases split
      exact later.covers before i behind rfl ((same _ _ _).mp is)
  ends := .inr <| by
    rcases later.ends with here | ⟨before, i, behind, rfl, is, stops⟩
    · exact ⟨[], item, rest, rfl, trails, here.symm⟩
    · exact ⟨item :: before, i, behind, rfl, (same _ _ _).mpr is, stops⟩

/-- An item in front that does not trail the entry. -/
theorem skips (other : ¬ item.Trails text stop passed [] rest)
    (same : ∀ before (i : Item) behind, i.Trails text stop passed (item :: before) behind ↔ i.Trails text stop passed before behind)
    (later : TrailEnd text stop passed rest start tailEnd) : TrailEnd text stop passed (item :: rest) start tailEnd where
  low := later.low
  covers before i behind split is := by
    cases before with
    | nil =>
      cases split
      exact absurd is other
    | cons first before =>
      cases split
      exact later.covers before i behind rfl ((same _ _ _).mp is)
  ends := later.ends.imp_right fun ⟨before, i, behind, split, is, stops⟩ =>
    ⟨item :: before, i, behind, split ▸ rfl, (same _ _ _).mpr is, stops⟩

end TrailEnd

/-- Whether a comment goes with the entry before it, no entry following. -/
def joinsLast (text : List Char) (entry : Span) (passed : Bool) (item : Item) (rest : List Item) : Bool :=
  !passed && rest.any Item.isComma || !(slice text entry.stop item.span.start).contains '\n'

theorem closeGap_last_comment {item : Item} {rest : List Item} (other : ¬ (item.isComma && !passed) = true)
    (comment : item.isComment = true) :
    closeGap text entry none passed closing (item :: rest) =
      closeGap text entry none passed
        (if closing.lead.isSome then closing
        else if joinsLast text entry passed item rest then
          { closing with
            tailEnd := item.span.stop
            lineComment := ['/', '/'].isPrefixOf (slice text item.span.start item.span.stop) }
        else { closing with lead := some item.span.start }) rest := by
  refine (if_neg other).trans ((if_pos comment).trans ?_)
  simp only [Bool.and_true]
  rfl

theorem trails_comment {item : Item} {rest : List Item} (comment : item.isComment = true)
    (other : passed = false → item.isComma = false) :
    item.Trails text entry.stop passed [] rest ↔ joinsLast text entry passed item rest = true := by
  simp only [Item.Trails, joinsLast]
  grind

/-- What goes with an entry that no other one follows ends where the items that trail it end. -/
theorem closeGap_last {start : Nat} (ordered : Ordered start stop (items.map Item.span)) (low : closing.tailEnd ≤ start)
    (led : closing.lead.isSome = true → (passed = true ∨ items.any Item.isComma = false) ∧
      '\n' ∈ slice text entry.stop start) :
    TrailEnd text entry.stop passed items closing.tailEnd (closeGap text entry none passed closing items).tailEnd := by
  induction items generalizing start passed closing with
  | nil => exact ⟨Nat.le_refl _, by simp, .inl rfl⟩
  | cons item rest ih =>
    obtain ⟨before, inside, behind⟩ := ordered
    have low' : closing.tailEnd ≤ item.span.stop := Nat.le_trans (Nat.le_trans low before) inside
    have reach : ∀ {a}, '\n' ∈ slice text entry.stop a → a ≤ item.span.stop → '\n' ∈ slice text entry.stop item.span.stop :=
      fun found le => Text.mem_slice_mono (Nat.le_refl _) le found
    have led' : closing.lead.isSome = true → (passed = true ∨ rest.any Item.isComma = false) ∧
        '\n' ∈ slice text entry.stop item.span.stop := fun is => by
      obtain ⟨none, found⟩ := led is
      refine ⟨none.imp_right fun none => ?_, reach found (Nat.le_trans before inside)⟩
      rw [List.any_cons, Bool.or_eq_false_iff] at none
      exact none.2
    by_cases comma : (item.isComma && !passed) = true
    · rw [closeGap_takes comma]
      rw [Bool.and_eq_true, Bool.not_eq_true'] at comma
      obtain ⟨comma, rfl⟩ := comma
      have tail : max closing.tailEnd item.span.stop = item.span.stop := Nat.max_eq_right low'
      refine .joins (p := true) (.inl ⟨⟨rfl, rfl⟩, .inl comma⟩) low' (fun b i a => ?_) ?_
      · simp [Item.Trails, comma]
      · rw [tail]
        exact @ih _ ⟨_, _, _, _⟩ _ behind (Nat.le_refl _) fun is => ⟨.inl rfl, (led' is).2⟩
    · have same : ∀ before (i : Item) behind, i.Trails text entry.stop passed (item :: before) behind ↔
          i.Trails text entry.stop passed before behind := by
        intro b i a
        cases passed with
        | true => simp [Item.Trails]
        | false =>
          have other : item.isComma = false := by simpa using comma
          simp [Item.Trails, other]
      by_cases comment : item.isComment = true
      · have first : passed = false → item.isComma = false := fun is => by simpa [is] using comma
        by_cases trails : item.Trails text entry.stop passed [] rest
        · have lead : closing.lead = none := by
            by_contra some
            obtain ⟨none, found⟩ := led (Option.isSome_iff_ne_none.mpr some)
            rcases trails with ⟨⟨rfl, _⟩, here | ⟨_, here⟩⟩ | ⟨_, absent⟩
            · rw [first rfl] at here
              cases here
            · simp [here] at none
            · exact absent (Text.mem_slice_mono (Nat.le_refl _) before found)
          rw [closeGap_last_comment comma comment, if_neg (by simp [lead]), if_pos ((trails_comment comment first).mp trails)]
          refine .joins trails low' same ?_
          exact @ih _ ⟨_, _, _, _⟩ _ behind (Nat.le_refl _) fun is => by simp [lead] at is
        · have later : passed = true ∨ rest.any Item.isComma = false := by
            by_contra both
            simp only [not_or, Bool.not_eq_true, Bool.not_eq_false] at both
            exact trails (.inl ⟨⟨both.1, rfl⟩, .inr ⟨comment, both.2⟩⟩)
          have found : '\n' ∈ slice text entry.stop item.span.start := by
            by_contra absent
            exact trails (.inr ⟨comment, absent⟩)
          rw [closeGap_last_comment comma comment, if_neg fun is => trails ((trails_comment comment first).mpr is)]
          refine .skips trails same ?_
          split
          · exact ih behind low' led'
          · exact @ih _ ⟨_, closing.tailEnd, _, some _⟩ _ behind low' fun _ => ⟨later, reach found inside⟩
      · rw [closeGap_skips comma comment]
        refine .skips ?_ same (ih behind low' led')
        rintro (⟨⟨rfl, _⟩, here | here⟩ | here)
        · exact comma (by simp [here])
        · exact comment here.1
        · exact comment here.1

/-- Without a comma behind it an entry gets none. -/
theorem closeGap_no_comma (none : items.any Item.isComma = false) :
    (closeGap text entry next passed closing items).comma = closing.comma := by
  induction items generalizing closing with
  | nil => rfl
  | cons item rest ih =>
    rw [List.any_cons, Bool.or_eq_false_iff] at none
    have other : ¬ (item.isComma && !passed) = true := by simp [none.1]
    by_cases comment : item.isComment = true
    · obtain ⟨joins, _, step⟩ := @closeGap_comment text entry next _ closing _ _ other comment
      rw [step, ih none.2]
      cases closing.lead.isSome <;> cases joins <;> rfl
    · rw [closeGap_skips other comment]
      exact ih none.2

theorem startOf_mem {start : Nat} (ordered : Ordered start stop (items.map Item.span)) {i : Item} (member : i ∈ items) :
    startOf stop items ≤ i.span.start := by
  cases items with
  | nil => cases member
  | cons item rest =>
    rcases List.mem_cons.mp member with rfl | later
    · exact Nat.le_refl _
    · exact Nat.le_trans ordered.2.1 (ordered.2.2.mem (List.mem_map_of_mem later)).1

/-- A line comment takes up some place. -/
theorem lineComment_wide {kind : String} {span : Span} (line : Outline.isLineComment text kind span = true) :
    span.start < span.stop := by
  by_contra narrow
  rw [Outline.isLineComment, Text.slice_empty text (Nat.le_of_not_lt narrow)] at line
  simp at line

/-- Of items with the same end, all are line comments or none is: a line comment takes up some place, and so does the
    line feed behind it. -/
theorem lineComment_alone {start : Nat} {last : String × Span} (ordered : Ordered start stop (items.map Item.span))
    (ends : Outline.endsLines text (items.map Item.part ++ [last])) (starts : last.2.start = stop) {i j : Item}
    (here : i ∈ items) (there : j ∈ items) (same : i.span.stop = j.span.stop)
    (line : Outline.isLineComment text i.kind i.span = true) : Outline.isLineComment text j.kind j.span = true := by
  induction items generalizing start with
  | nil => cases here
  | cons item rest ih =>
    obtain ⟨_, inside, behind⟩ := ordered
    rcases List.mem_cons.mp here with rfl | here' <;> rcases List.mem_cons.mp there with rfl | there'
    · exact line
    · obtain ⟨comment, slashes⟩ := Bool.and_eq_true_iff.mp line
      have feed := feed_of_endsLines ends starts comment slashes
      have reach : startOf stop rest ≤ i.span.stop := by
        rw [same]
        exact Nat.le_trans (startOf_mem behind there') (behind.mem (List.mem_map_of_mem there')).2.1
      rw [Text.slice_empty text reach] at feed
      cases feed
    · have wide := lineComment_wide line
      have low := (behind.mem (List.mem_map_of_mem here')).1
      omega
    · exact ih behind (endsLines_tail ends) here' there'

/-- What goes with an entry that no other one follows ends in a line comment just where the flag says so. -/
theorem closeGap_line {start : Nat} {last : String × Span} (ordered : Ordered start stop (items.map Item.span))
    (low : entry.stop ≤ start) (ends : Outline.endsLines text (items.map Item.part ++ [last])) (starts : last.2.start = stop) :
    (closeGap text entry next false ⟨none, entry.stop, false, none⟩ items).lineComment = true ↔
      ∃ i ∈ items, i.span.stop = (closeGap text entry next false ⟨none, entry.stop, false, none⟩ items).tailEnd ∧
        Outline.isLineComment text i.kind i.span = true := by
  have told := @closeGap_told text entry next false ⟨none, entry.stop, false, none⟩ items stop items start ordered
    (List.Subset.refl items) low (.inl ⟨rfl, rfl⟩)
  generalize closeGap text entry next false ⟨none, entry.stop, false, none⟩ items = closing at told ⊢
  constructor
  · intro line
    obtain ⟨impossible, _⟩ | ⟨i, member, stops, is⟩ := told
    · rw [line] at impossible
      cases impossible
    · exact ⟨i, member, stops, is.trans line⟩
  · rintro ⟨i, member, stops, line⟩
    obtain ⟨_, here⟩ | ⟨j, member', stops', is⟩ := told
    · have wide := lineComment_wide line
      have reach := (ordered.mem (List.mem_map_of_mem member)).1
      omega
    · rw [← is]
      exact lineComment_alone ordered ends starts member member' (stops.trans stops'.symm) line

/-! ## Groups -/

/-- Groups of an entry and the items behind it, laid out again. -/
def flatten (groups : List (Item × List Item)) : List Item := groups.flatMap fun group => group.1 :: group.2

/-- Items are the ones before the first entry and the groups; an entry heads each group and is nowhere else. -/
theorem groupItems_spec (items : List Item) :
    items = (groupItems items).1 ++ flatten (groupItems items).2 ∧ (∀ i ∈ (groupItems items).1, i.isEntry = false) ∧
      ∀ group ∈ (groupItems items).2, group.1.isEntry = true ∧ ∀ i ∈ group.2, i.isEntry = false := by
  induction items with
  | nil => exact ⟨rfl, by simp [groupItems], by simp [groupItems]⟩
  | cons item rest ih =>
    obtain ⟨same, before, grouped⟩ := ih
    by_cases entry : item.isEntry = true
    · have step : groupItems (item :: rest) = ([], (item, (groupItems rest).1) :: (groupItems rest).2) := by
        simp only [groupItems, if_pos entry]
      rw [step]
      refine ⟨?_, by simp, ?_⟩
      · simp only [List.nil_append, flatten, List.flatMap_cons, List.cons_append]
        exact congrArg _ same
      · intro group member
        rcases List.mem_cons.mp member with rfl | later
        · exact ⟨entry, before⟩
        · exact grouped group later
    · have step : groupItems (item :: rest) = (item :: (groupItems rest).1, (groupItems rest).2) := by
        simp only [groupItems, if_neg entry]
      rw [step]
      refine ⟨?_, ?_, grouped⟩
      · rw [List.cons_append]
        exact congrArg _ same
      · intro i member
        rcases List.mem_cons.mp member with rfl | later
        · simpa using entry
        · exact before i later

/-- The entries among items head their groups. -/
theorem filter_isEntry (items : List Item) :
    items.filter Item.isEntry = (groupItems items).2.map Prod.fst := by
  induction items with
  | nil => rfl
  | cons item rest ih =>
    by_cases entry : item.isEntry = true
    · simp [groupItems, entry, ih]
    · simp [groupItems, entry, ih]

/-- A comma stands between an entry and the next one. -/
theorem comma_of_isSeparated {gap : List Item} {outline : Outline} {kind : String} {span : Span}
    (plain : ∀ i ∈ gap, i.isEntry = false) (entry : (Role.ofKind kind).isEntry = true)
    (separated : Outline.isSeparated true (gap.map Item.part ++ (kind, span) :: outline) = true) :
    gap.any Item.isComma = true := by
  induction gap with
  | nil => simp [Outline.isSeparated, entry] at separated
  | cons item rest ih =>
    have other : (Role.ofKind item.kind).isEntry = false := plain item (by simp)
    rw [List.any_cons, Bool.or_eq_true]
    by_cases comma : item.isComma = true
    · exact .inl comma
    · have same : (item.kind != ",") = true := by simpa [Item.isComma] using comma
      simp only [List.map_cons, List.cons_append, Item.part, Outline.isSeparated, other, Bool.false_eq_true, if_false,
        same, Bool.and_true] at separated
      exact .inr (ih (fun i member => plain i (List.mem_cons_of_mem _ member)) separated)

theorem isSeparated_entry {entered : Bool} {item : Item} {outline : Outline} (entry : item.isEntry = true)
    (separated : Outline.isSeparated entered (item.part :: outline) = true) :
    Outline.isSeparated true outline = true := by
  have known : (Role.ofKind item.kind).isEntry = true := entry
  unfold Item.part Outline.isSeparated at separated
  rw [if_pos known, Bool.and_eq_true] at separated
  exact separated.2

theorem isSeparated_gap {entered : Bool} {gap : List Item} {outline : Outline} (plain : ∀ i ∈ gap, i.isEntry = false)
    (separated : Outline.isSeparated entered (gap.map Item.part ++ outline) = true) :
    ∃ entered', Outline.isSeparated entered' outline = true := by
  induction gap generalizing entered with
  | nil => exact ⟨entered, separated⟩
  | cons item rest ih =>
    have other : (Role.ofKind item.kind).isEntry = false := plain item (by simp)
    simp only [List.map_cons, List.cons_append, Item.part, Outline.isSeparated, other, Bool.false_eq_true,
      if_false] at separated
    exact ih (fun i member => plain i (List.mem_cons_of_mem _ member)) separated

theorem endsLines_front {outline more : Outline} {part : String × Span}
    (ends : Outline.endsLines text (outline ++ part :: more) = true) :
    Outline.endsLines text (outline ++ [part]) = true := by
  induction outline with
  | nil => rfl
  | cons first rest ih =>
    obtain ⟨kind, span⟩ := first
    have later := ih (endsLines_tail ends)
    cases rest with
    | nil =>
      obtain ⟨kind', span'⟩ := part
      simp only [List.cons_append, List.nil_append, Outline.endsLines, Bool.and_eq_true] at ends ⊢
      exact ⟨ends.1, trivial⟩
    | cons second rest =>
      obtain ⟨kind', span'⟩ := second
      simp only [List.cons_append, Outline.endsLines, Bool.and_eq_true] at ends later ⊢
      exact ⟨ends.1, later⟩

theorem endsLines_suffix {outline more : Outline} (ends : Outline.endsLines text (outline ++ more) = true) :
    Outline.endsLines text more = true := by
  induction outline with
  | nil => exact ends
  | cons first rest ih => exact ih (endsLines_tail ends)

/-! ## Slots -/

/-- Where an entry starts together with the comments above it. -/
def Slot.begins (slot : Slot) : Nat := slot.lead.getD slot.span.start

/-- Where the first of some slots begins. -/
def beginsAt (stop : Nat) (slots : List Slot) : Nat := (slots.head?.map Slot.begins).getD stop

/-- A slot and what goes with it lie in order before a position. -/
structure Slot.Lies (slot : Slot) (next : Nat) : Prop where
  begins : slot.begins ≤ slot.span.start
  inside : slot.span.start ≤ slot.span.stop
  tail : slot.span.stop ≤ slot.tailEnd
  stops : slot.tailEnd ≤ next
  comma : ∀ span ∈ slot.comma, slot.span.stop ≤ span.start ∧ span.start ≤ span.stop ∧ span.stop ≤ slot.tailEnd

theorem Slot.Lies.wide {slot : Slot} {next : Nat} (lies : slot.Lies next) : slot.begins ≤ slot.tailEnd :=
  Nat.le_trans lies.begins (Nat.le_trans lies.inside lies.tail)

/-- A slot and what goes with it lie in order before a position, and so does the line feed that ends it. -/
structure Slot.Reaches (text : List Char) (slot : Slot) (next : Nat) : Prop extends slot.Lies next where
  feed : slot.lineComment = true → '\n' ∈ slice text slot.tailEnd next

/-- Slots lie one after another up to a position. -/
def Chained (stop : Nat) : List Slot → Prop
  | [] => True
  | slot :: rest => slot.Lies (beginsAt stop rest) ∧ Chained stop rest

/-- Slots lie one after another up to a position, with commas between them. -/
def Linked (text : List Char) (stop : Nat) : List Slot → Prop
  | [] => True
  | slot :: rest =>
    slot.Reaches text (beginsAt stop rest) ∧ (rest ≠ [] → slot.comma.isSome = true) ∧ Linked text stop rest

/-- What has been shared out behind an entry makes a slot that lies before the next one. -/
theorem Closing.Placed.lies {next : Nat} {id : NodeId} {lead : Option Nat} (placed : closing.Placed entry stop)
    (inside : entry.start ≤ entry.stop) (led : lead.getD entry.start ≤ entry.start)
    (le : closing.lead.getD stop ≤ next) :
    Slot.Lies ⟨id, entry, lead, closing.comma, closing.tailEnd, closing.lineComment⟩ next where
  begins := led
  inside := inside
  tail := placed.tail
  stops := Nat.le_trans placed.lead le
  comma := placed.comma

/-- Where the first of some groups starts. -/
def groupsAt (stop : Nat) (groups : List (Item × List Item)) : Nat := (groups.head?.map (·.1.span.start)).getD stop

/-- The entry of a group comes first, then the items behind it, and then the next group. -/
theorem Ordered.group {entry : Item} {gap : List Item} {groups : List (Item × List Item)} {start : Nat}
    (ordered : Ordered start stop ((flatten ((entry, gap) :: groups)).map Item.span)) :
    start ≤ entry.span.start ∧ entry.span.start ≤ entry.span.stop ∧
      Ordered entry.span.stop (groupsAt stop groups) (gap.map Item.span) ∧
      Ordered (groupsAt stop groups) stop ((flatten groups).map Item.span) := by
  have flat : flatten ((entry, gap) :: groups) = entry :: (gap ++ flatten groups) := by simp [flatten]
  rw [flat, List.map_cons, List.map_append] at ordered
  obtain ⟨before, inside, behind⟩ := ordered
  have bound : (((flatten groups).map Item.span).head?.map Span.start).getD stop = groupsAt stop groups := by
    cases groups <;> rfl
  obtain ⟨between, after⟩ := behind.split
  rw [bound] at between after
  exact ⟨before, inside, between, after⟩

theorem beginsAt_slotsOf {groups : List (Item × List Item)} {lead : Option Nat} (low : lead.getD (groupsAt stop groups) ≤
    groupsAt stop groups) :
    lead.getD (groupsAt stop groups) ≤ beginsAt stop (slotsOf text lead groups) ∧
      ∀ group ∈ groups.head?, lead.getD group.1.span.start ≤ group.1.span.start := by
  cases groups with
  | nil => exact ⟨low, nofun⟩
  | cons group rest =>
    refine ⟨Nat.le_refl _, ?_⟩
    rintro _ ⟨⟩
    exact low

/-- The slots of a literal whose children lie one after another do so too. -/
theorem slotsOf_chained {groups : List (Item × List Item)} {lead : Option Nat} {start : Nat}
    (ordered : Ordered start stop ((flatten groups).map Item.span))
    (led : ∀ group ∈ groups.head?, lead.getD group.1.span.start ≤ group.1.span.start) :
    Chained stop (slotsOf text lead groups) := by
  induction groups generalizing lead start with
  | nil => trivial
  | cons group rest ih =>
    obtain ⟨entry, gap⟩ := group
    obtain ⟨_, inside, between, after⟩ := Ordered.group ordered
    have placed := @closeGap_placed text _ (rest.head?.map fun second => second.1.span.start) false _ _ _ _ between
      (Nat.le_refl _) (Closing.Placed.none (startOf_le between).1) nofun
    obtain ⟨begins, led'⟩ := @beginsAt_slotsOf text _ _ _ placed.stops
    exact ⟨placed.lies inside (led (entry, gap) rfl) begins, ih after led'⟩

/-- The slots of a literal lie one after another, each with its entry. -/
theorem slotsOf_linked {groups : List (Item × List Item)} {lead : Option Nat} {start : Nat} {entered : Bool}
    {last : String × Span} (ordered : Ordered start stop ((flatten groups).map Item.span))
    (ends : Outline.endsLines text ((flatten groups).map Item.part ++ [last]) = true) (starts : last.2.start = stop)
    (separated : Outline.isSeparated entered ((flatten groups).map Item.part) = true)
    (grouped : ∀ group ∈ groups, group.1.isEntry = true ∧ ∀ i ∈ group.2, i.isEntry = false)
    (led : ∀ group ∈ groups.head?, lead.getD group.1.span.start ≤ group.1.span.start) :
    Linked text stop (slotsOf text lead groups) := by
  induction groups generalizing lead start entered with
  | nil => trivial
  | cons group rest ih =>
    obtain ⟨entry, gap⟩ := group
    obtain ⟨isEntry, plain⟩ := grouped (entry, gap) (by simp)
    obtain ⟨_, inside, between, after⟩ := Ordered.group ordered
    have flat : flatten ((entry, gap) :: rest) = entry :: (gap ++ flatten rest) := by simp [flatten]
    rw [flat] at ends separated
    simp only [List.map_cons, List.map_append] at ends separated
    have ends' : Outline.endsLines text (gap.map Item.part ++ ((flatten rest).map Item.part ++ [last])) = true := by
      rw [← List.append_assoc]
      exact endsLines_tail ends
    -- What follows the gap starts where the gap ends: the next entry, or what comes behind the last one.
    have follower : ∃ follower : String × Span, follower.2.start = groupsAt stop rest ∧
        Outline.endsLines text (gap.map Item.part ++ [follower]) = true := by
      cases rest with
      | nil => exact ⟨last, starts, ends'⟩
      | cons second others =>
        refine ⟨second.1.part, rfl, @endsLines_front _ _ ((second.2 ++ flatten others).map Item.part ++ [last]) _ ?_⟩
        simpa [flatten] using ends'
    obtain ⟨follower, followerStart, gapEnds⟩ := follower
    have within := @closeGap_within _ _ (rest.head?.map fun second => second.1.span.start) _ _ _ _ between
      (Nat.le_refl _) gapEnds followerStart
    obtain ⟨begins, led'⟩ := @beginsAt_slotsOf text _ _ _ within.stops
    have comma := isSeparated_entry isEntry separated
    obtain ⟨entered', separated'⟩ := isSeparated_gap plain comma
    have lies := @Closing.Placed.lies _ _ _ _ entry.id _ within.toPlaced inside (led (entry, gap) rfl) begins
    refine ⟨⟨lies, fun line => Text.mem_slice_mono (Nat.le_refl _) begins (within.feed line)⟩, fun more => ?_,
      ih after (endsLines_suffix ends') separated' (fun g member => grouped g (List.mem_cons_of_mem _ member)) led'⟩
    cases rest with
    | nil => exact absurd rfl more
    | cons second others =>
      have next := (grouped second (by simp)).1
      have shape : flatten (second :: others) = second.1 :: (second.2 ++ flatten others) := by simp [flatten]
      rw [shape] at comma
      exact closeGap_comma (comma_of_isSeparated plain next comma)

/-- A slot is that of an entry that no other one follows: what goes with it are the items in a gap that trail it. -/
structure Slot.Closes (text : List Char) (entry : Item) (gap : List Item) (slot : Slot) : Prop where
  id : slot.id = entry.id
  span : slot.span = entry.span
  comma : slot.comma.isSome = gap.any Item.isComma
  trails : TrailEnd text entry.span.stop false gap entry.span.stop slot.tailEnd
  line : slot.lineComment = true ↔
    ∃ i ∈ gap, i.span.stop = slot.tailEnd ∧ Outline.isLineComment text i.kind i.span = true

/-- The last slot is that of the last entry. -/
theorem slotsOf_last {groups : List (Item × List Item)} {lead : Option Nat} {start : Nat} {last : String × Span} {slot : Slot}
    (ordered : Ordered start stop ((flatten groups).map Item.span))
    (ends : Outline.endsLines text ((flatten groups).map Item.part ++ [last]) = true) (starts : last.2.start = stop)
    (is : (slotsOf text lead groups).getLast? = some slot) :
    ∃ before entry gap, flatten groups = before ++ entry :: gap ∧ (entry, gap) ∈ groups ∧ slot.Closes text entry gap := by
  induction groups generalizing lead start with
  | nil => cases is
  | cons group rest ih =>
    obtain ⟨entry, gap⟩ := group
    obtain ⟨_, _, between, after⟩ := Ordered.group ordered
    have flat : flatten ((entry, gap) :: rest) = entry :: (gap ++ flatten rest) := by simp [flatten]
    rw [flat] at ends ⊢
    simp only [List.map_cons, List.map_append] at ends
    have ends' : Outline.endsLines text (gap.map Item.part ++ ((flatten rest).map Item.part ++ [last])) = true := by
      rw [← List.append_assoc]
      exact endsLines_tail ends
    cases rest with
    | nil =>
      refine ⟨[], entry, gap, by simp [flatten], by simp, ?_⟩
      cases is
      have trails := @closeGap_last text entry.span false ⟨none, entry.span.stop, false, none⟩ gap _ _ between (Nat.le_refl _) nofun
      refine ⟨rfl, rfl, ?_, trails, closeGap_line between (Nat.le_refl _) ends' starts⟩
      cases found : gap.any Item.isComma with
      | true => exact closeGap_comma found
      | false => exact Option.isSome_eq_false_iff.mpr (Option.isNone_iff_eq_none.mpr (closeGap_no_comma found))
    | cons second others =>
      have later : (slotsOf text (closeGap text entry.span (some second.1.span.start) false
          ⟨none, entry.span.stop, false, none⟩ gap).lead (second :: others)).getLast? = some slot := by
        rw [← is]
        exact (List.getLast?_cons_cons).symm
      obtain ⟨before, last', gap', split, member, closes⟩ := ih after (endsLines_suffix ends') later
      exact ⟨entry :: (gap ++ before), last', gap', by rw [split]; simp, List.mem_cons_of_mem _ member, closes⟩

/-- Each slot has the number and the place of its entry. -/
theorem slotsOf_entries (text : List Char) (lead : Option Nat) (groups : List (Item × List Item)) :
    (slotsOf text lead groups).map (fun slot => (slot.id, slot.span)) =
      groups.map fun group => (group.1.id, group.1.span) := by
  induction groups generalizing lead with
  | nil => rfl
  | cons group rest ih =>
    simp only [slotsOf, List.map_cons]
    rw [ih]

/-- The first slot has no comments above it. -/
theorem slotsOf_begins (text : List Char) (groups : List (Item × List Item)) :
    ∀ slot ∈ (slotsOf text none groups).head?, slot.lead = none := by
  cases groups with
  | nil => intro slot member; cases member
  | cons group rest => intro slot member; cases member; rfl

end StoreModels
