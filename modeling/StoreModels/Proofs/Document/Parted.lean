import StoreModels.Proofs.Document.Thinned

/-!
What goes with each entry of an object literal when some entries go. Every entry, every comma and every comment of the
literal lies in what stays or in what gives way: an entry and its own comments, and the comma behind it, share one fate,
and the comments of the literal itself stay.
-/
namespace StoreModels
open Syntax (Span Role)
open Text (slice Ordered)

/-! ## Parts of slots -/

/-- A part of a text goes with the entry of a slot and lies apart from its comma. -/
structure Slot.Has (slot : Slot) (part : Span) : Prop where
  low : slot.begins ≤ part.start
  high : part.stop ≤ slot.tailEnd
  comma : ∀ span ∈ slot.comma, part.stop ≤ span.start ∨ span.stop ≤ part.start

/-- Two items that lie in order are the same or lie apart. -/
theorem ordered_apart {start stop : Nat} {items : List Item} {x y : Item} (ordered : Ordered start stop (items.map Item.span))
    (left : x ∈ items) (right : y ∈ items) : x = y ∨ x.span.stop ≤ y.span.start ∨ y.span.stop ≤ x.span.start := by
  induction items generalizing start with
  | nil => cases left
  | cons item items ih =>
    obtain ⟨_, _, later⟩ := ordered
    rcases List.mem_cons.mp left with rfl | left'
    · rcases List.mem_cons.mp right with rfl | right'
      · exact .inl rfl
      · exact .inr (.inl (later.mem (List.mem_map_of_mem right')).1)
    · rcases List.mem_cons.mp right with rfl | right'
      · exact .inr (.inr (later.mem (List.mem_map_of_mem left')).1)
      · exact ih later left' right'

/-- A layout shares out the items between the braces of a literal. -/
structure Layout.Shares (text : List Char) (items : List Item) (layout : Layout) : Prop where
  slots : layout.slots = slotsOf text none (groupItems items).2
  opens : layout.span.start ≤ layout.openEnd
  inside : Ordered layout.openEnd layout.closeStart (items.map Item.span)
  closes : layout.closeStart ≤ layout.span.stop

/-- What lies between the braces of a literal is shared out. -/
theorem Layout.Framed.shares {text : List Char} {span : Span} {items inner : List Item} {opening closing : Item}
    (framed : Layout.Framed text span items opening inner closing) : (Layout.ofItems text span items).Shares text inner := by
  rw [framed.layout]
  exact ⟨rfl, Nat.le_trans framed.begins (Nat.le_of_lt framed.opens), framed.inside,
    Nat.le_trans (Nat.le_of_lt framed.closes) framed.ends⟩

namespace Layout.Shares
variable {text : List Char} {layout : Layout} {items front before behind gap rest : List Item} {entry comment comma : Item}
  (shares : layout.Shares text items)
include shares

theorem lined : layout.Lined := by
  obtain ⟨slots, opens, inside, closes⟩ := shares
  obtain ⟨same, _, _⟩ := groupItems_spec items
  rw [same, List.map_append] at inside
  generalize (groupItems items).1 = head at *
  generalize (groupItems items).2 = groups at *
  obtain ⟨left, right⟩ := inside.split
  refine ⟨opens, ?_, ?_, slots ▸ slotsOf_begins text groups, closes⟩
  · have low := left.le
    rw [slots]
    cases groups with
    | nil => exact low
    | cons group rest => exact low
  · rw [slots]
    exact slotsOf_chained right fun _ _ => Nat.le_refl _

/-- What lies in a gap comes behind its entry and before the next one. -/
theorem gap_inside (is : Gap items front entry gap rest) :
    Ordered entry.span.stop (startOf layout.closeStart rest) (gap.map Item.span) := by
  have inside := shares.inside
  rw [is.split, List.map_append, List.map_cons, List.map_append] at inside
  have between := inside.split.2.2.2.split.1
  cases rest <;> exact between

/-- The slot of an entry, with its share of the gap behind it, and the slots of the entries that follow. -/
theorem slot (is : Gap items front entry gap rest) : ∃ done slot next, layout.slots = done ++ slot ::
      slotsOf text (gapClosing text entry.span (nextStart rest) gap).lead (groupItems rest).2 ∧
    slot.Holds text entry (nextStart rest) gap ∧ slot.Lies next := by
  obtain ⟨done, slot, split, holds⟩ := @Gap.slot text _ _ _ _ _ is
  rw [← shares.slots] at split
  have chained := shares.lined.chained
  rw [split] at chained
  exact ⟨done, slot, _, split, holds, chained.of_split.1⟩

theorem entry_has (is : Gap items front entry gap rest) :
    ∃ done slot later, layout.slots = done ++ slot :: later ∧ slot.id = entry.id ∧ slot.Has entry.span := by
  obtain ⟨done, slot, _, split, holds, lies⟩ := shares.slot is
  refine ⟨done, slot, _, split, holds.id, holds.span ▸ lies.begins, holds.span ▸ lies.tail, fun span took => .inl ?_⟩
  rw [← holds.span]
  exact (lies.comma span took).1

/-- The first comma behind an entry is that of its slot. -/
theorem comma_is (is : Gap items front entry (before ++ comma :: behind) rest) (none : before.any Item.isComma = false)
    (isComma : comma.isComma = true) : ∃ done slot, layout.slots = done ++ slot ::
      slotsOf text (gapClosing text entry.span (nextStart rest) (before ++ comma :: behind)).lead (groupItems rest).2 ∧
    slot.id = entry.id ∧ slot.comma = some comma.span ∧ slot.begins ≤ comma.span.start ∧
    comma.span.stop ≤ slot.tailEnd := by
  obtain ⟨done, slot, _, split, holds, lies⟩ := shares.slot is
  have took : slot.comma = some comma.span := holds.comma.trans (closeGap_first_comma none isComma)
  obtain ⟨low, _, high⟩ := lies.comma comma.span took
  exact ⟨done, slot, split, holds.id, took, Nat.le_trans lies.begins (Nat.le_trans lies.inside low), high⟩

/-- An entry has a comma in its slot exactly if there is one in the gap behind it. -/
theorem comma_isSome (is : Gap items front entry gap rest) : ∃ done slot, layout.slots = done ++ slot ::
      slotsOf text (gapClosing text entry.span (nextStart rest) gap).lead (groupItems rest).2 ∧
    slot.comma.isSome = gap.any Item.isComma := by
  obtain ⟨done, slot, _, split, holds, _⟩ := shares.slot is
  refine ⟨done, slot, split, ?_⟩
  rw [holds.comma]
  cases any : gap.any Item.isComma with
  | true => exact closeGap_comma any
  | false => exact Option.isSome_eq_false_iff.mpr (Option.isNone_iff_eq_none.mpr (closeGap_no_comma any))

/-- A comment in a gap is shared out by whether it is the entry's own. -/
theorem comment_shared (is : Gap items front entry (before ++ comment :: behind) rest) (isComment : comment.isComment = true) :
    (AllBeside text entry.span (nextStart rest) (before ++ [comment]) behind → comment.span.stop ≤
      (gapClosing text entry.span (nextStart rest) (before ++ comment :: behind)).tailEnd) ∧
    (¬ AllBeside text entry.span (nextStart rest) (before ++ [comment]) behind →
      ∃ lead, (gapClosing text entry.span (nextStart rest) (before ++ comment :: behind)).lead = some lead ∧
        lead ≤ comment.span.start) := by
  have after : Closing.After text entry.span (nextStart rest) [] (before ++ comment :: behind) false entry.span.stop
      ⟨none, entry.span.stop, false, none⟩ :=
    ⟨rfl, by simp [AllBeside.nil], Nat.le_refl _, by simp⟩
  exact closeGap_shares after (shares.gap_inside is) isComment

/-- A comment of the entry before it goes with that one. -/
theorem own_has (is : Gap items front entry (before ++ comment :: behind) rest) (isComment : comment.isComment = true)
    (beside : AllBeside text entry.span (nextStart rest) (before ++ [comment]) behind) :
    ∃ done slot later, layout.slots = done ++ slot :: later ∧ slot.id = entry.id ∧ slot.Has comment.span := by
  obtain ⟨done, slot, _, split, holds, lies⟩ := shares.slot is
  have ordered := shares.gap_inside is
  have listed : comment ∈ before ++ comment :: behind := by simp
  have low := (ordered.mem (List.mem_map_of_mem listed)).1
  rw [← holds.span] at low
  refine ⟨done, slot, _, split, holds.id, Nat.le_trans lies.begins (Nat.le_trans lies.inside low), ?_, fun span took => ?_⟩
  · rw [holds.tailEnd]
    exact (shares.comment_shared is isComment).1 beside
  · -- The comma of the slot is an item of the gap, and not the comment.
    rw [holds.comma] at took
    cases any : (before ++ comment :: behind).any Item.isComma with
    | false =>
      have none : (gapClosing text entry.span (nextStart rest) (before ++ comment :: behind)).comma = none :=
        closeGap_no_comma any
      rw [none] at took
      cases took
    | true =>
      obtain ⟨first, comma, later, gapIs, none, isComma⟩ := split_comma any
      have member : comma ∈ before ++ comment :: behind := by rw [gapIs]; simp
      have found : (gapClosing text entry.span (nextStart rest) (before ++ comment :: behind)).comma = some comma.span := by
        rw [gapIs]
        exact closeGap_first_comma none isComma
      rw [found] at took
      cases took
      rcases ordered_apart ordered listed member with rfl | apart
      · rw [Item.comma_not_comment isComma] at isComment
        cases isComment
      · exact apart

/-- A comment of the entry behind it goes with that one. -/
theorem next_has {next : Item} {more : List Item} (is : Gap items front entry (before ++ comment :: behind) (next :: more))
    (isComment : comment.isComment = true)
    (apart : ¬ AllBeside text entry.span (nextStart (next :: more)) (before ++ [comment]) behind) :
    ∃ done slot later, layout.slots = done ++ slot :: later ∧ slot.id = next.id ∧ slot.Has comment.span := by
  have isEntry := is.stops next rfl
  obtain ⟨done, slot, _, split, _, _⟩ := shares.slot is
  obtain ⟨lead, led, le⟩ := (shares.comment_shared is isComment).2 apart
  have listed : comment ∈ before ++ comment :: behind := by simp
  have high : comment.span.stop ≤ next.span.start := ((shares.gap_inside is).mem (List.mem_map_of_mem listed)).2.2
  simp only [groupItems, if_pos isEntry] at split
  rw [List.append_cons, slotsOf] at split
  have chained := shares.lined.chained
  rw [split] at chained
  have lies := chained.of_split.1
  have inside := lies.inside
  refine ⟨done ++ [slot], _, _, split, rfl, ?_, Nat.le_trans high (Nat.le_trans inside lies.tail), fun span took => .inl ?_⟩
  · show (Option.getD _ _) ≤ _
    rw [led]
    exact le
  · exact Nat.le_trans high (Nat.le_trans inside (lies.comma span took).1)

/-- A comment of an entry goes with it. -/
theorem owned_has (owns : Owns text items (some entry) comment) :
    ∃ done slot later, layout.slots = done ++ slot :: later ∧ slot.id = entry.id ∧ slot.Has comment.span := by
  obtain ⟨owner, ownerIs⟩ : ∃ owner, owner = some entry := ⟨_, rfl⟩
  rw [← ownerIs] at owns
  cases owns with
  | above _ _ _ => cases ownerIs
  | own is isComment beside =>
    cases ownerIs
    exact shares.own_has is isComment beside
  | @next front before behind rest _ _ is isComment apart =>
    cases rest with
    | nil => cases ownerIs
    | cons first more =>
      cases ownerIs
      exact shares.next_has is isComment apart

/-- A comment of the literal itself stands before all entries or behind all that goes with them. -/
theorem free_apart (owns : Owns text items none comment) :
    comment.span.stop ≤ beginsAt layout.closeStart layout.slots ∨
      tailOf layout.openEnd layout.slots ≤ comment.span.start ∧ comment.span.stop ≤ layout.closeStart := by
  obtain ⟨owner, ownerIs⟩ : ∃ owner : Option Item, owner = none := ⟨_, rfl⟩
  rw [← ownerIs] at owns
  cases owns with
  | @above before behind _ split first isComment =>
    left
    obtain ⟨gap, rest, rfl, others, stops⟩ := split_first behind
    have plain : ∀ item ∈ before ++ comment :: gap, item.isEntry = false := fun item member => by
      rcases List.mem_append.mp member with early | here
      · exact first item early
      · rcases List.mem_cons.mp here with rfl | late
        · exact Item.comment_not_entry isComment
        · exact others item late
    have split : items = (before ++ comment :: gap) ++ rest := by rw [split]; simp
    have slots := shares.slots
    rw [split, groupItems_gap plain stops] at slots
    have inside := shares.inside
    rw [split, List.map_append] at inside
    have high := (inside.split.1.mem (List.mem_map_of_mem (by simp : comment ∈ before ++ comment :: gap))).2.2
    rw [slots]
    cases rest with
    | nil => exact high
    | cons next more =>
      have isEntry := stops next rfl
      simp only [groupItems, if_pos isEntry]
      exact high
  | own _ _ _ => cases ownerIs
  | @next front before behind rest e _ is isComment apart =>
    right
    obtain rfl : rest = [] := List.head?_eq_none_iff.mp ownerIs
    obtain ⟨done, slot, _, split, holds, _⟩ := shares.slot is
    obtain ⟨lead, led, le⟩ := (shares.comment_shared is isComment).2 apart
    have ordered := shares.gap_inside is
    have placed : (gapClosing text e.span (nextStart []) (before ++ comment :: behind)).Placed e.span layout.closeStart :=
      closeGap_placed ordered (Nat.le_refl _) (Closing.Placed.none (startOf_le ordered).1) fun led => by cases led
    have tail := placed.lead
    rw [led, ← holds.tailEnd] at tail
    rw [split, tailOf_split]
    refine ⟨Nat.le_trans tail le, ?_⟩
    exact (ordered.mem (List.mem_map_of_mem (by simp : comment ∈ before ++ comment :: behind))).2.2

end Layout.Shares

namespace Document
variable {doc : Document} {text : List Char} {buffer : BufferId} {layout : Layout} {items front before behind gap rest : List Item}
  {entry comment comma : Item} {gone : List NodeId} {part : Span}

/-- Whether a slot keeps its entry when some entries go. -/
def staysIn (gone : List NodeId) (slot : Slot) : Bool := !gone.contains slot.id

/-- Some of the slots keep their entries exactly if some of the entries stay. -/
theorem any_staysIn (text : List Char) (lead : Option Nat) (items : List Item) (gone : List NodeId) :
    (slotsOf text lead (groupItems items).2).any (staysIn gone) =
      items.any fun item => item.isEntry && !gone.contains item.id := by
  have slots : (slotsOf text lead (groupItems items).2).any (staysIn gone) =
      ((slotsOf text lead (groupItems items).2).map Slot.id).any fun id => !gone.contains id := by
    rw [List.any_map]
    rfl
  rw [slots, slots_ids, List.any_map, List.any_filter]
  rfl

section
variable (shares : layout.Shares text items) (any : layout.slots.any (staysIn gone) = true)
include shares

/-- What goes with an entry that stays, its comma apart, stays. -/
theorem has_stays (has : ∃ done slot later, layout.slots = done ++ slot :: later ∧ slot.id = entry.id ∧ slot.Has part)
    (kept : entry.id ∉ gone) : Text.stays (doc.thinnedExchanges text buffer (staysIn gone) layout) part = true := by
  obtain ⟨done, slot, later, split, id, low, high, comma⟩ := has
  refine stays_slot shares.lined split ?_ low high fun span took => .inr (.inr (comma span took))
  simpa [staysIn, id] using kept

include any

/-- What goes with an entry that goes does so too. -/
theorem has_goes (has : ∃ done slot later, layout.slots = done ++ slot :: later ∧ slot.id = entry.id ∧ slot.Has part)
    (isGone : entry.id ∈ gone) : Text.goes (doc.thinnedExchanges text buffer (staysIn gone) layout) part = true := by
  obtain ⟨done, slot, later, split, id, low, high, _⟩ := has
  refine goes_slot shares.lined any split ?_ low high
  simpa [staysIn, id] using isGone

/-- The first comma behind an entry that goes does so too. -/
theorem comma_goes (is : Gap items front entry (before ++ comma :: behind) rest) (none : before.any Item.isComma = false)
    (isComma : comma.isComma = true) (isGone : entry.id ∈ gone) :
    Text.goes (doc.thinnedExchanges text buffer (staysIn gone) layout) comma.span = true := by
  obtain ⟨done, slot, split, id, _, low, high⟩ := shares.comma_is is none isComma
  refine goes_slot shares.lined any split ?_ low high
  simpa [staysIn, id] using isGone

/-- A comment of the literal itself stays. -/
theorem free_stays (owns : Owns text items none comment)
    (solid : (slice text comment.span.start comment.span.stop).head?.any (fun c => !Text.isBlank c) = true) :
    Text.stays (doc.thinnedExchanges text buffer (staysIn gone) layout) comment.span = true := by
  rcases shares.free_apart owns with before | ⟨behind, inside⟩
  · exact stays_before shares.lined any before
  · exact stays_end shares.lined any behind inside solid

end

/-- Whether the literal has a comma behind its last entry. -/
theorem wantsComma_eq_any (shares : layout.Shares text items) (last : Gap items front entry gap []) :
    (doc.entrySetting text buffer layout).wantsComma [] = gap.any Item.isComma := by
  obtain ⟨done, slot, split, comma⟩ := shares.comma_isSome last
  show (!true || (layout.slots.getLast?.bind (·.comma)).isSome) = _
  rw [split, ← comma]
  simp [groupItems, slotsOf]

/-- The first comma behind an entry that stays does so too, unless it is the last one that stays and the literal had no
    comma behind its last entry. -/
theorem comma_stays (shares : layout.Shares text items) (is : Gap items front entry (before ++ comma :: behind) rest)
    (none : before.any Item.isComma = false) (isComma : comma.isComma = true) (kept : entry.id ∉ gone)
    (more : rest.any (fun item => item.isEntry && !gone.contains item.id) = true ∨
      (doc.entrySetting text buffer layout).wantsComma [] = true) :
    Text.stays (doc.thinnedExchanges text buffer (staysIn gone) layout) comma.span = true := by
  obtain ⟨done, slot, split, id, took, low, high⟩ := shares.comma_is is none isComma
  refine stays_slot shares.lined split ?_ low high fun span _ => ?_
  · simpa [staysIn, id] using kept
  · rw [any_staysIn]
    exact more.imp_right .inl

/-- The comma behind the last entry that stays goes where the literal had none behind its last entry. -/
theorem last_comma_goes (shares : layout.Shares text items) (is : Gap items front entry (before ++ comma :: behind) rest)
    (none : before.any Item.isComma = false) (isComma : comma.isComma = true) (kept : entry.id ∉ gone)
    (last : rest.any (fun item => item.isEntry && !gone.contains item.id) = false)
    (bare : (doc.entrySetting text buffer layout).wantsComma [] = false) :
    Text.goes (doc.thinnedExchanges text buffer (staysIn gone) layout) comma.span = true := by
  obtain ⟨done, slot, split, id, took, _, _⟩ := shares.comma_is is none isComma
  refine goes_comma shares.lined split ?_ ?_ bare took
  · simpa [staysIn, id] using kept
  · rw [any_staysIn]
    exact last

/-! ## Commas -/

/-- Whether an item is a comma that stays. -/
def isLeft (exchanges : List Text.Exchange) (item : Item) : Bool := item.isComma && Text.stays exchanges item.span

theorem isLeft_nil : isLeft [] = Item.isComma := by
  funext item
  simp [isLeft]

theorem countP_isLeft_le (exchanges : List Text.Exchange) (items : List Item) :
    items.countP (isLeft exchanges) ≤ items.countP Item.isComma :=
  List.countP_mono_left fun _ _ left => (Bool.and_eq_true _ _ ▸ left).1

theorem countP_isLeft_none {exchanges : List Text.Exchange} (none : items.any Item.isComma = false) :
    items.countP (isLeft exchanges) = 0 := by
  rw [List.countP_eq_zero]
  intro item member left
  have isComma : item.isComma = true := (Bool.and_eq_true _ _ ▸ left).1
  rw [List.any_eq_false] at none
  exact none item member isComma

/-- Behind its first comma a gap has the others. -/
theorem countP_split (exchanges : List Text.Exchange) (none : before.any Item.isComma = false)
    (isComma : comma.isComma = true) :
    (before ++ comma :: behind).countP (isLeft exchanges) =
        behind.countP (isLeft exchanges) + (if Text.stays exchanges comma.span then 1 else 0) ∧
      (before ++ comma :: behind).countP Item.isComma = behind.countP Item.isComma + 1 := by
  have first : before.countP Item.isComma = 0 := by
    rw [List.countP_eq_zero]
    exact fun item member => by simpa using List.any_eq_false.mp none item member
  constructor
  · rw [List.countP_append, countP_isLeft_none none, List.countP_cons, isLeft, isComma]
    simp
  · rw [List.countP_append, first, List.countP_cons, isComma]
    simp

section
variable (shares : layout.Shares text items) (any : layout.slots.any (staysIn gone) = true)
  (single : SingleCommas items)
  (wide : ∀ item ∈ items, item.isComma = true → item.span.start < item.span.stop)
include single

omit single in
/-- A gap with one comma. -/
theorem single_split (one : gap.countP Item.isComma = 1) :
    ∃ before comma behind, gap = before ++ comma :: behind ∧ before.any Item.isComma = false ∧ comma.isComma = true ∧
      behind.any Item.isComma = false := by
  have some : gap.any Item.isComma = true := by
    rw [List.any_eq_true]
    exact List.countP_pos_iff.mp (by omega)
  obtain ⟨before, comma, behind, rfl, none, isComma⟩ := split_comma some
  refine ⟨before, comma, behind, rfl, none, isComma, ?_⟩
  have rest : behind.countP Item.isComma = 0 := by
    have count := (@countP_split before behind comma [] none isComma).2
    omega
  rw [List.any_eq_false]
  exact fun item member => by simpa using List.countP_eq_zero.mp rest item member

/-- Between entries the one comma behind an entry is left exactly if it stays. -/
theorem countP_gap (is : Gap items front entry gap rest) (more : rest ≠ []) (exchanges : List Text.Exchange) :
    ∃ before comma behind, gap = before ++ comma :: behind ∧ before.any Item.isComma = false ∧ comma.isComma = true ∧
      gap.countP (isLeft exchanges) = if Text.stays exchanges comma.span then 1 else 0 := by
  obtain ⟨before, comma, behind, rfl, none, isComma, last⟩ := single_split (single _ _ _ _ is more)
  refine ⟨before, comma, behind, rfl, none, isComma, ?_⟩
  rw [(countP_split exchanges none isComma).1, countP_isLeft_none last, Nat.zero_add]

include shares any wide

/-- No comma is left behind entries that go, up to an entry. -/
theorem countP_gone {pre stretch post : List Item} (split : items = pre ++ (stretch ++ post))
    (first : ∀ item ∈ stretch.head?, item.isEntry = true) (allGone : ∀ item ∈ stretch, item.isEntry = true → item.id ∈ gone)
    (ends : ∃ item ∈ post, item.isEntry = true) :
    stretch.countP (isLeft (doc.thinnedExchanges text buffer (staysIn gone) layout)) = 0 := by
  rw [List.countP_eq_zero]
  intro comma member left
  obtain ⟨isComma, stays⟩ := Bool.and_eq_true _ _ ▸ left
  obtain ⟨early, late, rfl⟩ := List.append_of_mem member
  -- The comma stands in the gap behind the last entry before it, which is one of those that go.
  have some : ∃ item ∈ early, item.isEntry = true := by
    cases early with
    | nil =>
      have isEntry := first comma rfl
      rw [Item.comma_not_entry isComma] at isEntry
      cases isEntry
    | cons item early => exact ⟨item, by simp, first item rfl⟩
  obtain ⟨front, entry, before, rfl, isEntry, others⟩ := split_last some
  have split : items = (pre ++ front) ++ entry :: (before ++ comma :: (late ++ post)) := by rw [split]; simp
  obtain ⟨behind, rest, restIs, is⟩ := Gap.around split isEntry others (Item.comma_not_entry isComma)
  have more : rest ≠ [] := by
    rintro rfl
    obtain ⟨item, listed, entered⟩ := ends
    have plain := is.others item (by rw [List.append_nil] at restIs; simp [← restIs, listed])
    rw [entered] at plain
    cases plain
  have none : before.any Item.isComma = false := by
    have one := single _ _ _ _ is more
    rw [List.countP_append, List.countP_cons, isComma] at one
    have zero : before.countP Item.isComma = 0 := by
      simp only [if_true] at one
      omega
    rw [List.any_eq_false]
    exact fun item member => by simpa using List.countP_eq_zero.mp zero item member
  have goes := @comma_goes doc text buffer _ _ _ _ _ _ _ _ _ shares any is none isComma (allGone entry (by simp) isEntry)
  rw [Text.not_stays_of_goes (wide comma (by rw [split]; simp) isComma) goes] at stays
  cases stays

/-- Between two entries that stay, with none in between that does, one comma is left. -/
theorem commas_between {a b : Item} {between : List Item} (split : items = front ++ a :: (between ++ b :: rest))
    (entered : a.isEntry = true) (kept : a.id ∉ gone) (entered' : b.isEntry = true) (kept' : b.id ∉ gone)
    (allGone : ∀ item ∈ between, item.isEntry = true → item.id ∈ gone) :
    between.countP (isLeft (doc.thinnedExchanges text buffer (staysIn gone) layout)) = 1 := by
  obtain ⟨gap, rest', same, is⟩ := Gap.of_entry split entered
  obtain ⟨more, rfl, rfl⟩ : ∃ more, between = gap ++ more ∧ rest' = more ++ b :: rest := by
    rcases List.append_eq_append_iff.mp same with ⟨others, rfl, tail⟩ | ⟨others, rfl, tail⟩
    · cases others with
      | nil => exact ⟨[], by simp, by simpa using tail.symm⟩
      | cons first others =>
        obtain ⟨rfl, _⟩ := List.cons_eq_cons.mp tail
        have plain := is.others b (by simp)
        rw [entered'] at plain
        cases plain
    · exact ⟨others, rfl, tail⟩
  have some : more ++ b :: rest ≠ [] := by simp
  obtain ⟨before, comma, behind, rfl, none, isComma, count⟩ := countP_gap single is some
    (doc.thinnedExchanges text buffer (staysIn gone) layout)
  have later : (more ++ b :: rest).any (fun item => item.isEntry && !gone.contains item.id) = true := by
    simp [entered', kept']
  have stays := @comma_stays doc text buffer _ _ _ _ _ _ _ _ _ shares is none isComma kept (.inl later)
  rw [List.countP_append, count, stays, if_pos rfl,
    countP_gone shares any single wide (by simpa using split : items = (front ++ a :: (before ++ comma :: behind)) ++ (more ++ b :: rest))
      ?_ (fun item member => allGone item (by simp [member])) ⟨b, by simp, entered'⟩]
  exact fun item first => is.stops item (by rw [List.head?_append, Option.mem_def.mp first]; rfl)

omit any single wide in
/-- Where the last entry stays, the comma behind it stays as well. -/
theorem comma_trailing_stays {a : Item} (is : Gap items front a gap []) (kept : a.id ∉ gone) :
    gap.countP (isLeft (doc.thinnedExchanges text buffer (staysIn gone) layout)) = 0 ↔ gap.countP Item.isComma = 0 := by
  have wants := @wantsComma_eq_any doc text buffer _ _ _ _ _ shares is
  refine ⟨fun zero => ?_, fun zero => Nat.le_zero.mp (zero ▸ countP_isLeft_le _ gap)⟩
  by_contra some
  have found : gap.any Item.isComma = true := by
    rw [List.any_eq_true]
    exact List.countP_pos_iff.mp (Nat.pos_of_ne_zero some)
  obtain ⟨before, comma, behind, rfl, none, isComma⟩ := split_comma found
  have stays := @comma_stays doc text buffer _ _ _ _ _ _ _ _ _ shares is none isComma kept (.inr (wants.trans found))
  rw [(countP_split _ none isComma).1, stays, if_pos rfl] at zero
  omega

omit single in
/-- Where the last entry goes, the comma behind the last one that stays is left if there was one behind the last entry. -/
theorem comma_trailing_goes {a last comma : Item} {front' before behind : List Item}
    (is : Gap items front a (before ++ comma :: behind) rest) (none : before.any Item.isComma = false)
    (isComma : comma.isComma = true) (kept : a.id ∉ gone)
    (later : rest.any (fun item => item.isEntry && !gone.contains item.id) = false)
    (ends : Gap items front' last gap []) (lastGone : last.id ∈ gone) :
    let exchanges := doc.thinnedExchanges text buffer (staysIn gone) layout
    let left := (if Text.stays exchanges comma.span then 1 else 0) + gap.countP (isLeft exchanges)
    left ≤ gap.countP Item.isComma ∧ (left = 0 ↔ gap.countP Item.isComma = 0) := by
  intro exchanges left
  have wants := @wantsComma_eq_any doc text buffer _ _ _ _ _ shares ends
  cases had : gap.any Item.isComma with
  | true =>
    have stays := @comma_stays doc text buffer _ _ _ _ _ _ _ _ _ shares is none isComma kept (.inr (wants.trans had))
    obtain ⟨before', comma', behind', rfl, none', isComma'⟩ := split_comma had
    have goes := @comma_goes doc text buffer _ _ _ _ _ _ _ _ _ shares any ends none' isComma' lastGone
    have leaves := Text.not_stays_of_goes (wide comma' (by rw [ends.split]; simp) isComma') goes
    obtain ⟨counted, all⟩ := @countP_split before' behind' comma' exchanges none' isComma'
    have fewer := countP_isLeft_le exchanges behind'
    have is : left = 1 + behind'.countP (isLeft exchanges) := by
      simp only [left, exchanges, counted, stays, leaves, if_true, Bool.false_eq_true, if_false]
      omega
    rw [is, all]
    omega
  | false =>
    have goes := @last_comma_goes doc text buffer _ _ _ _ _ _ _ _ _ shares is none isComma kept later (wants.trans had)
    have leaves := Text.not_stays_of_goes (wide comma (by rw [is.split]; simp) isComma) goes
    have none' : gap.countP Item.isComma = 0 := by
      rw [List.countP_eq_zero]
      exact fun item member => by simpa using List.any_eq_false.mp had item member
    have zero : left = 0 := by simp only [left, exchanges, leaves, countP_isLeft_none had, Bool.false_eq_true, if_false]
    simp [zero, none']

/-- A comma is left behind the last entry that stays exactly if the literal had one behind its last entry. -/
theorem comma_trailing {a last : Item} {left front' : List Item} (split : items = front ++ a :: left) (entered : a.isEntry = true)
    (kept : a.id ∉ gone) (allGone : ∀ item ∈ left, item.isEntry = true → item.id ∈ gone)
    (ends : Gap items front' last gap []) :
    left.countP (isLeft (doc.thinnedExchanges text buffer (staysIn gone) layout)) ≤ gap.countP Item.isComma ∧
      (left.countP (isLeft (doc.thinnedExchanges text buffer (staysIn gone) layout)) = 0 ↔ gap.countP Item.isComma = 0) := by
  obtain ⟨own, rest, rfl, is⟩ := Gap.of_entry split entered
  by_cases more : rest = []
  · subst more
    obtain ⟨rfl, rfl, rfl⟩ := is.last_unique ends
    rw [List.append_nil]
    exact ⟨countP_isLeft_le _ _, comma_trailing_stays shares is kept⟩
  · have some : ∃ item ∈ rest, item.isEntry = true := by
      cases rest with
      | nil => exact absurd rfl more
      | cons item rest => exact ⟨item, by simp, is.stops item rfl⟩
    obtain ⟨mid, last', gap', rfl, isEntry, others⟩ := split_last some
    obtain ⟨_, rfl, rfl⟩ := Gap.last_unique
      (⟨by rw [is.split]; simp, isEntry, others, by simp⟩ : Gap items (front ++ a :: (own ++ mid)) last' gap' []) ends
    have later : (mid ++ last' :: gap').any (fun item => item.isEntry && !gone.contains item.id) = false := by
      rw [List.any_eq_false]
      intro item member
      simp only [Bool.and_eq_true, Bool.not_eq_true', not_and, Bool.not_eq_false, List.contains_iff_mem]
      exact fun entered => allGone item (List.mem_append_right _ member) entered
    obtain ⟨exchanges, exchangesIs⟩ : ∃ exchanges, exchanges = doc.thinnedExchanges text buffer (staysIn gone) layout := ⟨_, rfl⟩
    obtain ⟨before, comma, behind, rfl, none, isComma, count⟩ := countP_gap single is more exchanges
    have middle : mid.countP (isLeft exchanges) = 0 := by
      rw [exchangesIs]
      refine countP_gone shares any single wide
        (by simpa using is.split : items = (front ++ a :: (before ++ comma :: behind)) ++ (mid ++ last' :: gap')) ?_
        (fun item member => allGone item (by simp [member])) ⟨last', by simp, isEntry⟩
      exact fun item first => is.stops item (by rw [List.head?_append, Option.mem_def.mp first]; rfl)
    have own : isLeft exchanges last' = false := by
      cases isComma : last'.isComma with
      | true =>
        rw [Item.comma_not_entry isComma] at isEntry
        cases isEntry
      | false => rw [isLeft, isComma, Bool.false_and]
    have total : (before ++ comma :: behind ++ (mid ++ last' :: gap')).countP (isLeft exchanges) =
        (if Text.stays exchanges comma.span then 1 else 0) + gap'.countP (isLeft exchanges) := by
      rw [List.countP_append, count, List.countP_append, middle, List.countP_cons, own]
      simp
    rw [← exchangesIs, total, exchangesIs]
    exact comma_trailing_goes shares any wide is none isComma kept later ends (allGone last' (by simp) isEntry)

end

end Document

end StoreModels
