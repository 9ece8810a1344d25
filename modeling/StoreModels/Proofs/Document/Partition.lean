import StoreModels.Proofs.Document.Order
import StoreModels.Proofs.Document.Parted
import StoreModels.Proofs.Model.Entered

/-!
The layout of an object literal is a partition of its text. The braces, what stands above the first entry and below the last
one, the entries with their leads and tails, and the gaps between them follow one another without a hole. Every comment lies
in a lead, in a tail, above the first entry or below the last one, and never in a gap.
-/
namespace StoreModels
open Syntax (Span Role Outline Reader Dialect)
open Text (slice Ordered)

/-! ## Stretches without holes -/

/-- Whether stretches of a text follow one another from one position to another without a hole. -/
def Adjoining (stop : Nat) : Nat → List Span → Prop
  | start, [] => start = stop
  | start, span :: rest => span.start = start ∧ start ≤ span.stop ∧ Adjoining stop span.stop rest

namespace Adjoining
variable {start middle stop : Nat} {spans more : List Span}

theorem ordered (adjoining : Adjoining stop start spans) : Ordered start stop spans := by
  induction spans generalizing start with
  | nil => exact Nat.le_of_eq adjoining
  | cons span rest ih =>
    obtain ⟨starts, inside, behind⟩ := adjoining
    exact ⟨Nat.le_of_eq starts.symm, starts ▸ inside, ih behind⟩

theorem append (left : Adjoining middle start spans) (right : Adjoining stop middle more) :
    Adjoining stop start (spans ++ more) := by
  induction spans generalizing start with
  | nil => exact (show start = middle from left) ▸ right
  | cons span rest ih => exact ⟨left.1, left.2.1, ih left.2.2⟩

/-- Put together, stretches without holes are the text that they cover. -/
theorem texts (text : List Char) (adjoining : Adjoining stop start spans) :
    (spans.flatMap fun span => slice text span.start span.stop) = slice text start stop := by
  induction spans generalizing start with
  | nil => rw [show start = stop from adjoining, Text.slice_self, List.flatMap_nil]
  | cons span rest ih =>
    obtain ⟨rfl, inside, behind⟩ := adjoining
    rw [List.flatMap_cons, ih behind, Text.slice_append text inside behind.ordered.le]

end Adjoining

/-- What lies in one of some stretches in order lies apart from all others. -/
theorem ordered_alone {start stop : Nat} {before behind : List Span} {span part : Span}
    (ordered : Ordered start stop (before ++ span :: behind)) (low : span.start ≤ part.start) (high : part.stop ≤ span.stop) :
    ∀ other ∈ before ++ behind, other.stop ≤ part.start ∨ part.stop ≤ other.start := by
  obtain ⟨early, _, _, late⟩ := ordered.split
  intro other member
  rcases List.mem_append.mp member with first | last
  · exact .inl (Nat.le_trans (early.mem first).2.2 low)
  · exact .inr (Nat.le_trans high (late.mem last).1)

/-! ## The parts of a literal -/

/-- What a stretch of an object literal is. -/
inductive Share
  | opening | before | lead | entry | tail | gap | after | closing
  deriving DecidableEq, Repr

/-- Whether comments of a literal lie in stretches of a kind. -/
def Share.holdsComments : Share → Bool
  | before | lead | tail | after => true
  | opening | entry | gap | closing => false

/-- An entry with its lead and its tail. -/
def Slot.parts (slot : Slot) : List (Share × Span) :=
  [(.lead, ⟨slot.begins, slot.span.start⟩), (.entry, slot.span), (.tail, ⟨slot.span.stop, slot.tailEnd⟩)]

/-- Entries with their leads and tails, each behind the gap from where the one before it ends. -/
def slotParts : Nat → List Slot → List (Share × Span)
  | _, [] => []
  | reach, slot :: rest => (.gap, ⟨reach, slot.begins⟩) :: slot.parts ++ slotParts slot.tailEnd rest

/-- The stretches between the braces of a literal. -/
def Layout.inner (layout : Layout) : List (Share × Span) :=
  match layout.slots with
  | [] => [(.before, ⟨layout.openEnd, layout.closeStart⟩)]
  | slot :: rest =>
    (.before, ⟨layout.openEnd, slot.begins⟩) :: slot.parts ++ slotParts slot.tailEnd rest ++
      [(.after, ⟨tailOf slot.tailEnd rest, layout.closeStart⟩)]

/-- The stretches of a literal, from its opening brace to its closing one. -/
def Layout.parts (layout : Layout) : List (Share × Span) :=
  (.opening, ⟨layout.span.start, layout.openEnd⟩) :: layout.inner ++ [(.closing, ⟨layout.closeStart, layout.span.stop⟩)]

theorem Slot.Lies.adjoining {slot : Slot} {next : Nat} (lies : slot.Lies next) :
    Adjoining slot.tailEnd slot.begins (slot.parts.map Prod.snd) :=
  ⟨rfl, lies.begins, rfl, lies.inside, rfl, lies.tail, rfl⟩

theorem slotParts_adjoining {reach stop : Nat} {slots : List Slot} (low : reach ≤ beginsAt stop slots)
    (chained : Chained stop slots) : Adjoining (tailOf reach slots) reach ((slotParts reach slots).map Prod.snd) := by
  induction slots generalizing reach with
  | nil => rfl
  | cons slot rest ih =>
    obtain ⟨lies, later⟩ := chained
    rw [tailOf_cons, slotParts, List.map_append, List.map_cons]
    exact .append ⟨rfl, low, lies.adjoining⟩ (ih lies.stops later)

/-- The stretches of a literal whose slots lie in order leave no hole. -/
theorem Layout.Lined.adjoining {layout : Layout} (lined : layout.Lined) :
    Adjoining layout.span.stop layout.span.start (layout.parts.map Prod.snd) := by
  obtain ⟨opens, starts, chained, _, closes⟩ := lined
  have inner : Adjoining layout.closeStart layout.openEnd (layout.inner.map Prod.snd) := by
    unfold Layout.inner
    cases slots : layout.slots with
    | nil =>
      rw [slots] at starts
      exact ⟨rfl, starts, rfl⟩
    | cons slot rest =>
      rw [slots] at starts chained
      have reach := Chained.tail_le chained (Nat.le_refl _)
      rw [tailOf_cons] at reach
      obtain ⟨lies, later⟩ := chained
      simp only [List.map_append, List.map_cons, List.map_nil]
      exact .append (.append ⟨rfl, starts, lies.adjoining⟩ (slotParts_adjoining lies.stops later)) ⟨rfl, reach, rfl⟩
  rw [parts, List.map_append, List.map_cons]
  exact .append ⟨rfl, opens, inner⟩ ⟨rfl, closes, rfl⟩

/-- The gaps are what the printer keeps between two entries. -/
theorem slotParts_gaps (text : List Char) (layout : Layout) {done rest : List Slot} {slot : Slot}
    (split : layout.slots = done ++ slot :: rest) :
    (((slotParts slot.tailEnd rest).filter fun part => part.1 = .gap).map fun part => slice text part.2.start part.2.stop) =
      (List.range' (done.length + 1) rest.length).map (layout.gapBefore text) := by
  induction rest generalizing done slot with
  | nil => rfl
  | cons next rest ih =>
    have split' : layout.slots = (done ++ [slot]) ++ next :: rest := by rw [split]; simp
    have here : layout.gapBefore text (done.length + 1) = slice text slot.tailEnd next.begins := Document.gapBefore_eq split
    have later := ih split'
    rw [List.length_append, List.length_singleton] at later
    rw [List.length_cons, List.range'_succ, List.map_cons, here, ← later]
    rfl

/-! ## Tails that end in line comments -/

/-- Whether an item is shared out: a comma or a comment. -/
def Item.counts (item : Item) : Bool := item.isComma || item.isComment

/-- Only commas and comments matter to what is shared out. -/
theorem closeGap_counts (text : List Char) (entry : Span) (next : Option Nat) (passed : Bool) (closing : Closing)
    (items : List Item) :
    closeGap text entry next passed closing items = closeGap text entry next passed closing (items.filter Item.counts) := by
  induction items generalizing passed closing with
  | nil => rfl
  | cons item rest ih =>
    have commas : (rest.filter Item.counts).any Item.isComma = rest.any Item.isComma := by
      rw [List.any_filter]
      exact congrArg rest.any (funext fun i => by simp only [Item.counts]; cases i.isComma <;> simp)
    by_cases counts : item.counts = true
    · rw [List.filter_cons_of_pos counts]
      simp only [closeGap, commas, ← ih]
    · have plain : item.isComma = false ∧ item.isComment = false := by simpa [Item.counts] using counts
      rw [List.filter_cons_of_neg counts, closeGap_skips (by simp [plain.1]) (by simp [plain.2]), ih]

/-- What goes with an entry ends in a line comment exactly if one of the comments behind the entry is one and ends there. -/
theorem gapClosing_line {text : List Char} {entry : Span} {next : Option Nat} {gap : List Item} {stop : Nat}
    (ordered : Ordered entry.stop stop (gap.map Item.span)) (wide : ∀ i ∈ gap, i.counts = true → i.span.start < i.span.stop) :
    (gapClosing text entry next gap).lineComment = true ↔
      ∃ i ∈ gap, i.span.stop = (gapClosing text entry next gap).tailEnd ∧
        Outline.isLineComment text i.kind i.span = true := by
  have sorted : Ordered entry.stop stop ((gap.filter Item.counts).map Item.span) :=
    ordered.sublist (List.filter_sublist.map _)
  have told := @closeGap_told text entry next false ⟨none, entry.stop, false, none⟩ _ stop _ _ sorted
    (List.Subset.refl _) (Nat.le_refl _) (.inl ⟨rfl, rfl⟩)
  rw [← closeGap_counts] at told
  rw [gapClosing]
  generalize closeGap text entry next false ⟨none, entry.stop, false, none⟩ gap = closing at told ⊢
  constructor
  · intro line
    obtain ⟨impossible, _⟩ | ⟨i, member, stops, is⟩ := told
    · rw [line] at impossible
      cases impossible
    · exact ⟨i, List.mem_of_mem_filter member, stops, is.trans line⟩
  · rintro ⟨i, member, stops, line⟩
    have far := lineComment_wide line
    obtain ⟨_, here⟩ | ⟨j, member', stops', is⟩ := told
    · have low := (ordered.mem (List.mem_map_of_mem member)).1
      omega
    · obtain ⟨among, counts⟩ := List.mem_filter.mp member'
      have far' := wide j among counts
      rcases ordered_apart ordered member among with rfl | apart | apart
      · exact is.symm.trans line
      · omega
      · omega

/-- Every slot is that of an entry with its share of the gap behind it. -/
theorem mem_slotsOf {text : List Char} {slot : Slot} {lead : Option Nat} {groups : List (Item × List Item)}
    (member : slot ∈ slotsOf text lead groups) :
    ∃ before entry gap rest, groups = before ++ (entry, gap) :: rest ∧
      slot.Holds text entry (rest.head?.map fun group => group.1.span.start) gap ∧
      slot.lineComment = (gapClosing text entry.span (rest.head?.map fun group => group.1.span.start) gap).lineComment := by
  induction groups generalizing lead with
  | nil => cases member
  | cons group rest ih =>
    obtain ⟨entry, gap⟩ := group
    rcases List.mem_cons.mp member with rfl | later
    · exact ⟨[], entry, gap, rest, rfl, ⟨rfl, rfl, rfl, rfl⟩, rfl⟩
    · obtain ⟨before, entry', gap', rest', rfl, holds, line⟩ := ih later
      exact ⟨(entry, gap) :: before, entry', gap', rest', rfl, holds, line⟩

/-! ## Partitions -/

/-- A stretch of a text lies in a part of a literal, and apart from all other parts. -/
def Layout.Places (layout : Layout) (share : Share) (stretch : Span) : Prop :=
  ∃ before part behind, layout.parts = before ++ (share, part) :: behind ∧
    part.start ≤ stretch.start ∧ stretch.stop ≤ part.stop ∧
    ∀ other ∈ before ++ behind, other.2.stop ≤ stretch.start ∨ stretch.stop ≤ other.2.start

/-- A layout parts the text of a literal with some items between its braces. -/
structure Layout.Partitions (text : List Char) (items : List Item) (layout : Layout) : Prop where
  opening : slice text layout.span.start layout.openEnd = ['\x7b']
  closing : slice text layout.closeStart layout.span.stop = ['\x7d']
  entries : layout.slots.map (fun slot => (slot.id, slot.span)) =
    (items.filter Item.isEntry).map fun item => (item.id, item.span)
  starts : ∀ slot ∈ layout.slots.head?, slot.lead = none ∧ layout.openEnd ≤ slot.span.start
  each : ∀ slot ∈ layout.slots, slot.span.start ≤ slot.span.stop ∧ slot.span.stop ≤ slot.tailEnd ∧
    ∀ comma ∈ slot.comma, slot.span.stop ≤ comma.start ∧ comma.start < comma.stop ∧ comma.stop ≤ slot.tailEnd
  follows : layout.slots.IsChain fun slot next => slot.tailEnd ≤ next.begins ∧ next.begins ≤ next.span.start
  ends : ∀ slot ∈ layout.slots.getLast?, slot.tailEnd ≤ layout.closeStart
  /-- Put together, the parts are the text of the literal. -/
  whole : (layout.parts.flatMap fun part => slice text part.2.start part.2.stop) =
    slice text layout.span.start layout.span.stop
  before : ∀ part, (Share.before, part) ∈ layout.parts → slice text part.start part.stop = layout.before text
  after : ∀ part, (Share.after, part) ∈ layout.parts → slice text part.start part.stop = layout.after text
  gaps : ((layout.parts.filter fun part => part.1 = .gap).map fun part => slice text part.2.start part.2.stop) =
    (List.range' 1 (layout.slots.length - 1)).map (layout.gapBefore text)
  comments : ∀ comment ∈ items, comment.isComment = true → comment.span.start < comment.span.stop ∧
    ∃ share, share.holdsComments = true ∧ layout.Places share comment.span
  lines : ∀ slot ∈ layout.slots, slot.lineComment = true ↔ ∃ comment ∈ items,
    Outline.isLineComment text comment.kind comment.span = true ∧ slot.span.stop ≤ comment.span.start ∧
      comment.span.stop = slot.tailEnd

theorem slotParts_shares {reach : Nat} {slots : List Slot} {part : Share × Span} (member : part ∈ slotParts reach slots) :
    part.1 = .gap ∨ ∃ slot ∈ slots, part ∈ slot.parts := by
  induction slots generalizing reach with
  | nil => cases member
  | cons slot rest ih =>
    rcases List.mem_append.mp member with here | later
    · rcases List.mem_cons.mp here with rfl | own
      · exact .inl rfl
      · exact .inr ⟨slot, List.mem_cons_self, own⟩
    · exact (ih later).imp_right fun ⟨slot, listed, own⟩ => ⟨slot, List.mem_cons_of_mem _ listed, own⟩

theorem mem_slotParts {reach : Nat} {slots : List Slot} {slot : Slot} (listed : slot ∈ slots) {part : Share × Span}
    (own : part ∈ slot.parts) : part ∈ slotParts reach slots := by
  induction slots generalizing reach with
  | nil => cases listed
  | cons first rest ih =>
    rcases List.mem_cons.mp listed with rfl | later
    · exact List.mem_append_left _ (List.mem_cons_of_mem _ own)
    · exact List.mem_append_right _ (ih later)

/-- Entries with their leads and tails are no stretches above the first entry or below the last one. -/
theorem Slot.parts_shares {slot : Slot} {part : Share × Span} (own : part ∈ slot.parts) :
    part.1 = .lead ∨ part.1 = .entry ∨ part.1 = .tail := by
  simp only [Slot.parts, List.mem_cons, List.not_mem_nil, or_false] at own
  rcases own with rfl | rfl | rfl <;> simp

namespace Layout
variable {layout : Layout} {text : List Char}

theorem mem_parts {slot : Slot} (listed : slot ∈ layout.slots) {part : Share × Span} (own : part ∈ slot.parts) :
    part ∈ layout.parts := by
  refine List.mem_append_left _ (List.mem_cons_of_mem _ ?_)
  unfold inner
  cases slots : layout.slots with
  | nil =>
    rw [slots] at listed
    cases listed
  | cons first rest =>
    rw [slots] at listed
    refine List.mem_append_left _ (List.mem_cons_of_mem _ ?_)
    rcases List.mem_cons.mp listed with rfl | later
    · exact List.mem_append_left _ own
    · exact List.mem_append_right _ (mem_slotParts later own)

theorem mem_parts_before : (Share.before, Span.mk layout.openEnd (beginsAt layout.closeStart layout.slots)) ∈ layout.parts := by
  refine List.mem_append_left _ (List.mem_cons_of_mem _ ?_)
  unfold inner
  cases layout.slots <;> exact List.mem_cons_self

theorem mem_parts_after (some : layout.slots ≠ []) :
    (Share.after, Span.mk (tailOf layout.openEnd layout.slots) layout.closeStart) ∈ layout.parts := by
  refine List.mem_append_left _ (List.mem_cons_of_mem _ ?_)
  unfold inner
  cases slots : layout.slots with
  | nil => exact absurd slots some
  | cons first rest =>
    rw [tailOf_cons]
    exact List.mem_append_right _ List.mem_cons_self

/-- What stands above the first entry and below the last one is one stretch each. -/
theorem parts_ends {share : Share} {part : Span} (member : (share, part) ∈ layout.parts) :
    (share = .before → part = ⟨layout.openEnd, beginsAt layout.closeStart layout.slots⟩) ∧
      (share = .after → part = ⟨tailOf layout.openEnd layout.slots, layout.closeStart⟩) := by
  unfold parts inner at member
  cases slots : layout.slots with
  | nil =>
    rw [slots] at member
    simp only [List.mem_append, List.mem_cons, List.not_mem_nil, or_false, Prod.mk.injEq] at member
    rcases member with (⟨rfl, rfl⟩ | ⟨rfl, rfl⟩) | ⟨rfl, rfl⟩ <;> simp [beginsAt]
  | cons first rest =>
    rw [slots] at member
    have within : (share, part) ∈ first.parts ∨ (share, part) ∈ slotParts first.tailEnd rest →
        share ≠ .before ∧ share ≠ .after := fun inside => by
      have known : share = .gap ∨ share = .lead ∨ share = .entry ∨ share = .tail := by
        rcases inside with own | later
        · exact .inr (Slot.parts_shares own)
        · obtain between | ⟨_, _, own⟩ := slotParts_shares later
          · exact .inl between
          · exact .inr (Slot.parts_shares own)
      rcases known with rfl | rfl | rfl | rfl <;> decide
    rw [tailOf_cons]
    simp only [List.cons_append, List.mem_append, List.mem_cons, List.not_mem_nil, or_false, Prod.mk.injEq] at member
    grind [beginsAt]

theorem gaps_eq : ((layout.parts.filter fun part => part.1 = .gap).map fun part => slice text part.2.start part.2.stop) =
    (List.range' 1 (layout.slots.length - 1)).map (layout.gapBefore text) := by
  unfold parts inner
  cases slots : layout.slots with
  | nil => rfl
  | cons first rest =>
    have gaps := slotParts_gaps text layout (List.nil_append _ ▸ slots : layout.slots = [] ++ first :: rest)
    simpa [Slot.parts] using gaps

variable (lined : layout.Lined)
include lined

/-- What lies in a part of a literal lies apart from the others. -/
theorem Lined.places {share : Share} {part stretch : Span} (member : (share, part) ∈ layout.parts)
    (low : part.start ≤ stretch.start) (high : stretch.stop ≤ part.stop) : layout.Places share stretch := by
  obtain ⟨before, behind, split⟩ := List.append_of_mem member
  have ordered := lined.adjoining.ordered
  rw [split, List.map_append, List.map_cons] at ordered
  refine ⟨before, part, behind, split, low, high, fun other among => ?_⟩
  refine ordered_alone ordered low high other.2 ?_
  rw [← List.map_append]
  exact List.mem_map_of_mem among

theorem Lined.begins {slot : Slot} (first : slot ∈ layout.slots.head?) : slot.begins = slot.span.start := by
  rw [Slot.begins, lined.bare slot first]
  rfl

theorem Lined.before_text : slice text layout.openEnd (beginsAt layout.closeStart layout.slots) = layout.before text := by
  rw [Layout.before, beginsAt]
  cases slots : layout.slots with
  | nil => rfl
  | cons slot rest =>
    have begins : slot.begins = slot.span.start := lined.begins (by simp [slots])
    simp only [List.head?_cons, Option.map_some, Option.getD_some, begins]

theorem Lined.follows : layout.slots.IsChain fun slot next => slot.tailEnd ≤ next.begins ∧ next.begins ≤ next.span.start := by
  have chained := lined.chained
  generalize layout.slots = slots at chained
  induction slots with
  | nil => exact .nil
  | cons slot rest ih =>
    obtain ⟨lies, later⟩ := chained
    cases rest with
    | nil => exact .singleton _
    | cons next rest => exact .cons_cons ⟨lies.stops, later.1.begins⟩ (ih later)

end Layout

namespace Layout.Shares
variable {text : List Char} {layout : Layout} {items : List Item} (shares : layout.Shares text items)
include shares

/-- Every slot is that of an entry with its share of the gap behind it. -/
theorem slot_gap {slot : Slot} (listed : slot ∈ layout.slots) : ∃ front entry gap rest,
    Gap items front entry gap rest ∧ slot.Holds text entry (nextStart rest) gap ∧
      slot.lineComment = (gapClosing text entry.span (nextStart rest) gap).lineComment := by
  rw [shares.slots] at listed
  obtain ⟨before, entry, gap, rest, split, holds, line⟩ := mem_slotsOf listed
  have is := Gap.of_group split
  have starts : (rest.head?.map fun group => group.1.span.start) = nextStart (flatten rest) := by cases rest <;> rfl
  rw [starts] at holds line
  exact ⟨_, entry, gap, _, is, holds, line⟩

/-- A comment that goes with an entry lies in its lead or in its tail. -/
theorem has_places {slot : Slot} (listed : slot ∈ layout.slots) {comment : Item} (member : comment ∈ items)
    (isComment : comment.isComment = true) (has : slot.Has comment.span) :
    ∃ share, share.holdsComments = true ∧ layout.Places share comment.span := by
  obtain ⟨front, entry, gap, rest, is, holds, _⟩ := shares.slot_gap listed
  have among : entry ∈ items := by rw [is.split]; simp
  have other : comment ≠ entry := by
    rintro rfl
    have isEntry := is.isEntry
    rw [Item.comment_not_entry isComment] at isEntry
    cases isEntry
  rcases (ordered_apart shares.inside member among).resolve_left other with before | behind
  · have own : (Share.lead, Span.mk slot.begins slot.span.start) ∈ slot.parts := List.mem_cons_self
    exact ⟨.lead, rfl, shares.lined.places (mem_parts listed own) has.low (holds.span ▸ before)⟩
  · have own : (Share.tail, Span.mk slot.span.stop slot.tailEnd) ∈ slot.parts := by simp [Slot.parts]
    exact ⟨.tail, rfl, shares.lined.places (mem_parts listed own) (holds.span ▸ behind) has.high⟩

/-- Every comment lies in a lead, in a tail, above the first entry or below the last one. -/
theorem comment_places {comment : Item} (member : comment ∈ items) (isComment : comment.isComment = true) :
    ∃ share, share.holdsComments = true ∧ layout.Places share comment.span := by
  obtain ⟨owner, owns⟩ := Owns.total text member isComment
  cases owner with
  | some entry =>
    obtain ⟨done, slot, later, split, _, has⟩ := shares.owned_has owns
    exact shares.has_places (by rw [split]; simp) member isComment has
  | none =>
    have low := (shares.inside.mem (List.mem_map_of_mem member)).1
    rcases shares.free_apart owns with above | ⟨below, inside⟩
    · exact ⟨.before, rfl, shares.lined.places mem_parts_before low above⟩
    · by_cases none : layout.slots = []
      · -- Without entries everything stands above the first one.
        have all : (Share.before, Span.mk layout.openEnd (beginsAt layout.closeStart layout.slots)) ∈ layout.parts :=
          mem_parts_before
        rw [none] at all
        exact ⟨.before, rfl, shares.lined.places all low inside⟩
      · exact ⟨.after, rfl, shares.lined.places (mem_parts_after none) below inside⟩

/-- What goes with an entry ends in a line comment exactly if a line comment of the literal behind the entry ends there. -/
theorem line_iff (wide : ∀ item ∈ items, item.counts = true → item.span.start < item.span.stop) {slot : Slot}
    (listed : slot ∈ layout.slots) : slot.lineComment = true ↔ ∃ comment ∈ items,
      Outline.isLineComment text comment.kind comment.span = true ∧ slot.span.stop ≤ comment.span.start ∧
        comment.span.stop = slot.tailEnd := by
  obtain ⟨front, entry, gap, rest, is, holds, line⟩ := shares.slot_gap listed
  have ordered := shares.gap_inside is
  have split : items = front ++ entry :: (gap ++ rest) := is.split
  have within : ∀ i ∈ gap, i ∈ items := fun i member => by rw [split]; simp [member]
  rw [line, gapClosing_line ordered fun i member => wide i (within i member), ← holds.tailEnd, holds.span]
  constructor
  · rintro ⟨i, member, stops, isLine⟩
    exact ⟨i, within i member, isLine, (ordered.mem (List.mem_map_of_mem member)).1, stops⟩
  · rintro ⟨comment, member, isLine, starts, stops⟩
    have far := lineComment_wide isLine
    have inside := shares.inside
    rw [split, List.map_append, List.map_cons, List.map_append] at inside
    rw [split, List.mem_append, List.mem_cons, List.mem_append] at member
    obtain ⟨early, _, wideEntry, later⟩ := inside.split
    rcases member with first | rfl | here | last
    · have high : comment.span.stop ≤ entry.span.start := (early.mem (List.mem_map_of_mem first)).2.2
      omega
    · omega
    · exact ⟨comment, here, stops, isLine⟩
    · -- What goes with the entry ends before the next one starts.
      have placed : (gapClosing text entry.span (nextStart rest) gap).Placed entry.span (startOf layout.closeStart rest) :=
        closeGap_placed ordered (Nat.le_refl _) (Closing.Placed.none (startOf_le ordered).1) fun led => by cases led
      have reach := Nat.le_trans placed.lead placed.stops
      rw [← holds.tailEnd] at reach
      have behind := startOf_mem later.split.2 last
      omega

/-- Where commas and comments take up some place, the layout of a literal between two braces parts its text. -/
theorem partitions (wide : ∀ item ∈ items, item.counts = true → item.span.start < item.span.stop)
    (opens : slice text layout.span.start layout.openEnd = ['\x7b'])
    (closes : slice text layout.closeStart layout.span.stop = ['\x7d']) : layout.Partitions text items := by
  have lined := shares.lined
  refine ⟨opens, closes, ?entries, ?starts, ?each, lined.follows, ?ends, ?whole, ?before, ?after, gaps_eq, ?comments,
    fun _ => shares.line_iff wide⟩
  case entries =>
    rw [shares.slots, slotsOf_entries, filter_isEntry, List.map_map]
    rfl
  case starts =>
    intro slot first
    have starts := lined.starts
    rw [beginsAt, Option.mem_def.mp first, Option.map_some, Option.getD_some, lined.begins first] at starts
    exact ⟨lined.bare slot first, starts⟩
  case each =>
    intro slot listed
    obtain ⟨done, later, split⟩ := List.append_of_mem listed
    have lies := (split ▸ lined.chained).of_split.1
    refine ⟨lies.inside, lies.tail, fun comma took => ?_⟩
    obtain ⟨low, _, high⟩ := lies.comma comma took
    obtain ⟨front, entry, gap, rest, is, holds, _⟩ := shares.slot_gap listed
    rw [holds.comma] at took
    -- The comma of a slot is an item of the gap behind it.
    cases any : gap.any Item.isComma with
    | false =>
      have none : (gapClosing text entry.span (nextStart rest) gap).comma = none := closeGap_no_comma any
      rw [none] at took
      cases took
    | true =>
      obtain ⟨before, item, behind, rfl, none, isComma⟩ := split_comma any
      have found : (gapClosing text entry.span (nextStart rest) (before ++ item :: behind)).comma = some item.span :=
        closeGap_first_comma none isComma
      rw [found] at took
      cases took
      exact ⟨low, wide item (by rw [is.split]; simp) (by simp [Item.counts, isComma]), high⟩
  case ends =>
    intro slot last
    have high := Chained.tail_le lined.chained lined.starts
    rw [tailOf, Option.mem_def.mp last] at high
    exact high
  case whole => simpa [List.flatMap_map] using lined.adjoining.texts text
  case before =>
    intro part member
    rw [(parts_ends member).1 rfl]
    exact lined.before_text
  case after =>
    intro part member
    rw [(parts_ends member).2 rfl]
    rfl
  case comments =>
    intro comment member isComment
    exact ⟨wide comment member (by simp [Item.counts, isComment]), shares.comment_places member isComment⟩

end Layout.Shares

/-- A brace is neither an entry nor a comment. -/
theorem Item.brace_plain {item : Item} (brace : item.kind = "\x7b" ∨ item.kind = "\x7d") :
    item.isEntry = false ∧ item.isComment = false := by
  rcases brace with kind | kind <;> exact ⟨by rw [Item.isEntry, kind]; rfl, by rw [Item.isComment, kind]; rfl⟩

/-- The braces of a literal are not among the items that are shared out. -/
theorem Layout.Partitions.around {text : List Char} {layout : Layout} {opening closing : Item} {inner : List Item}
    (partitions : layout.Partitions text inner) (opens : opening.kind = "\x7b") (closes : closing.kind = "\x7d") :
    layout.Partitions text (opening :: (inner ++ [closing])) := by
  obtain ⟨first, first'⟩ := Item.brace_plain (.inl opens)
  obtain ⟨last, last'⟩ := Item.brace_plain (.inr closes)
  have within : ∀ item ∈ opening :: (inner ++ [closing]), item.isComment = true → item ∈ inner := by
    intro item member isComment
    rcases List.mem_cons.mp member with rfl | later
    · rw [first'] at isComment
      cases isComment
    · refine (List.mem_append.mp later).resolve_right fun final => ?_
      rw [List.mem_singleton.mp final, last'] at isComment
      cases isComment
  refine { partitions with entries := ?_, comments := ?_, lines := ?_ }
  · rw [partitions.entries, List.filter_cons_of_neg (by simp [first]), List.filter_append,
      List.filter_cons_of_neg (by simp [last]), List.filter_nil, List.append_nil]
  · exact fun item member isComment => partitions.comments item (within item member isComment) isComment
  · intro slot listed
    rw [partitions.lines slot listed]
    constructor
    · rintro ⟨comment, member, rest⟩
      exact ⟨comment, by simp [member], rest⟩
    · rintro ⟨comment, member, isLine, rest⟩
      exact ⟨comment, within comment member (Bool.and_eq_true_iff.mp isLine).1, isLine, rest⟩

/-! ## Documents -/

/-- Whether children are written as they are, and those of an object literal reach from its opening brace to its closing
    one. -/
def Syntax.Outline.Exact (text : List Char) (kind : String) (span : Span) (outline : Outline) : Prop :=
  outline.Spelled text kind span ∧ (Role.ofKind kind = .object →
    (∀ part ∈ outline.head?, part.2.start = span.start ∧ slice text part.2.start part.2.stop = ['\x7b']) ∧
      ∀ part ∈ outline.getLast?, part.2.stop = span.stop ∧ slice text part.2.start part.2.stop = ['\x7d'])

instance (text : List Char) (kind : String) (span : Span) (outline : Outline) :
    Decidable (Outline.Exact text kind span outline) :=
  inferInstanceAs (Decidable (_ ∧ (_ → (∀ part ∈ outline.head?, _ ∧ _) ∧ ∀ part ∈ outline.getLast?, _ ∧ _)))

namespace Document
variable {doc first : Document} {dialect : Dialect} {source : List Char} {p : NodeId} {buffer : BufferId} {span : Span}

/-- A comma or a comment that is written as it is has some text. -/
theorem wide_of_spelled {text : List Char} {kind : String} {items : List Item} {item : Item}
    (spelled : Outline.Spelled text kind span (items.map Item.part)) (member : item ∈ items) (counts : item.counts = true) :
    item.span.start < item.span.stop := by
  obtain ⟨_, _, written⟩ := spelled
  obtain ⟨comma, comment⟩ := written item.part (List.mem_map_of_mem member)
  by_contra narrow
  have empty : slice text item.part.2.start item.part.2.stop = [] := Text.slice_empty _ (Nat.le_of_not_lt narrow)
  rw [empty] at comma comment
  rcases Bool.or_eq_true_iff.mp counts with isComma | isComment
  · cases comma (beq_iff_eq.mp isComma)
  · cases comment (beq_iff_eq.mp isComment)

/-- The layout of a literal that was read from a text parts its text. -/
theorem Laid.partitions (laid : doc.Laid Outline.Exact) (parsed : (doc.node p).origin = .parsed buffer span)
    (object : doc.role p = .object) (some : (doc.node p).firstChildren ≠ []) :
    (doc.parsedItems p).map Item.id = (doc.node p).firstChildren ∧
      (∀ item ∈ doc.parsedItems p, doc.IsAt buffer item.id item.part) ∧
      (doc.layout p (doc.buffer buffer) span).Partitions (doc.buffer buffer) (doc.parsedItems p) := by
  obtain ⟨outline, places, spelled, ends⟩ := laid p buffer span parsed
  obtain ⟨opening, inner, closing, framed, opens, closes⟩ :=
    framed_of_places places spelled.1 (braced_of_places places some (spelled.2.1 object))
  obtain ⟨rfl, ids, each⟩ := parsedItems_of_places places
  obtain ⟨start, stop⟩ := ends object
  rw [framed.split] at start stop
  obtain ⟨starts, opened⟩ := start opening.part rfl
  obtain ⟨stops, closed⟩ := stop closing.part (by
    rw [← List.cons_append, List.map_append, List.getLast?_append]
    rfl)
  have wide : ∀ item ∈ inner, item.counts = true → item.span.start < item.span.stop := fun item member =>
    wide_of_spelled spelled (by simp [framed.split, member])
  have parted := framed.shares.partitions wide (by rw [framed.layout]; exact starts ▸ opened)
    (by rw [framed.layout]; exact stops ▸ closed)
  refine ⟨ids, each, ?_⟩
  rw [framed.split, layout]
  refine parted.around ?_ ?_
  · exact beq_iff_eq.mp (Bool.and_eq_true_iff.mp opens).1
  · exact beq_iff_eq.mp (Bool.and_eq_true_iff.mp closes).1

/-- In every document that edits lead to, the layout of an object literal that was read from a text, be it that of the file
    or one that was brought in by an edit, parts the text of the literal: its offsets lie in order, its parts put together
    are its text, and every comment among its children lies in just one part, which is no gap. A literal was read with its
    braces; the keyword of its kind was read without children. -/
theorem layout_partitions [Reader] (reached : Reached first doc) (file : Document.parse dialect source = .ok first)
    (meets : ∀ text ∈ doc.buffers, Reader.Meets Outline.Exact doc.dialect text)
    (parsed : (doc.node p).origin = .parsed buffer span) (object : doc.role p = .object)
    (literal : (doc.node p).firstChildren ≠ []) :
    (doc.parsedItems p).map Item.id = (doc.node p).firstChildren ∧
      (∀ item ∈ doc.parsedItems p, doc.IsAt buffer item.id item.part) ∧
      (doc.layout p (doc.buffer buffer) span).Partitions (doc.buffer buffer) (doc.parsedItems p) :=
  (reached.laid file meets).partitions parsed object literal

/-- The container of the file with a comment in a tail and one in a lead. -/
theorem layout_partitions_separator :
    (separatorFile.layout 18 Syntax.separatorText ⟨26, 44⟩).slots.map (fun slot => (slot.lead, slot.tailEnd, slot.lineComment)) =
        [(none, 34, true), (some 35, 43, false)] ∧
      (separatorFile.layout 18 Syntax.separatorText ⟨26, 44⟩).Partitions Syntax.separatorText (separatorFile.parsedItems 18) := by
  have file : @Document.parse Syntax.separatorReader .markup Syntax.separatorText = .ok separatorFile := rfl
  obtain ⟨texts, _⟩ := @parse_buffers _ _ _ Syntax.separatorReader file
  have meets : ∀ text ∈ separatorFile.buffers, @Reader.Meets Syntax.separatorReader Outline.Exact separatorFile.dialect text :=
    fun text _ => Syntax.meets_of_lookup (by decide +kernel) _ text
  have origin : (separatorFile.node 18).origin = .parsed 0 ⟨26, 44⟩ := by decide +kernel
  have object : separatorFile.role 18 = .object := by decide +kernel
  have literal : (separatorFile.node 18).firstChildren ≠ [] := by decide +kernel
  have text : separatorFile.buffer 0 = Syntax.separatorText := by rw [buffer, texts]; rfl
  rw [← text]
  obtain ⟨_, _, partitions⟩ := @layout_partitions _ _ _ _ _ _ _ Syntax.separatorReader
    (@Reached.refl Syntax.separatorReader _) file meets origin object literal
  exact ⟨by decide +kernel, partitions⟩

end Document

end StoreModels
