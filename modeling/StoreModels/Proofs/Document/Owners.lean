import StoreModels.Proofs.Document.Slots

/-!
Whose the comments of a parsed object literal are. A comment behind an entry is the entry's own as long as it and all
comments before it stand on the entry's side of the gap: before the entry's comma, or on the line where the entry ends,
with a line break before the next entry. The comments behind that are those of the next entry, or of the literal where no
entry follows, and so are the comments above the first entry. The slots of a literal share its comments out in this way.
-/
namespace StoreModels
open Syntax (Span Role)
open Text (slice Ordered)

/-! ## Ownership -/

/-- A stretch of the items of a literal: an entry and the items behind it, up to the next entry if there is one. -/
structure Gap (items front : List Item) (entry : Item) (gap rest : List Item) : Prop where
  split : items = front ++ entry :: (gap ++ rest)
  isEntry : entry.isEntry = true
  others : ∀ item ∈ gap, item.isEntry = false
  stops : ∀ next ∈ rest.head?, next.isEntry = true

/-- Where the next entry starts, if one follows. -/
def nextStart (rest : List Item) : Option Nat := rest.head?.map (·.span.start)

/-- Whether a comment stands on the side of the entry before it: before the entry's comma, or on the line where the entry
    ends with a line break before the next entry, if there is one. -/
def Item.Beside (text : List Char) (entry : Span) (next : Option Nat) (before : List Item) (comment : Item)
    (behind : List Item) : Prop :=
  before.any Item.isComma = false ∧ behind.any Item.isComma = true ∨
    '\n' ∉ slice text entry.stop comment.span.start ∧ ∀ start ∈ next, '\n' ∈ slice text comment.span.stop start

/-- Whether all comments among the first items behind an entry stand on its side. -/
def AllBeside (text : List Char) (entry : Span) (next : Option Nat) (first behind : List Item) : Prop :=
  ∀ before comment between, first = before ++ comment :: between → comment.isComment = true →
    comment.Beside text entry next before (between ++ behind)

/-- Whose a comment of a literal is: an entry's, or that of the literal itself. -/
inductive Owns (text : List Char) (items : List Item) : Option Item → Item → Prop
  | above {before behind : List Item} {comment : Item} (split : items = before ++ comment :: behind)
    (first : ∀ item ∈ before, item.isEntry = false) (isComment : comment.isComment = true) :
    Owns text items none comment
  | own {front before behind rest : List Item} {entry comment : Item}
    (gap : Gap items front entry (before ++ comment :: behind) rest) (isComment : comment.isComment = true)
    (beside : AllBeside text entry.span (nextStart rest) (before ++ [comment]) behind) :
    Owns text items (some entry) comment
  | next {front before behind rest : List Item} {entry comment : Item}
    (gap : Gap items front entry (before ++ comment :: behind) rest) (isComment : comment.isComment = true)
    (apart : ¬ AllBeside text entry.span (nextStart rest) (before ++ [comment]) behind) :
    Owns text items rest.head? comment

/-! ## Stretches of items -/

/-- Items up to the first entry, if there is one. -/
theorem split_first (items : List Item) : ∃ gap rest, items = gap ++ rest ∧ (∀ item ∈ gap, item.isEntry = false) ∧
    ∀ next ∈ rest.head?, next.isEntry = true := by
  induction items with
  | nil => exact ⟨[], [], rfl, by simp, by simp⟩
  | cons item items ih =>
    obtain ⟨gap, rest, rfl, others, stops⟩ := ih
    cases entered : item.isEntry with
    | true => exact ⟨[], item :: (gap ++ rest), rfl, by simp, by simpa using entered⟩
    | false => exact ⟨item :: gap, rest, rfl, by simpa [entered] using others, stops⟩

/-- Items from the last entry on. -/
theorem split_last {items : List Item} (any : ∃ item ∈ items, item.isEntry = true) :
    ∃ front entry gap, items = front ++ entry :: gap ∧ entry.isEntry = true ∧ ∀ item ∈ gap, item.isEntry = false := by
  induction items with
  | nil => simp at any
  | cons item items ih =>
    by_cases later : ∃ item ∈ items, item.isEntry = true
    · obtain ⟨front, entry, gap, rfl, isEntry, others⟩ := ih later
      exact ⟨item :: front, entry, gap, rfl, isEntry, others⟩
    · have isEntry : item.isEntry = true := by simpa [later] using any
      exact ⟨[], item, items, rfl, isEntry, by simpa using later⟩

/-- The first comma among items. -/
theorem split_comma {items : List Item} (any : items.any Item.isComma = true) :
    ∃ before comma behind, items = before ++ comma :: behind ∧ before.any Item.isComma = false ∧ comma.isComma = true := by
  induction items with
  | nil => cases any
  | cons item items ih =>
    cases isComma : item.isComma with
    | true => exact ⟨[], item, items, rfl, rfl, isComma⟩
    | false =>
      obtain ⟨before, comma, behind, rfl, none, found⟩ := ih (by simpa [isComma] using any)
      exact ⟨item :: before, comma, behind, rfl, by simpa [isComma] using none, found⟩

/-- Behind every entry there is a gap. -/
theorem Gap.of_entry {items front behind : List Item} {entry : Item} (split : items = front ++ entry :: behind)
    (isEntry : entry.isEntry = true) : ∃ gap rest, behind = gap ++ rest ∧ Gap items front entry gap rest := by
  obtain ⟨gap, rest, rfl, others, stops⟩ := split_first behind
  exact ⟨gap, rest, rfl, split, isEntry, others, stops⟩

/-- An item with no entry between it and the one before it stands in the gap behind that one. -/
theorem Gap.around {items front before after : List Item} {entry item : Item}
    (split : items = front ++ entry :: (before ++ item :: after)) (isEntry : entry.isEntry = true)
    (others : ∀ item ∈ before, item.isEntry = false) (other : item.isEntry = false) :
    ∃ behind rest, after = behind ++ rest ∧ Gap items front entry (before ++ item :: behind) rest := by
  obtain ⟨behind, rest, rfl, others', stops⟩ := split_first after
  refine ⟨behind, rest, rfl, by simpa using split, isEntry, fun i member => ?_, stops⟩
  rcases List.mem_append.mp member with before | here
  · exact others i before
  · rcases List.mem_cons.mp here with rfl | behind
    · exact other
    · exact others' i behind

/-- There is one last gap. -/
theorem Gap.last_unique {items front front' gap gap' : List Item} {entry entry' : Item} (is : Gap items front entry gap [])
    (is' : Gap items front' entry' gap' []) : front = front' ∧ entry = entry' ∧ gap = gap' := by
  have same : front ++ entry :: gap = front' ++ entry' :: gap' := by simpa using is.split.symm.trans is'.split
  rcases List.append_eq_append_iff.mp same with ⟨more, rfl, tail⟩ | ⟨more, rfl, tail⟩
  · cases more with
    | nil =>
      cases tail
      exact ⟨by simp, rfl, rfl⟩
    | cons first more =>
      obtain ⟨rfl, rfl⟩ := List.cons_eq_cons.mp tail
      have isEntry := is'.isEntry
      rw [is.others entry' (by simp)] at isEntry
      cases isEntry
  · cases more with
    | nil =>
      cases tail
      exact ⟨by simp, rfl, rfl⟩
    | cons first more =>
      obtain ⟨rfl, rfl⟩ := List.cons_eq_cons.mp tail
      have isEntry := is.isEntry
      rw [is'.others entry (by simp)] at isEntry
      cases isEntry

theorem Item.comment_not_entry {item : Item} (comment : item.isComment = true) : item.isEntry = false := by
  have role : Role.ofKind item.kind = .comment := beq_iff_eq.mp comment
  rw [Item.isEntry, role]
  rfl

theorem Item.comma_not_entry {item : Item} (comma : item.isComma = true) : item.isEntry = false := by
  have kind : item.kind = "," := beq_iff_eq.mp comma
  rw [Item.isEntry, kind]
  rfl

theorem Item.comma_not_comment {item : Item} (comma : item.isComma = true) : item.isComment = false := by
  have kind : item.kind = "," := beq_iff_eq.mp comma
  rw [Item.isComment, kind]
  rfl

/-- Every comment is an entry's or that of the literal. -/
theorem Owns.total (text : List Char) {items : List Item} {comment : Item} (member : comment ∈ items)
    (isComment : comment.isComment = true) : ∃ owner, Owns text items owner comment := by
  obtain ⟨before, behind, split⟩ := List.append_of_mem member
  by_cases any : ∃ item ∈ before, item.isEntry = true
  · obtain ⟨front, entry, gap, rfl, isEntry, others⟩ := split_last any
    have split : items = front ++ entry :: (gap ++ comment :: behind) := by rw [split]; simp
    obtain ⟨behind, rest, rfl, is⟩ := Gap.around split isEntry others (Item.comment_not_entry isComment)
    by_cases beside : AllBeside text entry.span (nextStart rest) (gap ++ [comment]) behind
    · exact ⟨_, .own is isComment beside⟩
    · exact ⟨_, .next is isComment beside⟩
  · exact ⟨none, .above split (by simpa using any) isComment⟩

variable {text : List Char} {entry : Span} {next : Option Nat} {passed : Bool} {closing : Closing}
  {done items : List Item} {start stop : Nat}

theorem Owns.isComment {text : List Char} {items : List Item} {owner : Option Item} {comment : Item}
    (owns : Owns text items owner comment) : comment ∈ items ∧ comment.isComment = true := by
  cases owns with
  | above split _ isComment => exact ⟨by rw [split]; simp, isComment⟩
  | own is isComment _ => exact ⟨by rw [is.split]; simp, isComment⟩
  | next is isComment _ => exact ⟨by rw [is.split]; simp, isComment⟩

/-- Whether there is one comma between each two entries. -/
def SingleCommas (items : List Item) : Prop :=
  ∀ front entry gap rest, Gap items front entry gap rest → rest ≠ [] → gap.countP Item.isComma = 1

/-! ## Shares of a gap -/

theorem AllBeside.nil (behind : List Item) : AllBeside text entry next [] behind := by
  intro before comment between split
  simp at split

/-- One more item behind those that stand on the side of the entry. -/
theorem allBeside_snoc {item : Item} {behind : List Item} :
    AllBeside text entry next (done ++ [item]) behind ↔
      AllBeside text entry next done (item :: behind) ∧
        (item.isComment = true → item.Beside text entry next done behind) := by
  constructor
  · intro all
    refine ⟨fun before comment between split isComment => ?_, all done item [] rfl⟩
    have longer : done ++ [item] = before ++ comment :: (between ++ [item]) := by rw [split]; simp
    simpa using all before comment (between ++ [item]) longer isComment
  · rintro ⟨earlier, last⟩ before comment between split isComment
    rcases List.eq_nil_or_concat between with rfl | ⟨more, final, rfl⟩
    · obtain ⟨rfl, same⟩ := List.append_inj' split rfl
      cases same
      exact last isComment
    · rw [List.concat_eq_append, ← List.cons_append, ← List.append_assoc] at split
      obtain ⟨rfl, same⟩ := List.append_inj' split rfl
      cases same
      simpa using earlier before comment more rfl isComment

theorem closeGap_lead_stays {lead : Nat} (led : closing.lead = some lead) :
    (closeGap text entry next passed closing items).lead = some lead := by
  induction items generalizing passed closing with
  | nil => exact led
  | cons item rest ih =>
    by_cases comma : (item.isComma && !passed) = true
    · rw [closeGap_takes comma]
      exact ih led
    · by_cases comment : item.isComment = true
      · obtain ⟨joins, _, step⟩ := @closeGap_comment text entry next _ closing _ _ comma comment
        rw [step, if_pos (by simp [led])]
        exact ih led
      · rw [closeGap_skips comma comment]
        exact ih led

theorem closeGap_tail_grows (ordered : Ordered start stop (items.map Item.span)) (low : closing.tailEnd ≤ start) :
    closing.tailEnd ≤ (closeGap text entry next passed closing items).tailEnd := by
  induction items generalizing passed closing start with
  | nil => exact Nat.le_refl _
  | cons item rest ih =>
    obtain ⟨before, inside, behind⟩ := ordered
    have low' : closing.tailEnd ≤ item.span.stop := by omega
    have grows : ∀ {passed' : Bool} {closing' : Closing}, closing.tailEnd ≤ closing'.tailEnd →
        closing'.tailEnd ≤ item.span.stop →
        closing.tailEnd ≤ (closeGap text entry next passed' closing' rest).tailEnd := fun more within =>
      Nat.le_trans more (ih behind within)
    by_cases comma : (item.isComma && !passed) = true
    · rw [closeGap_takes comma]
      exact grows (Nat.le_max_left _ _) (Nat.max_le.mpr ⟨low', Nat.le_refl _⟩)
    · by_cases comment : item.isComment = true
      · obtain ⟨joins, _, step⟩ := @closeGap_comment text entry next _ closing _ _ comma comment
        rw [step]
        cases led : closing.lead.isSome with
        | true => exact grows (Nat.le_refl _) low'
        | false =>
          cases joins with
          | true => exact grows low' (Nat.le_refl _)
          | false => exact grows (Nat.le_refl _) low'
      · rw [closeGap_skips comma comment]
        exact grows (Nat.le_refl _) low'

/-- What has been shared out after some items of a gap: whether the comma was among them, and whether the comments above
    the next entry have begun. -/
structure Closing.After (text : List Char) (entry : Span) (next : Option Nat) (done behind : List Item) (passed : Bool)
    (start : Nat) (closing : Closing) : Prop where
  passed : passed = done.any Item.isComma
  lead : closing.lead = none ↔ AllBeside text entry next done behind
  tail : closing.tailEnd ≤ start
  early : ∀ lead ∈ closing.lead, lead ≤ start

/-- A comment goes to the entry before it, while none has gone to the next one, if it stands on the entry's side. -/
theorem closeGap_beside {item : Item} {rest : List Item} (told : passed = done.any Item.isComma)
    (other : ¬ (item.isComma && !passed) = true) (comment : item.isComment = true) :
    ∃ joins : Bool, (joins = true ↔ item.Beside text entry next done rest) ∧
      closeGap text entry next passed closing (item :: rest) =
        closeGap text entry next passed
          (if closing.lead.isSome then closing
          else if joins then
            { closing with
              tailEnd := item.span.stop
              lineComment := ['/', '/'].isPrefixOf (slice text item.span.start item.span.stop) }
          else { closing with lead := some item.span.start }) rest := by
  refine ⟨_, ?_, (if_neg other).trans (if_pos comment)⟩
  rw [Item.Beside, ← told]
  cases next <;> simp

/-- One more item is shared out. A comment goes to the entry while none has gone to the next one and it stands on the
    entry's side. -/
theorem Closing.After.step {item : Item} {rest : List Item}
    (after : closing.After text entry next done (item :: rest) passed start) (low : start ≤ item.span.start)
    (inside : item.span.start ≤ item.span.stop) :
    ∃ passed' closing', closeGap text entry next passed closing (item :: rest) =
        closeGap text entry next passed' closing' rest ∧
      closing'.After text entry next (done ++ [item]) rest passed' item.span.stop ∧
      (item.isComment = true →
        (AllBeside text entry next (done ++ [item]) rest → closing'.tailEnd = item.span.stop) ∧
        ∀ lead ∈ closing'.lead, lead ≤ item.span.start) := by
  have tail : closing.tailEnd ≤ item.span.stop := Nat.le_trans after.tail (Nat.le_trans low inside)
  have early : ∀ lead ∈ closing.lead, lead ≤ item.span.start := fun lead led => Nat.le_trans (after.early lead led) low
  have early' : ∀ lead ∈ closing.lead, lead ≤ item.span.stop := fun lead led => Nat.le_trans (early lead led) inside
  -- An item that is no comment leaves the sides as they are.
  have silent : item.isComment = false →
      (closing.lead = none ↔ AllBeside text entry next (done ++ [item]) rest) := fun plain => by
    rw [after.lead, allBeside_snoc]
    simp [plain]
  by_cases comma : (item.isComma && !passed) = true
  · have isComma : item.isComma = true := (Bool.and_eq_true _ _ ▸ comma).1
    have plain := Item.comma_not_comment isComma
    refine ⟨_, _, closeGap_takes comma, ⟨?_, silent plain, ?_, early'⟩, by simp [plain]⟩
    · simp [isComma]
    · exact Nat.max_le.mpr ⟨tail, Nat.le_refl _⟩
  · have passed' : passed = (done ++ [item]).any Item.isComma := by
      have told := after.passed
      cases isComma : item.isComma with
      | false => simpa [isComma] using told
      | true =>
        have true : passed = true := by simpa [isComma] using comma
        rw [true] at told ⊢
        simp [isComma]
    by_cases comment : item.isComment = true
    · -- The comment joins the entry's exactly if it stands on the entry's side.
      obtain ⟨joins, beside, step⟩ := @closeGap_beside text entry next _ closing _ _ _ after.passed comma comment
      rw [step]
      cases lead : closing.lead with
      | some at_ =>
        have broken : ¬ AllBeside text entry next done (item :: rest) := fun all => by
          rw [after.lead.mpr all] at lead
          cases lead
        refine ⟨_, _, rfl, ⟨passed', ?_, ?_, ?_⟩, fun _ => ⟨fun all => ?_, ?_⟩⟩
        · rw [if_pos (by rfl), lead, allBeside_snoc]
          simp [broken]
        · simpa using tail
        · simpa [lead] using early'
        · exact absurd (allBeside_snoc.mp all).1 broken
        · simpa [lead] using early
      | none =>
        have all := after.lead.mp lead
        cases joined : joins with
        | true =>
          have all' : AllBeside text entry next (done ++ [item]) rest :=
            allBeside_snoc.mpr ⟨all, fun _ => beside.mp joined⟩
          refine ⟨_, _, rfl, ⟨passed', ?_, ?_, ?_⟩, fun _ => ⟨fun _ => ?_, ?_⟩⟩ <;> simp [all']
        | false =>
          have broken : ¬ AllBeside text entry next (done ++ [item]) rest := fun all' => by
            have on := beside.mpr ((allBeside_snoc.mp all').2 comment)
            rw [joined] at on
            cases on
          refine ⟨_, _, rfl, ⟨passed', ?_, ?_, ?_⟩, fun _ => ⟨fun all' => absurd all' broken, ?_⟩⟩
          · simp [broken]
          · simpa using tail
          · simpa using inside
          · simp
    · refine ⟨_, _, closeGap_skips comma comment, ⟨passed', silent (by simpa using comment), tail, early'⟩, ?_⟩
      exact fun isComment => absurd isComment comment

/-- A comment in a gap lies before the end of the entry's tail if it is the entry's own, and behind the start of what is
    above the next entry if it is not. -/
theorem closeGap_shares {before behind : List Item} {comment : Item}
    (after : closing.After text entry next done (before ++ comment :: behind) passed start)
    (ordered : Ordered start stop ((before ++ comment :: behind).map Item.span)) (isComment : comment.isComment = true) :
    (AllBeside text entry next (done ++ before ++ [comment]) behind →
      comment.span.stop ≤ (closeGap text entry next passed closing (before ++ comment :: behind)).tailEnd) ∧
    (¬ AllBeside text entry next (done ++ before ++ [comment]) behind →
      ∃ lead, (closeGap text entry next passed closing (before ++ comment :: behind)).lead = some lead ∧
        lead ≤ comment.span.start) := by
  induction before generalizing done passed closing start with
  | nil =>
    obtain ⟨low, inside, ordered⟩ := ordered
    obtain ⟨passed', closing', step, after', told⟩ := after.step low inside
    obtain ⟨own, early⟩ := told isComment
    rw [List.nil_append, step, List.append_nil]
    constructor
    · intro all
      rw [← own all]
      exact closeGap_tail_grows ordered (Nat.le_of_eq (own all))
    · intro broken
      cases lead : closing'.lead with
      | none => exact absurd (after'.lead.mp lead) broken
      | some at_ => exact ⟨at_, closeGap_lead_stays lead, early at_ lead⟩
  | cons item rest ih =>
    obtain ⟨low, inside, ordered⟩ := ordered
    obtain ⟨passed', closing', step, after', _⟩ := after.step low inside
    have step : closeGap text entry next passed closing (item :: (rest ++ comment :: behind)) =
        closeGap text entry next passed' closing' (rest ++ comment :: behind) := step
    rw [List.cons_append, step]
    simpa using ih after' ordered

theorem closeGap_comma_kept :
    (closeGap text entry next true closing items).comma = closing.comma := by
  induction items generalizing closing with
  | nil => rfl
  | cons item rest ih =>
    have other : ¬ (item.isComma && !true) = true := by simp
    by_cases comment : item.isComment = true
    · obtain ⟨joins, _, step⟩ := @closeGap_comment text entry next _ closing _ _ other comment
      rw [step, ih]
      cases closing.lead.isSome <;> cases joins <;> rfl
    · rw [closeGap_skips other comment]
      exact ih

/-- An entry gets the first comma behind it. -/
theorem closeGap_first_comma {before behind : List Item} {comma : Item} (none : before.any Item.isComma = false)
    (isComma : comma.isComma = true) :
    (closeGap text entry next false closing (before ++ comma :: behind)).comma = some comma.span := by
  induction before generalizing closing with
  | nil =>
    rw [List.nil_append, closeGap_takes (by simp [isComma])]
    exact closeGap_comma_kept
  | cons item rest ih =>
    rw [List.any_cons, Bool.or_eq_false_iff] at none
    have other : ¬ (item.isComma && !false) = true := by simp [none.1]
    by_cases comment : item.isComment = true
    · obtain ⟨joins, _, step⟩ := @closeGap_comment text entry next _ closing _ _ other comment
      rw [List.cons_append, step]
      exact ih none.2
    · rw [List.cons_append, closeGap_skips other comment]
      exact ih none.2

/-! ## Slots of gaps -/

/-- What is shared out of the gap behind an entry. -/
def gapClosing (text : List Char) (entry : Span) (next : Option Nat) (gap : List Item) : Closing :=
  closeGap text entry next false ⟨none, entry.stop, false, none⟩ gap

/-- A slot is that of an entry, with its share of the gap behind it. -/
structure Slot.Holds (text : List Char) (entry : Item) (next : Option Nat) (gap : List Item) (slot : Slot) : Prop where
  id : slot.id = entry.id
  span : slot.span = entry.span
  comma : slot.comma = (gapClosing text entry.span next gap).comma
  tailEnd : slot.tailEnd = (gapClosing text entry.span next gap).tailEnd

theorem groupItems_gap {gap rest : List Item} (others : ∀ item ∈ gap, item.isEntry = false)
    (stops : ∀ next ∈ rest.head?, next.isEntry = true) :
    groupItems (gap ++ rest) = (gap, (groupItems rest).2) := by
  induction gap with
  | nil =>
    cases rest with
    | nil => rfl
    | cons next rest =>
      have isEntry := stops next rfl
      simp only [List.nil_append, groupItems, if_pos isEntry]
  | cons item gap ih =>
    have other := others item (by simp)
    simp only [List.cons_append, groupItems, ih fun i member => others i (List.mem_cons_of_mem _ member), other,
      Bool.false_eq_true, if_false]

/-- A gap of a literal is one of its groups. -/
theorem Gap.group {front gap rest : List Item} {entry : Item} (is : Gap items front entry gap rest) :
    ∃ before, (groupItems items).2 = before ++ (entry, gap) :: (groupItems rest).2 := by
  obtain ⟨rfl, isEntry, others, stops⟩ := is
  induction front with
  | nil =>
    refine ⟨[], ?_⟩
    simp only [List.nil_append, groupItems, groupItems_gap others stops, if_pos isEntry]
  | cons item front ih =>
    obtain ⟨before, split⟩ := ih
    by_cases entered : item.isEntry = true
    · refine ⟨(item, (groupItems (front ++ entry :: (gap ++ rest))).1) :: before, ?_⟩
      simp only [List.cons_append, groupItems, if_pos entered, split]
    · refine ⟨before, ?_⟩
      simp only [List.cons_append, groupItems, if_neg entered, split]

/-- A group of a literal is one of its gaps. -/
theorem Gap.of_group {entry : Item} {gap : List Item} {before after : List (Item × List Item)}
    (split : (groupItems items).2 = before ++ (entry, gap) :: after) :
    Gap items ((groupItems items).1 ++ flatten before) entry gap (flatten after) := by
  obtain ⟨same, _, grouped⟩ := groupItems_spec items
  rw [split] at same grouped
  obtain ⟨isEntry, others⟩ := grouped (entry, gap) (by simp)
  refine ⟨same.trans (by simp [flatten]), isEntry, others, fun next first => ?_⟩
  cases after with
  | nil => cases first
  | cons second after =>
    cases first
    exact (grouped second (by simp)).1

/-- There is one comma between each two entries if every group but the last has one. -/
theorem singleCommas_of_groups (single : ∀ group ∈ (groupItems items).2.dropLast, group.2.countP Item.isComma = 1) :
    SingleCommas items := by
  intro front entry gap rest is more
  obtain ⟨before, split⟩ := is.group
  refine single (entry, gap) ?_
  have some : (groupItems rest).2 ≠ [] := by
    cases rest with
    | nil => exact absurd rfl more
    | cons next rest =>
      have isEntry := is.stops next rfl
      simp [groupItems, isEntry]
  rw [split, List.dropLast_append_of_ne_nil (by simp), List.dropLast_cons_of_ne_nil some]
  simp

theorem nextStart_groups {rest : List Item} (stops : ∀ next ∈ rest.head?, next.isEntry = true) :
    ((groupItems rest).2.head?.map fun group => group.1.span.start) = nextStart rest := by
  cases rest with
  | nil => rfl
  | cons next rest =>
    have isEntry := stops next rfl
    simp only [groupItems, if_pos isEntry]
    rfl

/-- The slot of a group, and those of the groups behind it. -/
theorem slotsOf_split {before rest : List (Item × List Item)} {entry : Item} {gap : List Item} {lead : Option Nat} :
    ∃ done slot, slotsOf text lead (before ++ (entry, gap) :: rest) = done ++ slot ::
        slotsOf text (gapClosing text entry.span (rest.head?.map fun group => group.1.span.start) gap).lead rest ∧
      slot.Holds text entry (rest.head?.map fun group => group.1.span.start) gap := by
  induction before generalizing lead with
  | nil => exact ⟨[], _, rfl, rfl, rfl, rfl, rfl⟩
  | cons group before ih =>
    obtain ⟨first, behind⟩ := group
    obtain ⟨done, slot, split, holds⟩ := @ih
      (gapClosing text first.span ((before ++ (entry, gap) :: rest).head?.map fun group => group.1.span.start) behind).lead
    exact ⟨_ :: done, slot, congrArg (List.cons _) split, holds⟩

/-- The slot of an entry with the gap behind it, and those of the entries that follow. -/
theorem Gap.slot {front gap rest : List Item} {entry : Item} (is : Gap items front entry gap rest) :
    ∃ done slot, slotsOf text none (groupItems items).2 = done ++ slot ::
        slotsOf text (gapClosing text entry.span (nextStart rest) gap).lead (groupItems rest).2 ∧
      slot.Holds text entry (nextStart rest) gap := by
  obtain ⟨before, split⟩ := is.group
  rw [split, ← nextStart_groups is.stops]
  exact slotsOf_split

/-- Where there is one comma between each two entries, every slot but the last has one. -/
theorem SingleCommas.slots (single : SingleCommas items) {lead : Option Nat} {front back : List Slot} {slot : Slot}
    (split : slotsOf text lead (groupItems items).2 = front ++ slot :: back) (more : back ≠ []) :
    slot.comma.isSome = true := by
  -- Along the groups from any of them on.
  have along : ∀ (groups before : List (Item × List Item)) lead front, (groupItems items).2 = before ++ groups →
      slotsOf text lead groups = front ++ slot :: back → slot.comma.isSome = true := by
    intro groups
    induction groups with
    | nil =>
      intro before lead front _ split
      simp [slotsOf] at split
    | cons group groups ih =>
      intro before lead front whole split
      obtain ⟨entry, gap⟩ := group
      cases front with
      | nil =>
        obtain ⟨rfl, rest⟩ := List.cons_eq_cons.mp split
        have is := Gap.of_group whole
        have follows : flatten groups ≠ [] := by
          cases groups with
          | nil => exact absurd rest.symm more
          | cons second groups => simp [flatten]
        refine closeGap_comma ?_
        rw [List.any_eq_true]
        exact List.countP_pos_iff.mp (by rw [single _ _ _ _ is follows]; exact Nat.one_pos)
      | cons first front =>
        obtain ⟨_, rest⟩ := List.cons_eq_cons.mp split
        exact ih (before ++ [(entry, gap)]) _ front (by simp [whole]) rest
  exact along _ [] lead front rfl split

end StoreModels
