import StoreModels.Proofs.Document.Orderly
import StoreModels.Proofs.Document.Partition

/-!
The rows in which the entries of a changed object literal are printed. The slots of the entries stay in order: read from left
to right they are at increasing positions, and the entries behind them have none. So an entry is separated from the one
before it by one of the literal's own gaps or by a blank that is made up, and nothing of the literal is printed twice.
-/
namespace StoreModels
open Syntax (Span Role Outline Reader Dialect)
open Text (slice Ordered)
open List (Forall₂)

namespace Layout

/-- Where the gap before a slot lies. -/
def gapSpan? (layout : Layout) (position : Nat) : Option Span :=
  match layout.slots[position - 1]?, layout.slots[position]? with
  | some previous, some slot => some ⟨previous.tailEnd, slot.begins⟩
  | _, _ => none

theorem gapBefore_span (layout : Layout) (text : List Char) (position : Nat) : layout.gapBefore text position =
    ((layout.gapSpan? position).map fun gap => slice text gap.start gap.stop).getD [] := by
  unfold gapBefore gapSpan?
  cases layout.slots[position - 1]? <;> cases layout.slots[position]? <;> rfl

theorem gapSpan?_eq {layout : Layout} {done rest : List Slot} {previous slot : Slot}
    (all : layout.slots = done ++ previous :: slot :: rest) :
    layout.gapSpan? (done.length + 1) = some ⟨previous.tailEnd, slot.begins⟩ := by
  have before : layout.slots[done.length]? = some previous := by simp [all]
  have here : layout.slots[done.length + 1]? = some slot := by simp [all]
  simp only [gapSpan?, Nat.add_sub_cancel, before, here]

end Layout

namespace Document
variable {doc first : Document} {print : ChildPrinter} {setting : Setting} {entries : List (NodeId × Option Nat)}
  {previous position : Option Nat} {line : Bool} {places : List Nat} {count : Nat}

/-! ## Rows -/

/-- What stands before an entry: nothing, the literal's own gap before the slot at a position, or a blank. -/
inductive Separator
  | nothing
  | own (position : Nat)
  | made (blank : List Char)
  deriving DecidableEq, Repr

/-- An entry as it is printed among others: behind a separator, with the comments of its slot, if it has one. -/
structure Row where
  separator : Separator
  entry : NodeId
  position : Option Nat
  wantsComma : Bool
  deriving DecidableEq, Repr

/-- The part of a literal that a separator takes up. -/
def Separator.parts (layout : Layout) : Separator → List (Share × Span)
  | .own position => (layout.gapSpan? position).toList.map fun gap => (.gap, gap)
  | _ => []

/-- The parts of a literal that a row takes up: the gap before it, and the lead, the place and the tail of its entry. -/
def Row.parts (layout : Layout) (row : Row) : List (Share × Span) :=
  row.separator.parts layout ++ ((row.position.bind fun q => layout.slots[q]?).toList.flatMap Slot.parts)

/-- The own gap that separates an entry from the one before it, if there is one: that before its slot, or else that behind
    the other one's. -/
def Setting.ownGap? (setting : Setting) (previous position : Option Nat) : Option Nat :=
  (position.filter (0 < ·)).or ((previous.map (· + 1)).filter (· < setting.layout.slots.length))

/-- What separates entries without an own gap. -/
def Setting.fallback (setting : Setting) : List Char := if setting.multiline then setting.lineBreak else [' ']

theorem Setting.gap_eq (setting : Setting) (previous position : Option Nat) : setting.gap previous position =
    ((setting.ownGap? previous position).map (setting.layout.gapBefore setting.text)).getD setting.fallback := by
  unfold Setting.gap Setting.ownGap? Setting.fallback
  rcases position with _ | q <;> rcases previous with _ | p
  · rfl
  · by_cases lt : p + 1 < setting.layout.slots.length <;> simp [Option.filter_some, lt]
  · by_cases pos : 0 < q <;> simp [Option.filter_some, pos]
  · by_cases pos : 0 < q <;> by_cases lt : p + 1 < setting.layout.slots.length <;> simp [Option.filter_some, pos, lt]

/-- What separates two entries; `line` tells whether the first one ends in a line comment. -/
def Setting.separator (setting : Setting) (previous position : Option Nat) (line : Bool) : Separator :=
  if line && !(setting.gap previous position).contains '\n' then .made setting.lineBreak
  else ((setting.ownGap? previous position).map Separator.own).getD (.made setting.fallback)

def Separator.text (setting : Setting) : Separator → List Char
  | .nothing => []
  | .own position =>
    ((setting.layout.gapSpan? position).map fun gap => slice setting.text gap.start gap.stop).getD []
  | .made blank => blank

theorem Setting.separator_text (setting : Setting) (previous position : Option Nat) (line : Bool) :
    (setting.separator previous position line).text setting =
      if line && !(setting.gap previous position).contains '\n' then setting.lineBreak else setting.gap previous position := by
  unfold Setting.separator
  split
  · rfl
  · rw [setting.gap_eq]
    cases setting.ownGap? previous position with
    | none => rfl
    | some q => exact (setting.layout.gapBefore_span setting.text q).symm

/-- The rows of entries behind one at some position, from the first one on. -/
def Setting.rows (setting : Setting) : Bool → Option Nat → Bool → List (NodeId × Option Nat) → List Row
  | _, _, _, [] => []
  | isFirst, previous, line, (entry, position) :: rest =>
    { separator := if isFirst then .nothing else setting.separator previous position line, entry, position
      wantsComma := setting.wantsComma rest } ::
      setting.rows false position
        (((position.bind fun q => setting.layout.slots[q]?).map (·.lineComment)).getD false) rest

/-- What a row prints as. -/
def printRow (doc : Document) (print : ChildPrinter) (setting : Setting) (row : Row) : List Char :=
  let slot := row.position.bind fun q => setting.layout.slots[q]?
  row.separator.text setting ++ setting.lead slot ++ doc.printChild print row.entry setting.indent setting.buffer ++
    printTail setting.text slot row.wantsComma

/-- Entries print row by row. -/
theorem printEntries_rows (isFirst : Bool) (previous : Option Nat) (line : Bool) (entries : List (NodeId × Option Nat)) :
    (doc.printEntries print setting isFirst previous line entries).1 =
      (setting.rows isFirst previous line entries).flatMap (doc.printRow print setting) := by
  induction entries generalizing isFirst previous line with
  | nil => rfl
  | cons entry rest ih =>
    obtain ⟨entry, position⟩ := entry
    have separator : (if isFirst then Separator.nothing else setting.separator previous position line).text setting =
        if isFirst then [] else if line && !(setting.gap previous position).contains '\n' then setting.lineBreak
          else setting.gap previous position := by
      cases isFirst
      · exact setting.separator_text previous position line
      · rfl
    simp only [printEntries, Setting.rows, List.flatMap_cons, printRow, ih, separator]
    rfl

/-- There is a row for each entry. -/
theorem Setting.rows_entries (setting : Setting) (isFirst : Bool) (previous : Option Nat) (line : Bool)
    (entries : List (NodeId × Option Nat)) :
    (setting.rows isFirst previous line entries).map (fun row => (row.entry, row.position)) = entries := by
  induction entries generalizing isFirst previous line with
  | nil => rfl
  | cons entry rest ih => rw [rows, List.map_cons, ih]

/-- Whether a row is separated from the one before by an own gap of the literal, or by a blank that is made up. -/
def Setting.Separates (setting : Setting) (row : Row) : Prop :=
  (∃ q, row.separator = .own q ∧ 0 < q ∧ q < setting.layout.slots.length) ∨
    row.separator = .made setting.lineBreak ∨ row.separator = .made [' ']

theorem Setting.ownGap?_some {q : Nat} (known : ∀ q ∈ position, q < setting.layout.slots.length)
    (is : setting.ownGap? previous position = some q) : 0 < q ∧ q < setting.layout.slots.length := by
  rw [ownGap?, Option.or_eq_some_iff] at is
  rcases is with own | ⟨_, behind⟩
  · obtain ⟨here, pos⟩ := Option.filter_eq_some_iff.mp own
    exact ⟨by simpa using pos, known q here⟩
  · obtain ⟨here, lt⟩ := Option.filter_eq_some_iff.mp behind
    obtain ⟨p, _, rfl⟩ := Option.map_eq_some_iff.mp here
    exact ⟨Nat.succ_pos p, by simpa using lt⟩

/-- Rows behind others are separated from them. -/
theorem Setting.rows_separates (known : ∀ entry ∈ entries, ∀ q ∈ entry.2, q < setting.layout.slots.length) :
    ∀ row ∈ setting.rows false previous line entries, setting.Separates row := by
  induction entries generalizing previous line with
  | nil => exact fun _ member => by cases member
  | cons entry rest ih =>
    obtain ⟨entry, position⟩ := entry
    intro row member
    rw [rows] at member
    rcases List.mem_cons.mp member with rfl | later
    · simp only [Separates, Setting.separator, Bool.false_eq_true, if_false]
      split
      · exact .inr (.inl rfl)
      · cases own : setting.ownGap? previous position with
        | some q => exact .inl ⟨q, rfl, ownGap?_some (known (entry, position) (by simp)) own⟩
        | none =>
          simp only [Setting.fallback, Option.map_none, Option.getD_none]
          split
          · exact .inr (.inl rfl)
          · exact .inr (.inr rfl)
    · exact ih (fun e listed => known e (List.mem_cons_of_mem _ listed)) row later

/-! ## Parts of the literal -/

/-- Positions below a bound that rise, and then none. -/
def Rising (bound : Nat) (positions : List (Option Nat)) : Prop :=
  ∃ (places : List Nat) (count : Nat), positions = places.map some ++ List.replicate count none ∧
    places.Pairwise (· < ·) ∧ ∀ q ∈ places, q < bound

theorem Setting.separator_parts (setting : Setting) (previous position : Option Nat) (line : Bool) :
    ((setting.separator previous position line).parts setting.layout).Sublist
      (((setting.ownGap? previous position).bind setting.layout.gapSpan?).toList.map fun gap => (.gap, gap)) := by
  unfold Setting.separator
  split
  · exact List.nil_sublist _
  · cases setting.ownGap? previous position <;> exact List.Sublist.refl _

theorem Rising.lt {bound q : Nat} {positions : List (Option Nat)} (rising : Rising bound positions)
    (member : some q ∈ positions) : q < bound := by
  obtain ⟨places, count, rfl, _, high⟩ := rising
  refine high q ?_
  simpa using member

/-- Entries without a position take up nothing of the literal behind others without one. -/
theorem Setting.rows_unplaced (none : ∀ entry ∈ entries, entry.2 = none) :
    (setting.rows false .none line entries).flatMap (Row.parts setting.layout) = [] := by
  induction entries generalizing line with
  | nil => rfl
  | cons entry rest ih =>
    obtain ⟨entry, position⟩ := entry
    obtain rfl : position = .none := none (entry, position) (by simp)
    rw [rows, List.flatMap_cons, ih fun e listed => none e (List.mem_cons_of_mem _ listed), List.append_nil]
    have parts := setting.separator_parts .none .none line
    simpa [Row.parts, ownGap?] using parts

/-- What stands behind an own gap or in a slot lies among the parts behind the slots before. -/
theorem slotParts_split (reach : Nat) (before behind : List Slot) (slot : Slot) :
    slotParts reach (before ++ slot :: behind) =
      slotParts reach before ++ (.gap, ⟨tailOf reach before, slot.begins⟩) :: slot.parts ++ slotParts slot.tailEnd behind := by
  induction before generalizing reach with
  | nil => rfl
  | cons first before ih =>
    rw [List.cons_append, slotParts, ih, tailOf_cons, slotParts]
    simp


theorem gapSpan?_reach {layout : Layout} {done mid later : List Slot} {previous slot : Slot}
    (all : layout.slots = done ++ previous :: (mid ++ slot :: later)) :
    layout.gapSpan? (done.length + 1 + mid.length) = some ⟨tailOf previous.tailEnd mid, slot.begins⟩ := by
  rcases List.eq_nil_or_concat mid with rfl | ⟨others, last, rfl⟩
  · exact Layout.gapSpan?_eq all
  · rw [List.concat_eq_append] at all ⊢
    have all' : layout.slots = (done ++ previous :: others) ++ last :: slot :: later := by simpa using all
    have gap := Layout.gapSpan?_eq all'
    rw [tailOf_split, tailOf, List.getLast?_nil, Option.map_none, Option.getD_none, ← gap]
    congr 1
    simp
    omega

/-- A list is split at each position that it has. -/
theorem split_at {α : Type} {items : List α} {k : Nat} (lt : k < items.length) :
    ∃ front item later, items = front ++ item :: later ∧ front.length = k :=
  ⟨items.take k, items[k], items.drop (k + 1), by simp, by simp [Nat.le_of_lt lt]⟩

/-- Entries at rising positions behind that of an entry before them take up parts behind its slot, in order. -/
theorem Setting.rows_later {done rest : List Slot} {before : Slot} (all : setting.layout.slots = done ++ before :: rest)
    (placed : entries.map Prod.snd = places.map some ++ List.replicate count none) (low : ∀ q ∈ places, done.length < q)
    (rising : places.Pairwise (· < ·)) (high : ∀ q ∈ places, q < setting.layout.slots.length) :
    ((setting.rows false (some done.length) line entries).flatMap (Row.parts setting.layout)).Sublist
      (slotParts before.tailEnd rest) := by
  induction places generalizing done rest before entries line with
  | nil =>
    rw [List.map_nil, List.nil_append] at placed
    cases entries with
    | nil => exact List.nil_sublist _
    | cons entry more =>
      obtain ⟨entry, position⟩ := entry
      have none : ∀ e ∈ (entry, position) :: more, e.2 = .none := fun e member =>
        List.eq_of_mem_replicate (placed ▸ List.mem_map_of_mem member)
      obtain rfl : position = .none := none (entry, position) (by simp)
      rw [rows, List.flatMap_cons, Option.bind_none, Option.map_none, Option.getD_none,
        rows_unplaced fun e member => none e (List.mem_cons_of_mem _ member), List.append_nil]
      have parts := setting.separator_parts (some done.length) .none line
      simp only [Row.parts, Bool.false_eq_true, if_false, Option.bind_none, Option.toList_none, List.flatMap_nil,
        List.append_nil]
      refine parts.trans ?_
      cases rest with
      | nil => simp [ownGap?, Option.filter_some, all]
      | cons next others =>
        have gap := Layout.gapSpan?_eq all
        simp [ownGap?, Option.filter_some, all, gap, slotParts]
  | cons q places ih =>
    cases entries with
    | nil => cases placed
    | cons entry more =>
      obtain ⟨entry, position⟩ := entry
      obtain ⟨here, behind⟩ := List.cons.inj placed
      obtain rfl : position = some q := here
      obtain ⟨least, rises⟩ := List.pairwise_cons.mp rising
      have after : done.length < q := low q (by simp)
      have inside := high q (by simp)
      have length : setting.layout.slots.length = done.length + 1 + rest.length := by
        rw [all, List.length_append, List.length_cons]
        omega
      obtain ⟨mid, slot, later, rfl, middle⟩ := @split_at _ rest (q - (done.length + 1)) (by omega)
      obtain rfl : q = done.length + 1 + mid.length := by omega
      have all' : setting.layout.slots = (done ++ before :: mid) ++ slot :: later := by simpa using all
      have reach : (done ++ before :: mid).length = done.length + 1 + mid.length := by
        rw [List.length_append, List.length_cons]
        omega
      have own : setting.layout.slots[done.length + 1 + mid.length]? = some slot := by simp [all', ← reach]
      have next := @ih more slot.lineComment _ _ _ all' behind (reach ▸ least) rises fun x member =>
        high x (List.mem_cons_of_mem _ member)
      rw [reach] at next
      have parts := setting.separator_parts (some done.length) (some (done.length + 1 + mid.length)) line
      rw [show setting.ownGap? (some done.length) (some (done.length + 1 + mid.length)) = _ by
        rw [ownGap?, Option.filter_some, if_pos (decide_eq_true (by omega)), Option.some_or], Option.bind_some, gapSpan?_reach all] at parts
      rw [rows, List.flatMap_cons, slotParts_split, List.append_assoc]
      simp only [Row.parts, Bool.false_eq_true, if_false, Option.bind_some, own, Option.toList_some, List.flatMap_singleton,
        Option.map_some, Option.getD_some]
      refine List.Sublist.trans ?_ (List.sublist_append_right _ _)
      exact (parts.append (List.Sublist.refl _)).append next

/-- The parts of a literal from its first entry to the tail of its last one. -/
def slotted : List Slot → List (Share × Span)
  | [] => []
  | slot :: rest => slot.parts ++ slotParts slot.tailEnd rest

/-- Entries at rising positions, with others behind them, take up parts of the literal in order. -/
theorem Setting.rows_parts (rising : Rising setting.layout.slots.length (entries.map Prod.snd)) :
    ((setting.rows true .none false entries).flatMap (Row.parts setting.layout)).Sublist (slotted setting.layout.slots) := by
  obtain ⟨places, count, placed, rising, high⟩ := rising
  cases entries with
  | nil => exact List.nil_sublist _
  | cons entry more =>
    obtain ⟨entry, position⟩ := entry
    rw [rows, List.flatMap_cons]
    simp only [Row.parts, if_true, Separator.parts, List.nil_append]
    cases places with
    | nil =>
      have none : ∀ e ∈ (entry, position) :: more, e.2 = .none := fun e member =>
        List.eq_of_mem_replicate ((List.nil_append _ ▸ placed) ▸ List.mem_map_of_mem member)
      obtain rfl : position = .none := none (entry, position) (by simp)
      rw [Option.bind_none, Option.map_none, Option.getD_none,
        rows_unplaced fun e member => none e (List.mem_cons_of_mem _ member)]
      exact List.nil_sublist _
    | cons q places =>
      obtain ⟨here, behind⟩ := List.cons.inj placed
      obtain rfl : position = some q := here
      obtain ⟨least, rises⟩ := List.pairwise_cons.mp rising
      obtain ⟨front, slot, later, all, rfl⟩ := split_at (high q (by simp))
      have own : setting.layout.slots[front.length]? = some slot := by simp [all]
      have next : ((setting.rows false (some front.length) slot.lineComment more).flatMap (Row.parts setting.layout)).Sublist
          (slotParts slot.tailEnd later) :=
        rows_later all behind least rises fun x member => high x (List.mem_cons_of_mem _ member)
      simp only [Option.bind_some, own, Option.toList_some, List.flatMap_singleton, Option.map_some, Option.getD_some]
      have taken := (List.Sublist.refl slot.parts).append next
      rw [all]
      cases front with
      | nil => exact taken
      | cons initial mid =>
        rw [List.cons_append, slotted, slotParts_split, List.append_assoc]
        refine List.Sublist.trans ?_ (List.sublist_append_right _ _)
        refine List.Sublist.trans ?_ (List.sublist_append_right _ _)
        exact taken.trans (List.sublist_cons_self _ _)

/-! ## Positions -/

theorem pairwise_idxOf {ids : List NodeId} (distinct : ids.Nodup) : ids.Pairwise fun a b => ids.idxOf a < ids.idxOf b := by
  refine List.pairwise_iff_getElem.mpr fun i j left right lt => ?_
  rw [distinct.idxOf_getElem, distinct.idxOf_getElem]
  exact lt

/-- Entries with their positions among the slots of a literal. -/
def placed (doc : Document) (p : NodeId) (layout : Layout) : List (NodeId × Option Nat) :=
  (doc.entries p).map fun entry => (entry, doc.slotPosition? layout.slots (doc.nodes.size + 1) entry)

section
variable {p : NodeId} {text : List Char} {span : Span} (sound : doc.Sound) (lined : doc.Lined doc p)
  (ids : (doc.layout p text span).slots.map Slot.id = doc.firstEntries p)
include sound ids

/-- An entry has the position of the first entry that it is or has come after. -/
theorem position_eq {entry last : NodeId} (ends : doc.Ends entry last) :
    doc.slotPosition? (doc.layout p text span).slots (doc.nodes.size + 1) entry =
      (doc.firstEntries p).findIdx? (· == last) := by
  rw [sound.position ends, ← ids, List.findIdx?_map]
  rfl

include lined

/-- The entries of a literal are at rising positions, and those behind them are at none. -/
theorem Lined.rising :
    Rising (doc.layout p text span).slots.length ((doc.placed p (doc.layout p text span)).map Prod.snd) := by
  have distinct : (doc.firstEntries p).Nodup := (sound.firstNodup p).filter _
  obtain ⟨olds, youngs, kept, news, split, early, late, sub, fresh⟩ := lined.split
  refine ⟨kept.map (doc.firstEntries p).idxOf, youngs.length, ?_, ?_, fun q member => ?_⟩
  · rw [placed, List.map_map, split, List.map_append]
    congr 1
    · rw [List.map_map]
      refine (forall₂_map_eq (forall₂_imp_mem early fun entry _ last member ends => ?_) fun _ _ same => same).symm
      refine (position_eq sound ids ends).trans ?_ |>.symm
      exact List.findIdx?_eq_some_iff_findIdx_eq.mpr ⟨List.idxOf_lt_length_of_mem (sub.subset member), rfl⟩
    · refine List.map_eq_replicate_iff.mpr fun entry member => ?_
      obtain ⟨last, isNew, ends⟩ := forall₂_mem_left late member
      refine (position_eq sound ids ends).trans (List.findIdx?_eq_none_iff.mpr fun f listed => ?_)
      exact beq_eq_false_iff_ne.mpr fun same => fresh last isNew (same ▸ listed)
  · exact List.pairwise_map.mpr ((pairwise_idxOf distinct).sublist sub)
  · obtain ⟨last, among, rfl⟩ := List.mem_map.mp member
    have lt := List.idxOf_lt_length_of_mem (sub.subset among)
    rw [← ids, List.length_map] at lt
    exact ids ▸ lt

/-- No two entries are at the same position. -/
theorem Lined.position_only {entry other : NodeId} {q : Nat} (left : (entry, some q) ∈ doc.placed p (doc.layout p text span))
    (right : (other, some q) ∈ doc.placed p (doc.layout p text span)) : entry = other := by
  have found : ∀ {entry}, (entry, some q) ∈ doc.placed p (doc.layout p text span) →
      entry ∈ doc.entries p ∧ ∃ f ∈ (doc.firstEntries p)[q]?, doc.Ends entry f := by
    intro entry member
    obtain ⟨e, listed, both⟩ := List.mem_map.mp member
    obtain ⟨rfl, is⟩ := Prod.mk.inj both
    obtain ⟨last, ends⟩ := sound.ends e
    rw [position_eq sound ids ends, List.findIdx?_eq_some_iff_getElem] at is
    obtain ⟨lt, same, _⟩ := is
    exact ⟨listed, last, by simpa [lt] using same, ends⟩
  obtain ⟨listed, f, here, ends⟩ := found left
  obtain ⟨listed', f', here', ends'⟩ := found right
  obtain rfl : f = f' := Option.mem_unique here here'
  exact lined.only ((sound.firstNodup p).filter _) listed listed' ends ends' (List.mem_of_getElem? here)

end

/-! ## Object literals -/

/-- How the entries of an object literal that was read from a text are set. -/
def objectSetting (doc : Document) (p : NodeId) (buffer : BufferId) (span : Span) : Setting :=
  doc.entrySetting (doc.buffer buffer) buffer (doc.layout p (doc.buffer buffer) span)

/-- The rows of an object literal. -/
def objectRows (doc : Document) (p : NodeId) (setting : Setting) : List Row :=
  setting.rows true none false (doc.placed p setting.layout)

/-- What is printed of the literal itself: its braces, what stands above its first and below its last entry, and the parts
    that its rows take up. -/
def objectParts (doc : Document) (p : NodeId) (setting : Setting) : List (Share × Span) :=
  let layout := setting.layout
  (.opening, ⟨layout.span.start, layout.openEnd⟩) ::
    (.before, ⟨layout.openEnd, beginsAt layout.closeStart layout.slots⟩) ::
      (doc.objectRows p setting).flatMap (Row.parts layout) ++
        [(.after, ⟨tailOf layout.openEnd layout.slots, layout.closeStart⟩), (.closing, ⟨layout.closeStart, layout.span.stop⟩)]

/-- The entries of an object literal have their slots in order, and it is printed row by row, with nothing of the literal
    printed twice. -/
structure InOrder (doc : Document) (p : NodeId) (setting : Setting) : Prop where
  rising : Rising setting.layout.slots.length ((doc.placed p setting.layout).map Prod.snd)
  /-- No two entries share a slot. -/
  apart : ∀ {entry other : NodeId} {q : Nat}, (entry, some q) ∈ doc.placed p setting.layout →
    (other, some q) ∈ doc.placed p setting.layout → entry = other
  rows : (doc.objectRows p setting).map (fun row => (row.entry, row.position)) = doc.placed p setting.layout
  opens : ∀ row ∈ (doc.objectRows p setting).head?, row.separator = .nothing
  separates : ∀ row ∈ (doc.objectRows p setting).tail, setting.Separates row
  prints : ∀ print, doc.entries p ≠ [] → setting.layout.slots ≠ [] → ∃ ending,
    doc.printObject print p setting.buffer setting.layout.span =
        slice setting.text setting.layout.span.start setting.layout.openEnd ++
          slice setting.text setting.layout.openEnd (beginsAt setting.layout.closeStart setting.layout.slots) ++
          (doc.objectRows p setting).flatMap (doc.printRow print setting) ++ ending ++
          slice setting.text setting.layout.closeStart setting.layout.span.stop ∧
      (ending = setting.layout.after setting.text ∨ ending = doc.newline.text ++
        Text.lineIndent setting.text setting.layout.span.start ++ Text.trimStart (setting.layout.after setting.text))
  /-- What is printed of the literal are some of its parts, in order, each at most once. -/
  once : setting.layout.slots ≠ [] → (doc.objectParts p setting).Sublist setting.layout.parts
  /-- The parts of the literal do not overlap. -/
  whole : Adjoining setting.layout.span.stop setting.layout.span.start (setting.layout.parts.map Prod.snd)

end Document

/-- Whether children lie in order in a node, with braces around those of an object literal. -/
def Syntax.Outline.Enclosed (text : List Char) (kind : String) (span : Span) (outline : Outline) : Prop :=
  Ordered span.start span.stop (outline.map Prod.snd) ∧
    (Role.ofKind kind = .object → Outline.IsKeyword text kind span outline ∨ outline.isBraced = true)

instance (text : List Char) (kind : String) (span : Span) (outline : Outline) :
    Decidable (Outline.Enclosed text kind span outline) :=
  inferInstanceAs (Decidable (_ ∧ (_ → _ ∨ _)))

namespace Document
variable {doc first : Document} {dialect : Dialect} {source : List Char} {p : NodeId} {buffer : BufferId} {span : Span}

/-- An object literal that was read from a text lies between its braces. -/
theorem Laid.framed (laid : doc.Laid Outline.Enclosed) (parsed : (doc.node p).origin = .parsed buffer span)
    (object : doc.role p = .object) (some : (doc.node p).firstChildren ≠ []) : ∃ outline opening inner closing,
      Forall₂ (doc.IsAt buffer) (doc.node p).firstChildren outline ∧
      Layout.Framed (doc.buffer buffer) span (doc.parsedItems p) opening inner closing := by
  obtain ⟨outline, places, ordered, braces⟩ := laid p buffer span parsed
  obtain ⟨opening, inner, closing, framed, _, _⟩ := framed_of_places places ordered (braced_of_places places some (braces object))
  exact ⟨outline, opening, inner, closing, places, framed⟩

/-- A changed object literal that had entries and has some prints row by row. -/
theorem printObject_rows (laid : (doc.layout p (doc.buffer buffer) span).Lined) (print : ChildPrinter)
    (some : doc.entries p ≠ []) (slots : (doc.objectSetting p buffer span).layout.slots ≠ []) :
    ∃ ending, doc.printObject print p buffer span =
        slice (doc.buffer buffer) span.start (doc.objectSetting p buffer span).layout.openEnd ++
          slice (doc.buffer buffer) (doc.objectSetting p buffer span).layout.openEnd
            (beginsAt (doc.objectSetting p buffer span).layout.closeStart (doc.objectSetting p buffer span).layout.slots) ++
          (doc.objectRows p (doc.objectSetting p buffer span)).flatMap (doc.printRow print (doc.objectSetting p buffer span)) ++
          ending ++ slice (doc.buffer buffer) (doc.objectSetting p buffer span).layout.closeStart span.stop ∧
      (ending = (doc.objectSetting p buffer span).layout.after (doc.buffer buffer) ∨
        ending = doc.newline.text ++ Text.lineIndent (doc.buffer buffer) span.start ++
          Text.trimStart ((doc.objectSetting p buffer span).layout.after (doc.buffer buffer))) := by
  have bare : ¬ (doc.layout p (doc.buffer buffer) span).slots.isEmpty = true := fun none =>
    slots (List.isEmpty_iff.mp none)
  have more : ¬ ((doc.children p).filter fun c => (doc.role c).isEntry).isEmpty = true := fun none =>
    some (List.isEmpty_iff.mp none)
  have printed : doc.printObject print p buffer span = doc.printObjectEntries print (doc.buffer buffer) buffer
      (doc.layout p (doc.buffer buffer) span) (Text.lineIndent (doc.buffer buffer) span.start) (doc.entries p) := by
    unfold printObject
    simp only []
    rw [if_neg bare, if_neg more]
    rfl
  obtain ⟨line, body⟩ : ∃ line, doc.printEntries print (doc.objectSetting p buffer span) true none false
      (doc.placed p (doc.objectSetting p buffer span).layout) =
        ((doc.objectRows p (doc.objectSetting p buffer span)).flatMap (doc.printRow print (doc.objectSetting p buffer span)),
          line) := ⟨_, Prod.ext (printEntries_rows _ _ _ _) rfl⟩
  have before : slice (doc.buffer buffer) (doc.objectSetting p buffer span).layout.openEnd
      (beginsAt (doc.objectSetting p buffer span).layout.closeStart (doc.objectSetting p buffer span).layout.slots) =
        (doc.layout p (doc.buffer buffer) span).before (doc.buffer buffer) := laid.before_text
  rw [printed, before]
  refine ⟨_, printObjectEntries_eq body, ?_⟩
  split
  · exact .inr rfl
  · exact .inl rfl

/-- What is printed of a literal with slots are some of its parts, in order. -/
theorem objectParts_sublist {setting : Setting}
    (rising : Rising setting.layout.slots.length ((doc.placed p setting.layout).map Prod.snd))
    (slots : setting.layout.slots ≠ []) : (doc.objectParts p setting).Sublist setting.layout.parts := by
  have parts := Setting.rows_parts rising
  unfold objectParts Layout.parts Layout.inner objectRows
  cases is : setting.layout.slots with
  | nil => exact absurd is slots
  | cons slot rest =>
    rw [is] at parts
    simp only [is, tailOf_cons, List.append_assoc, List.cons_append, List.nil_append]
    refine .cons_cons _ (.cons_cons _ ?_)
    rw [← List.append_assoc slot.parts]
    exact parts.append (List.Sublist.refl _)

theorem Lined.inOrder (lined : doc.Lined doc p) (sound : doc.Sound) {outline : Outline} {opening closing : Item}
    {inner : List Item} (places : Forall₂ (doc.IsAt buffer) (doc.node p).firstChildren outline)
    (framed : Layout.Framed (doc.buffer buffer) span (doc.parsedItems p) opening inner closing) :
    doc.InOrder p (doc.objectSetting p buffer span) := by
  obtain ⟨ids, _⟩ := layout_entries places framed
  have laid : (doc.layout p (doc.buffer buffer) span).Lined := framed.shares.lined
  have rising := lined.rising sound ids
  refine ⟨rising, lined.position_only sound ids, Setting.rows_entries _ _ _ _ _, ?opens, ?separates, ?prints, ?once,
    laid.adjoining⟩
  case opens =>
    intro row head
    unfold objectRows at head
    cases found : doc.placed p (doc.objectSetting p buffer span).layout with
    | nil =>
      rw [found] at head
      cases head
    | cons entry rest =>
      rw [found] at head
      cases head
      rfl
  case separates =>
    intro row member
    unfold objectRows at member
    have known : ∀ entry ∈ doc.placed p (doc.objectSetting p buffer span).layout, ∀ q ∈ entry.2,
        q < (doc.objectSetting p buffer span).layout.slots.length := fun entry listed q is =>
      rising.lt (is ▸ List.mem_map_of_mem (f := Prod.snd) listed)
    cases found : doc.placed p (doc.objectSetting p buffer span).layout with
    | nil =>
      rw [found] at member
      cases member
    | cons entry rest =>
      rw [found] at member known
      exact Setting.rows_separates (fun e listed => known e (List.mem_cons_of_mem _ listed)) row member
  case prints => exact fun print some slots => printObject_rows laid print some slots
  case once => exact fun slots => objectParts_sublist rising slots

/-- Entries are in line in every document that edits lead to. -/
theorem Reached.orderly [Reader] (reached : Reached first doc) (file : Document.parse dialect source = .ok first) :
    doc.Orderly := by
  obtain ⟨indent, moves⟩ := reached.moves (parse_sound file)
  have sound := (parse_sound file).withFallbackIndent indent
  exact moves.orderly sound (Orderly.parsed sound fun x => parse_untouched file x)

/-- In every document that edits lead to, the entries of an object literal that was read from a text, be it that of the file,
    of a snippet or of a copy, have their slots in order: their positions rise, the entries behind them have none, and no two
    are at the same one. So each is separated from the one before it by one of the literal's own gaps or by a blank that is
    made up, and every part of the literal, be it a comma or a comment, is printed at most once. A literal was read with its
    braces; the keyword of its kind was read without children. -/
theorem slots_in_order [Reader] (reached : Reached first doc) (file : Document.parse dialect source = .ok first)
    (meets : ∀ text ∈ doc.buffers, Reader.Meets Outline.Enclosed doc.dialect text)
    (parsed : (doc.node p).origin = .parsed buffer span) (object : doc.role p = .object)
    (literal : (doc.node p).firstChildren ≠ []) : doc.InOrder p (doc.objectSetting p buffer span) := by
  obtain ⟨_, _, _, _, places, framed⟩ := (reached.laid file meets).framed parsed object literal
  exact ((reached.orderly file).lined object).inOrder (reached.sound file) places framed

/-- The file after its container got an entry and then lost its first one. -/
def separatorShifted : Document :=
  (@ModelSet.apply Syntax.separatorReader
    ⟨(@ModelSet.apply Syntax.separatorReader ⟨separatorFile, [⟨5, ['a']⟩]⟩ (.addEntry .reducers ['e'] ['2'])).1.doc,
      [⟨5, ['a']⟩]⟩ (.removeEntry .reducers ['a'])).1.doc

theorem separatorShifted_reached : @Reached Syntax.separatorReader separatorFile separatorShifted := by
  have start := @Reached.refl Syntax.separatorReader separatorFile
  have entered := @Reached.edit Syntax.separatorReader _ _ start [⟨5, ['a']⟩] (by decide +kernel) (.addEntry .reducers ['e'] ['2'])
  exact @Reached.edit Syntax.separatorReader _ _ entered [⟨5, ['a']⟩] (by decide +kernel) (.removeEntry .reducers ['a'])

theorem slots_in_order_shifted :
    separatorShifted.print = "x=\x7bnamespace:'a',reducers:\x7b/*\n*/b:2, e: 2\x7d\x7d".toList ∧
      separatorShifted.placed 18 (separatorShifted.objectSetting 18 0 ⟨26, 44⟩).layout = [(27, some 1), (35, none)] ∧
      separatorShifted.InOrder 18 (separatorShifted.objectSetting 18 0 ⟨26, 44⟩) := by
  have file : @Document.parse Syntax.separatorReader .markup Syntax.separatorText = .ok separatorFile := rfl
  exact ⟨by decide +kernel, by decide +kernel, @slots_in_order _ _ _ _ _ _ _ Syntax.separatorReader
    separatorShifted_reached file (fun text _ => Syntax.meets_of_lookup (by decide +kernel) _ text) (by decide +kernel) (by decide +kernel) (by decide +kernel)⟩

end Document

end StoreModels
