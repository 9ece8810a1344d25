import StoreModels.Proofs.Document.Parted
import StoreModels.Proofs.Model.Entered

/-!
Taking entries out of an object literal. However many entries go, as long as one stays: what is printed is the text of the
literal with some stretches exchanged for blanks. In these stretches lie the entries that go with the comments that are
theirs; the other entries, their comments and the comments of the literal itself stay, with one comma between each two
entries that are left, and one behind the last of them exactly if there was one before.
-/
namespace StoreModels
open Syntax (Span Role Outline Dialect Tree Reader)
open Text (slice splice Ordered Exchange)

namespace Document
variable {doc doc' first : Document} {text source : List Char} {items : List Item} {gone : List NodeId} {dialect : Dialect}
  {k : NodeId} {span : Span} {layout : Layout} {buffer : BufferId}

/-! ## Literals that lose entries -/

/-- What is printed of a literal shows a part of its text where it was, with what comes before it and behind it exchanged on
    its own. -/
def Survives (text : List Char) (span : Span) (exchanges : List Exchange) (part : Span) : Prop :=
  ∃ before behind, exchanges = before ++ behind ∧ Ordered span.start part.start (before.map Prod.fst) ∧
    Ordered part.stop span.stop (behind.map Prod.fst) ∧ splice text span.stop span.start exchanges =
      splice text part.start span.start before ++ slice text part.start part.stop ++ splice text span.stop part.stop behind

/-- What the text of a literal loses when some of its entries go: exchanges for blanks that take with them these entries
    and the comments that are theirs, and nothing else but commas. -/
structure Strips (text : List Char) (span : Span) (items : List Item) (gone : List NodeId) (exchanges : List Exchange) :
    Prop where
  ordered : Ordered span.start span.stop (exchanges.map Prod.fst)
  blank : ∀ exchange ∈ exchanges, ∀ c ∈ exchange.2, Text.isBlank c = true
  entryStays : ∀ item ∈ items, item.isEntry = true → item.id ∉ gone → Survives text span exchanges item.span
  entryGoes : ∀ item ∈ items, item.isEntry = true → item.id ∈ gone → Text.goes exchanges item.span = true
  owned : ∀ item ∈ items, item.isComment = true → ∃ owner, Owns text items owner item
  commentStays : ∀ owner comment, Owns text items owner comment → (∀ entry ∈ owner, entry.id ∉ gone) →
    Survives text span exchanges comment.span
  commentGoes : ∀ entry comment, Owns text items (some entry) comment → entry.id ∈ gone →
    Text.goes exchanges comment.span = true
  /-- One comma is left between two entries that stay with none in between that does. -/
  between : ∀ front a between b rest, items = front ++ a :: (between ++ b :: rest) → a.isEntry = true → a.id ∉ gone →
    b.isEntry = true → b.id ∉ gone → (∀ item ∈ between, item.isEntry = true → item.id ∈ gone) →
    between.countP (isLeft exchanges) = 1
  /-- Behind the last entry that stays a comma is left if there was one behind the last entry. -/
  trailing : ∀ front a left front' last gap, items = front ++ a :: left → a.isEntry = true → a.id ∉ gone →
    (∀ item ∈ left, item.isEntry = true → item.id ∈ gone) → Gap items front' last gap [] →
    left.countP (isLeft exchanges) ≤ gap.countP Item.isComma ∧
      (left.countP (isLeft exchanges) = 0 ↔ gap.countP Item.isComma = 0)

theorem survives_of_stays {exchanges : List Exchange} (shares : layout.Shares text items)
    (ordered : Ordered layout.span.start layout.span.stop (exchanges.map Prod.fst)) {item : Item} (member : item ∈ items)
    (stays : Text.stays exchanges item.span = true) : Survives text layout.span exchanges item.span := by
  obtain ⟨low, inside, high⟩ := shares.inside.mem (List.mem_map_of_mem member)
  exact Text.splice_around text ordered (Nat.le_trans shares.opens low) inside (Nat.le_trans high shares.closes) stays

/-- Where commas and comments are written as such, what gives way strips the literal of the entries that go. -/
theorem strips_thinned (shares : layout.Shares text items) (any : layout.slots.any (staysIn gone) = true)
    (single : SingleCommas items) (wide : ∀ item ∈ items, item.isComma = true → item.span.start < item.span.stop)
    (solid : ∀ item ∈ items, item.isComment = true →
      (slice text item.span.start item.span.stop).head?.any (fun c => !Text.isBlank c) = true) :
    Strips text layout.span items gone (doc.thinnedExchanges text buffer (staysIn gone) layout) := by
  have lined := shares.lined
  have inner := @ordered_thinnedExchanges text (staysIn gone) doc _ buffer lined any
  have behind : Ordered layout.closeStart layout.span.stop (([] : List Exchange).map Prod.fst) := lined.closes
  have ordered : Ordered layout.span.start layout.span.stop
      ((doc.thinnedExchanges text buffer (staysIn gone) layout).map Prod.fst) := by
    simpa using (inner.append behind).mono (Nat.le_trans lined.opens lined.starts)
  refine ⟨ordered, isBlank_thinnedExchanges, ?entryStays, ?entryGoes, fun _ => Owns.total text, ?commentStays,
    ?commentGoes, ?between, ?trailing⟩
  case entryStays =>
    intro item member isEntry kept
    obtain ⟨front, behind, split⟩ := List.append_of_mem member
    obtain ⟨gap, rest, rfl, is⟩ := Gap.of_entry split isEntry
    exact survives_of_stays shares ordered member (has_stays shares (shares.entry_has is) kept)
  case entryGoes =>
    intro item member isEntry isGone
    obtain ⟨front, behind, split⟩ := List.append_of_mem member
    obtain ⟨gap, rest, rfl, is⟩ := Gap.of_entry split isEntry
    exact has_goes shares any (shares.entry_has is) isGone
  case commentStays =>
    intro owner comment owns kept
    obtain ⟨member, isComment⟩ := owns.isComment
    refine survives_of_stays shares ordered member ?_
    cases owner with
    | none => exact free_stays shares any owns (solid comment member isComment)
    | some entry => exact has_stays shares (shares.owned_has owns) (kept entry rfl)
  case commentGoes => exact fun entry comment owns isGone => has_goes shares any (shares.owned_has owns) isGone
  case between =>
    intro _ _ _ _ _ split entered kept entered' kept' allGone
    exact commas_between shares any single wide split entered kept entered' kept' allGone
  case trailing =>
    intro _ _ _ _ _ _ split entered kept allGone ends
    exact comma_trailing shares any single wide split entered kept allGone ends

/-- Where no entry goes nothing does. -/
theorem strips_nothing (shares : layout.Shares text items) (single : SingleCommas items) :
    Strips text layout.span items [] [] := by
  have ordered : Ordered layout.span.start layout.span.stop (([] : List Exchange).map Prod.fst) :=
    Nat.le_trans shares.opens (Nat.le_trans shares.inside.le shares.closes)
  have others : ∀ stretch : List Item, (∀ item ∈ stretch, item.isEntry = true → item.id ∈ ([] : List NodeId)) →
      ∀ item ∈ stretch, item.isEntry = false := by
    intro stretch allGone item member
    by_contra isEntry
    exact absurd (allGone item member (by simpa using isEntry)) (by simp)
  refine ⟨ordered, by simp, ?entryStays, by simp, fun _ => Owns.total text, ?commentStays, by simp, ?between, ?trailing⟩
  case entryStays => exact fun item member _ _ => survives_of_stays shares ordered member rfl
  case commentStays => exact fun owner comment owns _ => survives_of_stays shares ordered owns.isComment.1 rfl
  case between =>
    intro front a between b rest split entered _ entered' _ allGone
    rw [isLeft_nil]
    exact single front a between (b :: rest) ⟨split, entered, others between allGone, by simpa using entered'⟩ (by simp)
  case trailing =>
    intro front a left front' last gap split entered _ allGone ends
    obtain ⟨_, _, rfl⟩ := Gap.last_unique
      (⟨by simpa using split, entered, others left allGone, by simp⟩ : Gap items front a left []) ends
    simp [isLeft_nil]

/-! ## Taking entries out -/

/-- Taking entries out of a literal one after the other succeeds, and changes nothing else. -/
theorem removeEach_ok (sound : doc.Sound) (object : doc.role k = .object) (listed : gone ⊆ doc.children k)
    (nodup : gone.Nodup) :
    ∃ doc', gone.foldlM Document.remove doc = .ok doc' ∧ doc'.Sound ∧ Calm doc doc' (fun z => z = k) [] ∧
      doc'.children k = (doc.children k).filter (fun c => !gone.contains c) ∧
      ((doc'.node k).dirty = true ↔ (doc.node k).dirty = true ∨ gone ≠ []) := by
  induction gone generalizing doc with
  | nil => exact ⟨doc, rfl, sound, Calm.refl doc, by simp, by simp⟩
  | cons entry gone ih =>
    obtain ⟨child, listed⟩ := List.cons_subset.mp listed
    obtain ⟨fresh, nodup⟩ := List.nodup_cons.mp nodup
    have present := lt_of_mem_children child
    obtain ⟨doc₁, run, removed⟩ := remove_ok sound.forest (sound.forest.childParent child) object
    have listed' : gone ⊆ doc₁.children k := by
      intro c member
      rw [removed.place, List.mem_filter]
      exact ⟨listed member, by simpa using ne_of_mem_of_not_mem member fresh⟩
    obtain ⟨doc₂, run', sound', calm, children, dirty⟩ := ih (removed.sound sound object)
      ((removed.edited.ext.role present).trans object) listed' nodup
    have marked : (doc₁.node k).dirty = true := (removed.edited.dirty k).mpr (.inr (Below.refl doc₁ k))
    refine ⟨doc₂, ?_, sound', ?_, ?_, by simp [dirty, marked]⟩
    · rw [List.foldlM_cons, run]
      exact run'
    · exact (removed.calm.trans calm sound.forest (by simp)).mono sound.forest (fun z _ => by simp) (by simp) (by simp)
    · rw [children, removed.place, List.filter_filter]
      refine List.filter_congr fun c _ => ?_
      rw [Bool.eq_iff_iff]
      simp [and_comm]

/-- The items of a literal between its braces. -/
def between (doc : Document) (k : NodeId) : List Item := (doc.parsedItems k).tail.dropLast

/-- What the items of a literal are in the file that they were read from. -/
structure Literal (doc : Document) (k : NodeId) (span : Span) : Prop where
  origin : (doc.node k).origin = .parsed 0 span
  shares : (doc.layout k doc.source span).Shares doc.source (doc.between k)
  entries : doc.entries k = ((doc.between k).filter Item.isEntry).map Item.id
  places : ∀ item ∈ doc.between k, doc.IsAt 0 item.id item.part
  comma : ∀ item ∈ doc.between k, item.isComma = true → slice doc.source item.span.start item.span.stop = [',']
  solid : ∀ item ∈ doc.between k, item.isComment = true →
    (slice doc.source item.span.start item.span.stop).head?.any (fun c => !Text.isBlank c) = true

/-- The object literals of a file as it was parsed. -/
theorem Fresh.literal {program : Tree} (fresh : first.Fresh program)
    (spelled : ∀ t ∈ program.subtrees, t.outline.Spelled first.source t.kind t.span) (object : first.role k = .object)
    (some : first.entries k ≠ []) : ∃ span, first.Literal k span := by
  have lt := lt_of_role object (by decide)
  obtain ⟨t, member, mirrors⟩ := fresh.mirrors k lt
  obtain ⟨ordered, braces, written⟩ := spelled t member
  have places : List.Forall₂ (first.IsAt 0) (first.node k).firstChildren t.outline := by
    rw [mirrors.firstChildren, Tree.outline, List.forall₂_map_right_iff]
    exact mirrors.children.imp fun c u reads => ⟨reads.kind, reads.origin⟩
  obtain ⟨parts, ids, each⟩ := parsedItems_of_places places
  have kind : Role.ofKind t.kind = .object := by rw [← mirrors.kind]; exact object
  have braces := (braces kind).resolve_left fun keyword => some (by
    rw [keyword.1] at places
    rw [entries, ← mirrors.firstChildren, List.forall₂_nil_right_iff.mp places, List.filter_nil])
  obtain ⟨opening, inner, closing, framed, _, _⟩ := framed_of_places places ordered braces
  have parsed : first.parsedItems k = opening :: (inner ++ [closing]) := framed.split
  rw [← parts, parsed] at written
  rw [parsed] at ids each
  have between : first.between k = inner := by simp [Document.between, parsed]
  have within : ∀ item ∈ inner, item ∈ opening :: (inner ++ [closing]) := fun item member => by simp [member]
  refine ⟨t.span, mirrors.origin, ?_, ?_, ?_, ?_, ?_⟩
  · rw [between, layout]
    exact framed.shares
  · have roles : ∀ item ∈ opening :: (inner ++ [closing]), (first.role item.id).isEntry = item.isEntry := fun item member => by
      rw [role, Node.role, (each item member).1]
      rfl
    rw [between, entries, ← mirrors.firstChildren, ← ids, List.filter_map]
    refine congrArg _ ((List.filter_congr roles).trans ?_)
    simp [framed.openKind, framed.closeKind]
  · rw [between]
    exact fun item member => each item (within item member)
  · rw [between]
    intro item member isComma
    exact (written item.part (List.mem_map_of_mem (within item member))).1 (beq_iff_eq.mp isComma)
  · rw [between]
    intro item member isComment
    exact (written item.part (List.mem_map_of_mem (within item member))).2 (beq_iff_eq.mp isComment)

namespace Literal
variable {entry : NodeId} (literal : first.Literal k span)
include literal

theorem ids : (first.layout k first.source span).slots.map Slot.id = first.entries k := by
  rw [literal.shares.slots, slots_ids, literal.entries]

/-- The entry of a slot was read from the place of the slot. -/
theorem slot_origin {slot : Slot} (member : slot ∈ (first.layout k first.source span).slots) :
    slot.id ∈ first.children k ∧ (first.node slot.id).origin = .parsed 0 slot.span := by
  have listed : slot.id ∈ first.entries k := literal.ids ▸ List.mem_map_of_mem member
  refine ⟨List.mem_of_mem_filter listed, ?_⟩
  rw [literal.shares.slots] at member
  have pair := List.mem_map_of_mem (f := fun slot : Slot => (slot.id, slot.span)) member
  rw [slotsOf_entries] at pair
  obtain ⟨group, among, same⟩ := List.mem_map.mp pair
  obtain ⟨id, place⟩ := Prod.mk.inj same
  have item : group.1 ∈ (first.between k).filter Item.isEntry := by
    rw [filter_isEntry]
    exact List.mem_map_of_mem among
  rw [← id, ← place]
  exact (literal.places _ (List.mem_of_mem_filter item)).2

/-- Some slots keep their entries where some entry stays. -/
theorem any_stays (proper : ∃ entry ∈ first.entries k, entry ∉ gone) :
    (first.layout k first.source span).slots.any (staysIn gone) = true := by
  obtain ⟨entry, member, stays⟩ := proper
  rw [← literal.ids] at member
  obtain ⟨slot, listed, rfl⟩ := List.mem_map.mp member
  exact List.any_eq_true.mpr ⟨slot, listed, by simpa [staysIn] using stays⟩

/-- The literal of a fresh file once some of its entries have gone: its text with what gives way exchanged. -/
theorem print_removed {program : Tree} (fresh : first.Fresh program) (object : first.role k = .object)
    (single : SingleCommas (first.between k)) (proper : ∃ entry ∈ first.entries k, entry ∉ gone) (sound : doc.Sound)
    (calm : Calm first doc (fun z => z = k) []) (dirty : (doc.node k).dirty = true)
    (children : doc.children k = (first.children k).filter fun c => !gone.contains c) :
    doc.printNode k = splice first.source span.stop span.start
      (doc.thinnedExchanges first.source 0 (staysIn gone) (first.layout k first.source span)) := by
  have lt := lt_of_role object (by decide)
  have origin : (doc.node k).origin = .parsed 0 span := (calm.ext.origin k lt).trans literal.origin
  have role : (doc.node k).role = .object := (calm.ext.role lt).trans object
  have text : doc.buffer 0 = first.source := calm.ext.buffer fresh.texts
  have laid := fresh.sound.layout_extends calm.ext lt first.source span
  have any := literal.any_stays proper
  have entries : ((doc.children k).filter fun c => (doc.role c).isEntry) =
      ((first.layout k first.source span).slots.filter (staysIn gone)).map Slot.id := by
    have roles : ∀ c ∈ first.children k, (doc.role c).isEntry = (first.role c).isEntry := fun c member => by
      rw [calm.ext.role (fresh.sound.forest.childLt member)]
    have kept : ((first.layout k first.source span).slots.filter (staysIn gone)).map Slot.id =
        ((first.layout k first.source span).slots.map Slot.id).filter fun id => !gone.contains id := by
      rw [List.filter_map]
      rfl
    rw [kept, literal.ids, children, Document.entries, List.filter_filter, List.filter_filter]
    exact List.filter_congr fun c member => by rw [roles c member, Bool.and_comm]
  have some : (first.layout k first.source span).slots ≠ [] := fun none => by
    rw [none] at any
    cases any
  have left : ((doc.children k).filter fun c => (doc.role c).isEntry) ≠ [] := by
    obtain ⟨slot, member, stays⟩ := List.any_eq_true.mp any
    rw [entries]
    exact List.ne_nil_of_mem (List.mem_map_of_mem (List.mem_filter.mpr ⟨member, stays⟩))
  have verbatim : ∀ slot ∈ (first.layout k first.source span).slots, staysIn gone slot = true →
      doc.printChild doc.render slot.id ((first.layout k first.source span).entryIndent first.source) 0 =
        slice first.source slot.span.start slot.span.stop := fun slot member _ => by
    obtain ⟨child, parsed⟩ := literal.slot_origin member
    have present := fresh.sound.forest.childLt child
    obtain ⟨_, _, mirrors⟩ := fresh.mirrors slot.id present
    have apart : first.Apart (fun z => z = k) slot.id := fun z same under =>
      fresh.sound.forest.not_below_parent child (same ▸ under)
    have clean : (doc.node slot.id).dirty = false := (calm.dirty slot.id present apart).trans mirrors.clean
    rw [printChild_clean sound.forest ((calm.ext.origin slot.id present).trans parsed) clean, text]
  have printed := @printObjectEntries_thinned first.source (staysIn gone) doc doc.render _ _ 0 literal.shares.lined
    (literal.ids ▸ (fresh.sound.forest.distinct k).filter _) entries any verbatim
    (by
      intro front slot back split more
      rw [literal.shares.slots] at split
      exact single.slots split more)
  show doc.render k [] _ = _
  rw [sound.forest.render_eq]
  simp only [printWith, origin, dirty, role, Bool.not_true, Bool.false_eq_true, if_false, if_true, printObject, text, laid]
  rw [if_neg (by simpa using some), if_neg (by simpa using left)]
  exact printed.1

end Literal

/-- Taking entries out of an object literal of a file, in any order, as long as one stays, succeeds and strips the text of
    the literal of these entries and of the comments that are theirs. -/
theorem remove_strips [Reader] {original : Document} (file : Document.parse dialect source = .ok original)
    (spelled : Reader.Meets Outline.Spelled dialect source) {indent : List Char}
    (is : first = original.withFallbackIndent indent) (object : first.role k = .object)
    (single : SingleCommas (first.between k)) (listed : gone ⊆ first.entries k) (nodup : gone.Nodup)
    (proper : ∃ entry ∈ first.entries k, entry ∉ gone) :
    ∃ doc span exchanges, gone.foldlM Document.remove first = .ok doc ∧ (first.node k).origin = .parsed 0 span ∧
      doc.printNode k = splice source span.stop span.start exchanges ∧
      Strips source span (first.between k) gone exchanges := by
  obtain ⟨program, read, fresh⟩ := Fresh.ofFile file indent
  rw [← is] at fresh
  have sourceIs : first.source = source := by
    rw [Document.source, is, buffer, withFallbackIndent, (parse_buffers file).1]
    rfl
  have some : first.entries k ≠ [] := by
    obtain ⟨entry, member, _⟩ := proper
    exact List.ne_nil_of_mem member
  obtain ⟨span, literal⟩ := fresh.literal (sourceIs ▸ spelled program read) object some
  obtain ⟨doc, run, sound, calm, children, dirty⟩ := removeEach_ok fresh.sound object
    (fun _ member => List.mem_of_mem_filter (listed member)) nodup
  rw [← sourceIs]
  by_cases none : gone = []
  · subst none
    cases run
    obtain ⟨t, _, mirrors⟩ := fresh.mirrors k (lt_of_role object (by decide))
    refine ⟨first, span, [], rfl, literal.origin, sound.forest.render_clean literal.origin mirrors.clean _ _, ?_⟩
    exact strips_nothing literal.shares single
  · refine ⟨doc, span, _, run, literal.origin, literal.print_removed fresh object single proper sound calm
      (dirty.mpr (.inr none)) children, ?_⟩
    refine strips_thinned literal.shares (literal.any_stays proper) single (fun item member isComma => ?_) literal.solid
    have written := literal.comma item member isComma
    by_contra empty
    rw [Text.slice_empty _ (Nat.le_of_not_lt empty)] at written
    cases written

/-- Without its first entry, whose comment ends its line, the container keeps the comment above the second one. -/
theorem remove_strips_sample :
    ∃ doc span exchanges, [20].foldlM Document.remove separatorFile = .ok doc ∧
      doc.printNode 18 = "\x7b/*\n*/b:2\x7d".toList ∧
      doc.printNode 18 = splice Syntax.separatorText span.stop span.start exchanges ∧
      Strips Syntax.separatorText span (separatorFile.between 18) [20] exchanges := by
  have single : SingleCommas (separatorFile.between 18) := singleCommas_of_groups (by decide +kernel)
  have same : separatorFile = separatorFile.withFallbackIndent separatorFile.fallbackIndent := withFallbackIndent_self.symm
  have spelled : @Reader.Meets Syntax.separatorReader Outline.Spelled .markup Syntax.separatorText :=
    Syntax.meets_of_lookup (by decide +kernel) _ _
  have file : @Document.parse Syntax.separatorReader .markup Syntax.separatorText = .ok separatorFile := rfl
  obtain ⟨doc, span, exchanges, run, _, printed, strips⟩ := @remove_strips _ _ [20] _ 18 Syntax.separatorReader _ file spelled
    _ same (by decide +kernel) single (by decide +kernel) (by decide) ⟨27, by decide +kernel, by decide⟩
  have shown : (([20].foldlM Document.remove separatorFile).toOption.map fun doc => doc.printNode 18) =
      some "\x7b/*\n*/b:2\x7d".toList := by decide +kernel
  rw [run] at shown
  exact ⟨doc, span, exchanges, run, Option.some.inj shown, printed, strips⟩

end Document

end StoreModels
