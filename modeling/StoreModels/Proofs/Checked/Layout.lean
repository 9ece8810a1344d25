import StoreModels.Proofs.Document.Printing
import StoreModels.Proofs.Literal.Quoting
import StoreModels.Proofs.Checked.Walk

/-!
The layout of an object literal, where cutting a part out of a text and taking a slot from a list can fail. It fails
nowhere as long as the children of the literal lie one after another inside it and are its two braces at least. Whether
they are separated by commas, or whether a line comment has its line feed, does not matter.
-/
namespace StoreModels.Checked
open Syntax (Span Role Outline)
open Text (Ordered)

variable {doc : Document} {id : NodeId} {text : List Char} {entry : Span} {next : Option Nat} {passed : Bool}
  {closing : Closing} {items : List Item} {start stop : Nat} {slots : List Slot} {layout : Layout}

/-! ## What is asked of trees -/

/-- Whether the part of a text that a node was read from lies in the text, its children lie one after another inside it,
    an object literal has a first and a last child that are its braces, and a string literal is between quotes. The
    keywords that go by the names of these kinds have neither. -/
def Stands (text : List Char) (kind : String) (span : Span) (outline : Outline) : Prop :=
  span.stop ≤ text.length ∧ Ordered span.start span.stop (outline.map Prod.snd) ∧
    (Role.ofKind kind = .object → outline.IsKeyword text kind span ∨ 2 ≤ outline.length) ∧
    (Role.ofKind kind = .stringLiteral → outline.IsKeyword text kind span ∨
      (Text.slice text span.start span.stop).head?.any Literal.isQuote = true ∧
        (Text.slice text span.start span.stop).getLast?.any Literal.isQuote = true)

instance (text : List Char) (kind : String) (span : Span) (outline : Outline) :
    Decidable (Stands text kind span outline) :=
  inferInstanceAs (Decidable (_ ∧ _ ∧ (_ → _) ∧ (_ → _)))

/-- A document without a hole: it is sound, its root was read from the file, and what its nodes were parsed as stands in
    its texts. -/
structure Intact (doc : Document) : Prop where
  sound : doc.Sound
  root : doc.root < doc.nodes.size
  home : (doc.node doc.root).buffer? = some 0
  laid : doc.Laid Stands

/-! ## Slots -/

/-- Whether a line ends between a position and what comes next, if anything does. -/
def endsLine (text : List Char) (position : Nat) : Option Nat → Option Bool
  | none => some true
  | some n => (slice text position n).map (·.contains '\n')

theorem endsLine_some {position : Nat} (after : ∀ n ∈ next, position ≤ n ∧ n ≤ text.length) :
    endsLine text position next = some (next.elim true fun n => (Text.slice text position n).contains '\n') := by
  cases next with
  | none => rfl
  | some n =>
    obtain ⟨le, inside⟩ := after n rfl
    rw [endsLine, slice_some le inside]
    rfl

theorem ite_some {α β : Type} {c : Prop} {_ : Decidable c} (f : α → β) (a b : α) :
    (if c then some (f a) else some (f b)) = some (f (if c then a else b)) := by
  split <;> rfl

/-- The items after an entry shared out between it and the next one. -/
def closeGap (text : List Char) (entry : Span) (next : Option Nat) : Bool → Closing → List Item → Option Closing
  | _, closing, [] => some closing
  | passed, closing, item :: rest =>
    if item.isComma && !passed then
      closeGap text entry next true
        { closing with tailEnd := max closing.tailEnd item.span.stop, lineComment := false, comma := some item.span } rest
    else if item.isComment then do
      let beforeComma := !passed && rest.any Item.isComma
      let sameLine := !(← slice text entry.stop item.span.start).contains '\n'
      let endsLine ← endsLine text item.span.stop next
      let closing ←
        if closing.lead.isSome then some closing
        else if beforeComma || (sameLine && endsLine) then
          (slice text item.span.start item.span.stop).map fun comment =>
            { closing with tailEnd := item.span.stop, lineComment := ['/', '/'].isPrefixOf comment }
        else some { closing with lead := some item.span.start }
      closeGap text entry next passed closing rest
    else closeGap text entry next passed closing rest

theorem closeGap_some (ordered : Ordered start stop (items.map Item.span)) (low : entry.stop ≤ start)
    (after : ∀ n ∈ next, n = stop) (inside : stop ≤ text.length) :
    closeGap text entry next passed closing items = some (StoreModels.closeGap text entry next passed closing items) := by
  induction items generalizing start passed closing with
  | nil => rfl
  | cons item rest ih =>
    obtain ⟨before, wide, behind⟩ := ordered
    have reach := behind.le
    have later : ∀ {passed closing}, closeGap text entry next passed closing rest =
        some (StoreModels.closeGap text entry next passed closing rest) := ih behind (by omega)
    have gap := @slice_some text entry.stop item.span.start (by omega) (by omega)
    have comment := @slice_some text _ _ wide (by omega)
    have ends := @endsLine_some text next item.span.stop fun n member => by
      rw [after n member]
      exact ⟨reach, inside⟩
    simp only [closeGap, StoreModels.closeGap, later, gap, comment, ends, Option.bind_eq_bind, Option.bind_some,
      Option.map_some]
    by_cases comma : (item.isComma && !passed) = true
    · rw [if_pos comma, if_pos comma]
    · rw [if_neg comma, if_neg comma]
      by_cases isComment : item.isComment = true
      · rw [if_pos isComment, if_pos isComment]
        by_cases led : closing.lead.isSome = true
        · rw [if_pos led, if_pos led]
        · rw [if_neg led, if_neg led]
          cases next <;> exact ite_some (StoreModels.closeGap text entry _ passed · rest) _ _
      · rw [if_neg isComment, if_neg isComment]

/-- The slots of entries. -/
def slotsOf (text : List Char) : Option Nat → List (Item × List Item) → Option (List Slot)
  | _, [] => some []
  | lead, (entry, gap) :: rest => do
    let next := rest.head?.map fun (e, _) => e.span.start
    let closing ← closeGap text entry.span next false ⟨none, entry.span.stop, false, none⟩ gap
    let slots ← slotsOf text closing.lead rest
    return { id := entry.id, span := entry.span, lead, comma := closing.comma, tailEnd := closing.tailEnd
             lineComment := closing.lineComment } :: slots

theorem slotsOf_some {groups : List (Item × List Item)} {lead : Option Nat}
    (ordered : Ordered start stop ((flatten groups).map Item.span)) (inside : stop ≤ text.length) :
    slotsOf text lead groups = some (StoreModels.slotsOf text lead groups) := by
  induction groups generalizing lead start with
  | nil => rfl
  | cons group rest ih =>
    obtain ⟨entry, gap⟩ := group
    obtain ⟨_, _, between, after⟩ := Ordered.group ordered
    have next : ∀ n ∈ rest.head?.map fun (e, _) => e.span.start, n = groupsAt stop rest := by
      intro n member
      rw [groupsAt, Option.mem_def.mp member]
      rfl
    have closing := @closeGap_some text entry.span _ false ⟨none, entry.span.stop, false, none⟩ _ _ _ between (Nat.le_refl _)
      next (Nat.le_trans after.le inside)
    simp only [slotsOf, StoreModels.slotsOf, closing, Option.bind_eq_bind, Option.bind_some, ih after]
    rfl

/-! ## Layouts -/

/-- The children that a node was parsed with. -/
def parsedItems (doc : Document) (id : NodeId) : Option (List Item) := do
  let places ← (← node doc id).firstChildren.mapM fun c => do
    let child ← node doc c
    return child.span?.map fun span => { id := c, kind := child.kind, span : Item }
  return places.filterMap fun place => place

theorem parsedItems_some (sound : doc.Sound) (lt : id < doc.nodes.size) :
    parsedItems doc id = some (doc.parsedItems id) := by
  have places : (doc.node id).firstChildren.mapM (fun c => do
      let child ← node doc c
      return child.span?.map fun span => { id := c, kind := child.kind, span : Item }) =
      some ((doc.node id).firstChildren.map fun c =>
        (doc.node c).span?.map fun span => { id := c, kind := (doc.node c).kind, span : Item }) := by
    refine mapM_some fun c member => ?_
    rw [node_some (sound.firstLt member)]
    rfl
  rw [parsedItems, node_some lt, Option.bind_eq_bind, Option.bind_some, places, Option.bind_eq_bind, Option.bind_some,
    List.filterMap_map]
  rfl

/-- The layout of a literal, whose first and last item are its braces. -/
def ofItems (text : List Char) (span : Span) (items : List Item) : Option Layout := do
  let openEnd := (items.head?.map (·.span.stop)).getD (span.start + 1)
  let closeStart ← match items.getLast? with
    | some last => some last.span.start
    | none => if 0 < span.stop then some (span.stop - 1) else none
  let inner := items.filter fun item => openEnd ≤ item.span.start && item.span.stop ≤ closeStart
  return { span, openEnd, closeStart, slots := ← slotsOf text none (groupItems inner).2 }

/-- The layout of an object literal. -/
def layoutOf (doc : Document) (id : NodeId) (text : List Char) (span : Span) : Option Layout := do
  ofItems text span (← parsedItems doc id)

/-- A layout divides a literal in order. -/
structure Divides (layout : Layout) : Prop where
  opens : layout.span.start ≤ layout.openEnd
  starts : layout.openEnd ≤ beginsAt layout.closeStart layout.slots
  chained : Chained layout.closeStart layout.slots
  closes : layout.closeStart ≤ layout.span.stop

theorem ordered_within {spans : List Span} {low high : Nat} (le : low ≤ high) (ordered : Ordered start stop spans)
    (within : ∀ span ∈ spans, low ≤ span.start ∧ span.stop ≤ high) : Ordered low high spans := by
  induction spans generalizing start low with
  | nil => exact le
  | cons span rest ih =>
    obtain ⟨_, inside, behind⟩ := ordered
    obtain ⟨here, later⟩ := List.forall_mem_cons.mp within
    exact ⟨here.1, inside, ih here.2 behind fun s member => ⟨(behind.mem member).1, (later s member).2⟩⟩

/-- A list of two elements or more has a first one and another last one. -/
theorem ends_of_length {α : Type} {xs : List α} (two : 2 ≤ xs.length) :
    ∃ first inner last, xs = first :: (inner ++ [last]) := by
  cases xs with
  | nil => cases two
  | cons first rest =>
    rcases List.eq_nil_or_concat rest with rfl | ⟨inner, last, rfl⟩
    · simp at two
    · exact ⟨first, inner, last, by rw [List.concat_eq_append]⟩

/-- The layout of items that lie one after another divides what is around them. -/
theorem ofItems_divides {span : Span} (ordered : Ordered span.start span.stop (items.map Item.span))
    (two : 2 ≤ items.length) (inside : span.stop ≤ text.length) :
    Divides (Layout.ofItems text span items) ∧ ofItems text span items = some (Layout.ofItems text span items) := by
  obtain ⟨opening, middle, last, rfl⟩ := ends_of_length two
  have lastIs : (opening :: (middle ++ [last])).getLast? = some last := by
    rw [← List.cons_append, List.getLast?_append]
    rfl
  obtain ⟨inner, innerIs⟩ : ∃ inner, inner = (opening :: (middle ++ [last])).filter fun item =>
      decide (opening.span.stop ≤ item.span.start) && decide (item.span.stop ≤ last.span.start) := ⟨_, rfl⟩
  have is : Layout.ofItems text span (opening :: (middle ++ [last])) =
      ⟨span, opening.span.stop, last.span.start, StoreModels.slotsOf text none (groupItems inner).2⟩ := by
    unfold Layout.ofItems
    rw [lastIs, innerIs]
    rfl
  have sub : (inner.map Item.span).Sublist ((opening :: (middle ++ [last])).map Item.span) :=
    innerIs ▸ List.filter_sublist.map _
  have within : Ordered span.start span.stop (inner.map Item.span) := ordered.sublist sub
  obtain ⟨opens, _, behind⟩ := ordered
  rw [List.map_append] at behind
  obtain ⟨between, after⟩ := behind.split
  have between : opening.span.stop ≤ last.span.start := between.le
  have closes : last.span.start ≤ span.stop := Nat.le_trans after.2.1 after.2.2
  have within : Ordered opening.span.stop last.span.start (inner.map Item.span) := by
    refine ordered_within between within fun s member => ?_
    obtain ⟨item, listed, rfl⟩ := List.mem_map.mp member
    rw [innerIs, List.mem_filter, Bool.and_eq_true, decide_eq_true_eq, decide_eq_true_eq] at listed
    exact listed.2
  rw [(groupItems_spec inner).1, List.map_append] at within
  obtain ⟨head, groups⟩ := within.split
  have slots := @slotsOf_some text _ _ _ none groups (Nat.le_trans closes inside)
  rw [is]
  refine ⟨⟨?_, ?_, slotsOf_chained groups fun _ _ => Nat.le_refl _, closes⟩, ?_⟩
  · show span.start ≤ opening.span.stop
    omega
  · show opening.span.stop ≤ beginsAt last.span.start (StoreModels.slotsOf text none (groupItems inner).2)
    have low := head.le
    cases grouped : (groupItems inner).2 with
    | nil => exact between
    | cons group rest =>
      rw [grouped] at low
      exact low
  · rw [ofItems, lastIs, List.head?_cons, Option.map_some, Option.getD_some]
    simp only [Option.bind_eq_bind, Option.bind_some, ← innerIs, slots]
    rfl

/-- The layout of a keyword has no slots. -/
theorem ofItems_bare {span : Span} (wide : span.start + 1 < span.stop) :
    Divides (Layout.ofItems text span []) ∧ ofItems text span [] = some (Layout.ofItems text span []) := by
  have fits : span.start + 1 ≤ span.stop - 1 := by omega
  refine ⟨⟨Nat.le_succ _, fits, trivial, Nat.sub_le _ _⟩, ?_⟩
  rw [ofItems, List.getLast?_nil, if_pos (by omega)]
  rfl

/-- The layout of a literal that stands in its text. -/
theorem layoutOf_some {buffer : BufferId} {span : Span} (intact : Intact doc) (lt : id < doc.nodes.size)
    (parsed : (doc.node id).origin = .parsed buffer span) (object : doc.role id = .object) :
    Divides (doc.layout id (doc.buffer buffer) span) ∧
      layoutOf doc id (doc.buffer buffer) span = some (doc.layout id (doc.buffer buffer) span) := by
  obtain ⟨outline, places, inside, ordered, shape, _⟩ := intact.laid id buffer span parsed
  obtain ⟨items, _, _⟩ := Document.parsedItems_of_places places
  have found : Divides (Layout.ofItems (doc.buffer buffer) span (doc.parsedItems id)) ∧
      ofItems (doc.buffer buffer) span (doc.parsedItems id) =
        some (Layout.ofItems (doc.buffer buffer) span (doc.parsedItems id)) := by
    rcases shape object with keyword | two
    · have none : doc.parsedItems id = [] := List.map_eq_nil_iff.mp (items.trans keyword.1)
      rw [none]
      exact ofItems_bare (keyword.wide object)
    · have spans : (doc.parsedItems id).map Item.span = outline.map Prod.snd := by
        rw [← items, List.map_map]
        rfl
      exact ofItems_divides (spans ▸ ordered) (by
        rw [← List.length_map Item.part, items]
        exact two) inside
  rw [layoutOf, parsedItems_some intact.sound lt]
  exact found

/-- What stands between the opening brace and the first entry. -/
def before (layout : Layout) (text : List Char) : Option (List Char) :=
  slice text layout.openEnd ((layout.slots.head?.map (·.span.start)).getD layout.closeStart)

/-- What stands between the last entry's tail and the closing brace. -/
def after (layout : Layout) (text : List Char) : Option (List Char) :=
  slice text ((layout.slots.getLast?.map (·.tailEnd)).getD layout.openEnd) layout.closeStart

/-- What stands between the entry at a position and the one before it. -/
def gapBefore (layout : Layout) (text : List Char) (position : Nat) : Option (List Char) := do
  let previous ← layout.slots[position - 1]?
  let slot ← layout.slots[position]?
  slice text previous.tailEnd slot.begins

theorem beginsAt_le (chained : Chained stop slots) : beginsAt stop slots ≤ stop := by
  induction slots with
  | nil => exact Nat.le_refl _
  | cons slot rest ih =>
    obtain ⟨lies, behind⟩ := chained
    have := ih behind
    have := lies.begins
    have := lies.inside
    have := lies.tail
    have := lies.stops
    show slot.begins ≤ stop
    omega

theorem chained_drop (chained : Chained stop slots) (n : Nat) : Chained stop (slots.drop n) := by
  induction slots generalizing n with
  | nil => rw [List.drop_nil]; trivial
  | cons slot rest ih =>
    cases n with
    | zero => exact chained
    | succ n => exact ih chained.2 n

/-- Each slot lies before where the next one begins. -/
theorem chained_get {slot : Slot} {q : Nat} (chained : Chained stop slots) (at_q : slots[q]? = some slot) :
    slot.Lies (beginsAt stop (slots.drop (q + 1))) := by
  obtain ⟨lt, is⟩ := List.getElem?_eq_some_iff.mp at_q
  have here := chained_drop chained q
  rw [List.drop_eq_getElem_cons lt, is] at here
  exact here.1

theorem lies_le {slot : Slot} {q : Nat} (chained : Chained stop slots) (at_q : slots[q]? = some slot) :
    slot.Lies stop := by
  have lies := chained_get chained at_q
  exact ⟨lies.begins, lies.inside, lies.tail, Nat.le_trans lies.stops (beginsAt_le (chained_drop chained _)), lies.comma⟩

section Parts
variable (divides : Divides layout) (inside : layout.span.stop ≤ text.length)
include divides inside

theorem closeStart_le : layout.closeStart ≤ text.length := Nat.le_trans divides.closes inside

theorem before_some : before layout text = some (layout.before text) := by
  have inside := closeStart_le divides inside
  have starts := divides.starts
  have chained := divides.chained
  rw [before, Layout.before]
  cases slots : layout.slots with
  | nil =>
    rw [slots] at starts
    exact slice_some starts inside
  | cons slot rest =>
    rw [slots] at starts chained
    have lies := lies_le (q := 0) chained rfl
    refine slice_some (Nat.le_trans starts lies.begins) ?_
    have := lies.inside
    have := lies.tail
    have := lies.stops
    show slot.span.start ≤ text.length
    omega

theorem after_some : after layout text = some (layout.after text) := by
  have inside := closeStart_le divides inside
  have starts := divides.starts
  rw [after, Layout.after]
  cases last : layout.slots.getLast? with
  | none =>
    rw [List.getLast?_eq_none_iff] at last
    rw [last] at starts
    exact slice_some starts inside
  | some slot =>
    rw [List.getLast?_eq_getElem?] at last
    exact slice_some (lies_le divides.chained last).stops inside

theorem gapBefore_some {q : Nat} (positive : 0 < q) (lt : q < layout.slots.length) :
    gapBefore layout text q = some (layout.gapBefore text q) := by
  have inside := closeStart_le divides inside
  obtain ⟨previous, at_p⟩ : ∃ slot, layout.slots[q - 1]? = some slot := ⟨_, List.getElem?_eq_getElem (by omega)⟩
  obtain ⟨slot, at_q⟩ : ∃ slot, layout.slots[q]? = some slot := ⟨_, List.getElem?_eq_getElem lt⟩
  have reach := (chained_get divides.chained at_p).stops
  have next : layout.slots.drop (q - 1 + 1) = slot :: layout.slots.drop (q + 1) := by
    rw [Nat.sub_add_cancel positive, List.drop_eq_getElem_cons lt, (List.getElem?_eq_some_iff.mp at_q).2]
  rw [next] at reach
  have lies := lies_le divides.chained at_q
  have stop : slot.begins ≤ text.length := by
    have := lies.begins
    have := lies.inside
    have := lies.tail
    have := lies.stops
    omega
  rw [gapBefore, Layout.gapBefore, at_p, at_q]
  exact slice_some reach stop

end Parts

/-! ## Positions -/

/-- The position among some slots that an entry has, or that the nodes had whose place it took. -/
def slotPosition (doc : Document) (slots : List Slot) : Nat → NodeId → Option (Option Nat)
  | 0, _ => none
  | fuel + 1, id =>
    match slots.findIdx? (·.id == id) with
    | some position => some (some position)
    | none => do
      match (← node doc id).replaces with
      | some old => slotPosition doc slots fuel old
      | none => return none

theorem slotPosition_some (sound : doc.Sound) (slots : List Slot) (lt : id < doc.nodes.size) :
    slotPosition doc slots (doc.nodes.size + 1) id = some (doc.slotPosition? slots (doc.nodes.size + 1) id) := by
  have back : ∀ (fuel : Nat) (id : NodeId), id < doc.nodes.size →
      Document.Within (fun id => (doc.node id).replaces.toList) fuel id →
      slotPosition doc slots fuel id = some (doc.slotPosition? slots fuel id) := by
    intro fuel
    induction fuel with
    | zero => exact fun _ _ within => within.elim
    | succ fuel ih =>
      intro id lt within
      rw [slotPosition, Document.slotPosition?, node_some lt]
      cases slots.findIdx? (·.id == id) with
      | some position => rfl
      | none =>
        cases took : (doc.node id).replaces with
        | none => simp [took]
        | some old =>
          simp only [Option.bind_eq_bind, Option.bind_some, took]
          exact ih old (sound.takenLt took) (within old (by simp [took]))
  exact back _ id lt (sound.places_within id)

theorem slotPosition_lt {fuel q : Nat} (found : doc.slotPosition? slots fuel id = some q) : q < slots.length := by
  induction fuel generalizing id with
  | zero => cases found
  | succ fuel ih =>
    rw [Document.slotPosition?] at found
    split at found
    next position here =>
      cases found
      exact (List.findIdx?_eq_some_iff_getElem.mp here).1
    next =>
      obtain ⟨old, _, later⟩ := Option.bind_eq_some_iff.mp found
      exact ih later

end StoreModels.Checked
