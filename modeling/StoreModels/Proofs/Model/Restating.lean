import StoreModels.Proofs.Document.Reseated
import StoreModels.Proofs.Model.Filled
import StoreModels.Proofs.Record.Matched
import StoreModels.Proofs.Record.Positions

/-!
Files in which an expression has taken the places of targets. The text that is read again has the models that it had,
one by one with their namespaces, and where the last entry under the name was a target, it now holds the expression, which
has the value that it had as a snippet.
-/
namespace StoreModels
open Syntax (Seat Substitute Outline)

namespace Document
variable {first : Document} {seat : Seat} {t : Target} {p x e z : NodeId}

/-! ## The expression -/

section
variable {doc again : Document} {substitute : Substitute} {indent : List Char} {buffer : BufferId} {tree y z : NodeId}
  {v : Value} (is : again.IsSubstitute substitute indent y) (bears : doc.Bears buffer tree substitute.expression)
  (text : doc.buffer buffer = substitute.text) (conforms : substitute.expression.Conforms substitute.text)
  (forest : doc.Forest) (forest' : again.Forest) (unbroken : doc.Unbroken tree)
include is bears text conforms forest forest' unbroken

/-- The expression has its value wherever it stands. -/
theorem IsSubstitute.evaluate (run : doc.evaluate tree = .ok v) : again.evaluate y = .ok v := by
  obtain ⟨passage, echoes⟩ := is.echoes bears text conforms
  obtain ⟨_, bears', _⟩ := is
  have present := lt_of_bears bears'
  have fits := forest'.fits present
  have deep := echoes.evaluateDown forest forest' unbroken (Nat.le_max_left doc.depth again.depth) run
  have enough : again.nodes.size ≤ max doc.depth again.depth := Nat.le_trans (Nat.le_succ _) (Nat.le_max_right _ _)
  rw [(Likeness.self forest').evaluateDown fits enough ⟨rfl, present⟩] at deep
  rwa [← evaluateDown_fits forest' present fits (Nat.le_succ _)]

/-- No object literal of the expression is a model wherever it stands, if none has a bare namespace key. -/
theorem IsSubstitute.recognize (spaceless : doc.Spaceless tree) (below : again.Below y z)
    (object : again.role z = .object) (filter : Option (List Char)) : again.recognize filter z = .ok none := by
  obtain ⟨passage, echoes⟩ := is.echoes bears text conforms
  obtain ⟨w, under, told⟩ := echoes.below below
  have lacking : ∀ e' ∈ again.entries z, again.entryIdentifier? e' ≠ some Model.namespaceName := by
    intro e' member
    obtain ⟨e, listed, child, here⟩ := forall₂_mem_right told.entries member
    rw [here.entryIdentifier? forest forest' ((unbroken.below under).below (.child child))]
    exact spaceless w under (told.role ▸ object) e listed
  rw [recognize_eq, recognize_none lacking]
  rfl

end

/-! ## Places -/

/-- What is in an entry of an object literal starts behind the start of the literal. -/
theorem Pristine.entry_starts (pristine : first.Pristine 0 x) (shaped : first.Shaped) (object : first.role x = .object)
    (child : e ∈ first.children x) (entry : (first.role e).isEntry = true) (below : first.Below e z) :
    first.StartsBefore 0 x z := by
  obtain ⟨span, origin⟩ := pristine.parsed x (.refl first x)
  obtain ⟨outline, places, ordered, braces⟩ := pristine.places shaped origin
  have braces := (braces object).resolve_left fun keyword => by
    rw [keyword.1] at places
    rw [List.forall₂_nil_right_iff.mp places] at child
    cases child
  obtain ⟨opening, inner, closing, rfl, opens, _⟩ := Outline.isObject_split braces
  simp only [Outline.isBrace, Bool.and_eq_true, beq_iff_eq, decide_eq_true_eq] at opens
  obtain ⟨low, _, later⟩ := ordered
  have inside := pristine.below (.child child)
  obtain ⟨span', origin'⟩ := inside.parsed z below
  cases is : first.children x with
  | nil =>
    rw [is] at child
    cases child
  | cons brace rest =>
    rw [is] at places child
    obtain _ | ⟨place, places⟩ := places
    rcases List.mem_cons.mp child with rfl | among
    · have other : first.role e = .other := by
        rw [role, Node.role, place.1, opens.1]
        decide
      rw [other] at entry
      cases entry
    · obtain ⟨part, listed, place'⟩ := forall₂_mem_left places among
      have behind := later.mem (List.mem_map_of_mem listed)
      have deeper := inside.inside shaped below place'.2 origin'
      exact ⟨span, span', origin, origin', by omega⟩

section
variable (forest : first.Forest) (shaped : first.Shaped) (pristine : first.Pristine 0 first.root)
include forest shaped pristine

/-- No node above the spot of a target has its place and can make way too. -/
theorem spot_lowest (lies : t.Lies first) (attached : first.Below first.root t.object)
    (sits : first.SitsAt seat (first.role (t.holder first)) (t.spot first)) (down : first.Below first.root p)
    (child : x ∈ first.children p) (sits' : first.SitsAt seat (first.role p) x) (below : first.Below x (t.spot first)) :
    x = t.spot first := by
  have entry := mem_entries lies.entry
  -- The object literal of the target starts before the spot, so it lies inside of no node with the place of the spot.
  have outside : ∀ (inside : first.Below t.entry (t.spot first)), ¬ first.Below x t.object := fun inside up => by
    obtain ⟨span, span', origin, origin', starts⟩ :=
      (pristine.below attached).entry_starts shaped lies.object lies.entry_child entry.2 inside
    cases origin'.symm.trans sits.1
    have high := (pristine.below (down.tail child)).inside shaped up sits'.1 origin
    omega
  cases held : first.pairValue? t.entry with
  | none =>
    obtain ⟨spot, holder⟩ := Target.spot_entry held
    rw [spot] at below outside ⊢
    rcases Relation.ReflTransGen.cases_tail below with same | ⟨q, up, edge⟩
    · exact same.symm
    · exact absurd (forest.parent_unique edge entry.1 ▸ up) (outside (.refl first _))
  | some value =>
    obtain ⟨spot, holder⟩ := Target.spot_pair held
    obtain ⟨pair, member, _⟩ := pairValue?_some held
    rw [spot] at below outside ⊢
    rcases Relation.ReflTransGen.cases_tail below with same | ⟨q, up, edge⟩
    · exact same.symm
    · obtain rfl := forest.parent_unique edge member
      rcases Relation.ReflTransGen.cases_tail up with same | ⟨q, higher, edge'⟩
      · -- The pair itself is an entry, and no value of another pair.
        obtain rfl := forest.parent_unique child (same ▸ entry.1)
        have either := sits.2
        rw [holder, pair] at either
        have other := sits'.2
        rw [lies.object] at other
        split at either
        next value =>
          rw [if_pos value] at other
          cases other.1
        next => cases either.1
      · exact absurd (forest.parent_unique edge' entry.1 ▸ higher) (outside (.child member))

/-- Of two nodes from one part of the text that is not empty, one is above the other. -/
theorem below_or_above {y z : NodeId} {span : Syntax.Span} (present : first.root < first.nodes.size)
    (wide : span.start < span.stop) (here : first.Below first.root y) (there : first.Below first.root z)
    (origin : (first.node y).origin = .parsed 0 span) (origin' : (first.node z).origin = .parsed 0 span) :
    first.Below y z ∨ first.Below z y := by
  have fits := forest.fits present
  have either : (first.descend first.nodes.size first.root).Pairwise fun y z =>
      (first.Below y z ∨ first.Behind 0 y z) ∨ (first.Below z y ∨ first.Behind 0 z y) :=
    (pristine.descend_ordered shaped fits).imp Or.inl
  have symm : Std.Symm fun y z =>
    (first.Below y z ∨ first.Behind 0 y z) ∨ (first.Below z y ∨ first.Behind 0 z y) := ⟨fun _ _ => Or.symm⟩
  have apart : ∀ {y z}, (first.node y).origin = .parsed 0 span → (first.node z).origin = .parsed 0 span →
      ¬ first.Behind 0 y z := by
    rintro y z left right ⟨_, _, was, was', behind⟩
    cases was.symm.trans left
    cases was'.symm.trans right
    omega
  rcases eq_or_ne y z with rfl | other
  · exact .inl (.refl first y)
  · rcases either.forall (mem_descend fits here) (mem_descend fits there) other with (up | behind) | (up | behind)
    · exact .inl up
    · exact absurd behind (apart origin origin')
    · exact .inr up
    · exact absurd behind (apart origin' origin)

/-- A node that can make way at the place of a target is its spot, unless it lies in it. -/
theorem spot_only (lies : t.Lies first) (attached : first.Below first.root t.object)
    (present : first.root < first.nodes.size) (wide : seat.span.start < seat.span.stop)
    (sits : first.SitsAt seat (first.role (t.holder first)) (t.spot first)) (down : first.Below first.root p)
    (child : x ∈ first.children p) (sits' : first.SitsAt seat (first.role p) x) (out : ¬ first.Below (t.spot first) p) :
    x = t.spot first := by
  rcases below_or_above forest shaped pristine present wide (down.tail child) (attached.trans lies.below_spot) sits'.1
    sits.1 with up | up
  · exact spot_lowest forest shaped pristine lies attached sits down child sits' up
  · rcases Relation.ReflTransGen.cases_tail up with same | ⟨q, higher, edge⟩
    · exact same
    · exact absurd (forest.parent_unique edge child ▸ higher) out

end

end Document

/-! ## Where the expression has gone -/

open Document (IsSubstitute HoldsSubstitute)

/-- A file in which some targets have made way for an expression, and the document of its new text. -/
structure Restating where
  first : Document
  again : Document
  substitute : Substitute
  seats : List Seat
  done : Target → Prop
  forest : first.Forest
  forest' : again.Forest
  shaped : first.Shaped
  pristine : first.Pristine 0 first.root
  plain : first.Plain
  present : first.root < first.nodes.size
  reseats : first.Reseats again substitute seats first.root again.root
  lies : ∀ t, done t → t.Lies first
  attached : ∀ t, done t → first.Below first.root t.object
  named : ∀ t, done t → first.entryIdentifier? t.entry = some substitute.name
  wide : ∀ seat ∈ seats, seat.span.start < seat.span.stop
  sits : ∀ seat ∈ seats, ∃ t, done t ∧ first.SitsAt seat (first.role (t.holder first)) (t.spot first)
  seated : ∀ t, done t → ∃ seat ∈ seats, first.SitsAt seat (first.role (t.holder first)) (t.spot first)

namespace Restating
variable (r : Restating) {t : Target} {c d e e' p x y z : NodeId} {field : String} {name : List Char}
  {filter : Option (List Char)} {n n' : Nat}

/-- A node that lies in no spot is read again. -/
structure Seen (x y : NodeId) : Prop where
  below : r.first.Below r.first.root x
  out : ∀ t, r.done t → ¬ r.first.Below (t.spot r.first) x
  reseats : r.first.Reseats r.again r.substitute r.seats x y

/-- A spot has made way for the expression. -/
def Yields (x y : NodeId) : Prop :=
  ∃ t indent, r.done t ∧ t.spot r.first = x ∧
    if (r.first.pairValue? t.entry).isSome then r.again.IsSubstitute r.substitute indent y
    else r.again.HoldsSubstitute r.substitute indent y

variable {r}

/-- The root of a file lies in no spot. -/
theorem seen_root : r.Seen r.first.root r.again.root where
  below := .refl _ _
  out t member below := by
    have down := (r.attached t member).trans ((r.lies t member).below_holder)
    exact r.forest.not_below_parent (r.lies t member).spot_child (below.trans down)
  reseats := r.reseats

/-- The spot of a target is a child of a pair just if it is the value of one. -/
theorem value_iff (member : r.done t) {seat : Seat}
    (sits : r.first.SitsAt seat (r.first.role (t.holder r.first)) (t.spot r.first)) :
    seat.ofValue = (r.first.pairValue? t.entry).isSome := by
  have either := sits.2
  cases held : r.first.pairValue? t.entry with
  | none =>
    rw [(Target.spot_entry held).2, (r.lies t member).object] at either
    split at either
    next => cases either.1
    next entry => simpa using entry
  | some value =>
    rw [(Target.spot_pair held).2, (Document.pairValue?_some held).1] at either
    split at either
    next is => simpa using is
    next => cases either.1

/-- What is in a node that is read again is read again as well, or a spot that has made way. -/
theorem Seen.children (seen : r.Seen x y) (inner : (r.first.role x).isToken = false) :
    List.Forall₂ (fun c d => (r.again.node d).field = (r.first.node c).field ∧ (r.Seen c d ∨ r.Yields c d))
      (r.first.children x) (r.again.children y) := by
  refine forall₂_imp_mem (seen.reseats.children r.forest' inner) fun c child d _ both => ⟨both.1, ?_⟩
  rcases both.2 with ⟨seat, listed, sits, gone⟩ | ⟨none, reseats⟩
  · obtain ⟨t, member, sits'⟩ := r.sits seat listed
    have spot := Document.spot_only r.forest r.shaped r.pristine (r.lies t member) (r.attached t member) r.present
      (r.wide seat listed) sits' seen.below child sits (seen.out t member)
    exact .inr ⟨t, seat.indent, member, spot.symm, by rwa [← value_iff member sits']⟩
  · refine .inl ⟨seen.below.tail child, fun t member below => ?_, reseats⟩
    rcases Relation.ReflTransGen.cases_tail below with same | ⟨q, up, edge⟩
    · obtain ⟨seat, listed, sits⟩ := r.seated t member
      have holder := r.forest.parent_unique (r.lies t member).spot_child (same ▸ child)
      exact none seat listed (by rw [← holder, same]; exact sits)
    · exact seen.out t member (r.forest.parent_unique edge child ▸ up)

/-! ## Entries -/

/-- What has made way is the value of a pair, or an entry without a value. -/
theorem Yields.cases (yields : r.Yields c d) (child : c ∈ r.first.children x) :
    (∃ t indent, r.done t ∧ t.entry = x ∧ r.first.pairValue? x = some c ∧ r.again.IsSubstitute r.substitute indent d) ∨
      ∃ t indent, r.done t ∧ t.object = x ∧ t.entry = c ∧ r.first.pairValue? c = none ∧
        r.again.HoldsSubstitute r.substitute indent d := by
  obtain ⟨t, indent, member, rfl, gone⟩ := yields
  have holder := r.forest.parent_unique (r.lies t member).spot_child child
  cases held : r.first.pairValue? t.entry with
  | some value =>
    obtain ⟨spot, at_entry⟩ := Target.spot_pair held
    rw [held, Option.isSome_some, if_pos rfl] at gone
    rw [at_entry] at holder
    exact .inl ⟨t, indent, member, holder, by rw [← holder, held, spot], gone⟩
  | none =>
    obtain ⟨spot, at_object⟩ := Target.spot_entry held
    rw [held, Option.isSome_none, if_neg (by decide)] at gone
    rw [at_object] at holder
    exact .inr ⟨t, indent, member, holder, spot.symm, by rw [spot, held], gone⟩

/-- The first child that fills a field is read again, or has made way. -/
theorem Seen.childByField? (seen : r.Seen x y) (inner : (r.first.role x).isToken = false) (field : String) :
    Option.Rel (fun c d => c ∈ r.first.children x ∧ (r.Seen c d ∨ r.Yields c d)) (r.first.childByField? x field)
      (r.again.childByField? y field) := by
  have pairs := forall₂_imp_mem (seen.children inner)
    (S := fun c d => (r.again.node d).field = (r.first.node c).field ∧ c ∈ r.first.children x ∧ (r.Seen c d ∨ r.Yields c d))
    fun c member d _ both => ⟨both.1, member, both.2⟩
  have found := forall₂_find? (p := fun c => (r.first.node c).field == some field)
    (q := fun c => (r.again.node c).field == some field) pairs fun c _ d _ both => by rw [both.1]
  unfold Document.childByField?
  generalize List.find? _ (r.first.children x) = left at found ⊢
  generalize List.find? _ (r.again.children y) = right at found ⊢
  cases found with
  | none => exact .none
  | some both => exact .some both.2

theorem Seen.role (seen : r.Seen x y) : r.again.role y = r.first.role x := seen.reseats.role

theorem Seen.text_token (seen : r.Seen x y) (token : (r.first.role x).isToken = true) :
    r.again.text y = r.first.text x :=
  seen.reseats.text_token r.forest r.forest' token

theorem Seen.keyOf (seen : r.Seen x y) : r.again.keyOf y = r.first.keyOf x := by
  have text := seen.text_token
  unfold Document.keyOf
  rw [seen.role]
  split
  next is => rw [text (by rw [is]; rfl)]
  next is => rw [text (by rw [is]; rfl)]
  next is => rw [text (by rw [is]; rfl)]
  next is => rw [text (by rw [is]; rfl)]
  next => rfl

/-- A key has not made way, as it is neither a value nor an entry. -/
theorem Seen.keyed (seen : r.Seen x y) (inner : (r.first.role x).isToken = false) (whole : r.first.role x ≠ .object)
    (other : field ≠ "value") :
    (r.again.childByField? y field).map r.again.keyOf = (r.first.childByField? x field).map r.first.keyOf := by
  have found := seen.childByField? inner field
  generalize is : r.first.childByField? x field = left at found ⊢
  generalize r.again.childByField? y field = right at found ⊢
  cases found with
  | none => rfl
  | some both =>
    obtain ⟨child, told | yields⟩ := both
    · rw [Option.map_some, Option.map_some, told.keyOf]
    · rcases yields.cases child with ⟨t, _, _, _, held, _⟩ | ⟨t, _, member, rfl, _⟩
      · have filled := (Document.childByField?_some is).2
        rw [(Document.pairValue?_some held).2.2] at filled
        exact absurd (Option.some.inj filled).symm other
      · exact absurd (r.lies t member).object whole

theorem Seen.entryIdentifier? (seen : r.Seen e e') : r.again.entryIdentifier? e' = r.first.entryIdentifier? e := by
  have key : r.again.entryKey? e' = r.first.entryKey? e := by
    unfold Document.entryKey?
    rw [seen.role]
    split
    next is => exact seen.keyed (by rw [is]; rfl) (by rw [is]; decide) (by decide)
    next is => exact seen.keyed (by rw [is]; rfl) (by rw [is]; decide) (by decide)
    next is => rw [seen.text_token (by rw [is]; rfl)]
    next => rfl
    next => rfl
  rw [Document.entryIdentifier?, key, Document.entryIdentifier?]

/-- A pair that holds the expression has the bare name as its key and the expression as its value. -/
theorem holds_entry {again : Document} {substitute : Substitute} {indent : List Char}
    (holds : again.HoldsSubstitute substitute indent y) : again.entryIdentifier? y = some substitute.name ∧
      ∃ value, again.pairValue? y = some value ∧ again.IsSubstitute substitute indent value := by
  obtain ⟨pair, key, mark, value, parts, ⟨keyed, bare, _, text⟩, ⟨unkeyed, _, _⟩, valued, is⟩ := holds
  have first : again.childByField? y "key" = some key := by
    rw [Document.childByField?, parts, List.find?_cons_of_pos (by simp [keyed])]
  have last : again.childByField? y "value" = some value := by
    rw [Document.childByField?, parts, List.find?_cons_of_neg (by simp [keyed]),
      List.find?_cons_of_neg (by simp [unkeyed]), List.find?_cons_of_pos (by simp [valued])]
  refine ⟨?_, value, ?_, is⟩
  · simp only [Document.entryIdentifier?, Document.entryKey?, pair, first, Option.map_some, Option.bind_some,
      Document.keyOf, bare, EntryKey.identifier?, text]
  · rw [Document.pairValue?, if_pos pair, last]

/-- The entries of an object literal have the same bare names again. -/
theorem Seen.entries (seen : r.Seen x y) (object : r.first.role x = .object) :
    List.Forall₂ (fun e e' => r.again.entryIdentifier? e' = r.first.entryIdentifier? e ∧ e ∈ r.first.children x ∧
      (r.Seen e e' ∨ r.Yields e e')) (r.first.entries x) (r.again.entries y) := by
  have each := forall₂_imp_mem (seen.children (by rw [object]; rfl))
    (S := fun e e' => (r.again.role e').isEntry = (r.first.role e).isEntry ∧
      (r.again.entryIdentifier? e' = r.first.entryIdentifier? e ∧ e ∈ r.first.children x ∧ (r.Seen e e' ∨ r.Yields e e')))
    fun e child e' _ both => by
      rcases both.2 with told | yields
      · exact ⟨by rw [told.role], told.entryIdentifier?, child, .inl told⟩
      · rcases yields.cases child with ⟨t, _, _, _, held, _⟩ | ⟨t, _, member, _, rfl, _, holds⟩
        · rw [Document.pairValue?, object, if_neg (by decide)] at held
          cases held
        · refine ⟨?_, ?_, child, .inr yields⟩
          · rw [(Document.mem_entries (r.lies t member).entry).2, holds.1]
            rfl
          · rw [(holds_entry holds).1, r.named t member]
  exact (List.rel_filter (fun e e' both => by simp only [both.1]) each).imp fun _ _ both => both.2

/-- The value of a pair that is no target is read again. -/
theorem Seen.pairValue? (seen : r.Seen e e') (other : ∀ t, r.done t → t.entry ≠ e) :
    Option.Rel r.Seen (r.first.pairValue? e) (r.again.pairValue? e') := by
  unfold Document.pairValue?
  rw [seen.role]
  split
  next pair =>
    have found := seen.childByField? (by rw [pair]; rfl) "value"
    generalize r.first.childByField? e "value" = left at found ⊢
    generalize r.again.childByField? e' "value" = right at found ⊢
    cases found with
    | none => exact .none
    | some both =>
      obtain ⟨child, told | yields⟩ := both
      · exact .some told
      · rcases yields.cases child with ⟨t, _, member, is, _⟩ | ⟨t, _, member, rfl, _⟩
        · exact absurd is (other t member)
        · rw [(r.lies t member).object] at pair
          cases pair
  next => exact .none

theorem Seen.entryBody (seen : r.Seen e e') (other : ∀ t, r.done t → t.entry ≠ e) :
    r.Seen (r.first.entryBody e) (r.again.entryBody e') := by
  have value := seen.pairValue? other
  unfold Document.entryBody
  generalize r.first.pairValue? e = left at value ⊢
  generalize r.again.pairValue? e' = right at value ⊢
  cases value with
  | none => exact seen
  | some both => exact both

/-! ## Models -/

section
variable (other : r.substitute.name ≠ Model.namespaceName)
include other

/-- A namespace is told again. -/
theorem Seen.namespaceText (seen : r.Seen e e') (space : r.first.entryIdentifier? e = some Model.namespaceName) :
    r.again.namespaceText e' = r.first.namespaceText e := by
  have body := seen.entryBody fun t member is =>
    other (Option.some.inj ((r.named t member).symm.trans (is ▸ space)))
  unfold Document.namespaceText
  simp only [body.role, body.reseats.kind]
  split
  next literal => rw [body.text_token (by rw [literal]; rfl)]
  next => rfl

theorem Seen.recognize (seen : r.Seen x y) (object : r.first.role x = .object) (filter : Option (List Char)) :
    r.again.recognize filter y =
      (r.first.recognize filter x).map fun found => found.map fun model => { model with object := y } := by
  refine Document.recognize_congr ?_ filter
  have pairs := seen.entries object
  generalize r.first.entries x = es at pairs ⊢
  generalize r.again.entries y = es' at pairs ⊢
  generalize (none : Option (List Char)) = space
  generalize false = shaped
  induction pairs generalizing space shaped with
  | nil => rfl
  | @cons e e' _ _ here _ ih =>
    obtain ⟨same, child, told⟩ := here
    have property : r.again.entryProperty? e' = r.first.entryProperty? e := by
      rw [Document.entryProperty?, same, Document.entryProperty?]
    simp only [Document.recognizeEntries, property, ih]
    split
    next => rfl
    next is =>
      have space := Document.entryProperty?_eq_some.mp is
      rcases told with told | yields
      · rw [told.namespaceText other space]
      · rcases yields.cases child with ⟨t, _, _, _, held, _⟩ | ⟨t, _, member, _, rfl, _⟩
        · rw [Document.pairValue?, object, if_neg (by decide)] at held
          cases held
        · exact absurd (Option.some.inj ((r.named t member).symm.trans space)) other
    next => rfl

end

/-- An object literal in a pair that holds the expression is one in the expression. -/
theorem holds_literal {again : Document} {substitute : Substitute} {indent : List Char}
    (holds : again.HoldsSubstitute substitute indent y) (below : again.Below y z) (object : again.role z = .object) :
    ∃ value, again.IsSubstitute substitute indent value ∧ again.Below value z := by
  obtain ⟨pair, key, mark, value, parts, ⟨_, bare, alone, _⟩, ⟨_, mute, leaf⟩, _, is⟩ := holds
  have no_part : ∀ part, again.role part ≠ .object → again.children part = [] → ¬ again.Below part z :=
    fun part other none down => by
      rcases Relation.ReflTransGen.cases_head down with rfl | ⟨d, edge, _⟩
      · exact other object
      · rw [none] at edge
        cases edge
  rcases Relation.ReflTransGen.cases_head below with rfl | ⟨part, edge, down⟩
  · rw [pair] at object
    cases object
  · rw [parts] at edge
    simp only [List.mem_cons, List.not_mem_nil, or_false] at edge
    rcases edge with rfl | rfl | rfl
    · exact absurd down (no_part _ (by rw [bare]; decide) alone)
    · exact absurd down (no_part _ (by rw [mute]; decide) leaf)
    · exact ⟨_, is, down⟩

/-- What is recognized in one stretch of object literals after the other. -/
theorem recognizeAll_pairs {doc doc' : Document} {P : NodeId → NodeId → Prop} {R : Model → Model → Prop}
    {f g : NodeId → List NodeId} {xs ys : List NodeId} {ms : List Model} (pairs : List.Forall₂ P xs ys)
    (each : ∀ c ∈ xs, ∀ d, P c d → ∀ ms, doc.recognizeAll filter (f c) = .ok ms →
      ∃ ms', doc'.recognizeAll filter (g d) = .ok ms' ∧ List.Forall₂ R ms ms')
    (run : doc.recognizeAll filter (xs.flatMap f) = .ok ms) :
    ∃ ms', doc'.recognizeAll filter (ys.flatMap g) = .ok ms' ∧ List.Forall₂ R ms ms' := by
  induction pairs generalizing ms with
  | nil =>
    cases run
    exact ⟨[], rfl, .nil⟩
  | @cons c d xs ys here _ ih =>
    rw [List.flatMap_cons, Document.recognizeAll_append] at run
    obtain ⟨front, first, run⟩ := bind_eq_ok.mp run
    obtain ⟨back, second, is⟩ := bind_eq_ok.mp run
    cases is
    obtain ⟨front', first', same⟩ := each c List.mem_cons_self d here front first
    obtain ⟨back', second', same'⟩ := ih (fun c member => each c (List.mem_cons_of_mem _ member)) second
    refine ⟨front' ++ back', ?_, List.rel_append same same'⟩
    rw [List.flatMap_cons, Document.recognizeAll_append, first', second']
    rfl

section
variable
  (empty : ∀ t, r.done t → ∀ z, r.first.Below (t.spot r.first) z → r.first.role z = .object →
    r.first.recognize filter z = .ok none)
  (spaceless : ∀ {indent y z}, r.again.IsSubstitute r.substitute indent y → r.again.Below y z → r.again.role z = .object →
    r.again.recognize filter z = .ok none)
include empty spaceless

/-- Of what has made way and of the expression nothing is recognized. -/
theorem Yields.literals (yields : r.Yields c d) {ms : List Model}
    (run : r.first.recognizeAll filter ((r.first.descend n c).filter fun z => r.first.role z = .object) = .ok ms) :
    ∃ ms', r.again.recognizeAll filter ((r.again.descend n' d).filter fun z => r.again.role z = .object) = .ok ms' ∧
      List.Forall₂ (fun m m' => m'.space = m.space ∧ r.Seen m.object m'.object) ms ms' := by
  obtain ⟨t, indent, member, rfl, gone⟩ := yields
  have none : r.first.recognizeAll filter
      ((r.first.descend n (t.spot r.first)).filter fun z => r.first.role z = .object) = .ok [] :=
    Document.recognizeAll_none fun z listed =>
      empty t member z (Document.below_of_mem_descend (List.mem_filter.mp listed).1)
        (by simpa using (List.mem_filter.mp listed).2)
  cases run.symm.trans none
  refine ⟨[], Document.recognizeAll_none fun z listed => ?_, .nil⟩
  have below := Document.below_of_mem_descend (List.mem_filter.mp listed).1
  have object : r.again.role z = .object := by simpa using (List.mem_filter.mp listed).2
  split at gone
  next => exact spaceless gone below object
  next =>
    obtain ⟨value, is, down⟩ := holds_literal gone below object
    exact spaceless is down object

/-- The models in a node are found again one by one. -/
theorem Seen.literals (other : r.substitute.name ≠ Model.namespaceName) (fits : r.first.Fits n x)
    (fits' : r.again.Fits n' y) (seen : r.Seen x y) {ms : List Model}
    (run : r.first.recognizeAll filter ((r.first.descend n x).filter fun z => r.first.role z = .object) = .ok ms) :
    ∃ ms', r.again.recognizeAll filter ((r.again.descend n' y).filter fun z => r.again.role z = .object) = .ok ms' ∧
      List.Forall₂ (fun m m' => m'.space = m.space ∧ r.Seen m.object m'.object) ms ms' := by
  induction n generalizing n' x y ms with
  | zero => exact fits.elim
  | succ n ih =>
    cases n' with
    | zero => exact fits'.elim
    | succ n' =>
      have inside : ∀ c ∈ r.first.children x, r.first.Fits n c := fits
      have inside' : ∀ d ∈ r.again.children y, r.again.Fits n' d := fits'
      rw [Document.literals_succ, Document.recognizeAll_append] at run
      obtain ⟨top, first, run⟩ := bind_eq_ok.mp run
      obtain ⟨below, second, is⟩ := bind_eq_ok.mp run
      cases is
      obtain ⟨top', first', same⟩ : ∃ top', r.again.recognizeAll filter (if r.again.role y = .object then [y] else []) =
          .ok top' ∧ List.Forall₂ (fun m m' => m'.space = m.space ∧ r.Seen m.object m'.object) top top' := by
        rw [seen.role]
        split
        next object =>
          rw [if_pos object] at first
          obtain ⟨one, rest, here, later, rfl⟩ := Document.recognizeAll_cons.mp first
          cases later
          have here' := seen.recognize other object filter
          rw [here] at here'
          refine ⟨_, Document.recognizeAll_cons.mpr ⟨_, [], here', rfl, rfl⟩, ?_⟩
          cases one with
          | none => exact .nil
          | some m =>
            have is := Document.recognize_object here
            exact .cons ⟨rfl, is ▸ seen⟩ .nil
        next no =>
          rw [if_neg no] at first
          cases first
          exact ⟨[], rfl, .nil⟩
      obtain ⟨below', second', same'⟩ : ∃ below', r.again.recognizeAll filter ((r.again.children y).flatMap fun d =>
          (r.again.descend n' d).filter fun z => r.again.role z = .object) = .ok below' ∧
            List.Forall₂ (fun m m' => m'.space = m.space ∧ r.Seen m.object m'.object) below below' := by
        cases token : (r.first.role x).isToken with
        | true =>
          rw [Document.literals_leaves fun c child => r.plain.leaves token child] at second
          cases second
          exact ⟨[], by rw [Document.literals_leaves (seen.reseats.leaves token)]; rfl, .nil⟩
        | false =>
          refine recognizeAll_pairs (forall₂_imp_mem (seen.children token)
            (S := fun c d => d ∈ r.again.children y ∧ (r.Seen c d ∨ r.Yields c d))
            fun c _ d member both => ⟨member, both.2⟩) (fun c child d both ms run => ?_) second
          rcases both.2 with told | yields
          · exact ih (inside c child) (inside' d both.1) told run
          · exact yields.literals empty spaceless run
      refine ⟨top' ++ below', ?_, List.rel_append same same'⟩
      rw [Document.literals_succ, Document.recognizeAll_append, first', second']
      rfl

/-- The models of the file are found again one by one. -/
theorem models (other : r.substitute.name ≠ Model.namespaceName) {ms : List Model}
    (found : r.first.models filter = .ok ms) : ∃ ms', r.again.models filter = .ok ms' ∧
      List.Forall₂ (fun m m' => m'.space = m.space ∧ r.Seen m.object m'.object) ms ms' := by
  obtain ⟨_, _, _, bears, _⟩ := r.reseats
  exact seen_root.literals empty spaceless other (r.forest.fits r.present) (r.forest'.fits (Document.lt_of_bears bears)) found

end

/-! ## Values -/

/-- The last entry under the name holds the expression, in an object literal where it has made way. -/
theorem Seen.entryNamed? (seen : r.Seen x y) (object : r.first.role x = .object)
    (named : r.first.entryNamed? x r.substitute.name = some e) (member : r.done t) (is : t.entry = e) :
    ∃ e' indent, r.again.entryNamed? y r.substitute.name = some e' ∧
      r.again.IsSubstitute r.substitute indent (r.again.entryBody e') := by
  have last := forall₂_getLast? (List.rel_filter
    (p := fun e => r.first.entryIdentifier? e == some r.substitute.name)
    (q := fun e => r.again.entryIdentifier? e == some r.substitute.name)
    (fun e e' both => by simp only [both.1]) (seen.entries object))
  rw [show List.getLast? _ = some e from named] at last
  obtain ⟨e', named', _, child, told⟩ := rel_some_left last
  rcases told with told | yields
  · cases held : r.first.pairValue? e with
    | none =>
      have spot : t.spot r.first = e := (Target.spot_entry (is ▸ held)).1.trans is
      exact absurd (.refl _ _) (spot ▸ told.out t member)
    | some value =>
      have spot := (Target.spot_pair (is ▸ held)).1
      obtain ⟨pair, _, _⟩ := Document.pairValue?_some held
      have found := told.childByField? (by rw [pair]; rfl) "value"
      rw [Document.pairValue?, if_pos pair] at held
      rw [held] at found
      obtain ⟨value', held', inner, again | yields⟩ := rel_some_left found
      · exact absurd (.refl _ _) (spot ▸ again.out t member)
      · rcases yields.cases inner with ⟨_, indent, _, _, _, gone⟩ | ⟨u, _, other, rfl, _⟩
        · refine ⟨e', indent, named', ?_⟩
          rw [Document.entryBody, Document.pairValue?, if_pos (told.role.trans pair), held', Option.getD_some]
          exact gone
        · rw [(r.lies u other).object] at pair
          cases pair
  · rcases yields.cases child with ⟨u, _, _, rfl, held, _⟩ | ⟨_, indent, _, _, _, _, holds⟩
    · rw [Document.pairValue?, object, if_neg (by decide)] at held
      cases held
    · obtain ⟨_, value, held', gone⟩ := holds_entry holds
      exact ⟨e', indent, named', by rwa [Document.entryBody, held', Option.getD_some]⟩

end Restating

end StoreModels
