import StoreModels.Proofs.Document.Loose
import StoreModels.Proofs.Document.Render

/-!
Changes in a zone. Edits give some nodes other children, mark what is above them, and find places for loose nodes. All
trees that hold no node of the zone stay as they are and print as before.
-/
namespace StoreModels
open Syntax (Reader)

namespace Document
variable {doc doc' doc'' : Document} {zone zone' : NodeId → Prop} {loose loose' : List NodeId}
  {x y c p old new : NodeId}

/-- Whether no node of a zone is in a tree. -/
def Apart (doc : Document) (zone : NodeId → Prop) (x : NodeId) : Prop := ∀ z, zone z → ¬ doc.Below x z

theorem Apart.below (apart : doc.Apart zone x) (below : doc.Below x y) : doc.Apart zone y :=
  fun z inside under => apart z inside (below.trans under)

theorem Apart.outside (apart : doc.Apart zone x) : ¬ zone x := fun inside => apart x inside (Below.refl doc x)

/-- Changes in no zone spare all trees. -/
theorem apart_nowhere (doc : Document) (x : NodeId) : doc.Apart (fun _ => False) x :=
  fun _ impossible => impossible.elim

/-- Children have changed in a zone alone, and places were found for loose nodes. -/
structure Calm (doc doc' : Document) (zone : NodeId → Prop) (loose : List NodeId) : Prop where
  ext : Extends doc doc'
  children : ∀ x < doc.nodes.size, ¬ zone x → doc'.children x = doc.children x
  field : ∀ x < doc.nodes.size, x ∉ loose → (doc'.node x).field = (doc.node x).field
  replaces : ∀ x < doc.nodes.size, x ∉ loose → (doc'.node x).replaces = (doc.node x).replaces
  dirty : ∀ x < doc.nodes.size, doc.Apart zone x → (doc'.node x).dirty = (doc.node x).dirty
  free : ∀ y ∈ loose, y < doc.nodes.size → doc.Free y

namespace Calm

theorem refl (doc : Document) : Calm doc doc zone [] where
  ext := Extends.refl doc
  children _ _ _ := rfl
  field _ _ _ := rfl
  replaces _ _ _ := rfl
  dirty _ _ _ := rfl
  free _ member := by cases member

/-- What is below a node outside of the zone stays there, and nothing comes there. -/
theorem below (calm : Calm doc doc' zone loose) (forest : doc.Forest) (lt : x < doc.nodes.size)
    (apart : doc.Apart zone x) : doc'.Below x y ↔ doc.Below x y := by
  constructor
  · intro under
    induction under with
    | refl => exact Below.refl doc x
    | tail _ edge ih =>
      exact ih.tail (calm.children _ (forest.below_lt lt ih) (apart.below ih).outside ▸ edge)
  · intro under
    induction under with
    | refl => exact Below.refl doc' x
    | tail down edge ih =>
      exact ih.tail ((calm.children _ (forest.below_lt lt down) (apart.below down).outside).symm ▸ edge)

theorem trans (first : Calm doc doc' zone loose) (second : Calm doc' doc'' zone' loose') (forest : doc.Forest)
    (free : ∀ y ∈ loose', y < doc.nodes.size → doc.Free y) :
    Calm doc doc'' (fun z => zone z ∨ zone' z) (loose ++ loose') where
  ext := first.ext.trans second.ext
  children x lt outside := by
    rw [second.children x (Nat.lt_of_lt_of_le lt first.ext.size) fun inside => outside (.inr inside),
      first.children x lt fun inside => outside (.inl inside)]
  field x lt other := by
    simp only [List.mem_append, not_or] at other
    rw [second.field x (Nat.lt_of_lt_of_le lt first.ext.size) other.2, first.field x lt other.1]
  replaces x lt other := by
    simp only [List.mem_append, not_or] at other
    rw [second.replaces x (Nat.lt_of_lt_of_le lt first.ext.size) other.2, first.replaces x lt other.1]
  dirty x lt apart := by
    have early : doc.Apart zone x := fun z inside => apart z (.inl inside)
    have late : doc'.Apart zone' x := fun z inside under =>
      apart z (.inr inside) ((first.below forest lt early).mp under)
    rw [second.dirty x (Nat.lt_of_lt_of_le lt first.ext.size) late, first.dirty x lt early]
  free y member lt := by
    rcases List.mem_append.mp member with early | late
    · exact first.free y early lt
    · exact free y late lt

/-- A wider zone and more loose nodes; new nodes do not count. -/
theorem mono (calm : Calm doc doc' zone loose) (forest : doc.Forest) (wider : ∀ z < doc.nodes.size, zone z → zone' z)
    (more : ∀ y ∈ loose, y < doc.nodes.size → y ∈ loose') (free : ∀ y ∈ loose', y < doc.nodes.size → doc.Free y) :
    Calm doc doc' zone' loose' where
  ext := calm.ext
  children x lt outside := calm.children x lt fun inside => outside (wider x lt inside)
  field x lt other := calm.field x lt fun member => other (more x member lt)
  replaces x lt other := calm.replaces x lt fun member => other (more x member lt)
  dirty x lt apart := calm.dirty x lt fun z inside under =>
    apart z (wider z (forest.below_lt lt under) inside) under
  free := free

end Calm

theorem Prolongs.calm (longer : Prolongs doc doc') : Calm doc doc' (fun _ => False) [] where
  ext := longer.toExtends
  children x lt _ := by rw [Document.children, longer.node x lt, Document.children]
  field x lt _ := by rw [longer.node x lt]
  replaces x lt _ := by rw [longer.node x lt]
  dirty x lt _ := by rw [longer.node x lt]
  free _ member := by cases member

theorem Joined.calm {kind : String} {parts : List (Option String × NodeId)} (joined : Joined doc doc' kind parts)
    (free : ∀ c ∈ parts.map Prod.snd, doc.Free c) : Calm doc doc' (fun _ => False) (parts.map Prod.snd) where
  ext := joined.toExtends
  children x lt _ := joined.children_old lt
  field x lt other := by rw [joined.node x lt other]
  replaces x _ _ := (joined.history x).1
  dirty x lt _ := by rw [joined.node_old lt]
  free c member _ := free c member

theorem Edited.calm {gone new : Option NodeId} (edited : Edited doc doc' p gone new)
    (free : ∀ n, new = some n → doc.Free n) : Calm doc doc' (fun z => z = p) new.toList where
  ext := edited.ext
  children x _ outside := edited.hung.children x outside
  field x _ other := edited.field x fun same => other (by simp [← same])
  replaces x _ other := edited.replaces x fun same => other (by simp [← same])
  dirty x _ apart := by
    have notAbove : ¬ doc'.Below x p := fun under => by
      rcases edited.hung.below under with down | ⟨down, _⟩ <;> exact apart p rfl down
    rw [Bool.eq_iff_iff, edited.dirty x]
    simp [notAbove]
  free c member _ := free c (by simpa using member)

theorem Replaced.calm (replaced : Replaced doc doc' p old new) (free : doc.Free new) :
    Calm doc doc' (fun z => z = p) [new] :=
  replaced.edited.calm fun _ same => Option.some.inj same ▸ free

theorem Appended.calm (appended : Appended doc doc' p new) (free : doc.Free new) :
    Calm doc doc' (fun z => z = p) [new] :=
  appended.edited.calm fun _ same => Option.some.inj same ▸ free

theorem Removed.calm (removed : Removed doc doc' p old) : Calm doc doc' (fun z => z = p) [] :=
  removed.edited.calm fun _ same => by cases same

/-- Reading a snippet changes no tree. -/
theorem parseExpression_calm [Reader] {snippet : List Char} (read : doc.parseExpression snippet = .ok (doc', x))
    (sound : doc.Sound) : Calm doc doc' (fun _ => False) [] := by
  have ext := Move.toExtends (.adopt snippet read) sound
  obtain ⟨_, tree, _, adopted⟩ := parseExpression_adopted read
  have node : ∀ x < doc.nodes.size, doc'.node x = doc.node x := adopted.longer.node
  refine ⟨ext, fun x lt _ => ?_, fun x lt _ => ?_, fun x lt _ => ?_, fun x lt _ => ?_, by simp⟩
  · rw [children, node x lt, children]
  all_goals rw [node x lt]

/-- A move is a change of the children that it changes, and finds places for free nodes alone. -/
theorem Move.calm [Reader] (move : Move doc doc') (sound : doc.Sound) :
    ∃ loose, Calm doc doc' (fun z => doc'.children z ≠ doc.children z) loose := by
  have quiet : ∀ {loose}, Calm doc doc' (fun _ => False) loose →
      ∃ loose, Calm doc doc' (fun z => doc'.children z ≠ doc.children z) loose := fun {loose} calm =>
    ⟨loose, calm.mono sound.forest (fun _ _ impossible => impossible.elim) (fun _ member _ => member) calm.free⟩
  have changed : ∀ {p loose}, Calm doc doc' (fun z => z = p) loose → doc'.children p ≠ doc.children p →
      ∃ loose, Calm doc doc' (fun z => doc'.children z ≠ doc.children z) loose := fun {_ loose} calm other =>
    ⟨loose, calm.mono sound.forest (fun _ _ same => same ▸ other) (fun _ member _ => member) calm.free⟩
  cases move with
  | leaf kind text _ => exact quiet (writeLeaf_prolongs doc kind text).calm
  | adopt snippet read => exact quiet (parseExpression_calm read sound)
  | copy present =>
    obtain ⟨_, twin, copied⟩ := duplicate_duplicated sound.forest present
    exact quiet copied.longer.calm
  | join kind parts _ distinct free _ =>
    exact quiet ((writeNode_joined doc kind parts distinct fun c member => (free c member).lt).2.calm free)
  | @replace _ p old new parent free apart _ run =>
    have replaced := Replaced.of_ok sound.forest parent free apart run
    refine changed (replaced.calm free) fun same => free.not_child sound.forest (x := p) ?_
    exact same ▸ (replaced.edited.hung.mem new).mpr (.inl rfl)
  | @append _ p new object free apart run =>
    have appended := Appended.of_ok sound.forest object free apart run
    refine changed (appended.calm free) fun same => free.not_child sound.forest (x := p) ?_
    exact same ▸ (appended.edited.hung.mem new).mpr (.inl rfl)
  | @remove _ p old parent object run =>
    have removed := Removed.of_ok sound.forest parent object run
    refine changed removed.calm fun same => ?_
    have listed := sound.forest.parentChild parent
    rcases (removed.edited.hung.mem old).mp (same ▸ listed) with impossible | ⟨_, stays⟩
    · cases impossible
    · exact stays rfl

/-! ## Trees outside of the zone -/

namespace Calm

/-- The places that nodes took are found as before, except those of loose nodes. -/
theorem position (calm : Calm doc doc' zone loose) (sound : doc.Sound) (slots : List Slot) {fuel fuel' : Nat}
    (within : Within (fun id => (doc.node id).replaces.toList) fuel x) (le : fuel ≤ fuel') (lt : x < doc.nodes.size)
    (other : x ∉ loose) : doc'.slotPosition? slots fuel' x = doc.slotPosition? slots fuel x := by
  induction fuel generalizing fuel' x with
  | zero => exact within.elim
  | succ fuel ih =>
    obtain ⟨fuel', rfl⟩ : ∃ k, fuel' = k + 1 := ⟨fuel' - 1, by omega⟩
    rw [slotPosition?, slotPosition?, calm.replaces x lt other]
    split
    · rfl
    · cases took : (doc.node x).replaces with
      | none => rfl
      | some old =>
        have lt' := sound.takenLt took
        refine ih (within old (by simp [took])) (by omega) lt' fun member => ?_
        exact (calm.free old member lt').lostNone x took

/-- A node that has the children that it had is made from the same parts. -/
theorem alike_of_children (calm : Calm doc doc' zone loose) (sound : doc.Sound) (lt : x < doc.nodes.size)
    (same : doc'.children x = doc.children x) : Alike doc doc' x where
  newline := calm.ext.newline
  indentUnit := calm.ext.indentUnit
  kind := calm.ext.kind x lt
  origin := calm.ext.origin x lt
  children := same
  firstChildren := calm.ext.firstChildren x lt
  text parsed := calm.ext.buffer (sound.bufferLt parsed)
  child c member :=
    ⟨calm.ext.kind c (sound.forest.childLt member), calm.ext.origin c (sound.forest.childLt member)⟩
  first f member := ⟨calm.ext.kind f (sound.firstLt member), calm.ext.origin f (sound.firstLt member)⟩
  position c member slots := by
    have lt := sound.forest.childLt member
    refine calm.position sound slots (sound.places_within c) (Nat.succ_le_succ calm.ext.size) lt fun listed => ?_
    exact (calm.free c listed lt).not_child sound.forest member

/-- A node outside of the zone is made from the same parts. -/
theorem alike (calm : Calm doc doc' zone loose) (sound : doc.Sound) (lt : x < doc.nodes.size) (outside : ¬ zone x) :
    Alike doc doc' x :=
  calm.alike_of_children sound lt (calm.children x lt outside)

theorem render (calm : Calm doc doc' zone loose) (sound : doc.Sound) (forest : doc'.Forest) (lt : x < doc.nodes.size)
    (apart : doc.Apart zone x) (base : List Char) (context : BufferId) :
    doc'.render x base context = doc.render x base context := by
  refine sound.forest.induction (P := fun x => x < doc.nodes.size → doc.Apart zone x → ∀ base context,
    doc'.render x base context = doc.render x base context) (fun x below lt apart base context => ?_) x lt apart base
    context
  rw [forest.render_eq, sound.forest.render_eq]
  refine (calm.alike sound lt apart.outside).printWith (fun c member => ?_)
    (fun _ => calm.dirty x lt apart) base context
  exact below c member (sound.forest.childLt member) (apart.below (.child member))

/-- A tree outside of the zone prints as before. -/
theorem printNode (calm : Calm doc doc' zone loose) (sound : doc.Sound) (forest : doc'.Forest)
    (lt : x < doc.nodes.size) (apart : doc.Apart zone x) : doc'.printNode x = doc.printNode x := by
  have place := (calm.alike sound lt apart.outside).buffer?
  show doc'.render x [] _ = doc.render x [] _
  rw [place, calm.render sound forest lt apart]

end Calm

end Document

end StoreModels
