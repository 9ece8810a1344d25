import Mathlib.Data.List.Find
import StoreModels.Proofs.Document.Calm
import StoreModels.Proofs.Document.Plain
import StoreModels.Proofs.Record.Likeness

/-!
What stays the same outside of the zone of some edits. A tree that holds no node of the zone tells the same as before.
An entry that holds one somewhere below its value still has its key; so an object literal outside of the zone is taken
for the same model as before.
-/
namespace StoreModels
open Syntax (Role)

namespace Document
variable {doc doc' : Document} {zone : NodeId → Prop} {loose : List NodeId} {x y e k : NodeId}

namespace Calm

/-- Trees outside of the zone tell the same. -/
theorem likeness (calm : Calm doc doc' zone loose) (sound : doc.Sound) (forest : doc'.Forest) :
    Likeness doc doc' fun a b => a = b ∧ a < doc.nodes.size ∧ doc.Apart zone a where
  size := calm.ext.size
  present both := both.2.1
  kind := by
    rintro a _ ⟨rfl, lt, _⟩
    exact calm.ext.kind a lt
  named := by
    rintro a _ ⟨rfl, lt, _⟩
    exact calm.ext.named a lt
  text := by
    rintro a _ ⟨rfl, lt, apart⟩
    exact calm.printNode sound forest lt apart
  children := by
    rintro a _ ⟨rfl, lt, apart⟩
    rw [calm.children a lt apart.outside]
    refine List.forall₂_same.mpr fun c member => ?_
    have present := sound.forest.childLt member
    refine ⟨calm.field c present fun listed => ?_, rfl, present, apart.below (.child member)⟩
    exact (calm.free c listed present).not_child sound.forest member

/-! ## Keys of entries that hold nodes of the zone -/

section
variable (calm : Calm doc doc' zone loose) (sound : doc.Sound) (forest : doc'.Forest)
include calm sound forest

omit forest in
/-- The child that fills a field of a node outside of the zone. -/
theorem childByField? (lt : x < doc.nodes.size) (outside : ¬ zone x) (field : String) :
    doc'.childByField? x field = doc.childByField? x field := by
  rw [Document.childByField?, calm.children x lt outside, Document.childByField?]
  refine List.find?_congr fun c member => ?_
  have present := sound.forest.childLt member
  rw [calm.field c present fun listed => (calm.free c listed present).not_child sound.forest member]

variable (plain : doc.Plain) (roles : ∀ z, zone z → doc.role z = .object ∨ doc.role z = .pair)
include plain roles

omit calm sound forest in
/-- No node of the zone is part of a token. -/
theorem apart_token (token : (doc.role x).isToken = true) : doc.Apart zone x := by
  intro z inside under
  obtain ⟨notObject, notPair⟩ := plain.below token under
  rcases roles z inside with object | pair
  · exact notObject object
  · exact notPair pair

theorem text_token (lt : x < doc.nodes.size) (token : (doc.role x).isToken = true) : doc'.text x = doc.text x :=
  calm.printNode sound forest lt (apart_token plain roles token)

theorem keyOf (lt : k < doc.nodes.size) : doc'.keyOf k = doc.keyOf k := by
  have role := calm.ext.role lt
  have text := calm.text_token sound forest plain roles lt
  unfold Document.keyOf
  rw [role]
  split
  next is => rw [text (by rw [is]; rfl)]
  next is => rw [text (by rw [is]; rfl)]
  next is => rw [text (by rw [is]; rfl)]
  next is => rw [text (by rw [is]; rfl)]
  next => rfl

theorem keyed (lt : x < doc.nodes.size) (outside : ¬ zone x) (field : String) :
    (doc'.childByField? x field).map doc'.keyOf = (doc.childByField? x field).map doc.keyOf := by
  rw [calm.childByField? sound lt outside]
  refine Option.map_congr fun k found => ?_
  exact calm.keyOf sound forest plain roles (sound.forest.childLt (List.mem_of_find?_eq_some found))

theorem entryKey? (lt : e < doc.nodes.size) (outside : ¬ zone e) : doc'.entryKey? e = doc.entryKey? e := by
  have role := calm.ext.role lt
  have keyed := calm.keyed sound forest plain roles lt outside
  unfold Document.entryKey?
  rw [role]
  split
  · exact keyed "key"
  · exact keyed "name"
  next is => rw [calm.text_token sound forest plain roles lt (by rw [is]; rfl)]
  · rfl
  · rfl

theorem entryIdentifier? (lt : e < doc.nodes.size) (outside : ¬ zone e) :
    doc'.entryIdentifier? e = doc.entryIdentifier? e := by
  rw [Document.entryIdentifier?, calm.entryKey? sound forest plain roles lt outside, Document.entryIdentifier?]

theorem entryProperty? (lt : e < doc.nodes.size) (outside : ¬ zone e) :
    doc'.entryProperty? e = doc.entryProperty? e := by
  rw [Document.entryProperty?, calm.entryIdentifier? sound forest plain roles lt outside, Document.entryProperty?]

omit forest plain roles in
theorem pairValue? (lt : e < doc.nodes.size) (outside : ¬ zone e) : doc'.pairValue? e = doc.pairValue? e := by
  rw [Document.pairValue?, calm.ext.role lt, calm.childByField? sound lt outside, Document.pairValue?]

omit forest plain roles in
theorem entryBody (lt : e < doc.nodes.size) (outside : ¬ zone e) : doc'.entryBody e = doc.entryBody e := by
  rw [Document.entryBody, calm.pairValue? sound lt outside, Document.entryBody]

theorem namespaceText (lt : e < doc.nodes.size) (outside : ¬ zone e) : doc'.namespaceText e = doc.namespaceText e := by
  have body : doc.entryBody e < doc.nodes.size := by
    unfold Document.entryBody
    cases found : doc.pairValue? e with
    | none => exact lt
    | some v =>
      unfold Document.pairValue? at found
      split at found
      · exact sound.forest.childLt (List.mem_of_find?_eq_some found)
      · cases found
  unfold Document.namespaceText
  simp only [calm.entryBody sound lt outside, calm.ext.role body, calm.ext.kind _ body]
  split
  next is => rw [calm.text_token sound forest plain roles body (by rw [is]; rfl)]
  next => rfl

theorem recognizeEntries {es : List NodeId} (known : ∀ e ∈ es, e < doc.nodes.size ∧ ¬ zone e)
    (space : Option (List Char)) (shaped : Bool) :
    doc'.recognizeEntries space shaped es = doc.recognizeEntries space shaped es := by
  induction es generalizing space shaped with
  | nil => rfl
  | cons e rest ih =>
    obtain ⟨lt, outside⟩ := known e (by simp)
    have later := ih fun e member => known e (List.mem_cons_of_mem _ member)
    simp only [Document.recognizeEntries, calm.entryProperty? sound forest plain roles lt outside,
      calm.namespaceText sound forest plain roles lt outside, later]

end

/-- The entries of a node outside of the zone. -/
theorem entries (calm : Calm doc doc' zone loose) (forest : doc.Forest) (lt : x < doc.nodes.size) (outside : ¬ zone x) :
    doc'.entries x = doc.entries x := by
  rw [Document.entries, calm.children x lt outside, Document.entries]
  exact List.filter_congr fun c member => by rw [calm.ext.role (forest.childLt member)]

/-- An object literal outside of the zone, as are its entries, is taken for the same model. -/
theorem recognize (calm : Calm doc doc' zone loose) (sound : doc.Sound) (forest : doc'.Forest) (plain : doc.Plain)
    (roles : ∀ z, zone z → doc.role z = .object ∨ doc.role z = .pair) (lt : x < doc.nodes.size) (outside : ¬ zone x)
    (entriesOutside : ∀ e ∈ doc.entries x, ¬ zone e) (filter : Option (List Char)) :
    doc'.recognize filter x = doc.recognize filter x := by
  unfold Document.recognize
  rw [calm.entries sound.forest lt outside, calm.recognizeEntries sound forest plain roles]
  intro e member
  exact ⟨sound.forest.childLt (List.mem_of_mem_filter member), entriesOutside e member⟩

end Calm

end Document

end StoreModels
