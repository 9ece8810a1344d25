import StoreModels.Proofs.Document.Alongside
import StoreModels.Proofs.Model.Consistent
import StoreModels.Proofs.Model.Rematched

/-!
Models that are renamed again. The literal that the first renaming put in place makes way for another one, which has the
quotes of the literal that the file had; so the document prints as it does when the models are renamed just once.
-/
namespace StoreModels
open List (Forall₂)

/-- A list holds an element without repetition in one place only. -/
theorem split_unique {α : Type} {x : α} {before before' after after' : List α} (distinct : (before ++ x :: after).Nodup)
    (same : before ++ x :: after = before' ++ x :: after') : before = before' ∧ after = after' := by
  have absent : x ∉ before' ∧ x ∉ after' := by
    rw [same, List.nodup_append, List.nodup_cons] at distinct
    exact ⟨fun member => distinct.2.2 x member x List.mem_cons_self rfl, distinct.2.1.1⟩
  obtain ⟨first, _, last⟩ := (List.append_cons_inj_of_notMem absent.1 absent.2).mp same.symm
  exact ⟨first.symm, last.symm⟩

namespace Document
variable {doc doc' mid first : Document} {new other : List Char} {done : List Model} {m : Model}
  {v w x y p old : NodeId}

/-! ## Titles by their places -/

/-- The value of the pair that told the namespace is the new literal. -/
theorem Renaming.told (run : first.Renaming doc new done) (start : first.Sound) (plain : first.Plain) (member : m ∈ done)
    (titled : m.Titled first p old) :
    ∃ before after n, first.children p = before ++ old :: after ∧ doc.children p = before ++ n :: after ∧
      { m with space := new }.Titled doc p n ∧ first.nodes.size ≤ n ∧ doc.Supersedes (first.newTitle new old) n old := by
  obtain ⟨before, after, n, was, now, beyond, supersedes⟩ := run.titled m member p old titled
  obtain ⟨v, again⟩ := run.retitled start plain member titled
  obtain ⟨loose, calm, late⟩ := run.calm
  have kept : ∀ c ∈ first.children p, (doc.node c).field = (first.node c).field := fun c child =>
    calm.field c (start.forest.childLt child) fun listed => Nat.not_le_of_lt (start.forest.childLt child) (late c listed)
  have oldKept := kept old titled.value_child
  have distinct := start.forest.distinct p
  -- No child before the old literal is a value, so the new one is the first that is.
  have held := titled.held
  rw [Document.pairValue?, if_pos titled.pair, Document.childByField?] at held
  obtain ⟨value, front, back, split, none⟩ := List.find?_eq_some_iff_append.mp held
  obtain ⟨rfl, rfl⟩ := split_unique (was ▸ distinct) (was.symm.trans split)
  have here : doc.pairValue? p = some n := by
    rw [Document.pairValue?, if_pos again.pair, Document.childByField?]
    refine List.find?_eq_some_iff_append.mpr ⟨?_, before, after, now, fun c member => ?_⟩
    · rw [supersedes.field, oldKept]
      exact value
    · rw [kept c (was ▸ List.mem_append_left _ member)]
      exact none c member
  obtain rfl : v = n := Option.some.inj (again.held.symm.trans here)
  exact ⟨before, after, v, was, now, again, beyond, supersedes⟩

/-- Two literals stand in the place of the same title. -/
def Retold (first doc doc' : Document) (done : List Model) (v w : NodeId) : Prop :=
  ∃ m ∈ done, ∃ p old before after, m.Titled first p old ∧ first.children p = before ++ old :: after ∧
    doc.children p = before ++ v :: after ∧ doc'.children p = before ++ w :: after

/-- Places of titles do not depend on the model. -/
theorem Retold.place_eq {before before' after after' : List NodeId} {m' : Model} {old' : NodeId} (start : first.Sound)
    (titled : m.Titled first p old) (titled' : m'.Titled first p old') (was : first.children p = before ++ old :: after)
    (was' : first.children p = before' ++ old' :: after') : before = before' ∧ after = after' := by
  obtain rfl : old = old' := Option.some.inj (titled.held.symm.trans titled'.held)
  exact split_unique (was ▸ start.forest.distinct p) (was.symm.trans was')

/-- Literals in the place of the same title belong together one to one. -/
theorem Retold.biUnique (start : first.Sound) (forest : doc.Forest) (forest' : doc'.Forest) :
    Relator.BiUnique (Retold first doc doc' done) := by
  constructor
  · rintro v w d ⟨m, _, p, old, before, after, titled, was, now, there⟩ ⟨m', _, p', old', before', after', titled', was', now', there'⟩
    obtain rfl : p = p' := forest'.parent_unique (c := d) (by simp [there]) (by simp [there'])
    obtain ⟨rfl, rfl⟩ := Retold.place_eq start titled titled' was was'
    simpa using now.symm.trans now'
  · rintro v d e ⟨m, _, p, old, before, after, titled, was, now, there⟩ ⟨m', _, p', old', before', after', titled', was', now', there'⟩
    obtain rfl : p = p' := forest.parent_unique (c := v) (by simp [now]) (by simp [now'])
    obtain ⟨rfl, rfl⟩ := Retold.place_eq start titled titled' was was'
    simpa using there.symm.trans there'

/-! ## Once and twice -/

/-- Places that were taken in a file are followed as before when models have been renamed. -/
theorem Renaming.ends (run : first.Renaming doc new done) (start : first.Sound) (lt : x < first.nodes.size)
    (ends : first.Ends x y) : doc.Ends x y := by
  obtain ⟨_, calm, late⟩ := run.calm
  exact calm.ends start lt (fun listed => Nat.not_le_of_lt lt (late x listed)) ends

/-- The nodes of a file are their own counterparts, and the literals in the place of the same title are counterparts. -/
def Renewed (first doc doc' : Document) (done : List Model) (x y : NodeId) : Prop :=
  Same first.nodes.size x y ∨ Retold first doc doc' done x y

section
variable (start : first.Sound) (plain : first.Plain) (plain' : mid.Plain) (alone : first.Renaming doc new done)
  (once : first.Renaming mid other done) (both : mid.Renaming doc' new (done.map ({ · with space := other })))
include start plain plain' alone once both

/-- A model that is renamed twice has a literal with the same text in the same place as one that is renamed once. -/
theorem retold (member : m ∈ done) (titled : m.Titled first p old) :
    ∃ before after n d e, first.children p = before ++ old :: after ∧ doc.children p = before ++ n :: after ∧
      doc'.children p = before ++ d :: after ∧ first.nodes.size ≤ n ∧ first.nodes.size ≤ d ∧
      doc.Supersedes (first.newTitle new old) n old ∧ doc'.Supersedes (first.newTitle new old) d e ∧
      (doc'.node e).replaces = some old := by
  obtain ⟨before, after, n, was, now, _, beyond, supersedes⟩ := alone.told start plain member titled
  obtain ⟨before₁, after₁, e, was₁, now₁, titled', _, supersedes₁⟩ := once.told start plain member titled
  obtain ⟨rfl, rfl⟩ := split_unique (was ▸ start.forest.distinct p) (was.symm.trans was₁)
  obtain ⟨before₂, after₂, d, was₂, now₂, _, beyond₂, supersedes₂⟩ :=
    both.told once.sound plain' (List.mem_map_of_mem member) titled'
  obtain ⟨rfl, rfl⟩ := split_unique (now₁ ▸ once.sound.forest.distinct p) (now₁.symm.trans was₂)
  have text : mid.newTitle new e = first.newTitle new old := by
    rw [newTitle, supersedes₁.text, newTitle, Literal.quoteOf_quoted (Literal.isQuote_quoteOf _), newTitle]
  obtain ⟨loose, calm, late⟩ := both.calm
  have present : e < mid.nodes.size := once.sound.forest.childLt titled'.value_child
  refine ⟨before, after, n, d, e, was, now, now₂, beyond, Nat.le_trans once.ext.size beyond₂, supersedes, text ▸ supersedes₂, ?_⟩
  rw [calm.replaces e present fun listed => Nat.not_le_of_lt present (late e listed)]
  exact supersedes₁.replaces

/-- What stands in the place of a title is a new literal. -/
theorem Retold.supersedes (told : Retold first doc doc' done v w) :
    (first.nodes.size ≤ v ∧ v < doc.nodes.size) ∧ (first.nodes.size ≤ w ∧ w < doc'.nodes.size) ∧
      ∃ old e, doc.Supersedes (first.newTitle new old) v old ∧ doc'.Supersedes (first.newTitle new old) w e := by
  obtain ⟨m, member, p, old, before, after, titled, was, now, there⟩ := told
  obtain ⟨before', after', n, d, e, was', now', there', beyond, beyond', supersedes, supersedes', _⟩ :=
    retold start plain plain' alone once both member titled
  obtain ⟨rfl, rfl⟩ := split_unique (was ▸ start.forest.distinct p) (was.symm.trans was')
  obtain rfl : v = n := by simpa using now.symm.trans now'
  obtain rfl : w = d := by simpa using there.symm.trans there'
  have inside : v ∈ doc.children p := by simp [now]
  have inside' : w ∈ doc'.children p := by simp [there]
  exact ⟨⟨beyond, alone.sound.forest.childLt inside⟩, ⟨beyond', both.sound.forest.childLt inside'⟩, old, e, supersedes,
    supersedes'⟩

theorem Counterparts.renewed :
    Counterparts doc doc' (Same first.buffers.length) (Renewed first doc doc' done) := by
  refine ((Counterparts.self start).extend alone.ext (once.ext.trans both.ext)).relate
    (Retold.biUnique start alone.sound.forest both.sound.forest) (fun told => ?_) (fun told => ?_) (fun told => ?_)
    (fun told => ?_) fun told => ?_
  all_goals
    obtain ⟨⟨beyond, present⟩, ⟨beyond', present'⟩, _, _, supersedes, supersedes'⟩ :=
      told.supersedes start plain plain' alone once both
  · exact ⟨fun z same => Nat.not_le_of_lt same.2 beyond, fun z same => Nat.not_le_of_lt same.2 (same.1 ▸ beyond')⟩
  · exact ⟨present, present'⟩
  · rw [supersedes.kind, supersedes'.kind]
  · rw [supersedes.origin, supersedes'.origin]
    exact .written _
  · rw [supersedes.bare, supersedes'.bare]
    exact .nil

omit plain plain' in
/-- A node of the file took the same places in both documents. -/
theorem Renewed.self (lt : x < first.nodes.size) :
    Renewed first doc doc' done x x ∧ Seated doc doc' (Renewed first doc doc' done) x x := by
  obtain ⟨e, last, ends⟩ := start.ends_present lt
  exact ⟨.inl ⟨rfl, lt⟩, e, e, alone.ends start lt ends,
    both.ends once.sound (Nat.lt_of_lt_of_le lt once.ext.size) (once.ends start lt ends), .inl ⟨rfl, last⟩⟩

variable (titled : ∀ m ∈ done, ∃ p old, m.Titled first p old)
include titled

omit plain' alone in
/-- Where no model was renamed, nothing changes. -/
theorem Renaming.children_twice (lt : x < first.nodes.size) (bare : ∀ m ∈ done, ∀ old, ¬ m.Titled first x old) :
    doc'.children x = first.children x := by
  refine (both.children (Nat.lt_of_lt_of_le lt once.ext.size) ?_).trans (once.children lt bare)
  intro n listed old titled'
  obtain ⟨m, member, rfl⟩ := List.mem_map.mp listed
  obtain ⟨p, past, before⟩ := titled m member
  obtain ⟨_, again⟩ := once.retitled start plain member before
  obtain ⟨rfl, _⟩ := titled'.unique again
  exact bare m member past before

/-- Counterparts have counterparts as children, which took the places of counterparts. -/
theorem Renewed.children (rel : Renewed first doc doc' done x y) :
    Forall₂ (fun c d => Renewed first doc doc' done c d ∧ Seated doc doc' (Renewed first doc doc' done) c d)
      (doc.children x) (doc'.children y) := by
  rcases rel with ⟨rfl, lt⟩ | told
  · have same : ∀ cs ⊆ first.children x, Forall₂ (fun c d => Renewed first doc doc' done c d ∧
        Seated doc doc' (Renewed first doc doc' done) c d) cs cs := fun cs sub =>
      List.forall₂_same.mpr fun c member => Renewed.self start alone once both (start.forest.childLt (sub member))
    by_cases pair : ∃ m ∈ done, ∃ old, m.Titled first x old
    · obtain ⟨m, member, old, told⟩ := pair
      obtain ⟨before, after, n, d, e, was, now, there, _, _, supersedes, supersedes', took⟩ :=
        retold start plain plain' alone once both member told
      have present := start.forest.childLt told.value_child
      obtain ⟨_, z, z', ends, ends', seated⟩ := Renewed.self start alone once both present
      rw [now, there]
      refine List.rel_append (same before (by simp [was])) (.cons ⟨.inr ?_, z, z', ?_, ?_, seated⟩ (same after (by simp [was])))
      · exact ⟨m, member, x, old, before, after, told, was, now, there⟩
      · exact .there supersedes.replaces ends
      · exact .there supersedes'.replaces (.there took ends')
    · have bare : ∀ m ∈ done, ∀ old, ¬ m.Titled first x old := fun m member old told => pair ⟨m, member, old, told⟩
      rw [alone.children lt bare, Renaming.children_twice start plain once both titled lt bare]
      exact same _ (List.Subset.refl _)
  · obtain ⟨_, _, _, _, supersedes, supersedes'⟩ := told.supersedes start plain plain' alone once both
    rw [supersedes.leaf, supersedes'.leaf]
    exact .nil

/-- Models that are renamed twice print as models that are renamed once. -/
theorem Renaming.print_again (shaped : doc.Shaped) (shaped' : doc'.Shaped) (texts : 0 < first.buffers.length)
    (root : first.root < first.nodes.size) : doc'.print = doc.print := by
  refine (Counterparts.renewed start plain plain' alone once both).print_eq alone.sound both.sound shaped shaped'
    (fun rel => ⟨rel, ?_⟩) ?_ ⟨rfl, texts⟩
  · exact (Renewed.children start plain plain' alone once both titled rel).imp fun _ _ here =>
      here.imp_right fun seated _ => seated
  · rw [alone.ext.root, both.ext.root, once.ext.root]
    exact .inl ⟨rfl, root⟩

end

end Document

end StoreModels
