import StoreModels.Proofs.Record.Silhouette
import StoreModels.Proofs.Record.Snippets

/-!
The entries of a container under single edits: a pair that is added, a value or an entry that is replaced, an entry that
is taken out. The records of all other entries stay as they are.
-/
namespace StoreModels
open Syntax (Role)

namespace Document
variable {doc doc' : Document} {zone : NodeId → Prop} {loose todo : List NodeId} {e k p x old new value : NodeId}
  {callees : List (List Char)} {c : Container} {r entry : EntryRecord} {rs : List EntryRecord} {name : List Char}
  {actions : List (List Char)}

/-- The entries of a container have some records, and nothing in them is a model. -/
structure Stocked (doc : Document) (callees : List (List Char)) (c : Container) (k : NodeId) (rs : List EntryRecord) :
    Prop where
  records : List.Forall₂ (doc.EntryTells callees c) (doc.entries k) rs
  barren : ∀ x ∈ doc.children k, doc.Barren x

/-- An entry outside of the zone of some edits is recorded as before. -/
theorem EntryTells.calm (tells : doc.EntryTells callees c e r) (calm : Calm doc doc' zone loose) (sound : doc.Sound)
    (forest : doc'.Forest) (lt : e < doc.nodes.size) (apart : doc.Apart zone e) : doc'.EntryTells callees c e r := by
  have like := calm.likeness sound forest
  have body := like.entryBody ⟨rfl, lt, apart⟩
  refine ⟨?_, ?_, ?_⟩
  · rw [like.entryName? ⟨rfl, lt, apart⟩, tells.name]
  · rw [like.text body, tells.source]
  · rw [like.dispatches sound.forest callees body, tells.dispatches]

/-- An entry outside of the zone of some edits has the name and the profile that it had. -/
theorem Calm.profile (calm : Calm doc doc' zone loose) (sound : doc.Sound) (forest : doc'.Forest)
    (lt : x < doc.nodes.size) (apart : doc.Apart zone x) :
    doc'.entryName? x = doc.entryName? x ∧ doc'.profile x = doc.profile x := by
  have like := calm.likeness sound forest
  have rel := And.intro (Eq.refl x) (And.intro lt apart)
  exact ⟨like.entryName? rel, by
    rw [Document.profile, like.entryIdentifier? rel, like.namespaceText rel, Document.profile]⟩

theorem Calm.silhouette (calm : Calm doc doc' zone loose) (sound : doc.Sound) (forest : doc'.Forest)
    (object : doc.role k = .object) (apart : doc.Apart zone k) : doc'.silhouette k name = doc.silhouette k name := by
  have was : doc.entries k = doc.entries k ++ [] ++ [] := by simp
  have now : doc'.entries k = doc.entries k ++ [] ++ [] := by
    rw [calm.entries sound.forest (lt_of_role object (by decide)) apart.outside, ← was]
  refine silhouette_exchange was now (by simp) (by simp) fun x member => ?_
  have child := (mem_entries (member.resolve_right List.not_mem_nil)).1
  exact calm.profile sound forest (sound.forest.childLt child) (apart.below (.child child))

theorem apart_of_child (forest : doc.Forest) (child : x ∈ doc.children p) : doc.Apart (fun z => z = p) x := by
  rintro z rfl under
  exact forest.not_below_parent child under

theorem apart_of_sibling (forest : doc.Forest) (child : x ∈ doc.children p) (child' : e ∈ doc.children p)
    (other : x ≠ e) : doc.Apart (fun z => z = e) x := by
  rintro z rfl under
  exact other (forest.sibling_eq child child' under (Below.refl doc z))

theorem apart_of_not_below (apart : ¬ doc.Below x p) : doc.Apart (fun z => z = p) x := by
  rintro z rfl under
  exact apart under

theorem Harmless.calm (harmless : doc.Harmless k name) (calm : Calm doc doc' zone loose) (sound : doc.Sound)
    (forest : doc'.Forest) (object : doc.role k = .object) (apart : doc.Apart zone k) : doc'.Harmless k name := by
  refine ⟨harmless.1, harmless.2.imp id fun lacking e member => ?_⟩
  rw [calm.entries sound.forest (lt_of_role object (by decide)) apart.outside] at member
  have child := (mem_entries member).1
  rw [(calm.likeness sound forest).entryIdentifier? ⟨rfl, sound.forest.childLt child, apart.below (.child child)⟩]
  exact lacking e member

/-- The entries before and behind one of them are others. -/
theorem entries_others {before after : List NodeId} (forest : doc.Forest) (split : doc.entries k = before ++ e :: after)
    (member : x ∈ before ∨ x ∈ after) : x ∈ doc.children k ∧ x ≠ e := by
  have distinct : (before ++ e :: after).Nodup := split ▸ (forest.distinct k).filter _
  refine ⟨(mem_entries (p := k) ?_).1, ?_⟩
  · rcases member with member | member <;> simp [split, member]
  · rintro rfl
    rcases member with member | member
    · exact List.disjoint_of_nodup_append distinct member (by simp)
    · exact (List.nodup_cons.mp (List.Nodup.of_append_right distinct)).1 member

/-- A pair without a place that can become an entry of a container: nothing in it is a model, and it is recorded. -/
structure Entrant (doc : Document) (callees : List (List Char)) (c : Container) (k new : NodeId) (entry : EntryRecord) :
    Prop where
  pair : doc.role new = .pair
  free : doc.Free new
  apart : ¬ doc.Below new k
  tells : doc.EntryTells callees c new entry
  barren : doc.Barren new

/-! ## Added entries -/

theorem Appended.entries (appended : Appended doc doc' p new) (forest : doc.Forest) (free : doc.Free new)
    (pair : doc.role new = .pair) : doc'.entries p = doc.entries p ++ [new] := by
  obtain ⟨before, after, split, now, braces⟩ := appended.place
  have ext := appended.edited.ext
  have same : ∀ x ∈ doc.children p, doc'.role x = doc.role x := fun x member => ext.role (forest.childLt member)
  have first : before.filter (fun x => (doc'.role x).isEntry) = before.filter fun x => (doc.role x).isEntry :=
    List.filter_congr fun x member => by rw [same x (by simp [split, member])]
  have last : ∀ d : Document, (∀ x ∈ after, (d.node x).kind = "\x7d") →
      after.filter (fun x => (d.role x).isEntry) = [] := by
    intro d braces
    refine List.filter_eq_nil_iff.mpr fun x member => ?_
    rw [role, Node.role, braces x member]
    decide
  have braces' : ∀ x ∈ after, (doc'.node x).kind = "\x7d" := fun x member => by
    have child : x ∈ doc.children p := by simp [split, member]
    rw [ext.kind x (forest.childLt child)]
    exact braces x member
  have here : (doc'.role new).isEntry = true := by
    rw [ext.role free.lt, pair]
    rfl
  simp only [Document.entries, split, now, List.filter_append, List.filter_cons, here, if_true, first, last doc braces,
    last doc' braces', List.append_nil]

section
variable (appended : Appended doc doc' k new) (sound : doc.Sound) (entrant : doc.Entrant callees c k new entry)
include appended sound entrant

/-- A pair that is added is recorded behind the others. -/
theorem Appended.stocked (stocked : doc.Stocked callees c k rs) : doc'.Stocked callees c k (rs ++ [entry]) := by
  obtain ⟨pair, free, apart, tells, barren⟩ := entrant
  have forest := appended.edited.forest
  have calm := appended.calm free
  have outside := apart_of_not_below apart
  refine ⟨?_, fun x member => ?_⟩
  · rw [appended.entries sound.forest free pair]
    refine List.rel_append (forall₂_imp_mem stocked.records fun e member r _ tells => ?_) (.cons ?_ .nil)
    · have child := (mem_entries member).1
      exact tells.calm calm sound forest (sound.forest.childLt child) (apart_of_child sound.forest child)
    · exact tells.calm calm sound forest free.lt outside
  · rcases (appended.edited.hung.mem x).mp member with fresh | ⟨child, _⟩
    · cases fresh
      exact calm.barren sound forest free.lt outside barren
    · exact calm.barren sound forest (sound.forest.childLt child) (apart_of_child sound.forest child)
        (stocked.barren x child)

theorem Appended.silhouette : doc'.silhouette k entry.name = doc.silhouette k entry.name := by
  obtain ⟨pair, free, apart, tells, _⟩ := entrant
  have forest := appended.edited.forest
  have calm := appended.calm free
  have was : doc.entries k = doc.entries k ++ [] ++ [] := by simp
  have now : doc'.entries k = doc.entries k ++ [new] ++ [] := by simp [appended.entries sound.forest free pair]
  have named := (calm.profile sound forest free.lt (apart_of_not_below apart)).1.trans tells.name
  refine silhouette_exchange was now (by simp) (by simpa using named) fun x member => ?_
  have child := (mem_entries (member.resolve_right List.not_mem_nil)).1
  exact calm.profile sound forest (sound.forest.childLt child) (apart_of_child sound.forest child)

end

/-! ## Replaced values and entries -/

/-- The record of an entry once all that have the name of another one have become it. -/
def revise (entry r : EntryRecord) : EntryRecord := if r.name = entry.name then entry else r

/-- A container in which the entries with a name get another value, some of them later. -/
structure Revising (doc : Document) (callees : List (List Char)) (c : Container) (k : NodeId)
    (change : EntryRecord → EntryRecord) (todo : List NodeId) (rs : List EntryRecord) : Prop where
  records : List.Forall₂ (fun e r => doc.EntryTells callees c e (if e ∈ todo then r else change r)) (doc.entries k) rs
  barren : ∀ x ∈ doc.children k, doc.Barren x

theorem Revising.start (stocked : doc.Stocked callees c k rs)
    (all : ∀ e ∈ doc.entries k, doc.entryName? e = some entry.name → e ∈ todo) :
    doc.Revising callees c k (revise entry) todo rs := by
  refine ⟨forall₂_imp_mem stocked.records fun e member r _ tells => ?_, stocked.barren⟩
  by_cases later : e ∈ todo
  · rw [if_pos later]
    exact tells
  · have other : r.name ≠ entry.name := fun same => later (all e member (tells.name.trans (congrArg some same)))
    rw [if_neg later, revise, if_neg other]
    exact tells

theorem Revising.finish {change : EntryRecord → EntryRecord} (revising : doc.Revising callees c k change [] rs) :
    doc.Stocked callees c k (rs.map change) := by
  refine ⟨List.forall₂_map_right_iff.mpr ?_, revising.barren⟩
  exact revising.records.imp fun e r tells => by simpa using tells

theorem Revising.calm {change : EntryRecord → EntryRecord} (revising : doc.Revising callees c k change todo rs)
    (calm : Calm doc doc' zone loose) (sound : doc.Sound) (forest : doc'.Forest) (object : doc.role k = .object)
    (apart : doc.Apart zone k) : doc'.Revising callees c k change todo rs := by
  have lt := lt_of_role object (by decide)
  refine ⟨?_, fun x member => ?_⟩
  · rw [calm.entries sound.forest lt apart.outside]
    refine forall₂_imp_mem revising.records fun e member r _ tells => ?_
    have child := (mem_entries member).1
    exact tells.calm calm sound forest (sound.forest.childLt child) (apart.below (.child child))
  · rw [calm.children k lt apart.outside] at member
    exact calm.barren sound forest (sound.forest.childLt member) (apart.below (.child member))
      (revising.barren x member)

theorem Replaced.childByField? (replaced : Replaced doc doc' p old new) (forest : doc.Forest) (free : doc.Free new)
    (field : String) :
    doc'.childByField? p field = (doc.childByField? p field).map fun x => if x = old then new else x := by
  obtain ⟨before, after, split, now⟩ := replaced.place
  have distinct := forest.distinct p
  rw [split] at distinct
  have fields : ∀ x ∈ doc.children p, (doc'.node x).field = (doc.node x).field := fun x member =>
    replaced.edited.field x fun same => free.not_child forest (Option.some.inj same ▸ member)
  have kept : ∀ xs : List NodeId, old ∉ xs → xs ⊆ doc.children p → List.Forall₂ (fun x x' =>
      (doc'.node x').field = (doc.node x).field ∧ x' = if x = old then new else x) xs xs := fun xs fresh sub =>
    List.forall₂_same.mpr fun x member => by
      have other : x ≠ old := fun same => fresh (same ▸ member)
      exact ⟨fields x (sub member), by rw [if_neg other]⟩
  have pairs : List.Forall₂ (fun x x' => (doc'.node x').field = (doc.node x).field ∧ x' = if x = old then new else x)
      (doc.children p) (doc'.children p) := by
    rw [split] at kept
    rw [split, now]
    refine List.rel_append (kept before (fun member => ?_) (by simp))
      (.cons ?_ (kept after (fun member => ?_) (by simp)))
    · exact List.disjoint_of_nodup_append distinct member (by simp)
    · exact ⟨replaced.field, by rw [if_pos rfl]⟩
    · exact (List.nodup_cons.mp (List.Nodup.of_append_right distinct)).1 member
  have found := forall₂_find? (p := fun x => (doc.node x).field == some field)
    (q := fun x => (doc'.node x).field == some field) pairs fun x _ x' _ both => by rw [both.1]
  unfold Document.childByField?
  generalize List.find? _ (doc.children p) = left at found ⊢
  generalize List.find? _ (doc'.children p) = right at found ⊢
  cases found with
  | none => rfl
  | some both => rw [both.2, Option.map_some]

/-- A pair that gets another value keeps its name. -/
theorem Replaced.entryName?_pair (replaced : Replaced doc doc' e old value) (sound : doc.Sound) (free : doc.Free value)
    (held : doc.pairValue? e = some old) : doc'.entryName? e = doc.entryName? e := by
  have calm := replaced.calm free
  obtain ⟨pair, inside, field⟩ := pairValue?_some held
  have role : doc'.role e = .pair := (calm.ext.role (lt_of_mem_children inside)).trans pair
  rw [Document.entryName?, Document.entryName?, entryKey?, entryKey?, role, pair]
  simp only [replaced.childByField? sound.forest free]
  cases found : doc.childByField? e "key" with
  | none => rfl
  | some q =>
    obtain ⟨listed, is⟩ := childByField?_some found
    have other : q ≠ old := by
      rintro rfl
      rw [is] at field
      exact absurd field (by decide)
    have same := (calm.likeness sound replaced.edited.forest).keyOf
      ⟨rfl, sound.forest.childLt listed, apart_of_child sound.forest listed⟩
    simp only [Option.map_some, if_neg other, same]

theorem Replaced.entryBody_pair (replaced : Replaced doc doc' e old value) (sound : doc.Sound) (free : doc.Free value)
    (held : doc.pairValue? e = some old) : doc'.entryBody e = value := by
  obtain ⟨pair, inside, _⟩ := pairValue?_some held
  have role : doc'.role e = .pair := (replaced.edited.ext.role (lt_of_mem_children inside)).trans pair
  have here : doc.childByField? e "value" = some old := by
    rw [Document.pairValue?, if_pos pair] at held
    exact held
  rw [Document.entryBody, Document.pairValue?, if_pos role, replaced.childByField? sound.forest free, here]
  simp

/-- The entries around one that is replaced. -/
theorem Replaced.entries (replaced : Replaced doc doc' k e new) (sound : doc.Sound) (free : doc.Free new)
    (child : (doc.role e).isEntry = true) (pair : doc.role new = .pair) :
    ∃ before after, doc.entries k = before ++ e :: after ∧ doc'.entries k = before ++ new :: after := by
  obtain ⟨before, after, split, now⟩ := replaced.place
  have roles : ∀ xs : List NodeId, xs ⊆ doc.children k →
      xs.filter (fun x => (doc'.role x).isEntry) = xs.filter fun x => (doc.role x).isEntry := fun xs sub =>
    List.filter_congr fun x member => by rw [replaced.edited.ext.role (sound.forest.childLt (sub member))]
  have is : (doc'.role new).isEntry = true := by
    rw [replaced.edited.ext.role free.lt, pair]
    rfl
  refine ⟨before.filter fun x => (doc.role x).isEntry, after.filter fun x => (doc.role x).isEntry, ?_, ?_⟩
  · rw [Document.entries, split, List.filter_append, List.filter_cons, if_pos child]
  · rw [Document.entries, now, List.filter_append, List.filter_cons, if_pos is, roles before, roles after]
    · intro x member
      simp [split, member]
    · intro x member
      simp [split, member]

section
variable (sound : doc.Sound) (child : e ∈ doc.entries k) (named : doc.entryName? e = some entry.name)
  (revising : doc.Revising callees c k (revise entry) (e :: todo) rs)
include sound child named revising

/-- A pair that gets another value is recorded with it. -/
theorem Replaced.revising_value (done : e ∉ todo) (replaced : Replaced doc doc' e old value)
    (held : doc.pairValue? e = some old)
    (free : doc.Free value) (apart : ¬ doc.Below value e) (offers : doc.Offers callees value entry.source actions)
    (tracked : entry.dispatches = if c.tracksDispatches then actions else []) :
    doc'.Revising callees c k (revise entry) todo rs := by
  have forest := replaced.edited.forest
  have calm := replaced.calm free
  have part := (mem_entries child).1
  have lt := sound.forest.childLt part
  obtain ⟨pair, inside, field⟩ := pairValue?_some held
  have outer : k ≠ e := (sound.forest.child_ne part).symm
  have siblings : ∀ x ∈ doc.children k, x ≠ e → doc.Apart (fun z => z = e) x := fun x member other =>
    apart_of_sibling sound.forest member part other
  have role : doc'.role e = .pair := (calm.ext.role lt).trans pair
  have key := (replaced.entryName?_pair sound free held).trans named
  have body := replaced.entryBody_pair sound free held
  have offers' := offers.calm calm sound forest (apart_of_not_below apart)
  refine ⟨?_, fun x member => ?_⟩
  · rw [calm.entries sound.forest (lt_of_mem_children part) outer]
    refine forall₂_imp_mem revising.records fun x member r _ tells => ?_
    have listed := (mem_entries member).1
    by_cases here : x = e
    · subst here
      rw [if_pos (by simp)] at tells
      have same : r.name = entry.name := Option.some.inj (tells.name.symm.trans named)
      rw [if_neg done, revise, if_pos same]
      refine ⟨key, ?_, ?_⟩
      · rw [body, offers'.text]
      · rw [body, offers'.dispatches, tracked]
    · simp only [List.mem_cons, here, false_or] at tells
      exact tells.calm calm sound forest (sound.forest.childLt listed) (siblings x listed here)
  · rw [calm.children k (lt_of_mem_children part) outer] at member
    by_cases here : x = e
    · subst here
      intro y under object
      rcases Relation.ReflTransGen.cases_head under with rfl | ⟨d, edge, under⟩
      · rw [role] at object
        cases object
      rcases (replaced.edited.hung.mem d).mp edge with new | ⟨listed, _⟩
      · cases new
        exact offers'.barren y under object
      · have before := (revising.barren x member).below (.child listed)
        exact calm.barren sound forest (sound.forest.childLt listed) (apart_of_child sound.forest listed) before y under
          object
    · exact calm.barren sound forest (sound.forest.childLt member) (siblings x member here) (revising.barren x member)

/-- An entry that becomes a pair is recorded as the pair is. -/
theorem Replaced.revising_entry (replaced : Replaced doc doc' k e new) (entrant : doc.Entrant callees c k new entry)
    (later : new ∉ todo) : doc'.Revising callees c k (revise entry) todo rs := by
  obtain ⟨pair, free, apart, tells, barren⟩ := entrant
  have forest := replaced.edited.forest
  have calm := replaced.calm free
  have outside := apart_of_not_below apart
  obtain ⟨before, after, entries, entries'⟩ := replaced.entries sound free (mem_entries child).2 pair
  refine ⟨?_, fun x member => ?_⟩
  · have records := revising.records
    rw [entries] at records
    rw [entries']
    refine forall₂_exchange records (fun x member r tells => ?_) fun r told => ?_
    · obtain ⟨listed, other⟩ := entries_others sound.forest entries member
      simp only [List.mem_cons, other, false_or] at tells
      exact tells.calm calm sound forest (sound.forest.childLt listed) (apart_of_child sound.forest listed)
    · rw [if_pos (by simp)] at told
      have same : r.name = entry.name := Option.some.inj (told.name.symm.trans named)
      rw [if_neg later, revise, if_pos same]
      exact tells.calm calm sound forest free.lt outside
  · rcases (replaced.edited.hung.mem x).mp member with is | ⟨listed, _⟩
    · cases is
      exact calm.barren sound forest free.lt outside barren
    · exact calm.barren sound forest (sound.forest.childLt listed) (apart_of_child sound.forest listed)
        (revising.barren x listed)

end

theorem Replaced.silhouette_value (replaced : Replaced doc doc' e old value) (sound : doc.Sound) (free : doc.Free value)
    (held : doc.pairValue? e = some old) (child : e ∈ doc.entries k) (named : doc.entryName? e = some name) :
    doc'.silhouette k name = doc.silhouette k name := by
  have calm := replaced.calm free
  have entry := (mem_entries child).1
  have outer : k ≠ e := (sound.forest.child_ne entry).symm
  obtain ⟨before, after, split⟩ := List.append_of_mem child
  have was : doc.entries k = before ++ [e] ++ after := by simp [split]
  have now : doc'.entries k = before ++ [e] ++ after := by
    rw [calm.entries sound.forest (lt_of_mem_children entry) outer, was]
  have named' := (replaced.entryName?_pair sound free held).trans named
  refine silhouette_exchange was now (by simpa using named) (by simpa using named') fun x member => ?_
  obtain ⟨listed, other⟩ := entries_others sound.forest split member
  exact calm.profile sound replaced.edited.forest (sound.forest.childLt listed)
    (apart_of_sibling sound.forest listed entry other)

theorem Replaced.silhouette_entry (replaced : Replaced doc doc' k e new) (sound : doc.Sound)
    (entrant : doc.Entrant callees c k new entry) (child : e ∈ doc.entries k)
    (named : doc.entryName? e = some entry.name) : doc'.silhouette k entry.name = doc.silhouette k entry.name := by
  obtain ⟨pair, free, apart, tells, _⟩ := entrant
  have forest := replaced.edited.forest
  have calm := replaced.calm free
  obtain ⟨before, after, split, split'⟩ := replaced.entries sound free (mem_entries child).2 pair
  have was : doc.entries k = before ++ [e] ++ after := by simp [split]
  have now : doc'.entries k = before ++ [new] ++ after := by simp [split']
  have named' := (calm.profile sound forest free.lt (apart_of_not_below apart)).1.trans tells.name
  refine silhouette_exchange was now (by simpa using named) (by simpa using named') fun x member => ?_
  obtain ⟨listed, _⟩ := entries_others sound.forest split member
  exact calm.profile sound forest (sound.forest.childLt listed) (apart_of_child sound.forest listed)

/-- One more entry of a container has got another value; the entries around it stay where they are, with their names. -/
structure Given (doc doc' : Document) (callees : List (List Char)) (c : Container) (k : NodeId) (entry : EntryRecord)
    (e value : NodeId) (todo : List NodeId) (rs : List EntryRecord) : Prop where
  calm : ∃ loose, Calm doc doc' (fun z => z = k ∨ z = e ∧ doc.role z = .pair) loose ∧
    ∀ y ∈ loose, y = value ∨ doc.nodes.size ≤ y
  revising : doc'.Revising callees c k (revise entry) todo rs
  covered : doc'.silhouette k entry.name = doc.silhouette k entry.name
  others : ∀ x ∈ doc.entries k, x ≠ e → x ∈ doc'.entries k ∧ doc'.entryName? x = doc.entryName? x

section
variable (sound : doc.Sound) (child : e ∈ doc.entries k)
  (named : doc.entryName? e = some entry.name)
  (revising : doc.Revising callees c k (revise entry) (e :: todo) rs)
include sound child named revising

/-- The value of a pair is exchanged. -/
theorem Given.of_value {before : NodeId} (replaced : Replaced doc doc' e before value)
    (held : doc.pairValue? e = some before) (loose : doc.Loose [k] value) (done : e ∉ todo)
    (offers : doc.Offers callees value entry.source actions)
    (tracked : entry.dispatches = if c.tracksDispatches then actions else []) :
    doc.Given doc' callees c k entry e value todo rs := by
  have part := (mem_entries child).1
  obtain ⟨pair, _, _⟩ := pairValue?_some held
  have apart := loose.not_below sound.forest (List.mem_singleton_self k) (Below.child part)
  have calm := replaced.calm loose.free
  refine ⟨⟨_, calm.mono sound.forest (fun z _ same => .inr ⟨same, same ▸ pair⟩) (fun y member _ => member) calm.free,
    fun y member => .inl (List.mem_singleton.mp member)⟩, ?_, ?_, fun x member other => ?_⟩
  · exact replaced.revising_value sound child named revising done held loose.free apart offers tracked
  · exact replaced.silhouette_value sound loose.free held child named
  · have listed := (mem_entries member).1
    rw [calm.entries sound.forest (lt_of_mem_children part) (sound.forest.child_ne part).symm]
    exact ⟨member, (calm.profile sound replaced.edited.forest (sound.forest.childLt listed)
      (apart_of_sibling sound.forest listed part other)).1⟩

/-- The entry is exchanged for a written pair. -/
theorem Given.of_entry {paired : Document} (soundPaired : paired.Sound)
    (written : Calm doc paired (fun _ => False) [value])
    (entrant : paired.Entrant callees c k (doc.nodes.size + 1) entry)
    (replaced : Replaced paired doc' k e (doc.nodes.size + 1)) (object : doc.role k = .object)
    (old : ∀ x ∈ todo, x < doc.nodes.size) : doc.Given doc' callees c k entry e value todo rs := by
  have forest := sound.forest
  have spared := apart_nowhere doc
  have entries : paired.entries k = doc.entries k :=
    written.entries forest (lt_of_role object (by decide)) fun impossible => impossible
  have names : ∀ x ∈ doc.entries k, paired.entryName? x = doc.entryName? x := fun x member =>
    (written.profile sound soundPaired.forest (forest.childLt (mem_entries member).1) (spared x)).1
  have child' : e ∈ paired.entries k := entries ▸ child
  have named' := (names e child).trans named
  have placed := replaced.calm entrant.free
  have newer : ∀ y ∈ [doc.nodes.size + 1], ¬ y < doc.nodes.size := fun y member =>
    List.mem_singleton.mp member ▸ Nat.not_lt_of_ge (Nat.le_succ _)
  have all := written.trans placed forest fun y member lt => absurd lt (newer y member)
  refine ⟨⟨_, all.mono forest (fun z _ inside => .inl (by simpa using inside)) (fun y member _ => member) all.free,
    fun y member => ?_⟩, ?_, ?_, fun x member other => ⟨?_, ?_⟩⟩
  · exact (List.mem_append.mp member).imp List.mem_singleton.mp fun late => Nat.le_of_not_lt (newer y late)
  · exact replaced.revising_entry soundPaired child' named'
      (revising.calm written sound soundPaired.forest object (spared k))
      entrant fun member => newer _ (List.mem_singleton_self _) (old _ member)
  · exact (replaced.silhouette_entry soundPaired entrant child' named').trans
      (written.silhouette sound soundPaired.forest object (spared k))
  · obtain ⟨before, after, split, now⟩ := replaced.entries soundPaired entrant.free (mem_entries child').2 entrant.pair
    have around : x ∈ before ++ e :: after := split ▸ entries.symm ▸ member
    rw [now]
    rcases List.mem_append.mp around with early | late
    · exact List.mem_append_left _ early
    · exact List.mem_append_right _ (List.mem_cons_of_mem _ ((List.mem_cons.mp late).resolve_left other))
  · have listed : x ∈ paired.children k := (mem_entries (entries.symm ▸ member)).1
    exact ((placed.profile soundPaired replaced.edited.forest (soundPaired.forest.childLt listed)
      (apart_of_child soundPaired.forest listed)).1).trans (names x member)

end

/-! ## Entries taken out -/

/-- The entries around one that is taken out. -/
theorem Removed.entries (removed : Removed doc doc' k e) (forest : doc.Forest) (child : e ∈ doc.entries k) :
    ∃ before after, doc.entries k = before ++ e :: after ∧ doc'.entries k = before ++ after := by
  obtain ⟨before, after, split⟩ := List.append_of_mem child
  have rest : doc'.entries k = (doc.entries k).filter (· != e) := by
    rw [Document.entries, removed.place, Document.entries, List.filter_filter, List.filter_filter]
    refine List.filter_congr fun x member => ?_
    rw [removed.edited.ext.role (forest.childLt member), Bool.and_comm]
  have keep : ∀ xs : List NodeId, (∀ x ∈ xs, x ∈ before ∨ x ∈ after) → xs.filter (· != e) = xs := fun xs sub =>
    List.filter_eq_self.mpr fun x member => by simpa using (entries_others forest split (sub x member)).2
  refine ⟨before, after, split, ?_⟩
  rw [rest, split, List.filter_append, List.filter_cons_of_neg (by simp), keep before fun _ => .inl, keep after
    fun _ => .inr]

/-- The entries with a name are the same, but for the one that is taken out. -/
theorem Removed.named_iff (removed : Removed doc doc' k e) (sound : doc.Sound) (child : e ∈ doc.entries k) :
    x ∈ doc'.entries k ∧ doc'.entryName? x = some name ↔
      (x ∈ doc.entries k ∧ doc.entryName? x = some name) ∧ x ≠ e := by
  obtain ⟨before, after, split, now⟩ := removed.entries sound.forest child
  have kept : x ∈ doc'.entries k ↔ x ∈ doc.entries k ∧ x ≠ e := by
    rw [now, split, List.mem_append, List.mem_append, List.mem_cons]
    refine ⟨fun member => ⟨member.imp id .inr, (entries_others sound.forest split member).2⟩, ?_⟩
    exact fun ⟨member, other⟩ => member.imp id fun late => late.resolve_left other
  rw [kept, and_right_comm]
  refine and_congr_left fun _ => and_congr_right fun member => ?_
  have listed := (mem_entries member).1
  rw [(removed.calm.profile sound removed.edited.forest (sound.forest.childLt listed)
    (apart_of_child sound.forest listed)).1]

section
variable (removed : Removed doc doc' k e) (sound : doc.Sound) (child : e ∈ doc.entries k)
  (named : doc.entryName? e = some name)
include removed sound child named

/-- An entry that is taken out is no longer recorded; the records of entries with other names are the same. -/
theorem Removed.stocked (stocked : doc.Stocked callees c k rs) :
    ∃ rs', doc'.Stocked callees c k rs' ∧ rs'.filter (·.name != name) = rs.filter (·.name != name) := by
  have forest := removed.edited.forest
  have calm := removed.calm
  obtain ⟨before, after, split, rest⟩ := removed.entries sound.forest child
  have records := stocked.records
  rw [split] at records
  obtain ⟨firsts, lasts, rfl, first, last⟩ := forall₂_append_left records
  obtain ⟨here, others, tells, later, rfl⟩ := List.forall₂_cons_left_iff.mp last
  have gone : here.name = name := Option.some.inj (tells.name.symm.trans named)
  have kept : ∀ {xs ys}, (∀ x ∈ xs, x ∈ before ∨ x ∈ after) → List.Forall₂ (doc.EntryTells callees c) xs ys →
      List.Forall₂ (doc'.EntryTells callees c) xs ys := by
    intro xs ys sub pairs
    refine forall₂_imp_mem pairs fun x member r _ tells => ?_
    obtain ⟨listed, _⟩ := entries_others sound.forest split (sub x member)
    exact tells.calm calm sound forest (sound.forest.childLt listed) (apart_of_child sound.forest listed)
  refine ⟨firsts ++ others, ⟨?_, fun x member => ?_⟩, ?_⟩
  · rw [rest]
    exact List.rel_append (kept (fun _ => .inl) first) (kept (fun _ => .inr) later)
  · rcases (removed.edited.hung.mem x).mp member with impossible | ⟨listed, _⟩
    · cases impossible
    · exact calm.barren sound forest (sound.forest.childLt listed) (apart_of_child sound.forest listed)
        (stocked.barren x listed)
  · rw [List.filter_append, List.filter_append, List.filter_cons_of_neg (by simp [gone])]

theorem Removed.silhouette : doc'.silhouette k name = doc.silhouette k name := by
  have calm := removed.calm
  obtain ⟨before, after, split, rest⟩ := removed.entries sound.forest child
  have was : doc.entries k = before ++ [e] ++ after := by simp [split]
  have now : doc'.entries k = before ++ [] ++ after := by simp [rest]
  refine silhouette_exchange was now (by simpa using named) (by simp) fun x member => ?_
  obtain ⟨listed, _⟩ := entries_others sound.forest split member
  exact calm.profile sound removed.edited.forest (sound.forest.childLt listed) (apart_of_child sound.forest listed)

end

end Document

end StoreModels
