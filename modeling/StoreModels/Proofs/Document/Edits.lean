import StoreModels.Proofs.Document.Forest
import StoreModels.Proofs.Pairing

/-!
What the edits of a tree do to its table. Marking a node marks exactly the nodes above it. Putting a node in the place
of another one, adding an entry and taking one out each change the children of one node, the parents of the nodes that
come and go, and the marks above; a node that takes a place also takes over the field and remembers whose place it was.
-/
namespace StoreModels
open Syntax (Role)

namespace Document
variable {doc doc' doc'' : Document} {id x p old new entry : NodeId}

/-! ## Marks -/

/-- Two documents that differ at most in the marks of their nodes. -/
structure SameButMarks (doc doc' : Document) : Prop where
  rest : doc' = { doc with nodes := doc'.nodes }
  size : doc'.nodes.size = doc.nodes.size
  node : ∀ x, doc'.node x = { doc.node x with dirty := (doc'.node x).dirty }

namespace SameButMarks

theorem refl (doc : Document) : SameButMarks doc doc := ⟨rfl, rfl, fun _ => rfl⟩

theorem trans (first : SameButMarks doc doc') (second : SameButMarks doc' doc'') : SameButMarks doc doc'' where
  rest := second.rest.trans (congrArg (fun d : Document => { d with nodes := doc''.nodes }) first.rest)
  size := second.size.trans first.size
  node x := by
    rw [second.node x]
    nth_rewrite 1 [first.node x]
    rfl

theorem children (same : SameButMarks doc doc') (x : NodeId) : doc'.children x = doc.children x := by
  rw [Document.children, same.node x, Document.children]

theorem parent (same : SameButMarks doc doc') (x : NodeId) : doc'.parent? x = doc.parent? x := by
  rw [parent?, same.node x, parent?]

theorem field (same : SameButMarks doc doc') (x : NodeId) : (doc'.node x).field = (doc.node x).field := by
  rw [same.node x]

theorem replaces (same : SameButMarks doc doc') (x : NodeId) : (doc'.node x).replaces = (doc.node x).replaces := by
  rw [same.node x]

theorem toExtends (same : SameButMarks doc doc') : Extends doc doc' where
  size := Nat.le_of_eq same.size.symm
  buffers := ⟨[], by rw [List.append_nil, same.rest]⟩
  dialect := by rw [same.rest]
  root := by rw [same.rest]
  shownIndent := by rw [same.rest]
  fallbackIndent := by rw [same.rest]
  newline := by rw [same.rest]
  kind x _ := by rw [same.node x]
  origin x _ := by rw [same.node x]
  named x _ := by rw [same.node x]
  firstChildren x _ := by rw [same.node x]

theorem forest (same : SameButMarks doc doc') (forest : doc.Forest) : doc'.Forest :=
  forest.congr same.size same.children same.parent

theorem below (same : SameButMarks doc doc') : doc'.Below = doc.Below := below_congr same.children

end SameButMarks

theorem update_dirty (doc : Document) (id : NodeId) :
    SameButMarks doc (doc.update id fun node => { node with dirty := true }) where
  rest := rfl
  size := by simp
  node x := by
    by_cases here : x = id ∧ id < doc.nodes.size
    · rw [here.1, node_update_self _ here.2]
    · by_cases other : x = id
      · have beyond : doc.nodes.size ≤ x := Nat.le_of_not_lt fun lt => here ⟨other, other ▸ lt⟩
        rw [node_beyond (by simpa using beyond), node_beyond beyond]
      · rw [node_update_of_ne _ other]

theorem markUp_same (doc : Document) (height : Nat) (id : NodeId) : SameButMarks doc (doc.markUp height id) := by
  induction height generalizing doc id with
  | zero => exact SameButMarks.refl doc
  | succ height ih =>
    simp only [markUp]
    cases (doc.update id fun node => { node with dirty := true }).parent? id with
    | none => exact update_dirty doc id
    | some p => exact (update_dirty doc id).trans (ih _ p)

theorem mark_same (doc : Document) (id : NodeId) : SameButMarks doc (doc.mark id) := markUp_same doc _ id

/-- Above a node are its parent and what is above that. -/
theorem Forest.below_parent (forest : doc.Forest) (parent : doc.parent? id = some p) :
    doc.Below x id ↔ x = id ∨ doc.Below x p := by
  constructor
  · intro below
    rcases Relation.ReflTransGen.cases_tail below with same | ⟨a, down, edge⟩
    · exact .inl same.symm
    · have same := forest.parent_unique edge (forest.parentChild parent)
      exact .inr (same ▸ down)
  · rintro (rfl | below)
    · exact Below.refl doc x
    · exact below.tail (forest.parentChild parent)

theorem dirty_markUp (forest : doc.Forest) (height : Nat) (climbs : doc.Climbs height id) (lt : id < doc.nodes.size) :
    ((doc.markUp height id).node x).dirty = true ↔ (doc.node x).dirty = true ∨ doc.Below x id := by
  induction height generalizing doc id with
  | zero => exact climbs.elim
  | succ height ih =>
    have same := update_dirty doc id
    have here : ((doc.update id fun node => { node with dirty := true }).node x).dirty = true ↔
        (doc.node x).dirty = true ∨ x = id := by
      by_cases at_id : x = id
      · subst at_id
        simp [node_update_self _ lt]
      · simp [node_update_of_ne _ at_id, at_id]
    simp only [markUp]
    generalize (doc.update id fun node => { node with dirty := true }) = marked at same here ⊢
    rw [same.parent id]
    cases parent : doc.parent? id with
    | none =>
      rw [here]
      constructor
      · rintro (before | rfl)
        · exact .inl before
        · exact .inr (Below.refl doc x)
      · rintro (before | below)
        · exact .inl before
        · exact .inr (forest.below_root parent below)
    | some p =>
      have climbs' : marked.Climbs height p := by
        have up := climbs p (by simp [parent])
        simp only [Climbs, same.parent] at up ⊢
        exact up
      have lt' : p < marked.nodes.size := by
        rw [same.size]
        exact lt_of_mem_children (forest.parentChild parent)
      simp only [ih (same.forest forest) climbs' lt', here, same.below, forest.below_parent parent, or_assoc]

/-- The nodes that marking a node marks are those above it. -/
theorem Forest.dirty_mark (forest : doc.Forest) (lt : id < doc.nodes.size) :
    ((doc.mark id).node x).dirty = true ↔ (doc.node x).dirty = true ∨ doc.Below x id :=
  dirty_markUp forest _ (forest.climbs lt) lt

/-! ## Changes below one node -/

/-- A node without a parent. -/
structure Detached (doc : Document) (id : NodeId) : Prop where
  lt : id < doc.nodes.size
  root : doc.parent? id = none

instance : Decidable (doc.Detached id) :=
  decidable_of_iff (id < doc.nodes.size ∧ doc.parent? id = none)
    ⟨fun both => ⟨both.1, both.2⟩, fun detached => ⟨detached.lt, detached.root⟩⟩

theorem Detached.not_child (detached : doc.Detached id) (forest : doc.Forest) : id ∉ doc.children x := fun member => by
  have root := detached.root
  rw [forest.childParent member] at root
  cases root

/-- A node that stands for itself alone: it has no parent, took no place, lost none, and no node was parsed with it. -/
structure Free (doc : Document) (id : NodeId) : Prop where
  lt : id < doc.nodes.size
  root : doc.parent? id = none
  tookNone : (doc.node id).replaces = none
  lostNone : ∀ x, (doc.node x).replaces ≠ some id
  notFirst : ∀ x, id ∉ (doc.node x).firstChildren

theorem Free.detached (free : doc.Free id) : doc.Detached id := ⟨free.lt, free.root⟩

theorem Free.not_child (free : doc.Free id) (forest : doc.Forest) : id ∉ doc.children x := free.detached.not_child forest

/-- What all edits of the children of a node `p` have in common. -/
structure Edited (doc doc' : Document) (p : NodeId) (gone new : Option NodeId) : Prop where
  ext : Extends doc doc'
  hung : Rehung doc doc' p gone new
  forest : doc'.Forest
  dirty : ∀ x, (doc'.node x).dirty = true ↔ (doc.node x).dirty = true ∨ doc'.Below x p
  field : ∀ x, some x ≠ new → (doc'.node x).field = (doc.node x).field
  replaces : ∀ x, some x ≠ new → (doc'.node x).replaces = (doc.node x).replaces

/-- A change below one node, together with the marks above it, from what it makes of every node. -/
theorem Edited.of_node {gone new : Option NodeId} {now : List NodeId} (fields : NodeId → Option String)
    (places : NodeId → Option NodeId) (forest : doc.Forest) (present : p < doc.nodes.size)
    (rest : doc' = { doc with nodes := doc'.nodes }) (size : doc'.nodes.size = doc.nodes.size)
    (node : ∀ x, doc'.node x =
      { doc.node x with
        parent := if some x = new then some p else if some x = gone then none else doc.parent? x
        children := if x = p then now else doc.children x
        field := if some x = new then fields x else (doc.node x).field
        replaces := if some x = new then places x else (doc.node x).replaces })
    (mem : ∀ x, x ∈ now ↔ some x = new ∨ (x ∈ doc.children p ∧ some x ≠ gone)) (nodup : now.Nodup)
    (child : ∀ g, gone = some g → g ∈ doc.children p)
    (detached : ∀ n, new = some n → doc.Detached n ∧ ¬ doc.Below n p) :
    Edited doc (doc'.mark p) p gone new ∧ (doc'.mark p).children p = now ∧
      ∀ n, new = some n → ((doc'.mark p).node n).field = fields n ∧ ((doc'.mark p).node n).replaces = places n := by
  have same := mark_same doc' p
  have atP : doc'.children p = now := by
    rw [children, node p]
    exact if_pos rfl
  have hung : Rehung doc doc' p gone new :=
    { size
      parent := fun x => by rw [parent?, node x]
      children := fun x other => by
        rw [children, node x]
        exact if_neg other
      mem := fun x => by rw [atP, mem]
      nodup := atP ▸ nodup }
  have forest' : doc'.Forest := by
    refine hung.forest forest present child fun n fresh => ?_
    obtain ⟨loose, apart⟩ := detached n fresh
    exact ⟨loose.lt, loose.root, apart⟩
  have ext : Extends doc doc' :=
    { size := Nat.le_of_eq size.symm
      buffers := ⟨[], by rw [List.append_nil, rest]⟩
      dialect := by rw [rest]
      root := by rw [rest]
      shownIndent := by rw [rest]
      fallbackIndent := by rw [rest]
      newline := by rw [rest]
      kind := fun x _ => by rw [node x]
      origin := fun x _ => by rw [node x]
      named := fun x _ => by rw [node x]
      firstChildren := fun x _ => by rw [node x] }
  have here : Rehung doc (doc'.mark p) p gone new :=
    { size := same.size.trans size
      parent := fun x => by rw [same.parent, hung.parent]
      children := fun x other => by rw [same.children, hung.children x other]
      mem := fun x => by rw [same.children, hung.mem]
      nodup := by
        rw [same.children]
        exact hung.nodup }
  refine ⟨⟨ext.trans same.toExtends, here, same.forest forest', ?_, ?_, ?_⟩, ?_, ?_⟩
  · intro x
    rw [forest'.dirty_mark (size ▸ present), node x, same.below]
  · intro x other
    rw [same.field, node x]
    exact if_neg other
  · intro x other
    rw [same.replaces, node x]
    exact if_neg other
  · rw [same.children, atP]
  · intro n fresh
    rw [same.field, same.replaces, node n]
    exact ⟨if_pos fresh.symm, if_pos fresh.symm⟩

/-- The document after a node has been put in the place of another one. -/
structure Replaced (doc doc' : Document) (p old new : NodeId) : Prop where
  edited : Edited doc doc' p (some old) (some new)
  field : (doc'.node new).field = (doc.node old).field
  replaces : (doc'.node new).replaces = some old
  place : ∃ before after, doc.children p = before ++ old :: after ∧ doc'.children p = before ++ new :: after

/-- The document after an entry has been added. -/
structure Appended (doc doc' : Document) (p new : NodeId) : Prop where
  edited : Edited doc doc' p none (some new)
  field : (doc'.node new).field = (doc.node new).field
  replaces : (doc'.node new).replaces = none
  place : ∃ before after, doc.children p = before ++ after ∧ doc'.children p = before ++ new :: after ∧
    ∀ x ∈ after, (doc.node x).kind = "\x7d"

/-- The document after an entry has been taken out. -/
structure Removed (doc doc' : Document) (p old : NodeId) : Prop where
  edited : Edited doc doc' p (some old) none
  place : doc'.children p = (doc.children p).filter (· != old)

theorem findIdx?_append_cons {before after : List NodeId} (fresh : old ∉ before) :
    (before ++ old :: after).findIdx? (· == old) = some before.length := by
  induction before with
  | nil => simp [List.findIdx?_cons]
  | cons first rest ih =>
    have other : first ≠ old := fun same => fresh (by simp [same])
    have later := ih fun member => fresh (by simp [member])
    simp [List.findIdx?_cons, other, later]

/-- Putting a detached node in a place outside of its own tree succeeds. -/
theorem replace_detached (forest : doc.Forest) (parent : doc.parent? old = some p) (detached : doc.Detached new)
    (apart : ¬ doc.Below new p) : ∃ doc', doc.replace old new = .ok doc' ∧ Replaced doc doc' p old new := by
  have listed := forest.parentChild parent
  have present := lt_of_mem_children listed
  have oldNe : old ≠ p := forest.child_ne listed
  have newNe : new ≠ p := fun same => apart (same ▸ Below.refl doc new)
  have newOld : new ≠ old := by
    rintro rfl
    have root := detached.root
    rw [parent] at root
    cases root
  have unlisted : new ∉ doc.children p := detached.not_child forest
  obtain ⟨before, after, split, fresh⟩ := List.eq_append_cons_of_mem listed
  have distinct := forest.distinct p
  rw [split] at distinct unlisted
  obtain ⟨change, changeIs⟩ : ∃ change : Document, change = ((doc.update old fun node =>
      { node with parent := none }).update new fun node =>
      { node with parent := some p, field := (doc.node old).field, replaces := some old }).update p fun node =>
      { node with children := node.children.set before.length new } := ⟨_, rfl⟩
  have run : doc.replace old new = .ok (change.mark p) := by
    simp only [replace, parent, split, findIdx?_append_cons fresh, changeIs]
  have node : ∀ x, change.node x =
      { doc.node x with
        parent := if some x = some new then some p else if some x = some old then none else doc.parent? x
        children := if x = p then before ++ new :: after else doc.children x
        field := if some x = some new then (doc.node old).field else (doc.node x).field
        replaces := if some x = some new then some old else (doc.node x).replaces } := by
    intro x
    by_cases atP : x = p
    · subst atP
      have set : (doc.node x).children.set before.length new = before ++ new :: after := by
        rw [show (doc.node x).children = before ++ old :: after from split]
        simp
      rw [changeIs, node_update_self _ (by simpa using present), node_update_of_ne _ newNe.symm,
        node_update_of_ne _ oldNe.symm]
      simp [newNe.symm, oldNe.symm, set, parent?]
    · rw [changeIs, node_update_of_ne _ atP]
      by_cases atNew : x = new
      · subst atNew
        rw [node_update_self _ (by simpa using detached.lt), node_update_of_ne _ newOld]
        simp [atP, children]
      · rw [node_update_of_ne _ atNew]
        by_cases atOld : x = old
        · subst atOld
          rw [node_update_self _ (forest.childLt listed)]
          simp [atP, atNew, children]
        · rw [node_update_of_ne _ atOld]
          simp [atP, atNew, atOld, children, parent?]
  have mem : ∀ x, x ∈ before ++ new :: after ↔ some x = some new ∨ (x ∈ doc.children p ∧ some x ≠ some old) := by
    intro x
    rw [split]
    simp only [List.nodup_append, List.nodup_cons] at distinct
    grind
  have nodup : (before ++ new :: after).Nodup := by
    simp only [List.nodup_append, List.nodup_cons] at distinct ⊢
    grind
  obtain ⟨edited, now, fields⟩ := Edited.of_node (fun _ => (doc.node old).field) (fun _ => some old) forest
    present (by rw [changeIs]; rfl) (by simp [changeIs]) node mem nodup
    (fun g same => Option.some.inj same ▸ listed)
    (fun n same => by
      cases same
      exact ⟨detached, apart⟩)
  exact ⟨_, run, edited, (fields new rfl).1, (fields new rfl).2, before, after, split, now⟩

/-- Putting a free node in a place outside of its own tree succeeds. -/
theorem replace_ok (forest : doc.Forest) (parent : doc.parent? old = some p) (free : doc.Free new)
    (apart : ¬ doc.Below new p) : ∃ doc', doc.replace old new = .ok doc' ∧ Replaced doc doc' p old new :=
  replace_detached forest parent free.detached apart

theorem Replaced.of_ok (forest : doc.Forest) (parent : doc.parent? old = some p) (free : doc.Free new)
    (apart : ¬ doc.Below new p) (run : doc.replace old new = .ok doc') : Replaced doc doc' p old new := by
  obtain ⟨_, run', replaced⟩ := replace_ok forest parent free apart
  rw [run] at run'
  cases run'
  exact replaced

/-- Where the next entry of an object literal goes, all entries stand before. -/
theorem children_split (doc : Document) (object : NodeId) :
    ∃ before after, doc.children object = before ++ after ∧ doc.entryEnd object = before.length ∧
      ∀ x ∈ after, (doc.node x).kind = "\x7d" := by
  rcases List.eq_nil_or_concat (doc.children object) with empty | ⟨init, last, split⟩
  · exact ⟨[], [], by simp [empty], by simp [entryEnd, empty], by simp⟩
  · simp only [entryEnd, split, List.concat_eq_append, List.getLast?_append, List.getLast?_singleton]
    by_cases brace : (doc.node last).kind = "\x7d"
    · exact ⟨init, [last], rfl, by simp [brace], by simp [brace]⟩
    · exact ⟨init ++ [last], [], by simp, by simp [brace], by simp⟩

/-- Adding a detached node to an object literal outside of its own tree succeeds; the node keeps what it remembers. -/
theorem append_detached (forest : doc.Forest) (object : doc.role p = .object) (detached : doc.Detached new)
    (apart : ¬ doc.Below new p) : ∃ doc', doc.append p new = .ok doc' ∧ Edited doc doc' p none (some new) ∧
      ((doc'.node new).field = (doc.node new).field ∧ (doc'.node new).replaces = (doc.node new).replaces) ∧
      ∃ before after, doc.children p = before ++ after ∧ doc'.children p = before ++ new :: after ∧
        ∀ x ∈ after, (doc.node x).kind = "\x7d" := by
  have present : p < doc.nodes.size := by
    by_contra beyond
    rw [role, node_beyond (Nat.le_of_not_lt beyond)] at object
    cases object
  have newNe : new ≠ p := fun same => apart (same ▸ Below.refl doc new)
  have unlisted : new ∉ doc.children p := detached.not_child forest
  obtain ⟨before, after, split, place, braces⟩ := doc.children_split p
  have distinct := forest.distinct p
  rw [split] at distinct unlisted
  obtain ⟨change, changeIs⟩ : ∃ change : Document, change = (doc.update new fun node =>
      { node with parent := some p }).update p fun node =>
      { node with children := node.children.insertIdx before.length new } := ⟨_, rfl⟩
  have run : doc.append p new = .ok (change.mark p) := by
    simp only [append, requireObject, object, place, if_true, changeIs]
    rfl
  have node : ∀ x, change.node x =
      { doc.node x with
        parent := if some x = some new then some p else if some x = none then none else doc.parent? x
        children := if x = p then before ++ new :: after else doc.children x
        field := if some x = some new then (doc.node x).field else (doc.node x).field
        replaces := if some x = some new then (doc.node x).replaces else (doc.node x).replaces } := by
    intro x
    by_cases atP : x = p
    · subst atP
      have inserted : (doc.node x).children.insertIdx before.length new = before ++ new :: after := by
        rw [show (doc.node x).children = before ++ after from split]
        exact insertIdx_append before after new
      rw [changeIs, node_update_self _ (by simpa using present), node_update_of_ne _ newNe.symm]
      simp [newNe.symm, inserted, parent?]
    · rw [changeIs, node_update_of_ne _ atP]
      by_cases atNew : x = new
      · subst atNew
        rw [node_update_self _ detached.lt]
        simp [atP, children]
      · rw [node_update_of_ne _ atNew]
        simp [atP, atNew, children, parent?]
  have mem : ∀ x, x ∈ before ++ new :: after ↔ some x = some new ∨ (x ∈ doc.children p ∧ some x ≠ none) := by
    intro x
    rw [split]
    grind
  have nodup : (before ++ new :: after).Nodup := by
    simp only [List.nodup_append, List.nodup_cons] at distinct ⊢
    grind
  obtain ⟨edited, now, fields⟩ := Edited.of_node (fun x => (doc.node x).field) (fun x => (doc.node x).replaces) forest
    present (by rw [changeIs]; rfl) (by simp [changeIs]) node mem nodup (fun g same => by cases same)
    (fun n same => by
      cases same
      exact ⟨detached, apart⟩)
  exact ⟨_, run, edited, fields new rfl, before, after, split, now, braces⟩

/-- Adding a free node to an object literal outside of its own tree succeeds. -/
theorem append_ok (forest : doc.Forest) (object : doc.role p = .object) (free : doc.Free new)
    (apart : ¬ doc.Below new p) : ∃ doc', doc.append p new = .ok doc' ∧ Appended doc doc' p new := by
  obtain ⟨doc', run, edited, ⟨field, replaces⟩, place⟩ := append_detached forest object free.detached apart
  exact ⟨doc', run, edited, field, replaces.trans free.tookNone, place⟩

theorem Appended.of_ok (forest : doc.Forest) (object : doc.role p = .object) (free : doc.Free new)
    (apart : ¬ doc.Below new p) (run : doc.append p new = .ok doc') : Appended doc doc' p new := by
  obtain ⟨_, run', appended⟩ := append_ok forest object free apart
  rw [run] at run'
  cases run'
  exact appended

/-- Taking a child out of an object literal succeeds. -/
theorem remove_ok (forest : doc.Forest) (parent : doc.parent? old = some p) (object : doc.role p = .object) :
    ∃ doc', doc.remove old = .ok doc' ∧ Removed doc doc' p old := by
  have listed := forest.parentChild parent
  have present := lt_of_mem_children listed
  have oldNe : old ≠ p := forest.child_ne listed
  obtain ⟨change, changeIs⟩ : ∃ change : Document, change = (doc.update p fun node =>
      { node with children := node.children.filter (· != old) }).update old fun node =>
      { node with parent := none } := ⟨_, rfl⟩
  have run : doc.remove old = .ok (change.mark p) := by
    simp only [remove, parent, requireObject, object, if_true, changeIs]
    rfl
  have node : ∀ x, change.node x =
      { doc.node x with
        parent := if some x = none then some p else if some x = some old then none else doc.parent? x
        children := if x = p then (doc.children p).filter (· != old) else doc.children x
        field := if some x = none then none else (doc.node x).field
        replaces := if some x = none then none else (doc.node x).replaces } := by
    intro x
    by_cases atOld : x = old
    · subst atOld
      rw [changeIs, node_update_self _ (by simpa using forest.childLt listed), node_update_of_ne _ oldNe]
      simp [oldNe, children]
    · rw [changeIs, node_update_of_ne _ atOld]
      by_cases atP : x = p
      · subst atP
        rw [node_update_self _ present]
        simp [atOld, children, parent?]
      · rw [node_update_of_ne _ atP]
        simp [atP, atOld, children, parent?]
  obtain ⟨edited, now, _⟩ := Edited.of_node (fun _ => none) (fun _ => none) forest present
    (by rw [changeIs]; rfl) (by simp [changeIs]) node (fun x => by simp) ((forest.distinct p).filter _)
    (fun g same => Option.some.inj same ▸ listed) (fun n same => by cases same)
  exact ⟨_, run, edited, now⟩

theorem Removed.of_ok (forest : doc.Forest) (parent : doc.parent? old = some p) (object : doc.role p = .object)
    (run : doc.remove old = .ok doc') : Removed doc doc' p old := by
  obtain ⟨_, run', removed⟩ := remove_ok forest parent object
  rw [run] at run'
  cases run'
  exact removed

end Document

end StoreModels
