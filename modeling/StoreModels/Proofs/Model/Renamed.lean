import StoreModels.Proofs.Record.Outside
import StoreModels.Proofs.Record.Reported
import StoreModels.Proofs.Record.Standing

/-!
Renamed models. Giving models another namespace puts one new literal in the place of the one that tells the namespace of
each, and does nothing else. So the file prints as it did with just these literals exchanged.
-/
namespace StoreModels
open Syntax (Dialect Span Reader Tree)
open Text (slice splice Ordered Exchange)

variable {doc doc' first : Document} {new : List Char} {done models : List Model} {m : Model} {p old entry value : NodeId}

/-! ## The literal that tells a namespace -/

/-- The namespace of a model is told by a string literal: the value of the last entry under the bare name. -/
structure Model.Titled (doc : Document) (m : Model) (entry value : NodeId) : Prop where
  object : doc.role m.object = .object
  named : doc.entryNamed? m.object Model.namespaceName = some entry
  held : doc.pairValue? entry = some value
  literal : doc.role value = .stringLiteral
  space : Literal.unquoted (doc.text value) = m.space

namespace Document

/-- An entry under another name than the bare one of a namespace leaves the namespace that was found, and one under it
    tells another. -/
theorem recognizeEntries_cases {es : List NodeId} {e : NodeId} {space : Option (List Char)} {shaped : Bool}
    {result : Option (List Char) × Bool} (run : doc.recognizeEntries space shaped (e :: es) = .ok result) :
    (doc.entryIdentifier? e ≠ some Model.namespaceName ∧ ∃ shaped', doc.recognizeEntries space shaped' es = .ok result) ∨
      (doc.entryIdentifier? e = some Model.namespaceName ∧ ∃ text, doc.namespaceText e = .ok text ∧
        doc.recognizeEntries (some text) shaped es = .ok result) := by
  have name : ∀ {property}, doc.entryProperty? e = some property → property ≠ .nameSpace →
      doc.entryIdentifier? e ≠ some Model.namespaceName := by
    intro property is other named
    have space : doc.entryProperty? e = some .nameSpace := entryProperty?_eq_some.mpr named
    rw [space] at is
    exact other (Option.some.inj is).symm
  unfold recognizeEntries at run
  split at run
  next none =>
    refine .inl ⟨fun named => ?_, _, run⟩
    have space : doc.entryProperty? e = some .nameSpace := entryProperty?_eq_some.mpr named
    rw [space] at none
    cases none
  next is =>
    obtain ⟨text, tells, run⟩ := bind_eq_ok.mp run
    exact .inr ⟨entryProperty?_eq_some.mp is, text, tells, run⟩
  next property other is => exact .inl ⟨name is other, _, run⟩

/-- The namespace that entries come to is told by the last one under the bare name, if there is one. -/
theorem recognizeEntries_last {es : List NodeId} {space found : Option (List Char)} {shaped shape : Bool}
    (run : doc.recognizeEntries space shaped es = .ok (found, shape)) :
    (found = space ∧ ∀ e ∈ es, doc.entryIdentifier? e ≠ some Model.namespaceName) ∨
      ∃ before e after text, es = before ++ e :: after ∧ found = some text ∧ doc.namespaceText e = .ok text ∧
        doc.entryIdentifier? e = some Model.namespaceName ∧
        ∀ x ∈ after, doc.entryIdentifier? x ≠ some Model.namespaceName := by
  induction es generalizing space shaped with
  | nil =>
    cases run
    exact .inl ⟨rfl, by simp⟩
  | cons e rest ih =>
    rcases recognizeEntries_cases run with ⟨other, _, run⟩ | ⟨named, text, tells, run⟩
    · rcases ih run with ⟨same, none⟩ | ⟨before, y, after, text, split, last⟩
      · exact .inl ⟨same, by simpa using ⟨other, none⟩⟩
      · exact .inr ⟨e :: before, y, after, text, by rw [split]; rfl, last⟩
    · rcases ih run with ⟨same, none⟩ | ⟨before, y, after, text, split, last⟩
      · exact .inr ⟨[], e, rest, text, rfl, same, tells, named, none⟩
      · exact .inr ⟨e :: before, y, after, text, by rw [split]; rfl, last⟩

/-- The text of a namespace stands in a string literal, which is the value of a pair. -/
theorem namespaceText_held {e : NodeId} {text : List Char} (entry : (doc.role e).isEntry = true)
    (tells : doc.namespaceText e = .ok text) :
    ∃ v, doc.pairValue? e = some v ∧ doc.role v = .stringLiteral ∧ Literal.unquoted (doc.text v) = text := by
  simp only [namespaceText] at tells
  split at tells
  next literal =>
    cases found : doc.pairValue? e with
    | none =>
      rw [entryBody, found, Option.getD_none] at literal
      rw [literal] at entry
      cases entry
    | some v =>
      rw [entryBody, found, Option.getD_some] at literal tells
      cases tells
      exact ⟨v, rfl, literal, rfl⟩
  next => cases tells

/-- The namespace that the entries of an object literal come to is told by the value of the last one under the bare name,
    which is a string literal. -/
theorem recognizeEntries_titled {x : NodeId} {found : Option (List Char)} {shape : Bool}
    (run : doc.recognizeEntries none false (doc.entries x) = .ok (found, shape)) :
    found = none ∧ doc.entryNamed? x Model.namespaceName = none ∨
      ∃ p v, doc.entryNamed? x Model.namespaceName = some p ∧ doc.pairValue? p = some v ∧
        doc.role v = .stringLiteral ∧ found = some (Literal.unquoted (doc.text v)) := by
  rcases recognizeEntries_last run with ⟨none, absent⟩ | ⟨before, e, after, text, split, is, tells, named, last⟩
  · refine .inl ⟨none, ?_⟩
    rw [entryNamed?, List.filter_eq_nil_iff.mpr (by simpa using absent)]
    rfl
  · have entry := mem_entries (split ▸ List.mem_append_right before List.mem_cons_self : e ∈ doc.entries x)
    obtain ⟨v, held, literal, space⟩ := namespaceText_held entry.2 tells
    exact .inr ⟨e, v, entryNamed?_of_split split named last, held, literal, by rw [is, space]⟩

/-- A recognized model has a literal that tells its namespace. -/
theorem recognize_titled {x : NodeId} (object : doc.role x = .object) (run : doc.recognize none x = .ok (some m)) :
    ∃ p old, m.Titled doc p old := by
  obtain ⟨rfl, _, run⟩ := recognize_some_iff.mp run
  rcases recognizeEntries_titled run with ⟨absent, _⟩ | ⟨p, v, named, held, literal, space⟩
  · cases absent
  · exact ⟨p, v, object, named, held, literal, (Option.some.inj space).symm⟩

end Document

namespace Model.Titled
variable {q other : NodeId} {n : Model}

theorem pair (titled : m.Titled doc p old) : doc.role p = .pair := (Document.pairValue?_some titled.held).1

theorem value_child (titled : m.Titled doc p old) : old ∈ doc.children p := (Document.pairValue?_some titled.held).2.1

theorem entry_child (titled : m.Titled doc p old) : p ∈ doc.children m.object := (Document.entryNamed?_some titled.named).1

theorem unique (titled : m.Titled doc p old) (again : m.Titled doc q other) : p = q ∧ old = other := by
  obtain rfl : p = q := Option.some.inj (titled.named.symm.trans again.named)
  exact ⟨rfl, Option.some.inj (titled.held.symm.trans again.held)⟩

/-- The pairs of models at different object literals are different. -/
theorem pair_ne (titled : m.Titled doc p old) (titled' : n.Titled doc q other) (forest : doc.Forest)
    (apart : m.object ≠ n.object) : p ≠ q := by
  rintro rfl
  exact apart (forest.parent_unique titled.entry_child titled'.entry_child)

end Model.Titled

/-! ## Renaming one model after the other -/

namespace Document

/-- The literal that a model gets in the place of the one that tells its namespace. -/
def newTitle (first : Document) (new : List Char) (old : NodeId) : List Char :=
  Literal.quoted new (Literal.quoteOf (first.text old))

/-- A new literal has taken the place of a node. -/
structure Supersedes (doc : Document) (text : List Char) (n old : NodeId) : Prop where
  replaces : (doc.node n).replaces = some old
  field : (doc.node n).field = (doc.node old).field
  kind : (doc.node n).kind = "string"
  origin : (doc.node n).origin = .written (some text)
  leaf : doc.children n = []
  bare : (doc.node n).firstChildren = []

theorem Supersedes.text {text : List Char} {n : NodeId} (supersedes : doc.Supersedes text n old) : doc.text n = text := by
  have leaf : (doc.node n).children.isEmpty = true := List.isEmpty_iff.mpr supersedes.leaf
  rw [Document.text, printNode, depth, printDown, printWith, supersedes.origin]
  simp only [leaf, if_true]

theorem Supersedes.kept {text : List Char} {n : NodeId} {zone : NodeId → Prop} {loose : List NodeId}
    (supersedes : doc.Supersedes text n old) (calm : Calm doc doc' zone loose) (lt : n < doc.nodes.size)
    (outside : ¬ zone n) (held : n ∉ loose) (oldLt : old < doc.nodes.size) (oldHeld : old ∉ loose) :
    doc'.Supersedes text n old where
  replaces := (calm.replaces n lt held).trans supersedes.replaces
  field := (calm.field n lt held).trans (supersedes.field.trans (calm.field old oldLt oldHeld).symm)
  kind := (calm.ext.kind n lt).trans supersedes.kind
  origin := (calm.ext.origin n lt).trans supersedes.origin
  leaf := (calm.children n lt outside).trans supersedes.leaf
  bare := (calm.ext.firstChildren n lt).trans supersedes.bare

/-- A literal that was written behind all nodes has taken the place of a child, and all else is as it was. -/
structure Superseded (doc doc' : Document) (text : List Char) (p old : NodeId) : Prop where
  sound : doc'.Sound
  calm : Calm doc doc' (fun z => z = p) [doc.nodes.size]
  place : ∃ before after, doc.children p = before ++ old :: after ∧
    doc'.children p = before ++ doc.nodes.size :: after
  supersedes : doc'.Supersedes text doc.nodes.size old

/-- A new literal can take the place of any child. -/
theorem supersede_ok (sound : doc.Sound) (inside : old ∈ doc.children p) (text : List Char) :
    ∃ doc', (doc.writeLeaf "string" text).1.replace old doc.nodes.size = .ok doc' ∧
      doc.Superseded doc' text p old := by
  have present := lt_of_mem_children inside
  have loose : Loose (doc.writeLeaf "string" text).1 [p] doc.nodes.size :=
    writeLeaf_loose sound (by simpa using present) "string" text
  have longer := writeLeaf_prolongs doc "string" text
  have leafNode := writeLeaf_node doc "string" text doc.nodes.size
  rw [if_pos rfl] at leafNode
  have written := sound.writeLeaf "string" text
  have size : (doc.writeLeaf "string" text).1.nodes.size = doc.nodes.size + 1 := size_insert doc _
  generalize (doc.writeLeaf "string" text).1 = leaf at *
  have same : leaf.children p = doc.children p := longer.steady.children p present
  have parent := written.forest.childParent (same.symm ▸ inside)
  have apart : ¬ leaf.Below doc.nodes.size p := loose.apart p (List.mem_singleton_self p)
  obtain ⟨doc', run, replaced⟩ := replace_ok written.forest parent loose.free apart
  have lt : doc.nodes.size < leaf.nodes.size := by omega
  have calm := longer.calm.trans (replaced.calm loose.free) sound.forest fun y member old => by
    rw [List.mem_singleton.mp member] at old
    exact absurd old (Nat.lt_irrefl _)
  have oldLt := sound.forest.childLt inside
  refine ⟨doc', run, replaced.sound written parent loose.free, ?_, ?_, replaced.replaces, ?_, ?_, ?_, ?_, ?_⟩
  · refine calm.mono sound.forest (fun z _ inside => ?_) (fun _ member _ => member) calm.free
    rcases inside with none | here
    · exact none.elim
    · exact here
  · rw [← same]
    exact replaced.place
  · rw [replaced.field, replaced.edited.field old fun is => Nat.ne_of_lt oldLt (Option.some.inj is)]
  · rw [replaced.edited.ext.kind _ lt, leafNode]
    rfl
  · rw [replaced.edited.ext.origin _ lt, leafNode]
    rfl
  · rw [replaced.edited.hung.children _ (Nat.ne_of_gt present), Document.children, leafNode]
    rfl
  · rw [replaced.edited.ext.firstChildren _ lt, leafNode]
    rfl

/-- Some models have been renamed: below the pair of each stands a new literal, and all else is as it was. -/
structure Renaming (first doc : Document) (new : List Char) (done : List Model) : Prop where
  sound : doc.Sound
  calm : ∃ loose, Calm first doc (fun z => ∃ m ∈ done, ∃ old, m.Titled first z old) loose ∧
    ∀ y ∈ loose, first.nodes.size ≤ y
  titled : ∀ m ∈ done, ∀ p old, m.Titled first p old → ∃ before after n,
    first.children p = before ++ old :: after ∧ doc.children p = before ++ n :: after ∧ first.nodes.size ≤ n ∧
      doc.Supersedes (first.newTitle new old) n old

theorem Renaming.start (sound : first.Sound) (new : List Char) : first.Renaming first new [] where
  sound := sound
  calm := ⟨[], Calm.refl first, by simp⟩
  titled _ none := by cases none

/-- What a model is told by is the same as before others were renamed. -/
theorem Renaming.untouched (run : first.Renaming doc new done) (start : first.Sound) (plain : first.Plain)
    (titled : m.Titled first p old) (fresh : ∀ n ∈ done, n.object ≠ m.object) :
    doc.entryNamed? m.object Model.namespaceName = some p ∧ doc.pairValue? p = some old ∧
      doc.children p = first.children p ∧ doc.text old = first.text old := by
  obtain ⟨loose, calm, _⟩ := run.calm
  have forest := run.sound.forest
  have roles : ∀ z, (∃ n ∈ done, ∃ old, n.Titled first z old) → first.role z = .object ∨ first.role z = .pair :=
    fun z ⟨n, _, old, told⟩ => .inr told.pair
  have outside : ∀ e ∈ first.children m.object, ¬ ∃ n ∈ done, ∃ old, n.Titled first e old := by
    rintro e child ⟨n, member, old, told⟩
    exact fresh n member (start.forest.parent_unique told.entry_child child)
  have objectOutside : ¬ ∃ n ∈ done, ∃ old, n.Titled first m.object old := by
    rintro ⟨n, _, old, told⟩
    have pair := told.pair
    rw [titled.object] at pair
    cases pair
  have present := lt_of_role titled.object (by decide)
  have entries : doc.entries m.object = first.entries m.object := calm.entries start.forest present objectOutside
  have entryLt := start.forest.childLt titled.entry_child
  refine ⟨?_, ?_, ?_, ?_⟩
  · rw [entryNamed?, entries, ← titled.named, entryNamed?]
    refine congrArg List.getLast? (List.filter_congr fun e member => ?_)
    have child := (mem_entries member).1
    rw [calm.entryIdentifier? start forest plain roles (start.forest.childLt child) (outside e child)]
  · rw [calm.pairValue? start entryLt (outside p titled.entry_child), titled.held]
  · exact calm.children p entryLt (outside p titled.entry_child)
  · refine calm.text_token start forest plain roles (start.forest.childLt titled.value_child) ?_
    rw [titled.literal]
    rfl

/-- One more model can be renamed, whichever were renamed before. -/
theorem Renaming.step (run : first.Renaming doc new done) (start : first.Sound) (plain : first.Plain)
    (titled : m.Titled first p old) (fresh : ∀ n ∈ done, n.object ≠ m.object) :
    ∃ doc', (m.rename new).outcome doc = (.ok (), doc') ∧ first.Renaming doc' new (m :: done) := by
  obtain ⟨named, held, children, text⟩ := run.untouched start plain titled fresh
  obtain ⟨loose, calm, late⟩ := run.calm
  have inside : old ∈ doc.children p := (pairValue?_some held).2.1
  obtain ⟨doc', replaced, superseded⟩ := supersede_ok run.sound inside (first.newTitle new old)
  have outcome : (m.rename new).outcome doc = (.ok (), doc') := by
    have last : (Edit.change (·.replace old doc.nodes.size)).outcome
        (doc.writeLeaf "string" (first.newTitle new old)).1 = (.ok (), doc') := by
      rw [Edit.outcome_change, replaced]
    simp only [Model.rename, Edit.outcome_bind, Edit.outcome_look, Edit.outcome_orFail, named, held, text,
      Edit.outcome_make]
    exact last
  refine ⟨doc', outcome, superseded.sound, ⟨loose ++ [doc.nodes.size], ?_, ?_⟩, ?_⟩
  · have whole := calm.trans superseded.calm start.forest fun y member old => by
      rw [List.mem_singleton.mp member] at old
      exact absurd calm.ext.size (Nat.not_le_of_lt old)
    refine whole.mono start.forest (fun z _ inside => ?_) (fun _ member _ => member) whole.free
    rcases inside with ⟨n, earlier, told⟩ | rfl
    · exact ⟨n, List.mem_cons_of_mem _ earlier, told⟩
    · exact ⟨m, List.mem_cons_self, old, titled⟩
  · intro y member
    rcases List.mem_append.mp member with early | last
    · exact late y early
    · exact List.mem_singleton.mp last ▸ calm.ext.size
  · intro n member q other titled'
    rcases List.mem_cons.mp member with rfl | earlier
    · obtain ⟨rfl, rfl⟩ := titled.unique titled'
      obtain ⟨before, after, was, now⟩ := superseded.place
      exact ⟨before, after, doc.nodes.size, children ▸ was, now, calm.ext.size, superseded.supersedes⟩
    · have apart : q ≠ p := titled'.pair_ne titled start.forest (fresh n earlier)
      obtain ⟨before, after, literal, was, now, beyond, supersedes⟩ := run.titled n earlier q other titled'
      have listed : literal ∈ doc.children q := now ▸ by simp
      have present : literal < doc.nodes.size := run.sound.forest.childLt listed
      have older : p < first.nodes.size := start.forest.childLt titled.entry_child
      have otherLt : other < doc.nodes.size :=
        Nat.lt_of_lt_of_le (start.forest.childLt titled'.value_child) calm.ext.size
      refine ⟨before, after, literal, was, ?_, beyond, supersedes.kept superseded.calm present ?_ ?_ otherLt ?_⟩
      · rw [superseded.calm.children q (lt_of_mem_children listed) apart, now]
      · exact fun same => Nat.not_le_of_lt older (same ▸ beyond)
      · exact fun same => Nat.ne_of_lt present (List.mem_singleton.mp same)
      · exact fun same => Nat.ne_of_lt otherLt (List.mem_singleton.mp same)

/-- Models at different object literals can be renamed one after the other. -/
theorem Renaming.all (run : first.Renaming doc new done) (start : first.Sound) (plain : first.Plain)
    (titled : ∀ m ∈ models, ∃ p old, m.Titled first p old) (distinct : (models.map Model.object).Nodup)
    (fresh : ∀ m ∈ models, ∀ n ∈ done, n.object ≠ m.object) :
    ∃ doc', (ModelSet.renameAll new models).run doc = ((models.map ({ · with space := new }), .ok ()), doc') ∧
      first.Renaming doc' new (models.reverse ++ done) := by
  induction models generalizing doc done with
  | nil => exact ⟨doc, rfl, run⟩
  | cons m rest ih =>
    obtain ⟨p, old, told⟩ := titled m List.mem_cons_self
    obtain ⟨next, outcome, run'⟩ := run.step start plain told (fresh m List.mem_cons_self)
    rw [List.map_cons, List.nodup_cons] at distinct
    have later : ∀ n ∈ rest, ∀ o ∈ m :: done, o.object ≠ n.object := fun n member o earlier => by
      rcases List.mem_cons.mp earlier with rfl | before
      · exact fun same => distinct.1 (List.mem_map.mpr ⟨n, member, same.symm⟩)
      · exact fresh n (List.mem_cons_of_mem _ member) o before
    obtain ⟨doc', all, run''⟩ := ih run' (fun n member => titled n (List.mem_cons_of_mem _ member)) distinct.2 later
    refine ⟨doc', ?_, by simpa using run''⟩
    rw [ModelSet.renameAll_cons, outcome]
    simp only [all, List.map_cons]

end Document

end StoreModels
