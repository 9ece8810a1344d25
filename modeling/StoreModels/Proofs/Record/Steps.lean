import StoreModels.Proofs.Record.Standing
import StoreModels.Proofs.Record.Supply

/-!
Edits of the entries of one model that stands alone: adding an entry always succeeds, the two others just if there is an
entry with the name. What they make of the model's record is the same change of the entries that it lists.
-/
namespace StoreModels
open Syntax (Reader)

namespace Model
variable {doc : Document} {callees : List (List Char)} {low high : Nat} {snippet : Snippet} {m : Model} {c : Container}
  {record : ModelRecord} {k : NodeId} {name source : List Char} {actions : List (List Char)} {quote : Char}

open Document (Calm)
open Snippet (Served Supplied)

theorem key_isBareName (c : Container) : Literal.isBareName c.key.toList = true := by
  cases c <;> decide

/-! ## Entries by name -/

/-- The entries of a container with a name are there if the record has one with the name. -/
theorem namedEntries_stocked (found : m.containerObject? doc c = .ok (some k)) {rs : List EntryRecord}
    (stocked : doc.Stocked callees c k rs) (has : ∃ r ∈ rs, r.name = name) :
    m.namedEntries doc c name = .ok (doc.entriesNamed k name) := by
  obtain ⟨r, member, named⟩ := has
  obtain ⟨e, child, tells⟩ := forall₂_mem_right stocked.records member
  have listed : e ∈ doc.entriesNamed k name := List.mem_filter.mpr ⟨child, by simp [tells.name, named]⟩
  exact (namedEntries_iff found).mpr ⟨rfl, List.ne_nil_of_mem listed⟩

/-- Without an entry of the name in the record there is none in the container. -/
theorem namedEntries_lacking (stands : doc.Stands callees m record) (lacks : ¬ record.Lists c name) :
    m.namedEntries doc c name = .error (.entryNotFound m.space c.label name) := by
  rcases Document.containerObject?_cases stands.extracted c with ⟨missing, _⟩ | ⟨k, found⟩
  · rw [namedEntries, missing]
    rfl
  · have none : doc.entriesNamed k name = [] := by
      refine List.filter_eq_nil_iff.mpr fun e child named => ?_
      obtain ⟨r, member, tells⟩ := forall₂_mem_left (Document.containerObject?_records stands.extracted found) child
      rw [tells.name] at named
      exact lacks ⟨r, member, Option.some.inj (by simpa using named)⟩
    rw [namedEntries, found]
    simp only [bind, Except.bind, none]
    rfl

/-! ## Values that are set one after the other -/

section
variable {e value : NodeId} {todo : List NodeId} {rs : List EntryRecord}

/-- Entries of a container get another value, one after the other: some of them already have it, the others are still
    where they were. -/
structure Setting (base doc : Document) (callees : List (List Char)) (low high : Nat) (source : List Char)
    (actions : List (List Char)) (c : Container) (k : NodeId) (name : List Char) (rs : List EntryRecord)
    (todo : List NodeId) (snippet : Snippet) : Prop where
  sound : doc.Sound
  calm : ∃ loose, Calm base doc (fun z => z = k ∨ z ∈ base.entriesNamed k name ∧ base.role z = .pair) loose ∧
    ∀ y ∈ loose, low ≤ y
  revising : doc.Revising callees c k (Document.revise (entryRecord c name source actions)) todo rs
  covered : doc.silhouette k name = base.silhouette k name
  there : ∀ e ∈ todo, e ∈ base.entriesNamed k name ∧ e ∈ doc.entries k ∧ doc.entryName? e = some name
  supplied : Supplied doc callees low high source actions snippet
  start : snippet.used = false → doc = base

namespace Setting
variable {base doc' : Document} {snippet' : Snippet}

/-- A tree that is handed out was free in the first document, if it was there. -/
theorem fresh (setting : Setting base doc callees low high source actions c k name rs todo snippet)
    (served : Served doc doc' callees low high source actions snippet snippet' value) (lt : value < base.nodes.size) :
    base.Free value := by
  obtain ⟨_, calm, _⟩ := setting.calm
  have present := Nat.lt_of_lt_of_le lt calm.ext.size
  rcases served.fresh with ⟨unused, _, _⟩ | later
  · exact setting.start unused ▸ served.freed present
  · exact absurd present (Nat.not_lt_of_ge later)

/-- Handing out a tree for the next entry changes nothing else. -/
theorem served (setting : Setting base doc callees low high source actions c k name rs todo snippet)
    (ground : base.Sound)
    (object : base.role k = .object) (served : Served doc doc' callees low high source actions snippet snippet' value)
    (sound' : doc'.Sound) :
    Setting base doc' callees low high source actions c k name rs todo snippet' := by
  obtain ⟨sound, ⟨loose, calm, late⟩, revising, covered, there, _, _⟩ := setting
  have role : doc.role k = .object := (calm.ext.role (Document.lt_of_role object (by decide))).trans object
  have longer := served.longer.calm
  have spared := Document.apart_nowhere doc
  have both := calm.trans longer ground.forest (by simp)
  refine ⟨sound', ⟨loose, ?_, late⟩, revising.calm longer sound sound'.forest role (spared k),
    (longer.silhouette sound sound'.forest role (spared k)).trans covered, fun x member => ?_, served.supplied,
    fun unused => ?_⟩
  · exact both.mono ground.forest (fun z _ inside => inside.elim id False.elim)
      (fun y member _ => by simpa using member)
      calm.free
  · obtain ⟨target, child, named⟩ := there x member
    have present := sound.forest.childLt (Document.mem_entries child).1
    rw [longer.entries sound.forest (Document.lt_of_role role (by decide)) fun impossible => impossible]
    exact ⟨target, child, (longer.profile sound sound'.forest present (spared x)).1.trans named⟩
  · rw [served.used] at unused
    cases unused

/-- One more entry has got a value. -/
theorem next (setting : Setting base doc callees low high source actions c k name rs (e :: todo) snippet)
    (ground : base.Sound) (old : ∀ y, base.Below k y → y < low) (used : snippet.used = true) (done : e ∉ todo)
    (free : value < base.nodes.size → base.Free value) (newer : low ≤ value)
    (given : doc.Given doc' callees c k (entryRecord c name source actions) e value todo rs) (sound' : doc'.Sound) :
    Setting base doc' callees low high source actions c k name rs todo snippet := by
  obtain ⟨sound, ⟨early, calm, late⟩, _, covered, there, supplied, _⟩ := setting
  obtain ⟨⟨loose, placed, fresh⟩, revised, covered', others⟩ := given
  obtain ⟨target, child, _⟩ := there e (by simp)
  have present := ground.forest.childLt (Document.mem_entriesNamed target).1
  have all := calm.trans placed ground.forest fun y member lt => by
    rcases fresh y member with rfl | beyond
    · exact free lt
    · exact absurd (Nat.lt_of_lt_of_le lt calm.ext.size) (Nat.not_lt_of_ge beyond)
  refine ⟨sound', ⟨_, all.mono ground.forest (fun z _ inside => ?_) (fun y member _ => member) all.free,
    fun y member => ?_⟩, revised, covered'.trans covered, fun x member => ?_, ?_, fun unused => ?_⟩
  · rcases inside with inside | rfl | ⟨rfl, pair⟩
    · exact inside
    · exact .inl rfl
    · exact .inr ⟨target, (calm.ext.role present).symm.trans pair⟩
  · rcases List.mem_append.mp member with before | after
    · exact late y before
    · rcases fresh y after with rfl | beyond
      · exact newer
      · exact Nat.le_trans (Nat.le_of_lt supplied.low_lt) beyond
  · obtain ⟨target, child, named⟩ := there x (List.mem_cons_of_mem _ member)
    obtain ⟨child', named'⟩ := others x child fun is => done (is ▸ member)
    exact ⟨target, child', named'.trans named⟩
  · refine supplied.calm placed sound sound'.forest (fun z inside => .inl ?_) fun unused => ?_
    · rcases inside with rfl | ⟨rfl, _⟩
      · exact old z (Document.Below.refl base z)
      · exact old z (.child (Document.mem_entriesNamed target).1)
    · rw [used] at unused
      cases unused
  · rw [used] at unused
    cases unused

end Setting

end

variable [Reader]

/-! ## Added entries -/

/-- A container that is missing is made, without entries. -/
theorem ensureContainer_made (sound : doc.Sound) (stands : doc.Stands callees m record)
    (missing : m.containerObject? doc c = .ok none) (lacking : doc.entryNamed? m.object c.key.toList = none)
    (isQuote : Literal.isQuote quote = true) :
    Edit.Yields (m.ensureContainer c quote) doc fun object doc' => object = doc.nodes.size ∧
      Calm doc doc' (fun z => z = m.object) [] ∧ doc'.Stands callees m record ∧
      m.containerObject? doc' c = .ok (some object) ∧ doc'.entries object = [] := by
  have start : doc.Ready [m.object] [m.object] := .self sound (by simpa using stands.alone.object)
  refine Edit.Yields.get (Edit.Yields.lift missing ?_)
  obtain ⟨made, run, moves, first, objectLoose, object, empty, barren⟩ := Document.writeObject_empty start
  refine Edit.Yields.bind_outcome run moves ?_
  have ready := start.moves moves
  obtain ⟨paired, run', works, pair, steady, fresh, _⟩ :=
    Document.writePair_run ready objectLoose c.key.toList quote
  have moves' := works.moves
  refine Edit.Yields.bind_outcome run' moves' ?_
  have sound' := moves'.sound ready.sound
  have second := pair.calm steady objectLoose.free
  have spared := Document.apart_nowhere made
  have lt := objectLoose.free.lt
  have apart := fresh.not_below sound'.forest (by simp) (Document.Below.refl _ m.object)
  have standsMade := stands.calm first sound ready.sound.forest (Document.apart_nowhere doc _)
  have stands' : paired.Stands callees m record := standsMade.calm second ready.sound sound'.forest (spared _)
  have model : paired.role m.object = .object := stands'.alone.object
  obtain ⟨doc', fits, appended⟩ := Document.append_ok sound'.forest model fresh.free apart
  have third := appended.calm fresh.free
  have lacking' : paired.entryNamed? m.object c.key.toList = none := by
    rw [second.entryNamed? ready.sound sound'.forest standsMade.lt (spared _),
      first.entryNamed? sound ready.sound.forest stands.lt (Document.apart_nowhere doc _)]
    exact lacking
  have key := pair.entryIdentifier? sound'.forest isQuote (key_isBareName c)
  have barren' := pair.barren (second.barren ready.sound sound'.forest lt (spared _) barren)
  have empty' : paired.entries doc.nodes.size = [] := by
    rw [second.entries ready.sound.forest lt (fun impossible => impossible), empty]
  obtain ⟨stands'', found, bare⟩ := appended.stands sound' fresh.free apart pair.role_pair stands' lacking' key
    pair.entryBody
    ((second.ext.role lt).trans object) empty' (by rw [pair.children_pair]; simp) barren'
  have whole : Calm doc doc' (fun z => z = m.object) [] := by
    have new : ∀ y ∈ [doc.nodes.size], ¬ y < doc.nodes.size := fun y member =>
      List.mem_singleton.mp member ▸ Nat.lt_irrefl _
    have newer : ∀ y ∈ [made.nodes.size + 1], ¬ y < doc.nodes.size := fun y member =>
      List.mem_singleton.mp member ▸ Nat.not_lt_of_ge (Nat.le_succ_of_le (Nat.le_of_lt lt))
    have both := first.trans second sound.forest fun y member lt => absurd lt (new y member)
    have all := both.trans third sound.forest fun y member lt => absurd lt (newer y member)
    refine all.mono sound.forest (fun z _ inside => by simpa using inside) (fun y member lt => ?_) (by simp)
    rcases List.mem_append.mp member with early | late
    · exact absurd lt (new y (by simpa using early))
    · exact absurd lt (newer y late)
  refine Edit.Yields.change fits (.append model fresh.free apart fits) (Edit.Yields.pure ?_)
  exact ⟨rfl, whole, stands'', found, bare⟩

/-- The container of a model that entries are added to. -/
theorem ensureContainer_yields (sound : doc.Sound) (stands : doc.Stands callees m record)
    (supplied : Supplied doc callees low high source actions snippet) (old : ∀ y, doc.Below m.object y → y < low)
    (isQuote : Literal.isQuote quote = true) (other : name ≠ namespaceName)
    (spared : ∀ k, m.containerObject? doc c = .ok (some k) → doc.Harmless k name) :
    Edit.Yields (m.ensureContainer c quote) doc fun object doc' =>
      Calm doc doc' (fun z => z = m.object) [] ∧ doc'.Stands callees m record ∧
      m.containerObject? doc' c = .ok (some object) ∧ Supplied doc' callees low high source actions snippet ∧
      (doc.Below m.object object ∨ doc.nodes.size ≤ object) ∧ doc'.Harmless object name := by
  rcases Document.containerObject?_cases stands.extracted c with ⟨missing, lacking⟩ | ⟨k, found⟩
  · obtain ⟨object, doc', is, moves, rfl, calm, stands', found, bare⟩ :=
      ensureContainer_made sound stands missing lacking isQuote
    have here := old m.object (Document.Below.refl doc _)
    have free : snippet.used = false → doc'.Free snippet.tree := fun unused => by
      have ready : doc.Ready [m.object] [m.object] := .self sound (by simpa using stands.alone.object)
      have pending : snippet.Pending doc [m.object] := ⟨supplied.offers.lt, fun unused => ⟨supplied.free unused, ?_⟩⟩
      · have does := ensureContainer_does ready (List.mem_singleton_self m.object) pending c quote
        have held := does.holds _ (by rw [is])
        rw [is] at held
        exact (held.2.2.loose unused).free
      · rw [List.forall_mem_singleton]
        exact fun below => Nat.not_lt_of_ge (supplied.range _ below).1 here
    have supplied' := supplied.calm calm sound (moves.sound sound).forest (fun z same => .inl (same ▸ here)) free
    refine ⟨doc.nodes.size, doc', is, moves, calm, stands', found, supplied', .inr (Nat.le_refl _), other, .inr ?_⟩
    rw [bare]
    exact fun e member => by cases member
  · refine Edit.Yields.get (Edit.Yields.lift found (Edit.Yields.pure ?_))
    exact ⟨Calm.refl doc, stands, found, supplied, .inl (containerObject?_some found).1, spared k found⟩

/-- The nodes that edits of a model's entries change: object literals and pairs of its tree. -/
def Inside (doc : Document) (m : Model) (z : NodeId) : Prop :=
  doc.Below m.object z ∧ (doc.role z = .object ∨ doc.role z = .pair)

/-- An edit inside of one model, which finds places for new nodes alone and gives the model another record. -/
structure Changed (doc doc' : Document) (callees : List (List Char)) (low : Nat) (m : Model) (record : ModelRecord) :
    Prop where
  calm : ∃ loose, Calm doc doc' (m.Inside doc) loose ∧ ∀ y ∈ loose, low ≤ y
  stands : doc'.Stands callees m record

/-- An entry is added behind those of a container that is there. -/
theorem appendEntry_yields (sound : doc.Sound) (plain : doc.Plain) (stands : doc.Stands callees m record) (found : m.containerObject? doc c = .ok (some k))
    (harmless : doc.Harmless k name) (supplied : Supplied doc callees low high source actions snippet)
    (elsewhere : k < low ∨ high ≤ k) (isQuote : Literal.isQuote quote = true) :
    Edit.Yields (do
        let (value, snippet) ← snippet.next
        let pair ← writePair name quote value
        Edit.change (·.append k pair)
        pure snippet) doc fun snippet' doc' =>
      (∃ loose, Calm doc doc' (fun z => z = k) loose ∧
        ∀ y ∈ loose, y = snippet.tree ∧ snippet.used = false ∨ doc.nodes.size ≤ y) ∧
      doc'.Stands callees m (record.added c (entryRecord c name source actions)) ∧
      Supplied doc' callees low high source actions snippet' := by
  have object := (containerObject?_some found).2
  have lt := Document.lt_of_role object (by decide)
  refine Edit.Yields.bind ((Snippet.next_yields sound supplied).silent (Snippet.next_silent snippet))
    fun (value, snippet') grown moves ⟨served, silent⟩ => ?_
  have soundGrown := moves.sound sound
  have longer := served.longer.calm
  have loose : grown.Loose [k] value := ⟨served.free, by simpa using served.apart k elsewhere lt⟩
  obtain ⟨paired, run, moves', written, entrant⟩ := Document.writePair_entrant c name soundGrown
    ((longer.ext.role lt).trans object) loose served.offers isQuote
  refine Edit.Yields.bind_outcome run moves' ?_
  have soundPaired := moves'.sound soundGrown
  -- Up to here no tree has changed: the model stands, with its container.
  have freed : ∀ y ∈ [value], y < doc.nodes.size → doc.Free y := fun y member =>
    List.mem_singleton.mp member ▸ served.freed
  have quiet : Calm doc paired (fun _ => False) [value] :=
    (longer.trans written sound.forest freed).mono sound.forest (by simp) (by simp) freed
  have spared := Document.apart_nowhere doc
  have standsPaired := stands.calm quiet sound soundPaired.forest (spared _)
  have foundPaired : m.containerObject? paired c = .ok (some k) :=
    (quiet.containerObject? sound soundPaired.forest stands.lt (spared _)).trans found
  have harmlessPaired := harmless.calm quiet sound soundPaired.forest object (spared _)
  have silent' := (writePair_silent name quote value).of_outcome run
  have plainPaired := Document.Moves.plain (moves.trans moves') sound (.nothing (silent'.trans silent)) plain
  have objectPaired := (containerObject?_some foundPaired).2
  obtain ⟨doc', fits, appended⟩ := Document.append_ok soundPaired.forest objectPaired entrant.free entrant.apart
  have move : Document.Move paired doc' := .append objectPaired entrant.free entrant.apart fits
  have added := appended.calm entrant.free
  have newer : ∀ y ∈ [grown.nodes.size + 1], ¬ y < grown.nodes.size := fun y member =>
    List.mem_singleton.mp member ▸ Nat.not_lt_of_ge (Nat.le_succ _)
  have all := quiet.trans added sound.forest fun y member lt =>
    absurd (Nat.lt_of_lt_of_le lt longer.ext.size) (newer y member)
  have after := written.trans added soundGrown.forest fun y member lt => absurd lt (newer y member)
  refine Edit.Yields.change fits move (Edit.Yields.pure ⟨⟨_, all.mono sound.forest (by simp) (fun y member _ => member)
    all.free, fun y member => ?_⟩, ?_, ?_⟩)
  · rcases List.mem_append.mp member with early | late
    · rw [List.mem_singleton.mp early]
      exact served.fresh.imp (fun ⟨unused, _, is⟩ => ⟨is, unused⟩) id
    · exact .inr (Nat.le_trans longer.ext.size (Nat.le_of_not_lt (newer y late)))
  · exact standsPaired.append appended soundPaired plainPaired foundPaired entrant harmlessPaired
  · exact served.stays after soundGrown appended.edited.forest fun z inside => inside.elim False.elim (· ▸ elsewhere)

/-- Adding an entry succeeds, and it is recorded behind the others. -/
theorem addEntry_yields (sound : doc.Sound) (plain : doc.Plain)
    (stands : doc.Stands callees m record) (supplied : Supplied doc callees low high source actions snippet)
    (old : ∀ y, doc.Below m.object y → y < low) (other : name ≠ namespaceName)
    (spared : ∀ k, m.containerObject? doc c = .ok (some k) → doc.Harmless k name) :
    Edit.Yields (m.addEntry c name snippet) doc fun snippet' doc' =>
      Changed doc doc' callees low m (record.added c (entryRecord c name source actions)) ∧
      Supplied doc' callees low high source actions snippet' := by
  have isQuote := isQuote_quote doc m
  refine Edit.Yields.look _ ?_
  refine Edit.Yields.bind ((ensureContainer_yields sound stands supplied old isQuote other spared).silent
    (ensureContainer_silent _ _ _)) fun k made moves ⟨⟨ensured, standsMade, found, suppliedMade, place, harmless⟩, silent⟩ => ?_
  have plainMade := Document.Moves.plain moves sound (.nothing silent) plain
  have elsewhere : k < low ∨ high ≤ k := place.imp (old k) (Nat.le_trans supplied.bound)
  obtain ⟨snippet', doc', run, moves', ⟨loose, calm, fresh⟩, stands', supplied'⟩ :=
    appendEntry_yields (moves.sound sound)
    plainMade standsMade found harmless suppliedMade elsewhere isQuote
  refine ⟨snippet', doc', run, moves', ⟨⟨loose, ?_, fun y member => ?_⟩, stands'⟩, supplied'⟩
  · have free : ∀ y ∈ loose, y < doc.nodes.size → doc.Free y := fun y member lt => by
      rcases fresh y member with ⟨rfl, unused⟩ | new
      · exact supplied.free unused
      · exact absurd (Nat.lt_of_lt_of_le lt ensured.ext.size) (Nat.not_lt_of_ge new)
    have all := ensured.trans calm sound.forest free
    refine all.mono sound.forest (fun z present inside => ?_) (fun y member _ => by simpa using member) free
    rcases inside with rfl | rfl
    · exact ⟨Document.Below.refl doc _, .inl stands.alone.object⟩
    · refine ⟨place.resolve_right (Nat.not_le_of_gt present), .inl ?_⟩
      exact (ensured.ext.role present).symm.trans (containerObject?_some found).2
  · rcases fresh y member with ⟨rfl, _⟩ | new
    · exact (supplied.range _ (Document.Below.refl doc _)).1
    · exact Nat.le_trans (Nat.le_of_lt suppliedMade.low_lt) new

/-! ## Replaced values -/

section
variable {e value : NodeId} {todo : List NodeId} {rs : List EntryRecord}

/-- Giving an entry another value succeeds. -/
theorem setValue_yields (sound : doc.Sound) (object : doc.role k = .object) (child : e ∈ doc.entries k)
    (named : doc.entryName? e = some name) (loose : doc.Loose [k] value)
    (offers : doc.Offers callees value source actions)
    (isQuote : Literal.isQuote quote = true) (done : e ∉ todo) (old : ∀ x ∈ todo, x < doc.nodes.size)
    (revising : doc.Revising callees c k (Document.revise (entryRecord c name source actions)) (e :: todo) rs) :
    Edit.Yields (setValue e name quote value) doc fun _ doc' =>
      doc.Given doc' callees c k (entryRecord c name source actions) e value todo rs := by
  have part := (Document.mem_entries child).1
  have ready : doc.Ready [k] [k] := .self sound (by simpa using object)
  have held := List.mem_singleton_self k
  have does : Edit.Does [k] [k] (setValue e name quote value) doc _ :=
    setValue_does ready held (Document.Below.refl doc k) part (Document.keyed_of_name named) loose
  cases found : doc.pairValue? e with
  | some before =>
    obtain ⟨pair, inside, _⟩ := Document.pairValue?_some found
    obtain ⟨doc', fits, replaced⟩ := Document.replace_ok sound.forest (sound.forest.childParent inside) loose.free
      (loose.not_below sound.forest held (Document.Below.child part))
    have run : Edit.outcome (setValue e name quote value) doc = (.ok (), doc') := by
      simp only [setValue, Edit.outcome_bind, Edit.outcome_look, found, Edit.outcome_change, fits]
    exact Edit.Yields.of_does does run (.of_value sound child named revising replaced found loose done offers rfl)
  | none =>
    obtain ⟨paired, run, moves, written, entrant⟩ := Document.writePair_entrant c name sound object loose offers isQuote
    have soundPaired := moves.sound sound
    have child' : e ∈ paired.children k := by
      rw [written.children k (Document.lt_of_mem_children part) fun impossible => impossible]
      exact part
    obtain ⟨doc', fits, replaced⟩ := Document.replace_ok soundPaired.forest (soundPaired.forest.childParent child')
      entrant.free entrant.apart
    have run : Edit.outcome (setValue e name quote value) doc = (.ok (), doc') := by
      simp only [setValue, Edit.outcome_bind, Edit.outcome_look, found, run, Edit.outcome_change, fits]
    exact Edit.Yields.of_does does run (.of_entry sound child named revising soundPaired written entrant replaced
      object old)

/-- Giving all entries with a name another value succeeds. -/
theorem setValues_yields {base : Document} (ground : base.Sound) (object : base.role k = .object)
    (old : ∀ y, base.Below k y → y < low) (isQuote : Literal.isQuote quote = true) (distinct : todo.Nodup)
    (setting : Setting base doc callees low high source actions c k name rs todo snippet) :
    Edit.Yields (setValues name quote snippet todo) doc fun snippet' doc' =>
      Setting base doc' callees low high source actions c k name rs [] snippet' := by
  induction todo generalizing doc snippet with
  | nil => exact Edit.Yields.pure setting
  | cons e rest ih =>
    obtain ⟨done, distinct⟩ := List.nodup_cons.mp distinct
    refine Edit.Yields.bind (Snippet.next_yields setting.sound setting.supplied)
      fun (value, snippet') grown moves served => ?_
    have handed := setting.served ground object served (moves.sound setting.sound)
    obtain ⟨_, calm, _⟩ := setting.calm
    obtain ⟨_, calm', _⟩ := handed.calm
    obtain ⟨_, child, named⟩ := handed.there e (by simp)
    have lt := Document.lt_of_role object (by decide)
    have apart := served.apart k (.inl (old k (Document.Below.refl base k))) (Nat.lt_of_lt_of_le lt calm.ext.size)
    have loose : grown.Loose [k] value := ⟨served.free, by simpa using apart⟩
    have present : ∀ x ∈ rest, x < grown.nodes.size := fun x member => by
      obtain ⟨_, child, _⟩ := handed.there x (List.mem_cons_of_mem _ member)
      exact handed.sound.forest.childLt (Document.mem_entries child).1
    refine Edit.Yields.bind (setValue_yields handed.sound ((calm'.ext.role lt).trans object) child named loose
      served.offers
      isQuote done present handed.revising) fun _ doc' moves' given => ?_
    exact ih distinct (handed.next ground old served.used done (setting.fresh served)
      (served.low_le setting.supplied) given (moves'.sound handed.sound))

end

/-- Giving the entries with a name another value succeeds if there is one, and they are recorded with it. -/
theorem setEntry_yields (sound : doc.Sound) (plain : doc.Plain) (stands : doc.Stands callees m record)
    (supplied : Supplied doc callees low high source actions snippet) (old : ∀ y, doc.Below m.object y → y < low)
    (spared : ∀ k, m.containerObject? doc c = .ok (some k) → doc.Harmless k name)
    (has : record.Lists c name) :
    Edit.Yields (m.setEntry c name snippet) doc fun snippet' doc' =>
      Changed doc doc' callees low m (record.revised c (entryRecord c name source actions)) ∧
      Supplied doc' callees low high source actions snippet' := by
  have ⟨_, listed, _⟩ := has
  obtain ⟨k, found⟩ := Document.containerObject?_of_entry stands.extracted listed
  obtain ⟨stocked, none, e, holds⟩ := stands.stocked sound.forest found
  have below := (containerObject?_some found).1
  have distinct := Document.entriesNamed_nodup sound.forest k name
  refine Edit.Yields.get (Edit.Yields.lift (namedEntries_stocked found stocked has) (Edit.Yields.look _ ?_))
  have start : Setting doc doc callees low high source actions c k name (record.entries c) (doc.entriesNamed k name)
      snippet := by
    refine ⟨sound, ⟨[], Calm.refl doc, by simp⟩, .start stocked fun e child named => ?_, rfl, fun e member => ?_,
      supplied,
      fun _ => rfl⟩
    · exact List.mem_filter.mpr ⟨child, beq_iff_eq.mpr named⟩
    · exact ⟨member, List.mem_of_mem_filter member, (Document.mem_entriesNamed member).2⟩
  obtain ⟨snippet', doc', run, moves, setting⟩ :=
    setValues_yields sound holds.object (fun y under => old y (below.trans under))
    (isQuote_quote doc m) distinct start
  obtain ⟨loose, calm, late⟩ := setting.calm
  have roles : ∀ z, (z = k ∨ z ∈ doc.entriesNamed k name ∧ doc.role z = .pair) →
      doc.role z = .object ∨ doc.role z = .pair := by
    rintro z (rfl | ⟨_, pair⟩)
    · exact .inl holds.object
    · exact .inr pair
  have inside : ∀ z, (z = k ∨ z ∈ doc.entriesNamed k name ∧ doc.role z = .pair) → doc.Below k z := by
    rintro z (rfl | ⟨member, _⟩)
    · exact Document.Below.refl doc _
    · exact .child (Document.mem_entriesNamed member).1
  have none' := Document.recognize_silhouette setting.covered (spared k found) none
  have stands' := stands.container calm sound setting.sound.forest plain roles holds inside setting.revising.finish
    none'
  refine ⟨snippet', doc', run, moves, ⟨⟨loose, ?_, late⟩, stands'⟩, setting.supplied⟩
  exact calm.mono sound.forest (fun z _ here => ⟨below.trans (inside z here), roles z here⟩)
    (fun y member _ => member) calm.free

/-! ## Entries taken out -/

/-- Taking out all entries with a name succeeds. -/
theorem removeAll_yields {base : Document} {todo : List NodeId} {rs : List EntryRecord} (ground : base.Sound)
    (sound : doc.Sound) (object : base.role k = .object) (calm : Calm base doc (fun z => z = k) [])
    (distinct : todo.Nodup)
    (stocked : doc.Stocked callees c k rs)
    (there : ∀ x, x ∈ todo ↔ x ∈ doc.entries k ∧ doc.entryName? x = some name) :
    Edit.Yields (removeAll todo) doc fun _ doc' => doc'.Sound ∧ Calm base doc' (fun z => z = k) [] ∧
      doc'.Stocked callees c k (rs.filter (·.name != name)) ∧ doc'.silhouette k name = doc.silhouette k name ∧
      ∀ x ∈ doc'.entries k, doc'.entryName? x ≠ some name := by
  induction todo generalizing doc rs with
  | nil =>
    have gone : ∀ x ∈ doc.entries k, doc.entryName? x ≠ some name := fun x child named => by
      cases (there x).mpr ⟨child, named⟩
    have all : rs.filter (·.name != name) = rs := List.filter_eq_self.mpr fun r member => by
      obtain ⟨x, child, tells⟩ := forall₂_mem_right stocked.records member
      have other := gone x child
      rw [tells.name] at other
      simpa using other
    exact Edit.Yields.pure ⟨sound, calm, all.symm ▸ stocked, rfl, gone⟩
  | cons e rest ih =>
    obtain ⟨fresh, distinct⟩ := List.nodup_cons.mp distinct
    obtain ⟨child, named⟩ := (there e).mp (by simp)
    have parent := sound.forest.childParent (Document.mem_entries child).1
    have role : doc.role k = .object := (calm.ext.role (Document.lt_of_role object (by decide))).trans object
    obtain ⟨doc', fits, removed⟩ := Document.remove_ok sound.forest parent role
    have move : Document.Move doc doc' := .remove parent role fits
    have taken := removed.calm
    obtain ⟨rs', stocked', same⟩ := removed.stocked sound child named stocked
    refine Edit.Yields.change fits move ?_
    have both := calm.trans taken ground.forest fun y member => by cases member
    have all := both.mono ground.forest (fun z _ inside => inside.elim id id) (fun y member _ => member) both.free
    have there' : ∀ x, x ∈ rest ↔ x ∈ doc'.entries k ∧ doc'.entryName? x = some name := fun x => by
      rw [removed.named_iff sound child, ← there x, List.mem_cons]
      refine ⟨fun member => ⟨.inr member, fun same => fresh (same ▸ member)⟩, fun ⟨member, other⟩ => ?_⟩
      exact member.resolve_left other
    obtain ⟨a, doc'', run, moves, sound', calm', left, covered, gone⟩ := ih (move.sound sound) all distinct stocked'
      there'
    refine ⟨a, doc'', run, moves, sound', calm', same ▸ left, ?_, gone⟩
    exact covered.trans (removed.silhouette sound child named)

/-- Taking out the entries with a name succeeds if there is one, and the others stay recorded. -/
theorem removeEntry_yields (sound : doc.Sound) (plain : doc.Plain) (stands : doc.Stands callees m record)
    (has : record.Lists c name) :
    Edit.Yields (m.removeEntry c name) doc fun _ doc' =>
      Changed doc doc' callees low m (record.without c name) := by
  have ⟨_, listed, _⟩ := has
  obtain ⟨k, found⟩ := Document.containerObject?_of_entry stands.extracted listed
  obtain ⟨stocked, none, e, holds⟩ := stands.stocked sound.forest found
  refine Edit.Yields.get (Edit.Yields.lift (namedEntries_stocked found stocked has) ?_)
  have named : ∀ x, x ∈ doc.entriesNamed k name ↔ x ∈ doc.entries k ∧ doc.entryName? x = some name := fun x => by
    simp [Document.entriesNamed]
  obtain ⟨a, doc', run, moves, sound', calm, stocked', covered, gone⟩ := removeAll_yields sound sound holds.object
    (Calm.refl doc) (Document.entriesNamed_nodup sound.forest k name) stocked named
  have roles : ∀ z, z = k → doc.role z = .object ∨ doc.role z = .pair := fun z same => .inl (same ▸ holds.object)
  have stands' := stands.container calm sound sound'.forest plain roles holds
    (fun z same => same ▸ Document.Below.refl doc z)
    stocked' (Document.recognize_removed covered gone none)
  refine ⟨a, doc', run, moves, ⟨[], ?_, by simp⟩, stands'⟩
  refine calm.mono sound.forest (fun z _ same => ⟨?_, roles z same⟩) (fun y member _ => member) calm.free
  exact same ▸ (containerObject?_some found).1

end Model

end StoreModels
