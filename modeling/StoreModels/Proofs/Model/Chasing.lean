import StoreModels.Proofs.Model.Lockstep
import StoreModels.Proofs.Model.Reaching
import StoreModels.Proofs.Model.Silent

/-!
An update that goes after another one. It runs on a file as it was, and in lockstep on the file that the other one left.
Where it has not come yet, it finds there what the other one put in place of what it finds here; wherever it has been, the
two are alongside.
-/
namespace StoreModels
open Syntax (Reader)
open List (Forall₂)

namespace Document
variable {first doc doc' edited edited' : Document} {name : List Char} {x c e k p : NodeId} {m : Model} {container : Container}
  {models rest held : List Model} {snippet snippet' taken taken' : Snippet} {done all : Target → Prop} {t : Target}
  {aim : Model → Target → Prop} {skip : (Target → Prop) → Model → Prop} {quote : Char}
  {load : Document → NodeId → Prop}

/-! ## What is still where it was -/

namespace Filling
variable (run : first.Filling doc name load done)
include run

/-- A child of a node of the file is one that it had, or in a tree that was put in place. -/
theorem child_cases (lt : x < first.nodes.size) (child : e ∈ doc.children x) :
    e ∈ first.children x ∨ first.Late doc e := by
  obtain ⟨f, member, ⟨rfl, _⟩ | ⟨_, _, _, filled⟩⟩ := forall₂_mem_left (run.places x lt) child
  · exact .inl member
  · exact .inr filled.late

/-- A spot that is still a child is one of its holder, and was not filled. -/
theorem unfilled (start : first.Sound) (lies : t.Lies first) (child : t.spot first ∈ doc.children x)
    (known : x < first.nodes.size ∨ first.Late doc x) : x = t.holder first ∧ ¬ done t := by
  have present := start.forest.childLt lies.spot_child
  rcases known with lt | late
  · obtain ⟨f, member, ⟨same, none⟩ | ⟨_, _, _, filled⟩⟩ := forall₂_mem_left (run.places x lt) child
    · exact ⟨start.forest.parent_unique (same ▸ member) lies.spot_child, fun before => none t before same⟩
    · exact absurd (filled.late _ (.refl doc _)) (Nat.not_le_of_lt present)
  · exact absurd (late _ (.child child)) (Nat.not_le_of_lt present)

end Filling

/-! ## Two runs at a time -/

/-- A document that grew from another one by moves. -/
structure Fit (first doc : Document) (held : List NodeId) : Prop where
  ready : doc.Ready held held
  ext : Extends first doc
  shaped : doc.Shaped
  plain : doc.Plain

/-- A document stays fit as long as regular texts come in alone. -/
theorem Fit.moves [Reader] {held : List NodeId} (fit : first.Fit doc held) (moves : doc.Moves edited)
    (learns : doc.Learns edited Reader.Regular) : first.Fit edited held := by
  have sound := fit.ready.sound
  exact ⟨fit.ready.moves moves, fit.ext.trans (moves.toExtends sound),
    moves.shaped sound fit.shaped fun text member => (learns text member).1,
    moves.plain sound (fun text member => (learns text member).2) fit.plain⟩

/-- The spots of targets, with the quotes for their keys. -/
def Awaited (first : Document) (all : Target → Prop) (c : NodeId) (quote : Char) : Prop :=
  ∃ t, all t ∧ t.spot first = c ∧ t.quote = quote

/-- What is awaited was there at the start. -/
theorem Awaited.early (awaited : first.Awaited all c quote) (start : first.Sound) (lies : ∀ t, all t → t.Lies first) :
    c < first.nodes.size := by
  obtain ⟨t, among, rfl, _⟩ := awaited
  exact start.forest.childLt (lies t among).spot_child

/-- An edit of models one after the other, which runs alongside itself in a document where all its targets have been
    filled before. -/
structure Chasing (first doc doc' : Document) (name : List Char) (aim : Model → Target → Prop)
    (skip : (Target → Prop) → Model → Prop) (models rest : List Model) (done all : Target → Prop)
    (snippet snippet' : Snippet) : Prop where
  under : first.Underway doc name aim models rest done snippet
  goal : reach skip aim rest done = all
  order : rest.Pairwise fun m n => ¬ first.Below n.object m.object
  fit : first.Fit doc (models.map Model.object)
  fit' : first.Fit doc' (models.map Model.object)
  along : ∃ T R, Alongside doc doc' T R name (first.Awaited all) ∧ T 0 0 ∧ (∀ x < first.nodes.size, R x x) ∧
    Paced first doc doc' (models.map Model.object) R snippet snippet'

namespace Chasing

/-- What is awaited below a node is a target in one of the models that come next. -/
theorem ahead (chase : first.Chasing doc doc' name aim skip models rest done all snippet snippet') (start : first.Sound)
    (lies : ∀ t, all t → t.Lies first) (awaited : first.Awaited all c quote) (child : c ∈ doc.children x)
    (known : x < first.nodes.size ∨ first.Late doc x) :
    ∃ t, t.spot first = c ∧ t.quote = quote ∧ all t ∧ x = t.holder first ∧ ∃ m ∈ rest, aim m t := by
  obtain ⟨t, among, rfl, rfl⟩ := awaited
  obtain ⟨here, unfilled⟩ := chase.under.filling.unfilled start (lies t among) child known
  exact ⟨t, rfl, rfl, among, here, (reach_cases (chase.goal ▸ among)).resolve_left unfilled⟩

/-- The next model has been edited in both documents. -/
theorem next [Reader] (chase : first.Chasing doc doc' name aim skip models (m :: rest) done all snippet snippet')
    (under : first.Underway edited name aim models rest (fun t => (¬ skip done m ∧ aim m t) ∨ done t) taken)
    (moves : doc.Moves edited) (silent : edited.buffers = doc.buffers) (moves' : doc'.Moves edited')
    (silent' : edited'.buffers = doc'.buffers)
    (along : ∃ T R, Alongside edited edited' T R name (first.Awaited all) ∧ T 0 0 ∧ (∀ x < first.nodes.size, R x x) ∧
      Paced first edited edited' (models.map Model.object) R taken taken') :
    first.Chasing edited edited' name aim skip models rest (fun t => (¬ skip done m ∧ aim m t) ∨ done t) all taken
      taken' where
  under := under
  goal := chase.goal
  order := (List.pairwise_cons.mp chase.order).2
  fit := chase.fit.moves moves (.nothing silent)
  fit' := chase.fit'.moves moves' (.nothing silent')
  along := along

/-- If each edit of the next model keeps up, so do the edits of all models. -/
theorem forAll {edit : Model → Snippet → Edit Snippet}
    (step : ∀ {doc doc' edited m rest done snippet snippet' taken}, m ∈ models →
      first.Chasing doc doc' name aim skip models (m :: rest) done all snippet snippet' →
      Edit.outcome (edit m snippet) doc = (.ok taken, edited) →
      ∃ done taken' edited', Edit.outcome (edit m snippet') doc' = (.ok taken', edited') ∧
        first.Chasing edited edited' name aim skip models rest done all taken taken')
    (chase : first.Chasing doc doc' name aim skip models rest done all snippet snippet')
    (given : Edit.outcome (ModelSet.forAll edit snippet rest) doc = (.ok (), edited)) :
    ∃ last taken taken' edited', Edit.outcome (ModelSet.forAll edit snippet' rest) doc' = (.ok (), edited') ∧
      first.Chasing edited edited' name aim skip models [] last all taken taken' := by
  induction rest generalizing doc doc' done snippet snippet' with
  | nil =>
    cases given
    exact ⟨done, snippet, snippet', doc', rfl, chase⟩
  | cons m rest ih =>
    rw [ModelSet.forAll, Edit.outcome_bind] at given
    split at given
    next taken₁ edited₁ set =>
      obtain ⟨done₁, taken₁', edited₁', set', chase₁⟩ := step (chase.under.sub List.mem_cons_self) chase set
      obtain ⟨last, taken, taken', edited', all, final⟩ := ih chase₁ given
      refine ⟨last, taken, taken', edited', ?_, final⟩
      simp only [ModelSet.forAll, Edit.outcome_bind, set', all]
    next => cases given

end Chasing

/-! ## States -/

namespace Chasing
variable [Reader] (start : first.Sound) (plain : first.Plain)
  (distinct : (models.map Model.object).Nodup) (lies : ∀ t, all t → t.Lies first)
include start plain lies

omit [Reader] in
/-- The entries that tell the state of the next model are at the same place in both documents. -/
theorem stateEntry {T : BufferId → BufferId → Prop} {R : NodeId → NodeId → Prop}
    (chase : first.Chasing doc doc' Model.stateName (fun m t => m.StateTarget first t) skip models (m :: rest) done all
      snippet snippet') (object : first.role m.object = .object)
    (along : Alongside doc doc' T R Model.stateName (first.Awaited all)) (files : T 0 0) (here : R m.object m.object) :
    Option.Rel (Facing doc doc' R Model.stateName (first.Awaited all) m.object m.object)
      (doc.entryNamed? m.object Model.stateName) (doc'.entryNamed? m.object Model.stateName) := by
  have lt := lt_of_role object (by decide)
  have run := chase.under.filling
  have now := (run.ext.role lt).trans object
  refine along.entryNamed? chase.fit.plain chase.fit.shaped chase.fit'.shaped files here now fun c child d unmet => ?_
  cases unmet with
  | value _ pair =>
    rw [now] at pair
    cases pair
  | @entry quote next _ _ _ stranded =>
    obtain ⟨t, spot, same, among, above, n, _, _, isQuote, told⟩ := chase.ahead start lies next child (.inl lt)
    have inside : c ∈ first.children m.object := spot ▸ above ▸ (lies t among).spot_child
    obtain ⟨_, rfl, _⟩ := (lies t among).entry_spot start.forest object inside spot
    obtain ⟨_, heads, _⟩ := stranded.heads
    have quoted : Literal.isQuote quote = true := by
      rw [← same, isQuote]
      decide
    rw [entryIdentifier?, heads.entryKey? chase.fit'.ready.sound.forest quoted, entryIdentifier?,
      run.entryKey? start plain (start.forest.childLt inside), ← entryIdentifier?, (entryNamed?_some told).2]
    decide

include distinct

/-- The next model gets another state in both documents. -/
theorem setState (chase : first.Chasing doc doc' Model.stateName (fun m t => m.StateTarget first t) (fun _ _ => False) models
      (m :: rest) done all snippet snippet') (object : first.role m.object = .object)
    (given : Edit.outcome (m.setState snippet) doc = (.ok taken, edited)) :
    ∃ done taken' edited', Edit.outcome (m.setState snippet') doc' = (.ok taken', edited') ∧
      first.Chasing edited edited' Model.stateName (fun m t => m.StateTarget first t) (fun _ _ => False) models rest done all
        taken taken' := by
  obtain ⟨T, R, along, files, self, paced⟩ := chase.along
  have lt := lt_of_role object (by decide)
  have here := self m.object lt
  have under := chase.under.setState start plain distinct object given
  have found := chase.stateEntry start plain lies object along files here
  generalize left : doc.entryNamed? m.object Model.stateName = e at found
  generalize right : doc'.entryNamed? m.object Model.stateName = e' at found
  cases found with
  | none =>
    simp only [Model.setState, Edit.outcome_bind, Edit.outcome_look, left, Edit.outcome_pure] at given
    cases given
    refine ⟨_, snippet', doc', ?_, chase.next under .refl rfl .refl rfl ⟨T, R, along, files, self, paced⟩⟩
    simp only [Model.setState, Edit.outcome_bind, Edit.outcome_look, right, Edit.outcome_pure]
  | @some e e' facing =>
    have member : m.object ∈ models.map Model.object := List.mem_map_of_mem (chase.under.sub List.mem_cons_self)
    have keyed : doc.Keyed e := keyed_of_name (entryName?_of_identifier (entryNamed?_some left).2)
    obtain ⟨taken₁, taken', edited₁, edited', R', set, set', more, along', moves, moves', paced'⟩ :=
      along.setValues chase.fit.ready chase.fit'.ready (fun _ _ next => next.early start lies) chase.fit.ext member here
        ((chase.fit.ext.role lt).trans object) (.refl doc _) (.refl doc' _) (.cons ⟨facing.here, keyed⟩ .nil)
        (List.nodup_singleton e) paced (rfl : Literal.keyText Model.stateName '\'' = Literal.keyText Model.stateName '\'') fun c listed r next => by
          obtain rfl := List.mem_singleton.mp listed
          obtain ⟨t, _, rfl, _, _, n, _, _, isQuote, _⟩ := chase.ahead start lies next facing.child (.inl lt)
          rw [isQuote]
    simp only [Model.setValues, Edit.outcome_bind] at set set'
    have is' : Edit.outcome (m.setState snippet') doc' = (.ok taken', edited') := by
      simp only [Model.setState, Edit.outcome_bind, Edit.outcome_look, right]
      exact set'
    have silent := (Model.setState_silent m snippet).of_outcome given
    simp only [Model.setState, Edit.outcome_bind, Edit.outcome_look, left] at given
    rw [set] at given
    cases given
    exact ⟨_, taken', edited', is', chase.next under moves silent moves' ((Model.setState_silent m snippet').of_outcome is')
      ⟨T, R', along', files, fun x lt => more (self x lt), paced'⟩⟩

end Chasing

/-! ## Entries -/

namespace Chasing
variable (start : first.Sound) (plain : first.Plain)
  (distinct : (models.map Model.object).Nodup) (lies : ∀ t, all t → t.Lies first)
  (chase : first.Chasing doc doc' name (fun m t => m.EntryTarget first container name t) (Linked container name) models
    (m :: rest) done all snippet snippet') (object : first.role m.object = .object)
include start chase

/-- What is still awaited is aimed at in containers of models that are not above the next one. -/
theorem target_ne {n : Model} (member : n ∈ m :: rest) (aimed : n.EntryTarget first container name t) : t.object ≠ m.object := by
  obtain ⟨holds, _⟩ := aimed
  obtain ⟨below, _⟩ := Model.containerObject?_some holds
  rintro same
  rcases List.mem_cons.mp member with rfl | later
  · obtain ⟨e, place⟩ := Holds.of_container holds
    exact place.not_below_model start.forest (same ▸ .refl first _)
  · exact (List.pairwise_cons.mp chase.order).1 n later (same ▸ below)

include object lies

/-- So nothing is awaited in the next model itself. -/
theorem spared : doc.Spared (first.Awaited all) m.object := by
  have lt := lt_of_role object (by decide)
  intro c quote awaited
  refine ⟨fun child => ?_, fun e listed pair child => ?_⟩
  · obtain ⟨t, spot, _, among, above, n, member, aimed⟩ := chase.ahead start lies awaited child (.inl lt)
    have inside : c ∈ first.children m.object := spot ▸ above ▸ (lies t among).spot_child
    exact chase.target_ne start member aimed ((lies t among).entry_spot start.forest object inside spot).2.2
  · have known := chase.under.filling.child_cases lt listed
    obtain ⟨t, spot, _, among, above, n, member, aimed⟩ := chase.ahead start lies awaited child
      (known.imp_left start.forest.childLt)
    have inside : c ∈ first.children e := spot ▸ above ▸ (lies t among).spot_child
    have present := lt_of_mem_children inside
    have other : first.role e ≠ .object := by
      rw [← chase.under.filling.ext.role present, pair]
      decide
    obtain ⟨rfl, _⟩ := (lies t among).value_spot start.forest other inside spot
    rcases known with here | late
    · exact chase.target_ne start member aimed
        (start.forest.parent_unique (lies t among).entry_child here)
    · exact Nat.not_le_of_lt present (late _ (.refl doc _))

include plain

omit lies in
/-- The container of the next model is the one that it was, or was put in place. -/
theorem container_cases (found : m.containerObject? doc container = .ok (some k)) :
    m.containerObject? first container = .ok (some k) ∨ first.Late doc k := by
  have run := chase.under.filling
  by_cases linked : Linked container name done m
  · refine .inr (run.container_new start plain chase.under.named object (fun t before e listed => ?_) linked found).1
    obtain ⟨n, _, _, ⟨holds, _, _⟩, all⟩ := chase.under.owned t before
    exact ⟨n.quote first, all ⟨t.object, e, n.quote first⟩ ⟨holds, rfl, listed⟩⟩
  · refine .inl ?_
    rwa [← run.containerObject? start plain chase.under.named object fun t before same key => linked ⟨key, t, before, same⟩]

include distinct

/-- What is awaited in the container of the next model is aimed at in this model. -/
theorem aimed_here (found : m.containerObject? doc container = .ok (some k)) (child : c ∈ doc.children k)
    (awaited : first.Awaited all c quote) : c ∈ first.entriesNamed k name ∧ quote = m.quote first := by
  have cases := chase.container_cases start plain object found
  obtain ⟨t, spot, same, among, above, n, member, aimed⟩ := chase.ahead start lies awaited child
    (cases.imp_left fun here => lt_of_role (Model.containerObject?_some here).2 (by decide))
  have inside : c ∈ first.children k := spot ▸ above ▸ (lies t among).spot_child
  have here := cases.resolve_right fun late => Nat.not_le_of_lt (lt_of_mem_children inside) (late k (.refl doc k))
  obtain ⟨_, rfl, rfl⟩ := (lies t among).entry_spot start.forest (Model.containerObject?_some here).2 inside spot
  obtain rfl : n = m := List.inj_on_of_nodup_map distinct (chase.under.sub member) (chase.under.sub List.mem_cons_self)
    (containerObject?_inj start.forest aimed.1 here)
  exact ⟨aimed.2.2, same ▸ aimed.2.1⟩

variable [Reader]

/-- The next model gets another value for its entries in both documents. -/
theorem setEntry {old : NodeId} (titled : m.Titled first p old)
    (given : Edit.outcome (m.setEntry container name snippet) doc = (.ok taken, edited)) :
    ∃ done taken' edited', Edit.outcome (m.setEntry container name snippet') doc' = (.ok taken', edited') ∧
      first.Chasing edited edited' name (fun m t => m.EntryTarget first container name t) (Linked container name) models rest
        done all taken taken' := by
  obtain ⟨T, R, along, files, self, paced⟩ := chase.along
  obtain ⟨ready, ext, shaped, leaves⟩ := chase.fit
  have run := chase.under.filling
  have lt := lt_of_role object (by decide)
  have now := (ext.role lt).trans object
  have under := chase.under.setEntry start plain distinct titled given
  have spared := chase.spared start lies object
  have spelled := run.spelled start plain chase.under.named titled
  cases is : m.namedEntries doc container name with
  | error failure =>
    simp only [Model.setEntry, Edit.outcome_bind, Edit.outcome_get, Edit.outcome_lift, is] at given
    cases given
  | ok listed =>
    obtain ⟨k, holds, rfl⟩ := Model.namedEntries_ok is
    obtain ⟨k', holds', rel⟩ := along.containerObject? leaves shaped chase.fit'.shaped files now (self m.object lt) spared holds
    obtain ⟨below, role⟩ := Model.containerObject?_some holds
    obtain ⟨below', _⟩ := Model.containerObject?_some holds'
    have aimed : ∀ {c quote}, c ∈ doc.children k → first.Awaited all c quote →
        c ∈ first.entriesNamed k name ∧ quote = m.quote first :=
      fun child awaited => chase.aimed_here start plain distinct lies object holds child awaited
    have pairs := along.entriesNamed leaves shaped chase.fit'.shaped files (n := name) rel role fun c child quote awaited => by
      obtain ⟨inside, rfl⟩ := aimed child awaited
      obtain ⟨inner, told⟩ := mem_entriesNamed inside
      rw [Document.entryName?, run.entryKey? start plain (start.forest.childLt inner)]
      exact ⟨told, Model.isQuote_quote first m⟩
    have is' : m.namedEntries doc' container name = .ok (doc'.entriesNamed k' name) := by
      refine (Model.namedEntries_iff holds').mpr ⟨rfl, fun none => ((Model.namedEntries_iff holds).mp is).2 ?_⟩
      exact List.length_eq_zero_iff.mp (pairs.length_eq.trans (congrArg List.length none))
    have spelled' : Literal.keyText name (m.quote doc') = Literal.keyText name (m.quote doc) := by
      by_cases bare : Literal.isBareName name = true
      · simp only [Literal.keyText, if_pos bare]
      · have title := run.titled start plain chase.under.named titled (ne_namespaceName bare)
        rw [along.quote leaves shaped chase.fit'.shaped files now (self m.object lt) spared fun e v named held => ?_]
        obtain rfl := Option.some.inj (named.symm.trans title.named)
        obtain rfl := Option.some.inj (held.symm.trans title.held)
        exact title.literal
    obtain ⟨taken₁, taken', edited₁, edited', R', set, set', more, along', moves, moves', paced'⟩ :=
      along.setValues ready chase.fit'.ready (fun _ _ next => next.early start lies) ext
        (List.mem_map_of_mem (chase.under.sub List.mem_cons_self)) rel role below below'
        (forall₂_imp_mem pairs fun c listed d _ facing => ⟨facing.here, keyed_of_name (mem_entriesNamed listed).2⟩)
        (entriesNamed_nodup run.sound.forest k name) paced spelled' fun c listed r awaited => by
          rw [(aimed (mem_entriesNamed listed).1 awaited).2, spelled]
    have run' : Edit.outcome (m.setEntry container name snippet') doc' = (.ok taken', edited') := by
      simp only [Model.setEntry, Edit.outcome_bind, Edit.outcome_get, Edit.outcome_lift, Edit.outcome_look, is', set']
    have silent := (Model.setEntry_silent m container name snippet).of_outcome given
    simp only [Model.setEntry, Edit.outcome_bind, Edit.outcome_get, Edit.outcome_lift, Edit.outcome_look, is] at given
    cases set.symm.trans given
    exact ⟨_, taken', edited', run', chase.next under moves silent moves'
      ((Model.setEntry_silent m container name snippet').of_outcome run')
      ⟨T, R', along', files, fun x lt => more (self x lt), paced'⟩⟩

end Chasing

/-! ## Where the two runs start -/

namespace Filling
variable (run : first.Filling doc name Anything done) (start : first.Sound) (shaped : first.Shaped)
include run start shaped

/-- What a tree was put in place of is due for it. -/
theorem unmet (before : done t) (child : t.spot first ∈ first.children x) (filled : first.Filled doc name Anything t c) :
    Unmet first doc (Same first.nodes.size) name (first.Awaited done) x (t.spot first) c := by
  have lies := run.lies t before
  have above : x = t.holder first := start.forest.parent_unique child lies.spot_child
  have awaited : first.Awaited done (t.spot first) t.quote := ⟨t, before, rfl, rfl⟩
  cases held : first.pairValue? t.entry with
  | some value =>
    obtain ⟨spot, holder⟩ := Target.spot_pair held
    obtain ⟨pair, _, field⟩ := pairValue?_some held
    refine .value awaited ?_ ?_
    · rw [above, holder, pair]
    · rw [spot, field]
  | none =>
    obtain ⟨spot, holder⟩ := Target.spot_entry held
    have beyond : ∀ y, doc.Below c y → ∀ a, ¬ Same first.nodes.size a y := fun y below a both =>
      Nat.not_le_of_lt both.2 (both.1 ▸ filled.late y below)
    refine .entry awaited ?_ ?_ ?_ ⟨?_, beyond c (.refl doc c)⟩
    · rw [above, holder, lies.object]
    · rw [spot, (mem_entries lies.entry).2]
    · rw [spot]
      intro pair
      obtain ⟨v, inside, field⟩ := shaped.valued pair
      rw [Document.pairValue?, if_pos pair, Document.childByField?] at held
      exact absurd field (by simpa using List.find?_eq_none.mp held v inside)
    · obtain ⟨value, heads, _⟩ := filled.heads held
      exact ⟨value, heads, fun e inner _ => beyond e (.child inner)⟩

/-- A file is alongside what an update made of it, where its targets are due for what they got. -/
theorem alongside : Alongside first doc (Same first.buffers.length) (Same first.nodes.size) name (first.Awaited done) where
  parts := (Counterparts.self start).extend (Extends.refl first) run.ext
  sound := start
  sound' := run.sound
  children := by
    obtain ⟨loose, calm, beyond⟩ := run.calm
    rintro x _ ⟨rfl, lt⟩
    refine forall₂_imp_mem (run.places x lt).flip fun c child d _ place => ?_
    have present := start.forest.childLt child
    have held : c ∉ loose := fun listed => Nat.not_le_of_lt present (beyond c listed)
    obtain ⟨e, last, ends⟩ := start.ends_present present
    have ends' := calm.ends start present held ends
    rcases place with ⟨rfl, _⟩ | ⟨t, before, rfl, filled⟩
    · exact ⟨.inl ⟨rfl, present⟩, run.field present, fun _ => ⟨e, e, ends, ends', rfl, last⟩⟩
    · exact ⟨.inr (run.unmet start shaped before child filled), filled.field,
        fun _ => ⟨e, e, ends, .there filled.took ends', rfl, last⟩⟩

end Filling

namespace Chasing
variable [Reader] {text : List Char} {grown : Document} {tree : NodeId} {last : Snippet}

/-- Reading the snippet of the second edit into both documents leaves all targets for it to reach. -/
theorem ofSnippet (fit : first.Fit first (models.map Model.object)) (texts : 0 < first.buffers.length)
    (fresh : models.Nodup) (order : models.Pairwise fun m n => ¬ first.Below n.object m.object)
    (moves : first.Moves doc) (learns : first.Learns doc Reader.Regular)
    (regular : Reader.Regular first.dialect (Syntax.snippetText (Text.trim text)))
    (once : first.Underway doc name aim models [] (reach skip aim models fun _ => False) last)
    (read : first.parseExpression text = .ok (grown, tree)) :
    ∃ grown' tree', doc.parseExpression text = .ok (grown', tree') ∧
      first.Chasing grown grown' name aim skip models models (fun _ => False) (reach skip aim models fun _ => False)
        ⟨tree, false⟩ ⟨tree', false⟩ := by
  have start := fit.ready.sound
  have fit' := fit.moves moves learns
  obtain ⟨grown', tree', T, R, read', texts', more, rel, along⟩ :=
    (once.filling.alongside start fit.shaped).read once.filling.ext.dialect read
  obtain ⟨rfl, _, _, adopted⟩ := parseExpression_adopted read
  obtain ⟨rfl, _, _, adopted'⟩ := parseExpression_adopted read'
  have loose := adopted.loose (start.withBuffer _) fit.ready.present
  have loose' := adopted'.loose (fit'.ready.sound.withBuffer _) fit'.ready.present
  refine ⟨grown', _, read', .ofSnippet start read fresh, rfl, order, fit.moves (.single (.adopt text read)) (.read read regular),
    fit'.moves (.single (.adopt text read')) (.read read' (once.filling.ext.dialect.symm ▸ regular)), T, R, along, texts' ⟨rfl, texts⟩, fun x lt => more ⟨rfl, lt⟩, ?_⟩
  exact ⟨rfl, rel, ⟨loose.free.lt, fun _ => loose⟩, ⟨loose'.free.lt, fun _ => loose'⟩,
    fun y below => (adopted.below_new below).1⟩

end Chasing

/-! ## Where they end -/

/-- When all targets have been reached, the two documents print the same. -/
theorem Chasing.print_eq (chase : first.Chasing doc doc' name aim skip models [] done all snippet snippet')
    (start : first.Sound) (lies : ∀ t, all t → t.Lies first) (root : first.root < first.nodes.size) :
    doc'.print = doc.print := by
  obtain ⟨T, R, along, files, self, _⟩ := chase.along
  refine along.parts.print_eq along.sound along.sound' chase.fit.shaped chase.fit'.shaped
    (S := fun x y => R x y ∧ (x < first.nodes.size ∨ first.Late doc x)) (@fun x y ⟨rel, known⟩ => ⟨rel, ?_⟩) ?_ files
  · refine forall₂_imp_mem (along.children rel) fun c child d _ beside => ⟨⟨beside.met.resolve_right fun unmet => ?_, ?_⟩,
      beside.seated⟩
    · obtain ⟨quote, awaited⟩ := unmet.pending
      obtain ⟨_, _, _, _, _, n, impossible, _⟩ := chase.ahead start lies awaited child known
      cases impossible
    · rcases known with lt | late
      · exact (chase.under.filling.child_cases lt child).imp_left start.forest.childLt
      · exact .inr fun z below => late z ((Below.child child).trans below)
  · rw [chase.fit.ext.root, chase.fit'.ext.root]
    exact ⟨self first.root root, .inl root⟩

end Document

end StoreModels
