import StoreModels.Proofs.Model.Halted
import StoreModels.Proofs.Model.Refilled
import StoreModels.Proofs.Record.Stock

/-!
Added entries that are taken out again. Adding an entry to containers that have none of its name, and then taking out the
entries of this name, gives every node of a document the children that it had. Only marks are left behind, and these do
not change the text.
-/
namespace StoreModels
open Syntax (Dialect Reader sampleReader)

namespace Document
variable {first doc doc' : Document} {zone done : NodeId → Prop} {loose : List NodeId} {name source : List Char}
  {models : List Model} {m : Model} {c : Container} {x k p : NodeId} {snippet : Snippet}

/-! ## Marks that are left behind -/

/-- No move takes a mark away. -/
theorem Move.marks [Reader] (move : Move doc doc') (sound : doc.Sound) (lt : x < doc.nodes.size)
    (marked : (doc.node x).dirty = true) : (doc'.node x).dirty = true := by
  cases move with
  | leaf kind text _ =>
    rw [(writeLeaf_prolongs doc kind text).node x lt]
    exact marked
  | adopt snippet read =>
    obtain ⟨_, _, _, adopted⟩ := parseExpression_adopted read
    rw [adopted.longer.node x lt]
    exact marked
  | copy present =>
    obtain ⟨_, twin, copied⟩ := duplicate_duplicated sound.forest present
    rw [copied.longer.node x lt]
    exact marked
  | join kind parts _ distinct free _ =>
    have joined := (writeNode_joined doc kind parts distinct fun c member => (free c member).lt).2
    rw [joined.node_old lt]
    exact marked
  | replace parent free apart _ run =>
    have replaced := Replaced.of_ok sound.forest parent free apart run
    exact (replaced.edited.dirty x).mpr (.inl marked)
  | append object free apart run =>
    have appended := Appended.of_ok sound.forest object free apart run
    exact (appended.edited.dirty x).mpr (.inl marked)
  | remove parent object run =>
    have removed := Removed.of_ok sound.forest parent object run
    exact (removed.edited.dirty x).mpr (.inl marked)

theorem Moves.marks [Reader] (moves : doc.Moves doc') (sound : doc.Sound) (lt : x < doc.nodes.size)
    (marked : (doc.node x).dirty = true) : (doc'.node x).dirty = true := by
  induction moves with
  | refl => exact marked
  | tail before move ih =>
    have size := (Moves.toExtends before sound).size
    exact move.marks (Moves.sound before sound) (Nat.lt_of_lt_of_le lt size) ih

/-- Nodes that have the children that they had print as before, whatever marks they got meanwhile. -/
theorem Calm.render_restored (calm : Calm doc doc' zone loose) (sound : doc.Sound) (shaped : doc.Shaped)
    (forest : doc'.Forest) (same : ∀ y < doc.nodes.size, doc'.children y = doc.children y)
    (more : ∀ y < doc.nodes.size, (doc.node y).dirty = true → (doc'.node y).dirty = true) (lt : x < doc.nodes.size)
    (base : List Char) (context : BufferId) : doc'.render x base context = doc.render x base context := by
  refine sound.forest.induction (P := fun x => x < doc.nodes.size → ∀ base context,
    doc'.render x base context = doc.render x base context) (fun x below lt base context => ?_) x lt base context
  rw [forest.render_eq, sound.forest.render_eq]
  refine sound.printWith_marked shaped (calm.alike_of_children sound lt (same x lt)) (fun c child => ?_) (more x lt) base
    context
  exact below c child (sound.forest.childLt child)

/-! ## Containers with a pair of a new name -/

/-- A pair with a name stands behind the entries that an object literal had. -/
structure Hosts (first doc : Document) (name : List Char) (k p : NodeId) : Prop where
  late : first.Late doc p
  named : doc.entryName? p = some name
  place : ∃ before after, first.children k = before ++ after ∧ doc.children k = before ++ p :: after
  entries : doc.entries k = first.entries k ++ [p]

/-- Some of the object literals in a zone host a pair with a name, and all else is as it was. -/
structure Hosting (first doc : Document) (zone : NodeId → Prop) (name : List Char) (done : NodeId → Prop) : Prop where
  sound : doc.Sound
  calm : ∃ loose, Calm first doc zone loose ∧ ∀ y ∈ loose, first.nodes.size ≤ y
  back : ∀ z, zone z → ¬ done z → doc.children z = first.children z
  hosts : ∀ z, done z → zone z ∧ ∃ p, first.Hosts doc name z p

/-- The object literals of a zone have no entry with a name. -/
def Lacks (doc : Document) (zone : NodeId → Prop) (name : List Char) : Prop :=
  ∀ z, zone z → doc.role z = .object ∧ doc.entriesNamed z name = []

theorem Lacks.early (lacks : first.Lacks zone name) : ∀ z, zone z → z < first.nodes.size := fun z inside =>
  lt_of_role (lacks z inside).1 (by decide)

theorem Hosts.mem (hosts : first.Hosts doc name k p) : p ∈ doc.children k := by
  obtain ⟨before, after, _, now⟩ := hosts.place
  simp [now]

/-- A hosted pair is still there after changes elsewhere. -/
theorem Hosts.calm {zone : NodeId → Prop} (hosts : first.Hosts doc name k p) (calm : Calm doc doc' zone loose)
    (sound : doc.Sound) (forest : doc'.Forest) (early : ∀ z, zone z → z < first.nodes.size) (outside : ¬ zone k) :
    first.Hosts doc' name k p := by
  have present := sound.forest.childLt hosts.mem
  have same := calm.children k (lt_of_mem_children hosts.mem) outside
  have rel := And.intro (Eq.refl p) (And.intro present (hosts.late.apart early))
  refine ⟨hosts.late.calm calm sound.forest present early, ?_, same ▸ hosts.place, ?_⟩
  · rw [(calm.likeness sound forest).entryName? rel]
    exact hosts.named
  · rw [entries_congr calm.ext sound.forest same]
    exact hosts.entries

namespace Hosting
variable (run : first.Hosting doc zone name done)
include run

theorem ext : Extends first doc := by
  obtain ⟨_, calm, _⟩ := run.calm
  exact calm.ext

theorem congr {done' : NodeId → Prop} (same : ∀ z, done z ↔ done' z) : first.Hosting doc zone name done' := by
  obtain rfl : done = done' := funext fun z => propext (same z)
  exact run

/-- Nodes that are added change nothing. -/
theorem quiet (calm : Calm doc doc' (fun _ => False) loose) (start : first.Sound) (sound : doc'.Sound)
    (lacks : first.Lacks zone name) (late : ∀ y ∈ loose, first.nodes.size ≤ y) :
    first.Hosting doc' zone name done := by
  obtain ⟨before, was, beyond⟩ := run.calm
  have both := was.trans calm start.forest fun y member lt => absurd (late y member) (Nat.not_le_of_gt lt)
  refine ⟨sound, ⟨before ++ loose, ?_, fun y member => ?_⟩, fun z inside other => ?_, fun z there => ?_⟩
  · exact both.mono start.forest (fun z _ inside => inside.resolve_right id) (fun _ member _ => member) both.free
  · exact (List.mem_append.mp member).elim (beyond y) (late y)
  · rw [calm.children z (Nat.lt_of_lt_of_le (lacks.early z inside) run.ext.size) id]
    exact run.back z inside other
  · obtain ⟨inside, p, hosts⟩ := run.hosts z there
    exact ⟨inside, p, hosts.calm calm run.sound sound.forest (fun _ impossible => impossible.elim) id⟩

/-- An edit of one literal of the zone, after which it has or has not got a pair. -/
theorem edit {done' : NodeId → Prop} (calm : Calm doc doc' (fun z => z = k) loose) (start : first.Sound)
    (sound : doc'.Sound) (lacks : first.Lacks zone name) (inside : zone k) (late : ∀ y ∈ loose, first.nodes.size ≤ y)
    (others : ∀ z, z ≠ k → (done' z ↔ done z)) (here : done' k → ∃ p, first.Hosts doc' name k p)
    (gone : ¬ done' k → doc'.children k = first.children k) : first.Hosting doc' zone name done' := by
  obtain ⟨before, was, beyond⟩ := run.calm
  have early : ∀ z, z = k → z < first.nodes.size := fun z same => same ▸ lacks.early k inside
  have both := was.trans calm start.forest fun y member lt => absurd (late y member) (Nat.not_le_of_gt lt)
  refine ⟨sound, ⟨before ++ loose, ?_, fun y member => ?_⟩, fun z within other => ?_, fun z there => ?_⟩
  · refine both.mono start.forest (fun z _ within => ?_) (fun _ member _ => member) both.free
    rcases within with within | rfl
    · exact within
    · exact inside
  · exact (List.mem_append.mp member).elim (beyond y) (late y)
  · by_cases same : z = k
    · subst same
      exact gone other
    · rw [calm.children z (Nat.lt_of_lt_of_le (lacks.early z within) run.ext.size) same]
      exact run.back z within (mt (others z same).mpr other)
  · by_cases same : z = k
    · subst same
      exact ⟨inside, here there⟩
    · obtain ⟨within, p, hosts⟩ := run.hosts z ((others z same).mp there)
      exact ⟨within, p, hosts.calm calm run.sound sound.forest early same⟩

/-- A node that hosts nothing has the children that it had. -/
theorem children (lt : x < first.nodes.size) (other : ¬ done x) : doc.children x = first.children x := by
  by_cases inside : zone x
  · exact run.back x inside other
  · obtain ⟨_, calm, _⟩ := run.calm
    exact calm.children x lt inside

/-- The entries of a node are those that it had, and behind them a pair with the name if it hosts one. -/
theorem entries (start : first.Sound) (lt : x < first.nodes.size) :
    ∃ news, doc.entries x = first.entries x ++ news ∧ (∀ p ∈ news, doc.entryName? p = some name) ∧
      (news ≠ [] → zone x) := by
  by_cases there : done x
  · obtain ⟨inside, p, hosts⟩ := run.hosts x there
    exact ⟨[p], hosts.entries, by simpa using hosts.named, fun _ => inside⟩
  · refine ⟨[], ?_, by simp, by simp⟩
    rw [List.append_nil]
    exact entries_congr run.ext start.forest (run.children lt there)

section
variable (start : first.Sound) (plain : first.Plain) (lacks : first.Lacks zone name)
include start plain lacks

/-- The entries that were there have the keys that they had. -/
theorem entryKey? (member : x ∈ first.entries k) : doc.entryKey? x = first.entryKey? x := by
  obtain ⟨child, entry⟩ := mem_entries member
  obtain ⟨_, calm, _⟩ := run.calm
  refine calm.entryKey? start run.sound.forest plain (fun z inside => .inl (lacks z inside).1) (start.forest.childLt child)
    fun inside => ?_
  rw [(lacks x inside).1] at entry
  cases entry

/-- The container of a model is found as before: a literal that hosts a pair had no entry with its name. -/
theorem containerObject? (found : m.containerObject? first c = .ok (some k)) :
    m.containerObject? doc c = .ok (some k) := by
  obtain ⟨e, named, body, child, pair, inner, object⟩ := containerObject?_place found
  obtain ⟨_, calm, _⟩ := run.calm
  have outside : ¬ zone e := fun inside => by
    rw [(lacks e inside).1] at pair
    cases pair
  have present := start.forest.childLt child
  have identifier : ∀ y ∈ first.entries m.object, doc.entryIdentifier? y = first.entryIdentifier? y := fun y member => by
    rw [Document.entryIdentifier?, run.entryKey? start plain lacks member, Document.entryIdentifier?]
  have named' : doc.entryNamed? m.object c.key.toList = some e := by
    obtain ⟨news, split, names, within⟩ := run.entries start (lt_of_mem_children child)
    have none : (news.filter fun y => doc.entryIdentifier? y == some c.key.toList) = [] := by
      rw [List.filter_eq_nil_iff]
      intro p member told
      have told := entryName?_of_identifier (beq_iff_eq.mp told)
      rw [names p member, Option.some.injEq] at told
      -- The model has an entry with the key of the container, and one of a host cannot be called so.
      have inside := within (List.ne_nil_of_mem member)
      have listed : e ∈ first.entriesNamed m.object name := by
        refine List.mem_filter.mpr ⟨List.mem_of_mem_filter (List.mem_of_getLast? named), ?_⟩
        rw [told, entryName?_of_identifier (entryNamed?_some named).2]
        exact beq_self_eq_true _
      rw [(lacks _ inside).2] at listed
      cases listed
    rw [Document.entryNamed?, split, List.filter_append, none, List.append_nil, ← named, Document.entryNamed?]
    exact congrArg List.getLast? (List.filter_congr fun y member => by rw [identifier y member])
  have body' : doc.entryBody e = k := (calm.entryBody start present outside).trans body
  have role : doc.role k = .object := (calm.ext.role (start.forest.childLt inner)).trans object
  simp only [Model.containerObject?, named', body', role, if_true]

/-- The only entry with the name in a literal that hosts a pair is this pair. -/
theorem entriesNamed (inside : zone k) (hosts : first.Hosts doc name k p) : doc.entriesNamed k name = [p] := by
  have old : (first.entries k).filter (fun e => doc.entryName? e == some name) = first.entriesNamed k name := by
    refine List.filter_congr fun y member => ?_
    rw [Document.entryName?, run.entryKey? start plain lacks member, Document.entryName?]
  rw [Document.entriesNamed, hosts.entries, List.filter_append, old, (lacks k inside).2]
  simp [hosts.named]

variable [Reader]

/-- Adding an entry to a container that hosts none succeeds, and it hosts one then. -/
theorem add (found : m.containerObject? first c = .ok (some k)) (inside : zone k) (new : ¬ done k)
    (carries : first.Carries doc (Bringing source) snippet) :
    ∃ snippet' doc', Edit.outcome (m.addEntry c name snippet) doc = (.ok snippet', doc') ∧
      first.Carries doc' (Bringing source) snippet' ∧ first.Hosting doc' zone name fun z => z = k ∨ done z := by
  have early := lacks.early
  have lt := early k inside
  have object := (lacks k inside).1
  obtain ⟨value, snippet₁, doc₁, next, sound₁, quiet, used, carries₁, brings, late, free⟩ := carries.next (lasting_bringing source) run.sound run.ext
  have run₁ := run.quiet quiet start sound₁ lacks (by simp)
  have ready : doc₁.Ready [k] [k] := .self sound₁ (by simpa using (run₁.ext.role lt).trans object)
  have loose : doc₁.Loose [k] value := ⟨free, by simpa using fun below => Nat.not_le_of_gt lt (late _ below)⟩
  obtain ⟨paired, written, works, made, steady, fresh, _⟩ := writePair_run ready loose name (m.quote doc)
  have soundPaired := works.moves.sound sound₁
  have hung := made.calm steady free
  have newer : first.nodes.size ≤ value := late _ (.refl doc₁ value)
  have run₂ := run₁.quiet hung start soundPaired lacks (by simpa using newer)
  have latePair := late.written run₁.ext sound₁ made steady free
  have role : paired.role k = .object := (run₂.ext.role lt).trans object
  obtain ⟨doc', fits, appended⟩ := append_ok soundPaired.forest role fresh.free (fresh.apart k (by simp))
  have calm := appended.calm fresh.free
  have sound' := appended.sound soundPaired role fresh.free
  have early' : ∀ z, z = k → z < first.nodes.size := fun z same => same ▸ lt
  have here : first.Hosts doc' name k (doc₁.nodes.size + 1) := by
    have back := run₂.back k inside new
    have rel := And.intro (Eq.refl (doc₁.nodes.size + 1)) (And.intro fresh.free.lt (latePair.apart early'))
    refine ⟨latePair.calm calm soundPaired.forest fresh.free.lt early', ?_, ?_, ?_⟩
    · rw [(calm.likeness soundPaired sound'.forest).entryName? rel]
      exact made.entryName? soundPaired.forest (Model.isQuote_quote doc m)
    · obtain ⟨before, after, was, now, _⟩ := appended.place
      exact ⟨before, after, back ▸ was, now⟩
    · rw [appended.entries soundPaired.forest fresh.free made.role_pair, entries_congr run₂.ext start.forest back]
  refine ⟨snippet₁, doc', ?_, ?_, ?_⟩
  · have container := run.containerObject? start plain lacks found
    simp only [Model.addEntry, Model.ensureContainer, Edit.outcome_bind, Edit.outcome_look, Edit.outcome_get,
      Edit.outcome_lift, container, Edit.outcome_pure, next, written, Edit.outcome_change, fits]
  · exact (carries₁.calm (lasting_bringing source) hung sound₁ (fun _ impossible => impossible.elim) used).calm (lasting_bringing source) calm
      soundPaired early' used
  · refine run₂.edit calm start sound' lacks inside ?_ (fun z other => ?_) (fun _ => ⟨_, here⟩) fun other => ?_
    · simpa using latePair _ (.refl paired _)
    · simp [other]
    · exact absurd (.inl rfl) other

omit [Reader] in
/-- Taking the entries with the name out of a container that hosts one succeeds, and it has the entries that it had. -/
theorem remove (found : m.containerObject? first c = .ok (some k)) (there : done k) :
    ∃ doc', Edit.outcome (m.removeEntry c name) doc = (.ok (), doc') ∧
      first.Hosting doc' zone name fun z => z ≠ k ∧ done z := by
  obtain ⟨inside, p, hosts⟩ := run.hosts k there
  have role : doc.role k = .object := (run.ext.role (lacks.early k inside)).trans (lacks k inside).1
  have named := run.entriesNamed start plain lacks inside hosts
  obtain ⟨doc', fits, removed⟩ := remove_ok run.sound.forest (run.sound.forest.childParent hosts.mem) role
  have sound' := removed.sound run.sound role
  refine ⟨doc', ?_, ?_⟩
  · have entries : m.namedEntries doc c name = .ok [p] := by
      simp only [Model.namedEntries, run.containerObject? start plain lacks found, bind, Except.bind, named]
      rfl
    simp only [Model.removeEntry, Edit.outcome_bind, Edit.outcome_get, Edit.outcome_lift, entries, Model.removeAll,
      Edit.outcome_change, fits, Edit.outcome_pure]
  · refine run.edit removed.calm start sound' lacks inside (by simp) (fun z other => by simp [other]) (fun again => ?_)
      fun _ => ?_
    · exact absurd rfl again.1
    · obtain ⟨before, after, was, now⟩ := hosts.place
      have distinct := run.sound.forest.distinct k
      rw [now] at distinct
      have fresh : p ∉ before ∧ p ∉ after := by
        simp only [List.nodup_append, List.nodup_cons] at distinct
        grind
      have others : ∀ ys : List NodeId, p ∉ ys → ys.filter (· != p) = ys := fun ys absent =>
        List.filter_eq_self.mpr fun y member => by simpa using ne_of_mem_of_not_mem member absent
      rw [removed.place, now, was, List.filter_append, List.filter_cons_of_neg (by simp), others before fresh.1,
        others after fresh.2]

end

end Hosting

/-! ## Adding and taking out -/

/-- The containers of models at different object literals are different. -/
theorem containerObject?_inj {m' : Model} (forest : doc.Forest) (found : m.containerObject? doc c = .ok (some k))
    (found' : m'.containerObject? doc c = .ok (some k)) : m.object = m'.object := by
  obtain ⟨e, _, _, child, _, inner, _⟩ := containerObject?_place found
  obtain ⟨e', _, _, child', _, inner', _⟩ := containerObject?_place found'
  obtain rfl := forest.parent_unique inner inner'
  exact forest.parent_unique child child'

/-- The container of a model of some set. -/
def IsContainer (doc : Document) (models : List Model) (c : Container) (k : NodeId) : Prop :=
  ∃ m ∈ models, m.containerObject? doc c = .ok (some k)

theorem isContainer_cons {rest : List Model} (found : m.containerObject? doc c = .ok (some k)) :
    doc.IsContainer (m :: rest) c x ↔ x = k ∨ doc.IsContainer rest c x := by
  have here : m.containerObject? doc c = .ok (some x) ↔ x = k := by
    rw [found, Except.ok.injEq, Option.some.injEq, eq_comm]
  simp only [IsContainer, List.mem_cons, or_and_right, exists_or, exists_eq_left, here]

/-- The containers without an entry with a name are a zone that lacks it. -/
theorem lacks_of_containers
    (lacking : ∀ m ∈ models, ∃ k, m.containerObject? doc c = .ok (some k) ∧ doc.entriesNamed k name = []) :
    doc.Lacks (doc.IsContainer models c) name := by
  rintro z ⟨m, member, found⟩
  obtain ⟨k, found', none⟩ := lacking m member
  obtain rfl : k = z := by simpa using found'.symm.trans found
  exact ⟨(Model.containerObject?_some found).2, none⟩

namespace Hosting

/-- At first nothing is hosted. -/
theorem start (sound : doc.Sound) : doc.Hosting doc zone name fun _ => False :=
  ⟨sound, ⟨[], ⟨Extends.refl doc, fun _ _ _ => rfl, fun _ _ _ => rfl, fun _ _ _ => rfl, fun _ _ _ => rfl, by simp⟩,
    by simp⟩, fun _ _ _ => rfl, fun _ impossible => impossible.elim⟩

variable [Reader] {rest : List Model} (start : first.Sound) (plain : first.Plain)
  (lacks : first.Lacks (first.IsContainer models c) name)
  (contain : ∀ m ∈ models, ∃ k, m.containerObject? first c = .ok (some k))
include start plain lacks contain

/-- Adding an entry to containers that host none succeeds, and then each hosts one. -/
theorem addAll (run : first.Hosting doc (first.IsContainer models c) name done) (sub : rest ⊆ models)
    (distinct : (rest.map Model.object).Nodup) (new : ∀ k, first.IsContainer rest c k → ¬ done k)
    (carries : first.Carries doc (Bringing source) snippet) :
    ∃ doc', Edit.outcome (ModelSet.forAll (fun m => m.addEntry c name) snippet rest) doc = (.ok (), doc') ∧
      first.Hosting doc' (first.IsContainer models c) name fun z => first.IsContainer rest c z ∨ done z := by
  induction rest generalizing doc done snippet with
  | nil => exact ⟨doc, rfl, run.congr fun z => by simp [IsContainer]⟩
  | cons m rest ih =>
    rw [List.map_cons, List.nodup_cons] at distinct
    obtain ⟨member, sub⟩ := List.cons_subset.mp sub
    obtain ⟨k, found⟩ := contain m member
    obtain ⟨snippet₁, doc₁, added, carries₁, run₁⟩ := run.add start plain lacks found ⟨m, member, found⟩
      (new k ⟨m, List.mem_cons_self, found⟩) carries
    have new' : ∀ z, first.IsContainer rest c z → ¬ (z = k ∨ done z) := by
      rintro z ⟨n, later, found'⟩ (rfl | before)
      · exact distinct.1 (containerObject?_inj start.forest found' found ▸ List.mem_map_of_mem later)
      · exact new z ⟨n, List.mem_cons_of_mem _ later, found'⟩ before
    obtain ⟨doc', all, run'⟩ := ih run₁ sub distinct.2 new' carries₁
    refine ⟨doc', ?_, run'.congr fun z => ?_⟩
    · rw [ModelSet.forAll, Edit.outcome_bind, added]
      exact all
    · rw [isContainer_cons found]
      tauto

omit [Reader] in
/-- Taking the entries with the name out of containers that host one succeeds, and then none of them hosts one. -/
theorem removeAll (run : first.Hosting doc (first.IsContainer models c) name done) (sub : rest ⊆ models)
    (distinct : (rest.map Model.object).Nodup) (there : ∀ k, first.IsContainer rest c k → done k) :
    ∃ doc', Edit.outcome (ModelSet.forEach (fun m => m.removeEntry c name) rest) doc = (.ok (), doc') ∧
      first.Hosting doc' (first.IsContainer models c) name fun z => ¬ first.IsContainer rest c z ∧ done z := by
  induction rest generalizing doc done with
  | nil => exact ⟨doc, rfl, run.congr fun z => by simp [IsContainer]⟩
  | cons m rest ih =>
    rw [List.map_cons, List.nodup_cons] at distinct
    obtain ⟨member, sub⟩ := List.cons_subset.mp sub
    obtain ⟨k, found⟩ := contain m member
    obtain ⟨doc₁, removed, run₁⟩ := run.remove start plain lacks found (there k ⟨m, List.mem_cons_self, found⟩)
    have there' : ∀ z, first.IsContainer rest c z → z ≠ k ∧ done z := by
      rintro z ⟨n, later, found'⟩
      refine ⟨?_, there z ⟨n, List.mem_cons_of_mem _ later, found'⟩⟩
      rintro rfl
      exact distinct.1 (containerObject?_inj start.forest found' found ▸ List.mem_map_of_mem later)
    obtain ⟨doc', all, run'⟩ := ih run₁ sub distinct.2 there'
    refine ⟨doc', ?_, run'.congr fun z => ?_⟩
    · rw [ModelSet.forEach, Edit.outcome_bind, removed]
      exact all
    · rw [isContainer_cons found]
      tauto

end Hosting

/-- Adding an entry under a name that the containers of some models do not have, and then taking the entries with this
    name out of them, succeeds and leaves the text as it was. -/
theorem add_remove_restores [Reader] {original : Document} {dialect : Dialect} {text name : List Char}
    (file : Document.parse dialect text = .ok original) (reached : Reached original doc) (readable : doc.Readable)
    (tokens : ∀ text ∈ doc.buffers, Reader.Plain doc.dialect text) (objects : ∀ m ∈ models, doc.role m.object = .object)
    (distinct : (models.map Model.object).Nodup)
    (lacking : ∀ m ∈ models, ∃ k, m.containerObject? doc c = .ok (some k) ∧ doc.entriesNamed k name = [])
    {source : Option (List Char)} {grown : Document} {tree : NodeId}
    (read : doc.parseExpression (source.getD c.defaultSource.toList) = .ok (grown, tree)) :
    ∃ added removed, (ModelSet.mk doc models).apply (.addEntry c name source) = (added, .ok ()) ∧
      added.apply (.removeEntry c name) = (removed, .ok ()) ∧ removed.models = models ∧
      removed.doc.print = doc.print := by
  have sound := reached.sound file
  have plainly := reached.plain file tokens
  obtain ⟨texts, present⟩ := reached.present file
  have contain : ∀ m ∈ models, ∃ k, m.containerObject? doc c = .ok (some k) := fun m member => by
    obtain ⟨k, found, _⟩ := lacking m member
    exact ⟨k, found⟩
  have lacks := lacks_of_containers lacking
  have quiet := parseExpression_calm read sound
  have soundGrown := Move.sound (.adopt _ read) sound
  have carries : doc.Carries grown (Bringing (grown.text tree)) ⟨tree, false⟩ :=
    Carries.parsed sound read (Brings.read sound texts read)
  have ready := (Hosting.start sound).quiet quiet sound soundGrown lacks (by simp)
  obtain ⟨doc₁, added, run₁⟩ := ready.addAll sound plainly lacks contain (List.Subset.refl models) distinct
    (fun _ _ impossible => impossible) carries
  obtain ⟨doc₂, removed, run₂⟩ := run₁.removeAll sound plainly lacks contain (List.Subset.refl models) distinct
    fun _ there => .inl there
  have adds : (ModelSet.mk doc models).apply (.addEntry c name source) = (⟨doc₁, models⟩, .ok ()) := by
    refine ModelSet.apply_of_outcome (by simp) ?_
    show Edit.outcome (do ModelSet.forAll _ (← Snippet.parse _) models) doc = _
    rw [Edit.outcome_bind, ModelSet.parse_outcome, read]
    exact added
  have removes : (ModelSet.mk doc₁ models).apply (.removeEntry c name) = (⟨doc₂, models⟩, .ok ()) :=
    ModelSet.apply_of_outcome (by simp) removed
  refine ⟨⟨doc₁, models⟩, ⟨doc₂, models⟩, adds, removes, rfl, ?_⟩
  have sound₁ := run₁.sound
  have objects₁ : ∀ m ∈ models, doc₁.role m.object = .object := fun m member =>
    (run₁.ext.role (lt_of_role (objects m member) (by decide))).trans (objects m member)
  have first := ModelSet.apply_moves sound objects (.addEntry c name source)
  have second := ModelSet.apply_moves sound₁ objects₁ (.removeEntry c name)
  rw [adds] at first
  rw [removes] at second
  have moves : doc.Moves doc₂ := first.trans second
  have same : ∀ y < doc.nodes.size, doc₂.children y = doc.children y := fun y lt => run₂.children lt (by simp)
  obtain ⟨_, calm, _⟩ := run₂.calm
  refine print_congr calm.ext.root (calm.ext.origin _ present) (calm.ext.buffer texts) ?_
  exact calm.render_restored sound (reached.shaped file readable) run₂.sound.forest same
    (fun y lt marked => moves.marks sound lt marked) present [] 0

/-- In the sample, edited once, an entry that is added to the container and taken out again leaves no trace. -/
theorem add_remove_restores_sample :
    ∃ added removed, @ModelSet.apply sampleReader ⟨sampleEdited (.setEntry .reducers ['b'] ['2']), [⟨5, ['a']⟩]⟩
        (.addEntry .reducers ['e'] (some ['2'])) = (added, .ok ()) ∧
      @ModelSet.apply sampleReader added (.removeEntry .reducers ['e']) = (removed, .ok ()) ∧
      removed.doc.print = (sampleEdited (.setEntry .reducers ['b'] ['2'])).print := by
  obtain ⟨edited, is⟩ : ∃ doc, doc = sampleEdited (.setEntry .reducers ['b'] ['2']) := ⟨_, rfl⟩
  have reached : @Reached sampleReader sampleFile edited := is ▸ sampleEdited_reached (.setEntry .reducers ['b'] ['2'])
  have object : edited.role 5 = .object := by
    rw [is]
    decide +kernel
  have contained : Model.containerObject? edited ⟨5, ['a']⟩ .reducers = .ok (some 18) := by
    rw [is]
    decide +kernel
  have none : edited.entriesNamed 18 ['e'] = [] := by
    rw [is]
    decide +kernel
  have reads : (@parseExpression sampleReader edited ['2']).isOk = true := by
    rw [is]
    decide +kernel
  rw [← is]
  cases read : @parseExpression sampleReader edited ['2'] with
  | error failure =>
    rw [read] at reads
    cases reads
  | ok result =>
    have lawful := fun text => Syntax.sampleReader_regular edited.dialect text
    obtain ⟨added, removed, adds, removes, _, same⟩ := @add_remove_restores edited [⟨5, ['a']⟩] .reducers sampleReader _ _ _
      ['e'] sampleFile_parsed reached (fun text _ => (lawful text).1)
      (fun text _ => (lawful text).2) (by simpa using object) (by decide)
      (by simpa using ⟨18, contained, none⟩) (some ['2']) _ _ read
    exact ⟨added, removed, adds, removes, same⟩

end Document

end StoreModels
