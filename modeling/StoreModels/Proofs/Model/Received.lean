import StoreModels.Proofs.Model.Enlarged
import StoreModels.Proofs.Model.Located
import StoreModels.Proofs.Model.Undone
import StoreModels.Proofs.Record.Matched

/-!
Entries that an edit puts in place. The first model gets the tree of the snippet and all others get copies of it, while the
models may be inside one another. Each of these trees still prints as the snippet in the end, as long as no edit looks for
its container in a tree that an earlier one has put in place.
-/
namespace StoreModels
open Syntax (Dialect Reader)

/-- Of the quotes only the key that is written in them matters. -/
theorem Model.setValues_congr {name : List Char} {quote quote' : Char}
    (spelled : Literal.keyText name quote = Literal.keyText name quote') (snippet : Snippet) (entries : List NodeId) :
    Model.setValues name quote snippet entries = Model.setValues name quote' snippet entries := by
  have one : ∀ e value, Model.setValue e name quote value = Model.setValue e name quote' value := fun e value => by
    simp only [Model.setValue, Model.writePair, spelled]
  induction entries generalizing snippet with
  | nil => rfl
  | cons e rest ih => simp only [Model.setValues, one, ih]

namespace Document
variable {doc doc' first : Document} {dialect : Dialect} {name : List Char} {load : Document → NodeId → Prop}
  {k p x e value : NodeId} {m m' : Model} {c : Container} {models rest : List Model} {snippet snippet' : Snippet}
  {done : Target → Prop}

/-- No container of the models is one of the models itself, where entries of its own key are meant. -/
def Unlinked (doc : Document) (models : List Model) (c : Container) (name : List Char) : Prop :=
  name = c.key.toList → ∀ m ∈ models, ∀ k, m.containerObject? doc c = .ok (some k) → ∀ m' ∈ models, m'.object ≠ k

/-! ## Added entries -/

/-- A model has got an entry since some document: a pair above a late tree, behind the entries with its name. -/
def Got (first base doc : Document) (c : Container) (name : List Char) (load : Document → NodeId → Prop) (m : Model) :
    Prop :=
  ∃ k p quote value, m.containerObject? doc c = .ok (some k) ∧
    (m.containerObject? base c = .ok (some k) ∨ m.containerObject? base c = .ok none ∧ base.nodes.size ≤ k) ∧
    doc.entriesNamed k name = base.entriesNamed k name ++ [p] ∧ first.Late doc p ∧ doc.Heads name quote p value ∧
    load doc value

theorem entriesNamed_beyond (le : doc.nodes.size ≤ k) : doc.entriesNamed k name = [] := by
  rw [entriesNamed, entries, children_beyond le]
  rfl

/-- A snippet that was handed out is carried on through changes in the file. -/
theorem Carries.passes (carries : first.Carries doc load snippet) (lasting : Lasting load) {zone : NodeId → Prop}
    {loose : List NodeId} (calm : Calm doc doc' zone loose) (sound : doc.Sound) (early : ∀ z, zone z → z < first.nodes.size)
    (used : snippet'.used = true) (tree : snippet'.tree = snippet.tree) : first.Carries doc' load snippet' := by
  obtain ⟨_, _⟩ := snippet'
  obtain rfl := tree
  refine ⟨Nat.lt_of_lt_of_le carries.present calm.ext.size,
    lasting.calm carries.known calm sound (carries.late.apart early) carries.present,
    carries.late.calm calm sound.forest carries.present early, fun unused => ?_⟩
  rw [used] at unused
  cases unused

section
variable [Reader] (lasting : Lasting load) (carries : first.Carries doc load snippet) (sound : doc.Sound)
  (plain : doc.Plain) (ext : Extends first doc) (object : doc.role m.object = .object)
  (early : m.object < first.nodes.size)
include lasting carries sound plain ext object early

/-- An entry is added to a container that is there. -/
theorem addEntry_there (is : m.containerObject? doc c = .ok (some k)) (old : k < first.nodes.size)
    (given : Edit.outcome (m.addEntry c name snippet) doc = (.ok snippet', doc')) :
    ∃ q, Enlarged doc doc' k q name ∧ first.Carries doc' load snippet' ∧ doc.Moves doc' ∧
      first.Got doc doc' c name load m := by
  have isQuote := Model.isQuote_quote doc m
  obtain ⟨below, role⟩ := Model.containerObject?_some is
  obtain ⟨snippet₁, doc₁, p, run, moves, sown, used, tree⟩ :=
    appendPair_sown lasting carries sound ext role early below name (m.quote doc)
  have ensured : Edit.outcome (m.ensureContainer c (m.quote doc)) doc = (.ok k, doc) := by
    simp only [Model.ensureContainer, Edit.outcome_bind, Edit.outcome_get, Edit.outcome_lift, is, Edit.outcome_pure]
  simp only [Model.addEntry_eq, Edit.outcome_bind, Edit.outcome_look, ensured, run] at given
  cases given
  obtain ⟨value, heads, known⟩ := sown.heads
  obtain ⟨loose, calm, _⟩ := sown.calm
  have enlarged : Enlarged doc doc' k p name :=
    ⟨sound, plain, (moves.sound sound).forest, role, ⟨_, calm⟩, sown.entries,
      heads.entryName? (moves.sound sound).forest isQuote⟩
  have other : m.object ≠ k := by
    obtain ⟨e, holds⟩ := Holds.of_container is
    rintro same
    exact holds.not_below_model sound.forest (same ▸ Below.refl doc _)
  refine ⟨p, enlarged, carries.passes lasting calm sound (fun z same => same ▸ old) used tree, moves, k, p, _, value, ?_,
    .inl is, enlarged.entriesNamed_new, sown.late, heads, known⟩
  rw [enlarged.containerObject? object fun same => absurd same other, is]

/-- An entry is added to a container that is made for it. -/
theorem addEntry_made (is : m.containerObject? doc c = .ok none)
    (given : Edit.outcome (m.addEntry c name snippet) doc = (.ok snippet', doc')) :
    ∃ q, Enlarged doc doc' m.object q c.key.toList ∧ first.Carries doc' load snippet' ∧ doc.Moves doc' ∧
      first.Got doc doc' c name load m := by
  have isQuote := Model.isQuote_quote doc m
  have lt := lt_of_role object (by decide)
  obtain ⟨made, q, ensured, moves, calm, enlarged, found, empty, below⟩ :=
    ensureContainer_enlarged sound plain object is isQuote
  have soundMade := moves.sound sound
  have roleMade := (Model.containerObject?_some found).2
  have apart : ∀ z, z = m.object → z < first.nodes.size := fun z same => same ▸ early
  have free : snippet.used = false → made.Free snippet.tree := fun unused => by
    have pending : snippet.Pending doc [m.object] := ⟨carries.present, fun unused => ⟨carries.free unused, by
      simpa using fun below => Nat.not_le_of_gt early (carries.late _ below)⟩⟩
    have does := Model.ensureContainer_does (.self sound (by simpa using object)) (List.mem_singleton_self m.object) pending
      c (m.quote doc)
    have held := does.holds _ (by rw [ensured])
    rw [ensured] at held
    exact (held.2.2.loose unused).free
  have carriesMade : first.Carries made load snippet := ⟨Nat.lt_of_lt_of_le carries.present calm.ext.size,
    lasting.calm carries.known calm sound (carries.late.apart apart) carries.present,
    carries.late.calm calm sound.forest carries.present apart, free⟩
  obtain ⟨snippet₁, doc₁, p, run, moves', sown, used, tree⟩ := appendPair_sown lasting carriesMade soundMade
    (ext.trans calm.ext) roleMade early below name (m.quote doc)
  simp only [Model.addEntry_eq, Edit.outcome_bind, Edit.outcome_look, ensured, run] at given
  cases given
  obtain ⟨value, heads, known⟩ := sown.heads
  obtain ⟨loose, calm', origin⟩ := sown.calm
  have inner : Enlarged made doc' doc.nodes.size p name :=
    ⟨soundMade, moves.plain sound (.nothing ((Model.ensureContainer_silent _ _ _).of_outcome ensured)) plain, (moves'.sound soundMade).forest, roleMade, ⟨_, calm'⟩, sown.entries,
      heads.entryName? (moves'.sound soundMade).forest isQuote⟩
  have other : m.object ≠ doc.nodes.size := Nat.ne_of_lt lt
  have freed : ∀ y ∈ loose, y < doc.nodes.size → doc.Free y := fun y member lt => by
    rcases origin y member with ⟨rfl, unused⟩ | new
    · exact carries.free unused
    · exact absurd (Nat.lt_of_lt_of_le lt calm.ext.size) (Nat.not_lt_of_ge new)
  -- The new container is no node of the document, so that all that changes there is the model.
  have whole : Calm doc doc' (· = m.object) loose := (calm.trans calm' sound.forest freed).mono sound.forest
    (fun z lt inside => inside.resolve_right fun same => Nat.ne_of_lt lt same) (fun y member _ => by simpa using member)
    freed
  have outer : Enlarged doc doc' m.object q c.key.toList := by
    refine ⟨sound, plain, inner.forest, object, ⟨_, whole⟩, ?_, ?_⟩
    · rw [inner.entries_other (Nat.lt_of_lt_of_le lt calm.ext.size) other, enlarged.entries]
    · have listed : q ∈ made.entries m.object := by simp [enlarged.entries]
      rw [Document.entryName?, inner.entryKey? listed]
      exact enlarged.named
  refine ⟨q, outer, carries.passes lasting whole sound apart used tree, moves.trans moves', doc.nodes.size, p, _, value,
    ?_, .inr ⟨is, Nat.le_refl _⟩, ?_, sown.late, heads, known⟩
  · have objectMade : made.role m.object = .object := (calm.ext.role lt).trans object
    rw [inner.containerObject? objectMade fun same => absurd same other, found]
  · rw [inner.entriesNamed_new, entriesNamed_beyond (Nat.le_refl _), Document.entriesNamed, empty]
    rfl

/-- An entry that is added to a model is the only change but in new nodes: one object literal gets one more entry. -/
theorem addEntry_got
    (old : ∀ k, m.containerObject? doc c = .ok (some k) → k < first.nodes.size)
    (given : Edit.outcome (m.addEntry c name snippet) doc = (.ok snippet', doc')) :
    ∃ anchor q n, Enlarged doc doc' anchor q n ∧ anchor < first.nodes.size ∧
      (m.containerObject? doc c = .ok (some anchor) ∧ n = name ∨ anchor = m.object ∧ n = c.key.toList) ∧
      first.Carries doc' load snippet' ∧ doc.Moves doc' ∧ first.Got doc doc' c name load m := by
  cases is : m.containerObject? doc c with
  | error failure =>
    simp only [Model.addEntry, Model.ensureContainer, Edit.outcome_bind, Edit.outcome_look, Edit.outcome_get,
      Edit.outcome_lift, is] at given
    cases given
  | ok found =>
    cases found with
    | some k =>
      obtain ⟨q, enlarged, rest⟩ := addEntry_there lasting carries sound plain ext object early is (old k is) given
      exact ⟨k, q, name, enlarged, old k is, .inl ⟨rfl, rfl⟩, rest⟩
    | none =>
      obtain ⟨q, enlarged, rest⟩ := addEntry_made lasting carries sound plain ext object early is given
      exact ⟨m.object, q, c.key.toList, enlarged, early, .inr ⟨rfl, rfl⟩, rest⟩

end

/-- A model keeps what it has got while other object literals get more entries. -/
theorem Got.enlarged {base : Document} {anchor q : NodeId} {n : List Char} (got : first.Got base doc c name load m)
    (lasting : Lasting load) (enlarged : Enlarged doc doc' anchor q n) (early : anchor < first.nodes.size)
    (object : doc.role m.object = .object) (other : m.object = anchor → n ≠ c.key.toList)
    (apart : m.containerObject? doc c = .ok (some anchor) → n ≠ name) : first.Got base doc' c name load m := by
  obtain ⟨k, p, quote, value, found, since, named, late, heads, known⟩ := got
  obtain ⟨_, calm⟩ := enlarged.calm
  have spared : doc.Apart (· = anchor) p := late.apart fun z same => same ▸ early
  have inner := Below.child heads.value_child
  refine ⟨k, p, quote, value, ?_, since, ?_, ?_, ?_, ?_⟩
  · rw [enlarged.containerObject? object other, found]
  · rw [enlarged.entriesNamed (lt_of_role (Model.containerObject?_some found).2 (by decide)) fun same => apart (same ▸ found),
      named]
  · exact late.calm calm enlarged.sound.forest (lt_of_role heads.role (by decide)) fun z same => same ▸ early
  · exact heads.calm calm enlarged.sound.forest spared.outside fun c child _ => (spared.below (.child child)).outside
  · exact lasting.calm known calm enlarged.sound (spared.below inner) (enlarged.sound.forest.childLt heads.value_child)

/-- Some models have got an entry, and the others have the containers that they had. -/
structure Receiving (first doc : Document) (c : Container) (name : List Char) (load : Document → NodeId → Prop)
    (models rest : List Model) : Prop where
  sound : doc.Sound
  plain : doc.Plain
  ext : Extends first doc
  pending : ∀ m ∈ rest, m.containerObject? doc c = m.containerObject? first c ∧
    ∀ k, m.containerObject? doc c = .ok (some k) → doc.entriesNamed k name = first.entriesNamed k name
  got : ∀ m ∈ models, m ∉ rest → first.Got first doc c name load m

namespace Receiving
variable [Reader] (lasting : Lasting load) (objects : ∀ m ∈ models, first.role m.object = .object)
  (unlinked : first.Unlinked models c name)
include lasting objects unlinked

/-- The next model gets its entry, and all others are spared. -/
theorem step (run : first.Receiving doc c name load models (m :: rest)) (sub : m :: rest ⊆ models)
    (distinct : (models.map Model.object).Nodup) (fresh : m ∉ rest)
    (carries : first.Carries doc load snippet)
    (given : Edit.outcome (m.addEntry c name snippet) doc = (.ok snippet', doc')) :
    first.Carries doc' load snippet' ∧ first.Receiving doc' c name load models rest := by
  have object : ∀ m' ∈ models, doc.role m'.object = .object := fun m' member =>
    (run.ext.role (lt_of_role (objects m' member) (by decide))).trans (objects m' member)
  obtain ⟨member, sub⟩ := List.cons_subset.mp sub
  obtain ⟨here, named⟩ := run.pending m List.mem_cons_self
  have old : ∀ k, m.containerObject? doc c = .ok (some k) → k < first.nodes.size := fun k found =>
    lt_of_role (Model.containerObject?_some (here ▸ found)).2 (by decide)
  obtain ⟨anchor, q, n, enlarged, early, which, carries', moves, got⟩ := addEntry_got lasting carries run.sound run.plain
    run.ext (object m member) (lt_of_role (objects m member) (by decide)) old given
  have apart : ∀ m' ∈ models, m' ≠ m → m'.object ≠ m.object := fun m' member' other same =>
    other (List.inj_on_of_nodup_map distinct member' member same)
  -- No other model gets the entry, nor does the one that is made for a container come into another container.
  have other : ∀ m' ∈ models, m' ≠ m → m'.object = anchor → n ≠ c.key.toList := by
    rintro m' member' differs same
    rcases which with ⟨found, rfl⟩ | ⟨rfl, _⟩
    · exact fun key => unlinked key m member anchor (here ▸ found) m' member' same
    · exact absurd same (apart m' member' differs)
  have spared : ∀ m' ∈ models, m' ≠ m → m'.containerObject? doc c = .ok (some anchor) → n ≠ name := by
    intro m' member' differs found
    rcases which with ⟨found', rfl⟩ | ⟨rfl, rfl⟩
    · exact absurd (containerObject?_inj run.sound.forest found found') (apart m' member' differs)
    · have since : m'.containerObject? first c = .ok (some m.object) := by
        by_cases later : m' ∈ m :: rest
        · rw [← (run.pending m' later).1, found]
        · obtain ⟨k, _, _, _, there, was | ⟨_, new⟩, _⟩ := run.got m' member' later
          all_goals obtain rfl : k = m.object := by simpa using there.symm.trans found
          · exact was
          · exact absurd early (Nat.not_lt_of_ge new)
      exact fun key => unlinked key.symm m' member' m.object since m member rfl
  have silent := (Model.addEntry_silent m c name snippet).of_outcome given
  refine ⟨carries', moves.sound run.sound, moves.plain run.sound (.nothing silent) run.plain,
    run.ext.trans (moves.toExtends run.sound), fun m' later => ?_, fun m' member' done => ?_⟩
  · have differs : m' ≠ m := fun same => fresh (same ▸ later)
    obtain ⟨was, entries⟩ := run.pending m' (List.mem_cons_of_mem _ later)
    have now := enlarged.containerObject? (object m' (sub later)) (other m' (sub later) differs)
    refine ⟨now.trans was, fun k found => ?_⟩
    rw [now] at found
    have present := lt_of_role (Model.containerObject?_some found).2 (by decide)
    rw [enlarged.entriesNamed present fun same => spared m' (sub later) differs (same ▸ found), entries k found]
  · by_cases differs : m' = m
    · subst differs
      obtain ⟨k, p, quote, value, found, since, appended, rest⟩ := got
      refine ⟨k, p, quote, value, found, ?_, ?_, rest⟩
      · rw [← here]
        exact since.imp_right fun ⟨lacking, new⟩ => ⟨lacking, Nat.le_trans run.ext.size new⟩
      · rcases since with was | ⟨_, new⟩
        · rw [appended, named k was]
        · rw [appended, entriesNamed_beyond new, entriesNamed_beyond (Nat.le_trans run.ext.size new)]
    · exact (run.got m' member' (by simp [differs, done])).enlarged lasting enlarged early (object m' member')
        (other m' member' differs) (spared m' member' differs)

/-- Adding an entry to one model after the other gives each of them its own. -/
theorem all (run : first.Receiving doc c name load models rest) (sub : rest ⊆ models)
    (distinct : (models.map Model.object).Nodup) (fresh : rest.Nodup)
    (carries : first.Carries doc load snippet)
    (given : Edit.outcome (ModelSet.forAll (fun m => m.addEntry c name) snippet rest) doc = (.ok (), doc')) :
    first.Receiving doc' c name load models [] := by
  induction rest generalizing doc snippet with
  | nil =>
    cases given
    exact run
  | cons m rest ih =>
    obtain ⟨absent, fresh⟩ := List.nodup_cons.mp fresh
    rw [ModelSet.forAll, Edit.outcome_bind] at given
    split at given
    next snippet₁ doc₁ added =>
      obtain ⟨carries₁, run₁⟩ := run.step lasting objects unlinked sub distinct absent carries added
      exact ih run₁ (List.cons_subset.mp sub).2 fresh carries₁ given
    next => cases given

end Receiving

/-! ## Other values -/

namespace Filling
variable (run : first.Filling doc name load done) (start : first.Sound) (plain : first.Plain)
  (named : first.Named name done)
include run start plain named

/-- In an object literal without targets there are the entries with a name that there were. -/
theorem entriesNamed_spared (object : first.role k = .object) (new : ∀ t, done t → t.object ≠ k) (n : List Char) :
    doc.entriesNamed k n = first.entriesNamed k n := by
  refine List.forall₂_eq_eq_eq ▸ forall₂_imp_mem (run.entriesNamed start plain named object n) fun c _ f member rests => ?_
  rcases rests with ⟨same, _⟩ | ⟨t, before, spot, _⟩
  · exact same
  · obtain ⟨_, _, here⟩ := (run.lies t before).entry_spot start.forest object (mem_entriesNamed member).1 spot
    exact absurd here (new t before)

/-- Once all entries with the name have been filled, each of them has a late tree of the snippet as its value. -/
theorem value_of_named (object : first.role k = .object) (all : ∀ e ∈ first.entriesNamed k name, ∃ quote, done ⟨k, e, quote⟩)
    (member : e ∈ doc.entriesNamed k name) :
    ∃ value, doc.pairValue? e = some value ∧ first.Late doc value ∧ load doc value := by
  obtain ⟨f, listed, rests⟩ := forall₂_mem_left (run.entriesNamed start plain named object name) member
  have child := (mem_entriesNamed listed).1
  obtain ⟨quote, before⟩ := all f listed
  cases held : first.pairValue? f with
  | none =>
    have spot : (Target.mk k f quote).spot first = f := (Target.spot_entry held).1
    rcases rests with ⟨_, other⟩ | ⟨t, before', spot', filled⟩
    · exact absurd spot (other _ before)
    · obtain ⟨lacking, _, _⟩ := (run.lies t before').entry_spot start.forest object child spot'
      obtain ⟨value, heads, known⟩ := filled.heads lacking
      exact ⟨value, heads.pairValue?, fun y below => filled.late y ((Below.child heads.value_child).trans below), known⟩
  | some old =>
    have spot : (Target.mk k f quote).spot first = old := (Target.spot_pair held).1
    obtain ⟨pair, inner, _⟩ := pairValue?_some held
    rcases rests with ⟨rfl, _⟩ | ⟨t, before', spot', _⟩
    · have values := run.pairValue? start (start.forest.childLt child)
      rw [held] at values
      obtain ⟨value, now, ⟨_, other⟩ | ⟨t, before', spot', filled⟩⟩ := rel_some_right values
      · exact absurd spot (other _ before)
      · obtain ⟨here, held'⟩ := (run.lies t before').value_spot start.forest (by rw [pair]; decide) inner spot'
        exact ⟨value, now, filled.late, filled.known (here.symm ▸ held')⟩
    · obtain ⟨lacking, here, _⟩ := (run.lies t before').entry_spot start.forest object child spot'
      rw [here, held] at lacking
      cases lacking

variable [Reader]

/-- The next model gets another value for its entries, if its container is none that was filled. Which quotes are meant
    does not matter where the key is the same. -/
theorem setEntry {quote : Char} (spelled : Literal.keyText name quote = Literal.keyText name (m.quote doc)) (lasting : Lasting load) (object : first.role m.object = .object)
    (spared : ∀ t, done t → t.object = m.object → name ≠ c.key.toList)
    (new : ∀ k, m.containerObject? first c = .ok (some k) → ∀ t, done t → t.object ≠ k)
    (carries : first.Carries doc load snippet)
    (given : Edit.outcome (m.setEntry c name snippet) doc = (.ok snippet', doc')) :
    ∃ k, m.containerObject? first c = .ok (some k) ∧
      first.Carries doc' load snippet' ∧ first.Filling doc' name load fun u =>
        (u.object = k ∧ u.quote = quote ∧ u.entry ∈ first.entriesNamed k name) ∨ done u := by
  cases is : m.namedEntries doc c name with
  | error failure =>
    simp only [Model.setEntry, Edit.outcome_bind, Edit.outcome_get, Edit.outcome_lift, is] at given
    cases given
  | ok found =>
    obtain ⟨k, holds, rfl⟩ := Model.namedEntries_ok is
    rw [run.containerObject? start plain named object spared] at holds
    have role := (Model.containerObject?_some holds).2
    rw [run.entriesNamed_spared start plain named role (new k holds)] at is
    have others : ∀ e ∈ first.entriesNamed k name, ∀ u, done u → u.entry ≠ e := fun e member u before same =>
      new k holds u before (start.forest.parent_unique (run.lies u before).entry_child (same ▸ (mem_entriesNamed member).1))
    obtain ⟨snippet₁, doc₁, all, carries', run'⟩ : ∃ snippet₁ doc₁,
        Edit.outcome (Model.setValues name quote snippet (first.entriesNamed k name)) doc = (.ok snippet₁, doc₁) ∧ _ :=
      run.setValues lasting start role (fun e member => List.mem_of_mem_filter member)
        (entriesNamed_nodup start.forest k name) others carries
    simp only [Model.setEntry, Edit.outcome_bind, Edit.outcome_get, Edit.outcome_lift, Edit.outcome_look, is,
      ← Model.setValues_congr spelled] at given
    cases all.symm.trans given
    exact ⟨k, holds, carries', run'⟩

/-- One model after the other gets other values, if no container of one is another one with an entry to look for. -/
theorem setEntries (lasting : Lasting load) (objects : ∀ m ∈ models, first.role m.object = .object)
    (unlinked : first.Unlinked models c name) (sub : rest ⊆ models) (distinct : (rest.map Model.object).Nodup)
    (owned : ∀ t, done t → ∃ m ∈ models, m.containerObject? first c = .ok (some t.object) ∧
      ∀ m' ∈ rest, m'.object ≠ m.object)
    (carries : first.Carries doc load snippet)
    (given : Edit.outcome (ModelSet.forAll (fun m => m.setEntry c name) snippet rest) doc = (.ok (), doc')) :
    ∃ done', first.Filling doc' name load done' ∧ first.Named name done' ∧ (∀ t, done t → done' t) ∧
      (∀ t, done' t → ∃ m ∈ models, m.containerObject? first c = .ok (some t.object)) ∧
      ∀ m ∈ rest, ∃ k, m.containerObject? first c = .ok (some k) ∧
        ∀ e ∈ first.entriesNamed k name, ∃ quote, done' ⟨k, e, quote⟩ := by
  induction rest generalizing doc done snippet with
  | nil =>
    cases given
    refine ⟨done, run, named, fun _ before => before, fun t before => ?_, by simp⟩
    obtain ⟨m, member, found, _⟩ := owned t before
    exact ⟨m, member, found⟩
  | cons m rest ih =>
    rw [List.map_cons, List.nodup_cons] at distinct
    obtain ⟨member, sub⟩ := List.cons_subset.mp sub
    have spared : ∀ t, done t → t.object = m.object → name ≠ c.key.toList := fun t before same key => by
      obtain ⟨m', member', found, _⟩ := owned t before
      exact unlinked key m' member' t.object found m member same.symm
    have new : ∀ k, m.containerObject? first c = .ok (some k) → ∀ t, done t → t.object ≠ k := fun k found t before same => by
      obtain ⟨m', _, found', others⟩ := owned t before
      exact others m List.mem_cons_self (containerObject?_inj start.forest found (same ▸ found'))
    rw [ModelSet.forAll, Edit.outcome_bind] at given
    split at given
    next snippet₁ doc₁ set =>
      obtain ⟨k, found, carries₁, run₁⟩ :=
        run.setEntry start plain named rfl lasting (objects m member) spared new carries set
      have named₁ : first.Named name fun u =>
          (u.object = k ∧ u.quote = m.quote doc ∧ u.entry ∈ first.entriesNamed k name) ∨ done u := by
        rintro t (⟨rfl, is, entry⟩ | before)
        · exact ⟨(mem_entriesNamed entry).2, is ▸ Model.isQuote_quote doc m⟩
        · exact named t before
      have owned₁ : ∀ t, (t.object = k ∧ t.quote = m.quote doc ∧ t.entry ∈ first.entriesNamed k name) ∨ done t →
          ∃ m ∈ models, m.containerObject? first c = .ok (some t.object) ∧ ∀ m' ∈ rest, m'.object ≠ m.object := by
        rintro t (⟨rfl, _, _⟩ | before)
        · refine ⟨m, member, found, fun m' later same => distinct.1 ?_⟩
          exact same ▸ List.mem_map_of_mem later
        · obtain ⟨m', member', found', others⟩ := owned t before
          exact ⟨m', member', found', fun m'' later => others m'' (List.mem_cons_of_mem _ later)⟩
      obtain ⟨done', run', named', more, owned', all⟩ := ih run₁ named₁ sub distinct.2 owned₁ carries₁ given
      refine ⟨done', run', named', fun t before => more t (.inr before), owned', fun m' listed => ?_⟩
      rcases List.mem_cons.mp listed with rfl | later
      · exact ⟨k, found, fun e entry => ⟨_, more _ (.inl ⟨rfl, rfl, entry⟩)⟩⟩
      · exact all m' later
    next => cases given

end Filling

/-! ## What the snippet becomes -/

/-- The values that edits with a snippet put in place print as the snippet. Where the name is not the key of the container
    itself, or no container of the models is one of the models, each model of the set that was found just now has its
    container after the edit: an added entry stands behind those with its name and has a new value that prints as the
    snippet, and so has, after an update, each of the entries with the name. -/
theorem snippets_arrive [Reader] {original : Document} {source text : List Char} {filter : Option (List Char)}
    {grown : Document} {tree : NodeId} (file : Document.parse dialect source = .ok original)
    (reached : Reached original doc) (texts : ∀ text ∈ doc.buffers, Reader.Plain doc.dialect text)
    (tokens : Reader.Plain doc.dialect (Syntax.snippetText (Text.trim text))) (found : doc.models filter = .ok models)
    (unlinked : doc.Unlinked models c name) (read : doc.parseExpression text = .ok (grown, tree)) :
    (∀ source set, source.getD c.defaultSource.toList = text →
      (ModelSet.mk doc models).apply (.addEntry c name source) = (set, .ok ()) →
      ∀ m ∈ models, ∃ k e value, m.containerObject? set.doc c = .ok (some k) ∧
        (m.containerObject? doc c = .ok (some k) ∨ m.containerObject? doc c = .ok none) ∧
        set.doc.entriesNamed k name = doc.entriesNamed k name ++ [e] ∧ set.doc.pairValue? e = some value ∧
        doc.nodes.size ≤ value ∧ set.doc.printNode value = grown.printNode tree) ∧
    ∀ set, (ModelSet.mk doc models).apply (.setEntry c name text) = (set, .ok ()) →
      ∀ m ∈ models, ∃ k, m.containerObject? doc c = .ok (some k) ∧ m.containerObject? set.doc c = .ok (some k) ∧
        (set.doc.entriesNamed k name).length = (doc.entriesNamed k name).length ∧
        ∀ e ∈ set.doc.entriesNamed k name, ∃ value, set.doc.pairValue? e = some value ∧ doc.nodes.size ≤ value ∧
          set.doc.printNode value = grown.printNode tree := by
  have sound := reached.sound file
  obtain ⟨stored, root⟩ := reached.present file
  have leaves := reached.plain file texts
  have objects := models_objects found
  have distinct := models_nodup sound.forest root found
  have quiet := parseExpression_calm read sound
  have soundGrown := Move.sound (.adopt text read) sound
  have carries : doc.Carries grown (Bringing (grown.text tree)) ⟨tree, false⟩ :=
    Carries.parsed sound read (Brings.read sound stored read)
  have lasting := lasting_bringing (grown.text tree)
  refine ⟨fun source set is given m member => ?_, fun set given m member => ?_⟩
  · have start : doc.Receiving grown c name (Bringing (grown.text tree)) models models := by
      refine ⟨soundGrown, ?_, quiet.ext, fun m member => ?_, fun m member absent => absurd member absent⟩
      · exact Moves.plain (.single (.adopt text read)) sound (.read read tokens) leaves
      · have same : m.containerObject? grown c = m.containerObject? doc c := quiet.containerObject? sound
          soundGrown.forest (lt_of_role (objects m member) (by decide)) (apart_nowhere doc m.object)
        refine ⟨same, fun k found => ?_⟩
        rw [same] at found
        exact quiet.entriesNamed sound soundGrown.forest
          (lt_of_role (Model.containerObject?_some found).2 (by decide)) (apart_nowhere doc k) name
    have added : Edit.outcome (ModelSet.forAll (fun m => m.addEntry c name) ⟨tree, false⟩ models) grown =
        (.ok (), set.doc) :=
      ModelSet.forAll_of_apply (by simp) rfl (is.symm ▸ read) given
    have run := start.all lasting objects unlinked (List.Subset.refl _) distinct (distinct.of_map _) carries added
    obtain ⟨k, e, _, value, found, since, named, late, heads, brings⟩ := run.got m member List.not_mem_nil
    exact ⟨k, e, value, found, since.imp_right And.left, named, heads.pairValue?, late value (.child heads.value_child),
      brings.printNode run.sound.forest⟩
  · have start := (Filling.start sound name (Bringing (grown.text tree))).quiet lasting quiet soundGrown sound (by simp)
    have updated : Edit.outcome (ModelSet.forAll (fun m => m.setEntry c name) ⟨tree, false⟩ models) grown =
        (.ok (), set.doc) :=
      ModelSet.forAll_of_apply (by simp) rfl read given
    obtain ⟨done, run, named, _, owned, all⟩ := start.setEntries sound leaves (fun _ impossible => impossible.elim) lasting
      objects unlinked (List.Subset.refl _) distinct (fun _ impossible => impossible.elim) carries updated
    obtain ⟨k, found, filled⟩ := all m member
    have object := (Model.containerObject?_some found).2
    refine ⟨k, found, ?_, (run.entriesNamed sound leaves named object name).length_eq, fun e listed => ?_⟩
    · rw [run.containerObject? sound leaves named (objects m member) fun t before same key => ?_, found]
      obtain ⟨m', member', found'⟩ := owned t before
      exact unlinked key m' member' t.object found' m member same.symm
    · obtain ⟨value, held, late, brings⟩ := run.value_of_named sound leaves named object filled listed
      exact ⟨value, held, late value (.refl _ value), brings.printNode run.sound.forest⟩

open Syntax (twofoldReader twofoldReader_regular twofoldSnippet)

/-- Both models get the entry, the one inside the other's container too; an update reaches the inner one's entry. -/
theorem snippets_arrive_twofold :
    (∃ set, @ModelSet.apply twofoldReader ⟨twofoldFile, [⟨5, ['a']⟩, ⟨18, ['b']⟩]⟩
        (.addEntry .reducers ['e'] (some twofoldSnippet)) = (set, .ok ()) ∧
      ∀ m ∈ [Model.mk 5 ['a'], ⟨18, ['b']⟩], ∃ k e value, m.containerObject? set.doc .reducers = .ok (some k) ∧
        set.doc.entriesNamed k ['e'] = [e] ∧ set.doc.pairValue? e = some value ∧
        set.doc.printNode value = twofoldSnippet) ∧
    ∃ set e value, @ModelSet.apply twofoldReader ⟨twofoldFile, [⟨18, ['b']⟩]⟩
        (.setEntry .reducers "reducers".toList twofoldSnippet) = (set, .ok ()) ∧
      e ∈ set.doc.entriesNamed 31 "reducers".toList ∧ set.doc.pairValue? e = some value ∧
      set.doc.printNode value = twofoldSnippet := by
  have both : twofoldFile.models none = .ok [⟨5, ['a']⟩, ⟨18, ['b']⟩] := by decide +kernel
  have inner : twofoldFile.models (some ['b']) = .ok [⟨18, ['b']⟩] := by decide +kernel
  have shown : ((@parseExpression twofoldReader twofoldFile twofoldSnippet).map fun grown => grown.1.printNode grown.2) =
      .ok twofoldSnippet := by decide +kernel
  have added : (@ModelSet.apply twofoldReader ⟨twofoldFile, [⟨5, ['a']⟩, ⟨18, ['b']⟩]⟩
      (.addEntry .reducers ['e'] (some twofoldSnippet))).2 = .ok () := by decide +kernel
  have updated : (@ModelSet.apply twofoldReader ⟨twofoldFile, [⟨18, ['b']⟩]⟩
      (.setEntry .reducers "reducers".toList twofoldSnippet)).2 = .ok () := by decide +kernel
  have container : Model.containerObject? twofoldFile ⟨18, ['b']⟩ .reducers = .ok (some 31) := by decide +kernel
  have apart : twofoldFile.Unlinked [⟨18, ['b']⟩] .reducers "reducers".toList := by simp [Unlinked, container]
  have outer : Model.containerObject? twofoldFile ⟨5, ['a']⟩ .reducers = .ok (some 18) := by decide +kernel
  have fresh : twofoldFile.entriesNamed 18 ['e'] = [] ∧ twofoldFile.entriesNamed 31 ['e'] = [] := by decide +kernel
  have holds : ∀ m ∈ [Model.mk 5 ['a'], ⟨18, ['b']⟩], ∃ k, m.containerObject? twofoldFile .reducers = .ok (some k) ∧
      twofoldFile.entriesNamed k ['e'] = [] := by
    simp [outer, container, fresh]
  cases read : @parseExpression twofoldReader twofoldFile twofoldSnippet with
  | error failure =>
    rw [read] at shown
    cases shown
  | ok result =>
    have plain := fun text => (twofoldReader_regular twofoldFile.dialect text).2
    rw [read] at shown
    have prints := Except.ok.inj shown
    obtain ⟨add, _⟩ := @snippets_arrive twofoldFile .markup ['e'] .reducers _ twofoldReader _ _ _ _ _ _ twofoldFile_parsed
      twofoldFile_reached (fun text _ => plain text) (plain _) both (fun key => absurd key (by decide)) read
    obtain ⟨_, update⟩ := @snippets_arrive twofoldFile .markup "reducers".toList .reducers _ twofoldReader _ _ _ _ _ _
      twofoldFile_parsed twofoldFile_reached (fun text _ => plain text) (plain _) inner apart read
    constructor
    · cases run : @ModelSet.apply twofoldReader ⟨twofoldFile, [⟨5, ['a']⟩, ⟨18, ['b']⟩]⟩
          (.addEntry .reducers ['e'] (some twofoldSnippet)) with
      | mk set outcome =>
        rw [run] at added
        cases added
        refine ⟨set, rfl, fun m member => ?_⟩
        obtain ⟨k, e, value, now, before, named, held, _, printed⟩ := add _ set rfl run m member
        obtain ⟨k', found, empty⟩ := holds m member
        obtain rfl : k' = k := by
          rcases before with before | before <;> cases found.symm.trans before
          rfl
        exact ⟨k', e, value, now, by rw [named, empty, List.nil_append], held, printed.trans prints⟩
    · cases run : @ModelSet.apply twofoldReader ⟨twofoldFile, [⟨18, ['b']⟩]⟩
          (.setEntry .reducers "reducers".toList twofoldSnippet) with
      | mk set outcome =>
        rw [run] at updated
        cases updated
        obtain ⟨k, held, _, length, filled⟩ := update set run ⟨18, ['b']⟩ (by simp)
        cases Option.some.inj (Except.ok.inj (container.symm.trans held))
        have one : (set.doc.entriesNamed 31 "reducers".toList).length = 1 :=
          length.trans (by decide +kernel)
        obtain ⟨e, is⟩ := List.length_eq_one_iff.mp one
        have listed : e ∈ set.doc.entriesNamed 31 "reducers".toList := is ▸ List.mem_singleton_self e
        obtain ⟨value, has, _, printed⟩ := filled e listed
        exact ⟨set, e, value, rfl, listed, has, printed.trans prints⟩

/-- The file after both models got another value for the entry that is the container of the inner one. -/
def twofoldUpdated : ModelSet × Except Failure Unit :=
  @ModelSet.apply twofoldReader ⟨twofoldFile, [⟨5, ['a']⟩, ⟨18, ['b']⟩]⟩
    (.setEntry .reducers "reducers".toList twofoldSnippet)

/-- Where an entry of the container of a model is the container of the next one, this one is looked for in the tree that
    the first has put in place. So the value that was put there no longer prints as the snippet. -/
theorem snippets_arrive_linked :
    @Document.parse twofoldReader .markup Syntax.twofoldText = .ok twofoldFile ∧
      twofoldFile.models none = .ok [⟨5, ['a']⟩, ⟨18, ['b']⟩] ∧ twofoldUpdated.2 = .ok () ∧
      ((@parseExpression twofoldReader twofoldFile twofoldSnippet).map fun grown => grown.1.printNode grown.2) =
        .ok "\x7breducers:1\x7d".toList ∧
      Model.containerObject? twofoldFile ⟨5, ['a']⟩ .reducers = .ok (some 18) ∧
      twofoldUpdated.1.doc.entriesNamed 18 "reducers".toList = [28] ∧ twofoldUpdated.1.doc.pairValue? 28 = some 40 ∧
      twofoldFile.nodes.size ≤ 40 ∧
      twofoldUpdated.1.doc.printNode 40 = "\x7breducers:\x7breducers:1\x7d\x7d".toList ∧
      twofoldUpdated.1.doc.printNode 40 ≠ "\x7breducers:1\x7d".toList := by
  have printed : twofoldUpdated.1.doc.printNode 40 = "\x7breducers:\x7breducers:1\x7d\x7d".toList := by decide +kernel
  refine ⟨rfl, by decide +kernel, by decide +kernel, by decide +kernel, by decide +kernel, by decide +kernel, by decide +kernel,
    by decide +kernel, printed, ?_⟩
  rw [printed]
  decide +kernel

end Document

end StoreModels
