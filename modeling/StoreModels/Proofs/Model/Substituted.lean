import StoreModels.Proofs.Model.Entered
import StoreModels.Proofs.Model.Refilled
import StoreModels.Proofs.Model.Retitled

/-!
Updates as substitutions. A new namespace, state or entry of the models that were found in a file exchanges the parts of
the text that tell the old ones, and nothing else: the printed text is the source with these exchanges made.
-/
namespace StoreModels
open Syntax (Dialect Reader Span Tree sampleReader)
open Text (splice Ordered Exchange Patched)

/-! ## The targets of updates -/

namespace Model

/-- The target in a model that gets another state is the last entry under the bare name. -/
def StateTarget (m : Model) (doc : Document) (t : Target) : Prop :=
  t.object = m.object ∧ t.quote = '\'' ∧ doc.entryNamed? m.object stateName = some t.entry

/-- The targets in a model that gets another entry are those of a container with the name. -/
def EntryTarget (m : Model) (doc : Document) (c : Container) (name : List Char) (t : Target) : Prop :=
  m.containerObject? doc c = .ok (some t.object) ∧ t.quote = m.quote doc ∧ t.entry ∈ doc.entriesNamed t.object name

end Model

namespace Document
variable {first doc doc' : Document} {dialect : Dialect} {source text name : List Char} {done : Target → Prop}
  {models : List Model} {m : Model} {c : Container} {t u : Target} {snippet snippet' : Snippet} {x e o : NodeId}
  {edit : Model → Snippet → Edit Snippet} {aims : Model → Target → Prop} {program : Tree}

/-- The models that are found have different object literals, so that none holds another one if they are separate. -/
theorem models_pairwise (forest : first.Forest) (root : first.root < first.nodes.size) {filter : Option (List Char)}
    (found : first.models filter = .ok models)
    (separate : ∀ m ∈ models, ∀ m' ∈ models, first.Below m.object m'.object → m' = m) :
    models.Pairwise fun m m' => ¬ first.Below m.object m'.object ∧ ¬ first.Below m'.object m.object := by
  have distinct := models_nodup forest root found
  rw [List.nodup_iff_pairwise_ne, List.pairwise_map] at distinct
  refine List.Pairwise.imp_of_mem (fun left right other => ⟨fun below => ?_, fun below => ?_⟩) distinct
  · exact other (congrArg Model.object (separate _ left _ right below)).symm
  · exact other (congrArg Model.object (separate _ right _ left below))

/-- An entry is none of the targets that were filled if their holders are elsewhere. -/
theorem entry_ne (forest : first.Forest) (lies : u.Lies first) (apart : ¬ first.Below o (u.holder first))
    (child : e ∈ first.children x) (below : first.Below o x) : u.entry ≠ e := by
  rintro rfl
  unfold Target.holder at apart
  split at apart
  · exact apart (below.tail child)
  · exact apart (forest.parent_unique child lies.entry_child ▸ below)

/-! ## Edits of one model -/

/-- The targets of an edit in a model lie in one object literal of it, and get their values if the edit succeeds. -/
structure Fills (first : Document) (name : List Char) (edit : Model → Snippet → Edit Snippet) (aims : Target → Prop)
    (m : Model) : Prop where
  lies : ∀ t, aims t → t.Lies first
  below : ∀ t, aims t → first.Below m.object t.object
  together : ∀ t u, aims t → aims u → t.object = u.object ∧ t.quote = u.quote
  run : ∀ {doc doc' done source snippet snippet'}, first.Filling doc name (Bringing source) done → first.Carries doc (Bringing source) snippet →
    (∀ u, done u → ¬ first.Below m.object (u.holder first)) →
    Edit.outcome (edit m snippet) doc = (.ok snippet', doc') →
    first.Carries doc' (Bringing source) snippet' ∧ first.Filling doc' name (Bringing source) fun u => aims u ∨ done u

section
variable (sound : first.Sound) (object : first.role m.object = .object)
include sound object

/-- Another state fills the entry that tells it, if there is one. -/
theorem setState_fills [Reader] : first.Fills Model.stateName Model.setState (m.StateTarget first) m where
  lies := fun t ⟨together, _, named⟩ => by
    refine ⟨together ▸ object, ?_⟩
    rw [together]
    exact List.mem_of_mem_filter (List.mem_of_getLast? named)
  below := fun t ⟨together, _⟩ => together ▸ .refl first _
  together := fun t u ⟨together, quote, _⟩ ⟨together', quote', _⟩ =>
    ⟨together.trans together'.symm, quote.trans quote'.symm⟩
  run {doc doc' done source snippet snippet'} run carries apart given := by
    obtain ⟨_, calm, _⟩ := run.calm
    have lt := lt_of_role object (by decide)
    have named : doc.entryNamed? m.object Model.stateName = first.entryNamed? m.object Model.stateName :=
      calm.entryNamed? sound run.sound.forest lt (fun z ⟨u, before, holder⟩ => holder ▸ apart u before) _
    cases found : first.entryNamed? m.object Model.stateName with
    | none =>
      simp only [Model.setState, Edit.outcome_bind, Edit.outcome_look, named, found, Edit.outcome_pure] at given
      cases given
      exact ⟨carries, run.congr fun u => by simp [Model.StateTarget, found]⟩
    | some e =>
      have child := (entryNamed?_some found).1
      have listed : ∀ e' ∈ [e], e' ∈ first.entries m.object := by
        simpa using List.mem_of_mem_filter (List.mem_of_getLast? found)
      have new : ∀ e' ∈ [e], ∀ u, done u → u.entry ≠ e' := fun e' member u before => List.mem_singleton.mp member ▸
        entry_ne sound.forest (run.lies u before) (apart u before) child (.refl first _)
      obtain ⟨snippet₁, doc₁, all, carries', run'⟩ :
          ∃ snippet₁ doc₁, Edit.outcome (Model.setValues Model.stateName '\'' snippet [e]) doc = (.ok snippet₁, doc₁) ∧ _ :=
        run.setValues (lasting_bringing source) sound object listed (List.nodup_singleton e) new carries
      simp only [Model.setState, Edit.outcome_bind, Edit.outcome_look, named, found] at given
      simp only [Model.setValues, Edit.outcome_bind] at all
      rw [all] at given
      cases given
      refine ⟨carries', run'.congr fun u => or_congr_left ?_⟩
      simp only [Model.StateTarget, found, Option.some.injEq, List.mem_singleton, eq_comm (a := e)]

/-- Another entry fills those of the container with the name. -/
theorem setEntry_fills [Reader] :
    first.Fills name (fun m => m.setEntry c name) (m.EntryTarget first c name) m where
  lies := fun t ⟨holds, _, listed⟩ => ⟨(Model.containerObject?_some holds).2, List.mem_of_mem_filter listed⟩
  below := fun t ⟨holds, _⟩ => (Model.containerObject?_some holds).1
  together := fun t u ⟨holds, quote, _⟩ ⟨holds', quote', _⟩ =>
    ⟨Option.some.inj (Except.ok.inj (holds.symm.trans holds')), quote.trans quote'.symm⟩
  run {doc doc' done source snippet snippet'} run carries apart given := by
    obtain ⟨_, calm, _⟩ := run.calm
    have forest := run.sound.forest
    have lt := lt_of_role object (by decide)
    have outside : first.Apart (fun z => ∃ u, done u ∧ z = u.holder first) m.object :=
      fun z ⟨u, before, holder⟩ => holder ▸ apart u before
    have quote : m.quote doc = m.quote first := by
      have named := calm.entryNamed? sound forest lt outside Model.namespaceName
      have like := calm.likeness sound forest
      rw [Model.quote, Model.quote, named]
      cases found : first.entryNamed? m.object Model.namespaceName with
      | none => rfl
      | some e =>
        have child := (entryNamed?_some found).1
        have apartEntry := outside.below (.child child)
        have held := calm.pairValue? sound (sound.forest.childLt child) apartEntry.outside
        simp only [Option.bind_some, held]
        cases is : first.pairValue? e with
        | none => rfl
        | some value =>
          have inside := (pairValue?_some is).2.1
          exact congrArg Literal.quoteOf
            (calm.printNode sound forest (sound.forest.childLt inside) (apartEntry.below (.child inside)))
    cases is : m.namedEntries doc c name with
    | error failure =>
      simp only [Model.setEntry, Edit.outcome_bind, Edit.outcome_get, Edit.outcome_lift, is] at given
      cases given
    | ok found =>
      obtain ⟨k, holds, rfl⟩ := Model.namedEntries_ok is
      rw [calm.containerObject? sound forest lt outside] at holds
      obtain ⟨below, role⟩ := Model.containerObject?_some holds
      rw [calm.entriesNamed sound forest (lt_of_role role (by decide)) (outside.below below)] at is
      have new : ∀ e ∈ first.entriesNamed k name, ∀ u, done u → u.entry ≠ e := fun e member u before =>
        entry_ne sound.forest (run.lies u before) (apart u before) (mem_entriesNamed member).1 below
      obtain ⟨snippet₁, doc₁, all, carries', run'⟩ : ∃ snippet₁ doc₁,
          Edit.outcome (Model.setValues name (m.quote first) snippet (first.entriesNamed k name)) doc = (.ok snippet₁, doc₁) ∧
            _ :=
        run.setValues (lasting_bringing source) sound role (fun e member => List.mem_of_mem_filter member) (entriesNamed_nodup sound.forest k name) new
          carries
      simp only [Model.setEntry, Edit.outcome_bind, Edit.outcome_get, Edit.outcome_lift, Edit.outcome_look, is,
        quote] at given
      cases all.symm.trans given
      refine ⟨carries', run'.congr fun u => or_congr_left ?_⟩
      simp only [Model.EntryTarget, holds]
      constructor
      · rintro ⟨rfl, quote, listed⟩
        exact ⟨rfl, quote, listed⟩
      · rintro ⟨here, quote, listed⟩
        cases here
        exact ⟨rfl, quote, listed⟩

end

/-! ## Edits of all models -/

/-- The edit fills the targets in one model after the other. -/
theorem Filling.forAll [Reader] (run : first.Filling doc name (Bringing source) done) (forest : first.Forest)
    (fills : ∀ m ∈ models, first.Fills name edit (aims m) m)
    (separate : models.Pairwise fun m m' => ¬ first.Below m.object m'.object ∧ ¬ first.Below m'.object m.object)
    (apart : ∀ m ∈ models, ∀ u, done u → ¬ first.Below m.object (u.holder first))
    (carries : first.Carries doc (Bringing source) snippet)
    (given : Edit.outcome (ModelSet.forAll edit snippet models) doc = (.ok (), doc')) :
    first.Filling doc' name (Bringing source) fun u => (∃ m ∈ models, aims m u) ∨ done u := by
  induction models generalizing doc done snippet with
  | nil =>
    cases given
    exact run.congr fun u => by simp
  | cons m rest ih =>
    obtain ⟨other, separate⟩ := List.pairwise_cons.mp separate
    have here := fills m List.mem_cons_self
    rw [ModelSet.forAll, Edit.outcome_bind] at given
    split at given
    next snippet₁ doc₁ is =>
      obtain ⟨carries₁, run₁⟩ := here.run run carries (apart m List.mem_cons_self) is
      have later : ∀ n ∈ rest, ∀ u, aims m u ∨ done u → ¬ first.Below n.object (u.holder first) := by
        rintro n member u (aimed | before)
        · intro under
          have below := (here.below u aimed).trans (here.lies u aimed).below_holder
          rcases forest.below_or_below below under with down | up
          · exact (other n member).1 down
          · exact (other n member).2 up
        · exact apart n (List.mem_cons_of_mem _ member) u before
      refine (ih run₁ (fun n member => fills n (List.mem_cons_of_mem _ member)) separate later carries₁ given).congr
        fun u => ?_
      simp only [List.mem_cons]
      grind
    next => cases given

/-- An update of the models that were found in a file exchanges its targets, and nothing else. -/
theorem substitutes [Reader] {original : Document} (file : Document.parse dialect source = .ok original)
    (lawful : Reader.Lawful dialect source) {indent : List Char} (is : first = original.withFallbackIndent indent)
    (fresh : first.Fresh program) (bare : program.Bare) {filter : Option (List Char)}
    (found : first.models filter = .ok models)
    (separate : ∀ m ∈ models, ∀ m' ∈ models, first.Below m.object m'.object → m' = m)
    (fills : ∀ m ∈ models, first.Fills name edit (aims m) m)
    (given : Edit.outcome (do ModelSet.forAll edit (← Snippet.parse text) models) first = (.ok (), doc)) :
    ∃ grown tree, first.parseExpression text = .ok (grown, tree) ∧
      Patched source (fun exchange => ∃ m ∈ models, ∃ t, aims m t ∧ first.Refills name (grown.text tree) t exchange)
        (⟨0, source.length⟩, doc.print) := by
  obtain ⟨_, _, root, present⟩ := parse_buffers file
  have shaped : first.Shaped := is ▸ (parse_shaped file (parse_readable file lawful)).withFallbackIndent indent
  have start := fresh.sound
  have forest := start.forest
  have rootLt : first.root < first.nodes.size := by
    rw [is]
    exact root.symm ▸ present
  cases read : first.parseExpression text with
  | error failure =>
    simp only [Snippet.parse, Edit.outcome_bind, Edit.outcome_get, read, Edit.outcome_throw] at given
    cases given
  | ok result =>
    obtain ⟨grown, tree⟩ := result
    simp only [Snippet.parse, Edit.outcome_bind, Edit.outcome_get, read, Edit.outcome_set, Edit.outcome_pure] at given
    have calm := parseExpression_calm read start
    have soundGrown := Move.sound (.adopt text read) start
    have carries : first.Carries grown (Bringing (grown.text tree)) ⟨tree, false⟩ :=
      Carries.parsed start read (Brings.read start fresh.texts read)
    have run := ((Filling.start start name _).quiet (lasting_bringing _) calm soundGrown start (by simp)).forAll forest fills
      (models_pairwise forest rootLt found separate) (fun _ _ _ impossible => impossible.elim) carries given
    have among : ∀ t u, (∃ m ∈ models, aims m t) ∨ False → (∃ m ∈ models, aims m u) ∨ False →
        first.Below (t.spot first) (u.spot first) → t = u := by
      rintro t u (⟨m, member, aimed⟩ | impossible) (⟨n, member', aimed'⟩ | impossible) below
      · have here := fills m member
        have there := fills n member'
        have high := ((here.below t aimed).trans (here.lies t aimed).below_spot).trans below
        have high' := (there.below u aimed').trans (there.lies u aimed').below_spot
        obtain rfl : n = m := by
          rcases forest.below_or_below high high' with down | up
          · exact separate m member n member' down
          · exact (separate n member' m member up).symm
        obtain ⟨together, quotes⟩ := here.together t u aimed aimed'
        exact (here.lies t aimed).apart (here.lies u aimed') forest together quotes below
      all_goals exact impossible.elim
    have down : ∀ m ∈ models, ∀ t, aims m t → first.Below first.root (t.holder first) ∧ t.Lies first := by
      intro m member t aimed
      have lies := (fills m member).lies t aimed
      exact ⟨((models_below found m member).trans ((fills m member).below t aimed)).trans lies.below_holder, lies⟩
    have other : ¬ ∃ t, ((∃ m ∈ models, aims m t) ∨ False) ∧ t.spot first = first.root := by
      rintro ⟨t, ⟨m, member, aimed⟩ | impossible, same⟩
      · obtain ⟨below, lies⟩ := down m member t aimed
        exact forest.not_below_parent (same ▸ lies.spot_child) below
      · exact impossible.elim
    refine ⟨grown, tree, rfl,
      ((run.refit fresh shaped among).print file lawful is fresh bare other).congr fun exchange => ⟨?_, ?_⟩⟩
    · rintro ⟨_, _, _, t, ⟨m, member, aimed⟩ | impossible, _, due⟩
      · exact ⟨m, member, t, aimed, due⟩
      · exact impossible.elim
    · rintro ⟨m, member, t, aimed, due⟩
      obtain ⟨below, lies⟩ := down m member t aimed
      exact ⟨t.spot first, ⟨t, .inl ⟨m, member, aimed⟩, rfl⟩, below.tail lies.spot_child, t,
        .inl ⟨m, member, aimed⟩, rfl, due⟩

/-- Updates of the models that were found in a file, none of them inside another one, are exact substitutions. A new
    namespace takes the place of the literal that tells the old one of each model, in its quotes; a new state or entry
    that is given by a snippet takes the place of each value that told the old one, and of each entry without a value. -/
theorem updates_substitute [Reader] {original : Document} (file : Document.parse dialect source = .ok original)
    (lawful : Reader.Lawful dialect source) (plain : Reader.Plain dialect source)
    (bare : ∀ program, Reader.program? dialect source = some program → program.Bare) {indent : List Char}
    (is : first = original.withFallbackIndent indent) {filter : Option (List Char)}
    (found : first.models filter = .ok models)
    (separate : ∀ m ∈ models, ∀ m' ∈ models, first.Below m.object m'.object → m' = m) :
    (∀ new, ∃ set, (ModelSet.mk first models).apply (.setNamespace new) = (set, .ok ()) ∧
      Patched source (fun exchange => ∃ m ∈ models, ∃ p old, m.Titled first p old ∧ first.TitleNews new old exchange)
        (⟨0, source.length⟩, set.doc.print)) ∧
    (∀ text set, (ModelSet.mk first models).apply (.setState text) = (set, .ok ()) →
      ∃ grown tree, first.parseExpression text = .ok (grown, tree) ∧
        Patched source (fun exchange => ∃ m ∈ models, ∃ t, m.StateTarget first t ∧
          first.Refills Model.stateName (grown.text tree) t exchange) (⟨0, source.length⟩, set.doc.print)) ∧
    ∀ c name text set, (ModelSet.mk first models).apply (.setEntry c name text) = (set, .ok ()) →
      ∃ grown tree, first.parseExpression text = .ok (grown, tree) ∧
        Patched source (fun exchange => ∃ m ∈ models, ∃ t, m.EntryTarget first c name t ∧
          first.Refills name (grown.text tree) t exchange) (⟨0, source.length⟩, set.doc.print) := by
  obtain ⟨program, read, fresh⟩ := Fresh.ofFile file indent
  rw [← is] at fresh
  have bare := bare program read
  have objects := models_objects found
  refine ⟨fun new => ?_, fun text set given => ?_, fun c name text set given => ?_⟩
  · obtain ⟨set, exchanges, run, ordered, shown, gathered⟩ :=
      rename_retitles file lawful is fresh (plain program read) bare found new
    refine ⟨set, run, exchanges, ordered, shown, fun exchange => (gathered exchange).trans ⟨?_, ?_⟩⟩
    · rintro ⟨old, ⟨m, member, p, titled⟩, _, news⟩
      exact ⟨m, member, p, old, titled, news⟩
    · rintro ⟨m, member, p, old, titled, news⟩
      have below := ((models_below found m member).tail titled.entry_child).tail titled.value_child
      exact ⟨old, ⟨m, member, p, titled⟩, below, news⟩
  · cases run : Edit.outcome (do ModelSet.forAll Model.setState (← Snippet.parse text) models) first with
    | mk result doc =>
      have is' : (ModelSet.mk first models).apply (.setState text) = (⟨doc, models⟩, result) :=
        congrArg (fun pair => (ModelSet.mk pair.2 models, pair.1)) run
      cases is'.symm.trans given
      exact substitutes file lawful is fresh bare found separate
        (fun m member => setState_fills fresh.sound (objects m member)) run
  · cases run : Edit.outcome (do ModelSet.forAll (fun m => m.setEntry c name) (← Snippet.parse text) models) first with
    | mk result doc =>
      have is' : (ModelSet.mk first models).apply (.setEntry c name text) = (⟨doc, models⟩, result) :=
        congrArg (fun pair => (ModelSet.mk pair.2 models, pair.1)) run
      cases is'.symm.trans given
      exact substitutes file lawful is fresh bare found separate
        (fun m member => setEntry_fills fresh.sound (objects m member)) run

/-- In the sample the namespace gets another name and the only reducer another value. -/
theorem updates_substitute_sample :
    sampleFile.models none = .ok [⟨5, ['a']⟩] ∧
      (∃ set, @ModelSet.apply sampleReader ⟨sampleFile, [⟨5, ['a']⟩]⟩ (.setNamespace ['c']) = (set, .ok ()) ∧
        Patched Syntax.sampleText (fun exchange => ∃ m ∈ [Model.mk 5 ['a']], ∃ p old,
          m.Titled sampleFile p old ∧ sampleFile.TitleNews ['c'] old exchange) (⟨0, Syntax.sampleText.length⟩, set.doc.print)) ∧
      ∃ set grown tree, @ModelSet.apply sampleReader ⟨sampleFile, [⟨5, ['a']⟩]⟩ (.setEntry .reducers ['b'] ['2']) =
          (set, .ok ()) ∧ @parseExpression sampleReader sampleFile ['2'] = .ok (grown, tree) ∧
        set.doc.print = "x=\x7bnamespace:'a',reducers:\x7bb:2\x7d\x7d".toList ∧
        Patched Syntax.sampleText (fun exchange => ∃ m ∈ [Model.mk 5 ['a']], ∃ t,
          m.EntryTarget sampleFile .reducers ['b'] t ∧ sampleFile.Refills ['b'] (grown.text tree) t exchange)
          (⟨0, Syntax.sampleText.length⟩, set.doc.print) := by
  have found : sampleFile.models none = .ok [⟨5, ['a']⟩] := by decide +kernel
  have same : sampleFile = sampleFile.withFallbackIndent sampleFile.fallbackIndent := withFallbackIndent_self.symm
  obtain ⟨lawful, plain⟩ := Syntax.sampleReader_regular .markup Syntax.sampleText
  obtain ⟨rename, _, update⟩ := @updates_substitute _ _ _ _ sampleReader _ sampleFile_parsed lawful plain
    (by rintro _ ⟨⟩; decide +kernel) _ same _ found (by simp)
  refine ⟨found, rename ['c'], ?_⟩
  have succeeds : (@ModelSet.apply sampleReader ⟨sampleFile, [⟨5, ['a']⟩]⟩ (.setEntry .reducers ['b'] ['2'])).2 = .ok () := by
    decide +kernel
  have printed : (@ModelSet.apply sampleReader ⟨sampleFile, [⟨5, ['a']⟩]⟩ (.setEntry .reducers ['b'] ['2'])).1.doc.print =
      "x=\x7bnamespace:'a',reducers:\x7bb:2\x7d\x7d".toList := by decide +kernel
  cases run : @ModelSet.apply sampleReader ⟨sampleFile, [⟨5, ['a']⟩]⟩ (.setEntry .reducers ['b'] ['2']) with
  | mk set result =>
    rw [run] at succeeds printed
    cases succeeds
    obtain ⟨grown, tree, read, patched⟩ := update .reducers ['b'] ['2'] set run
    exact ⟨set, grown, tree, rfl, read, printed, patched⟩

/-! ## A line comment without a line feed -/

/-- The file with a line separator after its model's reducer `a` got another value. -/
def separatorUpdated : ModelSet × Except Failure Unit :=
  @ModelSet.apply Syntax.separatorReader ⟨separatorFile, [⟨5, ['a']⟩]⟩ (.setEntry .reducers ['a'] ['2'])

/-- An update can exchange more than its targets: where a line comment ends in a line separator, this makes way for a line
    feed. -/
theorem updates_substitute_unfed :
    @Document.parse Syntax.separatorReader .markup Syntax.separatorText = .ok separatorFile ∧
      separatorFile.models none = .ok [⟨5, ['a']⟩] ∧ separatorUpdated.2 = .ok () ∧
      separatorUpdated.1.doc.print = "x=\x7bnamespace:'a',reducers:\x7ba:2,//c\n/*\n*/b:2\x7d\x7d".toList ∧
      separatorUpdated.1.doc.print ≠ splice Syntax.separatorText 45 0 [(⟨29, 30⟩, ['2'])] := by
  have printed : separatorUpdated.1.doc.print =
      "x=\x7bnamespace:'a',reducers:\x7ba:2,//c\n/*\n*/b:2\x7d\x7d".toList := by decide +kernel
  refine ⟨rfl, by decide +kernel, by decide +kernel, printed, ?_⟩
  rw [printed]
  decide +kernel

end Document

end StoreModels
