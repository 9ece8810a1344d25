import StoreModels.Proofs.Record.Progress

/-!
Edits of entries as edits of records. In a document whose models stand alone, an edit goes through the models of a set
and makes the same change of the record of each one, as long as the records allow it; all other models stay as they are.
-/
namespace StoreModels
open Syntax (Dialect Reader sampleReader)

namespace ModelSet
open Document (Recorded Progress Calm)
open Model (Changed entryRecord)
open Snippet (Supplied)

variable [Reader] {base doc grown : Document} {callees : List (List Char)} {change : RecordEdit}
  {records : Model → ModelRecord} {all done todo models : List Model} {m : Model} {snippet : Snippet}
  {edit : Model → Snippet → Edit Snippet} {holds : Document → Snippet → Prop} {zone : NodeId → Prop} {c : Container}
  {name source text : List Char} {actions : List (List Char)} {high : Nat} {tree : NodeId} {filter : Option (List Char)}

/-! ## Edits of one model -/

/-- What an edit does to a model of a document, after edits of other models: if the record of the model allows it, it
    changes the record; else it refuses. What holds for the snippet goes on to hold. -/
def Follows (base : Document) (callees : List (List Char)) (change : RecordEdit) (records : Model → ModelRecord)
    (holds : Document → Snippet → Prop) (edit : Model → Snippet → Edit Snippet) (m : Model) : Prop :=
  ∀ doc zone snippet, doc.Sound → doc.Plain → Calm base doc zone [] → base.Apart zone m.object →
    doc.Stands callees m (records m) → holds doc snippet →
    change.can (records m) ∧ Edit.Yields (edit m snippet) doc (fun snippet' doc' =>
        Changed doc doc' callees base.nodes.size m (change.change (records m)) ∧ holds doc' snippet') ∨
      ¬ change.can (records m) ∧ Edit.outcome (edit m snippet) doc = (.error (change.failure (records m)), doc)

omit [Reader] in
/-- What is refused for an entry that the record does not list. -/
theorem namedEntries_missing {record : ModelRecord} (stands : doc.Stands callees m record)
    (lacks : ¬ record.Lists c name) :
    m.namedEntries doc c name = .error (RecordEdit.missing c name record) := by
  rw [Model.namedEntries_lacking stands lacks, RecordEdit.missing, stands.space]

theorem removeEntry_follows :
    Follows base callees (.remove c name) records (fun _ _ => True)
      (fun m snippet => do m.removeEntry c name; pure snippet)
      m := by
  intro doc zone snippet sound plain _ _ stands _
  by_cases has : (records m).Lists c name
  · have removed : Edit.Yields (m.removeEntry c name) doc fun _ doc' =>
        Changed doc doc' callees base.nodes.size m ((records m).without c name) :=
      Model.removeEntry_yields sound plain stands has
    exact .inl ⟨has, Edit.Yields.bind removed fun _ doc' _ changed => Edit.Yields.pure ⟨changed, trivial⟩⟩
  · refine .inr ⟨has, ?_⟩
    simp only [Model.removeEntry, Edit.outcome_bind, Edit.outcome_get, Edit.outcome_lift,
      namedEntries_missing stands has]
    rfl

section
variable (recorded : base.Recorded callees all records) (member : m ∈ all)
include recorded member

/-- After edits of other models, the tree of a model has no new nodes. -/
theorem old_below (calm : Calm base doc zone []) (apart : base.Apart zone m.object) :
    ∀ y, doc.Below m.object y → y < base.nodes.size := fun y below => by
  have lt := (recorded.stands m member).lt
  exact recorded.sound.forest.below_lt lt ((calm.below recorded.sound.forest lt apart).mp below)

/-- After edits of other models, a name spares the containers of a model that it spared before. -/
theorem spared_calm (sound : doc.Sound) (calm : Calm base doc zone []) (apart : base.Apart zone m.object)
    (spared : ∀ k, m.containerObject? base c = .ok (some k) → base.Harmless k name) :
    ∀ k, m.containerObject? doc c = .ok (some k) → doc.Harmless k name := fun k found => by
  rw [calm.containerObject? recorded.sound sound.forest (recorded.stands m member).lt apart] at found
  obtain ⟨below, object⟩ := Model.containerObject?_some found
  exact (spared k found).calm calm recorded.sound sound.forest object (apart.below below)

theorem addEntry_follows (other : name ≠ Model.namespaceName)
    (spared : ∀ k, m.containerObject? base c = .ok (some k) → base.Harmless k name) :
    Follows base callees (.add c (entryRecord c name source actions)) records
      (fun doc snippet => Supplied doc callees base.nodes.size high source actions snippet) (·.addEntry c name) m := by
  intro doc zone snippet sound plain calm apart stands supplied
  exact .inl ⟨trivial, Model.addEntry_yields sound plain stands supplied
    (old_below recorded member calm apart) other
    (spared_calm recorded member sound calm apart spared)⟩

theorem setEntry_follows (spared : ∀ k, m.containerObject? base c = .ok (some k) → base.Harmless k name) :
    Follows base callees (.set c (entryRecord c name source actions)) records
      (fun doc snippet => Supplied doc callees base.nodes.size high source actions snippet) (·.setEntry c name) m := by
  intro doc zone snippet sound plain calm apart stands supplied
  by_cases has : (records m).Lists c name
  · exact .inl ⟨has, Model.setEntry_yields sound plain stands supplied (old_below recorded member calm apart)
      (spared_calm recorded member sound calm apart spared) has⟩
  · refine .inr ⟨has, ?_⟩
    simp only [Model.setEntry, Edit.outcome_bind, Edit.outcome_get, Edit.outcome_lift,
      namedEntries_missing stands has]
    rfl

end

/-! ## Edits of some models, one after the other -/

/-- A run on some models changes the records of all of them, or fails at one whose record does not allow it. -/
def Passes (base doc : Document) (callees : List (List Char)) (change : RecordEdit) (records : Model → ModelRecord)
    (done todo : List Model) (run : Edit Unit) : Prop :=
  (∀ m ∈ todo, change.can (records m)) ∧
      Edit.Yields run doc (fun _ doc' => Progress base doc' callees change.change records (done ++ todo)) ∨
    ∃ m ∈ todo, ¬ change.can (records m) ∧ (Edit.outcome run doc).1 = .error (change.failure (records m))

/-- An edit that follows the records passes through the models of a set. -/
theorem forAll_passes (recorded : base.Recorded callees all records) (sub : done ++ todo ⊆ all)
    (distinct : (done ++ todo).Nodup) (progress : Progress base doc callees change.change records done)
    (silent : ∀ m snippet, Edit.Silent (edit m snippet)) (held : holds doc snippet)
    (follows : ∀ m ∈ todo, Follows base callees change records holds edit m) :
    Passes base doc callees change records done todo (forAll edit snippet todo) := by
  induction todo generalizing doc done snippet with
  | nil => exact .inl ⟨by simp, Edit.Yields.pure (by simpa using progress)⟩
  | cons m rest ih =>
    have member : m ∈ all := sub (by simp)
    have before : done ⊆ all := fun n listed => sub (by simp [listed])
    have fresh : m ∉ done := fun listed => List.disjoint_of_nodup_append distinct listed (by simp)
    have here := follows m (by simp) doc _ snippet progress.sound progress.plain progress.calm
      (recorded.apart before member fresh) (progress.later recorded before member fresh) held
    rcases here with ⟨allowed, snippet', doc', run, moves, changed, held'⟩ | ⟨refused, run⟩
    · have after := progress.next recorded before member fresh moves ((silent m snippet).of_outcome run) changed
      have split : done ++ m :: rest = done ++ [m] ++ rest := by simp
      rw [split] at sub distinct
      rcases ih sub distinct after held' fun n listed => follows n (List.mem_cons_of_mem _ listed) with
        ⟨others, finish⟩ | ⟨n, listed, refused, failed⟩
      · exact .inl ⟨List.forall_mem_cons.mpr ⟨allowed, others⟩, split ▸ Edit.Yields.bind_outcome run moves finish⟩
      · refine .inr ⟨n, List.mem_cons_of_mem _ listed, refused, ?_⟩
        rw [forAll, Edit.outcome_bind, run]
        exact failed
    · refine .inr ⟨m, by simp, refused, ?_⟩
      rw [forAll, Edit.outcome_bind, run]

omit [Reader] in
/-- An edit without a snippet is one that leaves it as it is. -/
theorem forEach_eq_forAll (edit : Model → Edit Unit) (snippet : Snippet) (models : List Model) (doc : Document) :
    Edit.outcome (forEach edit models) doc =
      Edit.outcome (forAll (fun m snippet => do edit m; pure snippet) snippet models) doc := by
  induction models generalizing doc with
  | nil => rfl
  | cons m rest ih =>
    rw [forEach, forAll, Edit.outcome_bind, Edit.outcome_bind, Edit.outcome_bind]
    cases Edit.outcome (edit m) doc with
    | mk result doc' =>
      cases result with
      | error failure => rfl
      | ok _ => exact ih doc'

section
variable (recorded : base.Recorded callees all records) (sub : models ⊆ all) (distinct : models.Nodup)
include recorded sub distinct

/-- An edit without a snippet passes through the models of a set. -/
theorem forEach_passes {edit : Model → Edit Unit} (silent : ∀ m, Edit.Silent (edit m))
    (follows : ∀ m ∈ models, Follows base callees change records (fun _ _ => True)
      (fun m snippet => do edit m; pure snippet) m) :
    Passes base base callees change records [] models (forEach edit models) := by
  have start : Progress base base callees change.change records [] :=
    ⟨recorded.sound, recorded.plain, Calm.refl base, by simp⟩
  have sub' : [] ++ models ⊆ all := sub
  have distinct' : ([] ++ models).Nodup := distinct
  have passes : Passes base base callees change records [] models
      (forAll (fun m snippet => do edit m; pure snippet) ⟨0, false⟩ models) :=
    forAll_passes recorded sub' distinct' start (fun m _ => .bind (silent m) fun _ => .pure _) trivial follows
  unfold Passes Edit.Yields at passes ⊢
  rw [forEach_eq_forAll edit ⟨0, false⟩]
  exact passes

/-- A snippet is read, and then an edit passes through the models of a set. -/
theorem parse_passes (read : base.parseExpression text = .ok (grown, tree))
    (tokens : Reader.Plain base.dialect (Syntax.snippetText (Text.trim text))) (spaceless : grown.Spaceless tree)
    (silent : ∀ m snippet, Edit.Silent (edit m snippet))
    (follows : ∀ m ∈ models, Follows base callees change records (fun doc snippet =>
      Supplied doc callees base.nodes.size grown.nodes.size (grown.text tree) (grown.dispatches callees tree) snippet)
      edit m) :
    Passes base base callees change records [] models (Snippet.parse text >>= (forAll edit · models)) := by
  have parsed : Edit.outcome (Snippet.parse text) base = (.ok ⟨tree, false⟩, grown) := by
    rw [Snippet.parse, Edit.outcome_bind, Edit.outcome_get]
    simp only [read, Edit.outcome_bind, Edit.outcome_set, Edit.outcome_pure]
  have moves : base.Moves grown := Relation.ReflTransGen.single (.adopt text read)
  have calm := Document.parseExpression_calm read recorded.sound
  have start : Progress base grown callees change.change records [] := by
    refine ⟨moves.sound recorded.sound, Document.Moves.plain moves recorded.sound (.read read tokens) recorded.plain, ?_,
      by simp⟩
    exact calm.mono recorded.sound.forest (fun z _ impossible => impossible.elim) (by simp) (by simp)
  have sub' : [] ++ models ⊆ all := sub
  have distinct' : ([] ++ models).Nodup := distinct
  rcases forAll_passes recorded sub' distinct' start silent (.parsed recorded.sound read spaceless) follows with
    ⟨allowed, run⟩ | ⟨m, member, refused, run⟩
  · exact .inl ⟨allowed, Edit.Yields.bind_outcome parsed moves run⟩
  · refine .inr ⟨m, member, refused, ?_⟩
    rw [Edit.outcome_bind, parsed]
    exact run

end

/-! ## Edits of the models of one namespace -/

/-- An edit of a set of models is an edit of the chosen records: it succeeds just if all of these allow it; then they
    are changed and all others are as before; else one that does not allow it is reported. -/
structure Refines (set : ModelSet) (edit : ModelEdit) (change : RecordEdit) (callees : List (List Char))
    (infos : List ModelRecord) (chosen : ModelRecord → Bool) : Prop where
  succeeds : (set.apply edit).2 = .ok () ↔ ∀ r ∈ infos, chosen r → change.can r
  extract : (set.apply edit).2 = .ok () →
    (set.apply edit).1.doc.extract callees none = .ok (infos.map fun r => if chosen r then change.change r else r)
  refuses : (set.apply edit).2 ≠ .ok () →
    ∃ r ∈ infos, chosen r ∧ ¬ change.can r ∧ (set.apply edit).2 = .error (change.failure r)

/-- Whether entries of a name make no model of a container of the set. -/
def Spares (set : ModelSet) (c : Container) (name : List Char) : Prop :=
  ∀ m ∈ set.models, ∀ k, m.containerObject? set.doc c = .ok (some k) → set.doc.Harmless k name

section
variable (recorded : base.Recorded callees all records)
include recorded

/-- A run that passes through the models of a namespace is an edit of their records. -/
theorem refines_of_passes {run : Edit Unit} {request : ModelEdit}
    (is : models = all.filter fun m => asked filter m.space)
    (applied : (ModelSet.mk base models).apply request =
      (⟨(Edit.outcome run base).2, models⟩, (Edit.outcome run base).1))
    (passes : Passes base base callees change records [] models run) :
    Refines ⟨base, models⟩ request change callees (all.map records) (asked filter ·.space) := by
  have edits : ∀ m, m ∈ models ↔ m ∈ all ∧ asked filter m.space := fun m => by rw [is, List.mem_filter]
  have space : ∀ m ∈ all, (records m).space = m.space := fun m member => (recorded.stands m member).space
  rcases passes with ⟨allowed, _, doc', run, _, progress⟩ | ⟨m, member, refused, run⟩
  · rw [run] at applied
    refine ⟨⟨fun _ r listed chosen => ?_, fun _ => by rw [applied]⟩, fun _ => ?_, fun failed => ?_⟩
    · obtain ⟨m, member, rfl⟩ := List.mem_map.mp listed
      exact allowed m ((edits m).mpr ⟨member, space m member ▸ chosen⟩)
    · rw [applied]
      exact progress.extract recorded edits
    · exact absurd (by rw [applied]) failed
  · rw [run] at applied
    have here := (edits m).mp member
    have listed : records m ∈ all.map records := List.mem_map_of_mem here.1
    have chosen : asked filter (records m).space := (space m here.1).symm ▸ here.2
    refine ⟨⟨fun succeeded => ?_, fun allowed => absurd (allowed _ listed chosen) refused⟩,
      fun succeeded => ?_, fun _ => ?_⟩
    · rw [applied] at succeeded
      cases succeeded
    · rw [applied] at succeeded
      cases succeeded
    · exact ⟨records m, listed, chosen, refused, by rw [applied]⟩

/-- The models of one namespace are found once each. -/
theorem chosen_nodup : (all.filter fun m => asked filter m.space).Nodup := by
  have objects := Document.models_nodup recorded.sound.forest recorded.root recorded.found
  exact (List.Nodup.of_map _ objects).filter _

theorem removeEntry_refines :
    Refines ⟨base, all.filter fun m => asked filter m.space⟩ (.removeEntry c name) (.remove c name) callees
      (all.map records) (asked filter ·.space) :=
  refines_of_passes recorded rfl rfl (forEach_passes recorded List.filter_sublist.subset (chosen_nodup recorded)
    (fun m => Model.removeEntry_silent m c name) fun _ _ => removeEntry_follows)

variable (read : base.parseExpression text = .ok (grown, tree))
  (tokens : Reader.Plain base.dialect (Syntax.snippetText (Text.trim text))) (spaceless : grown.Spaceless tree)
  (spares : Spares ⟨base, all.filter fun m => asked filter m.space⟩ c name)
include read tokens spaceless spares

theorem addEntry_refines {snippet : Option (List Char)} (is : snippet.getD c.defaultSource.toList = text)
    (other : name ≠ Model.namespaceName) :
    Refines ⟨base, all.filter fun m => asked filter m.space⟩ (.addEntry c name snippet)
      (.add c (entryRecord c name (grown.text tree) (grown.dispatches callees tree))) callees (all.map records)
      (asked filter ·.space) := by
  have passes := parse_passes recorded List.filter_sublist.subset (chosen_nodup recorded) read tokens spaceless
    (fun m => Model.addEntry_silent m c name)
    fun m member => addEntry_follows recorded (List.mem_of_mem_filter member) other (spares m member)
  subst is
  exact refines_of_passes recorded rfl rfl passes

theorem setEntry_refines :
    Refines ⟨base, all.filter fun m => asked filter m.space⟩ (.setEntry c name text)
      (.set c (entryRecord c name (grown.text tree) (grown.dispatches callees tree))) callees (all.map records)
      (asked filter ·.space) := by
  have passes := parse_passes recorded List.filter_sublist.subset (chosen_nodup recorded) read tokens spaceless
    (fun m => Model.setEntry_silent m c name)
    fun m member => setEntry_follows recorded (List.mem_of_mem_filter member) (spares m member)
  exact refines_of_passes recorded rfl rfl passes

end

end ModelSet

/-! ## Reached documents -/

namespace Document
open Model (entryRecord)
open ModelSet (Refines)

variable {dialect : Dialect} {source : List Char} {first doc : Document} {callees : List (List Char)}
  {infos : List ModelRecord} {filter : Option (List Char)} {set : ModelSet}

/-- If no model of a reached document holds another one, all models stand alone, with the records that are extracted. -/
theorem Reached.recorded [Reader] (file : Document.parse dialect source = .ok first)
    (texts : ∀ text ∈ doc.buffers, Reader.Plain doc.dialect text) (reached : Reached first doc)
    (separate : doc.Separate) (extracted : doc.extract callees none = .ok infos) :
    ∃ all records, doc.Recorded callees all records ∧ infos = all.map records := by
  have root' : doc.root < doc.nodes.size := (reached.present file).2
  obtain ⟨all, found, run⟩ := bind_eq_ok.mp extracted
  have pairs := extractAll_iff.mp run
  have each : ∀ m ∈ all, ∃ record, doc.extractModel callees m = .ok record := fun m member => by
    obtain ⟨record, _, is⟩ := forall₂_mem_left pairs member
    exact ⟨record, is⟩
  have : Nonempty ModelRecord := ⟨.ofNamespace []⟩
  choose! records is using each
  refine ⟨all, records, ⟨reached.sound file, reached.plain file texts, root', found, fun m member => ?_⟩, ?_⟩
  · exact ⟨separate.alone (reached.sound file).forest root' found member, is m member⟩
  · have same : List.Forall₂ (fun m r => records m = r) all infos :=
      forall₂_imp_mem pairs fun m member r _ run => Except.ok.inj ((is m member).symm.trans run)
    have equal := List.forall₂_map_left_iff.mpr same
    rw [List.forall₂_eq_eq_eq] at equal
    exact equal.symm

/-- A document with a single model has no models inside of others. -/
theorem separate_single {m : Model} (found : doc.models none = .ok [m]) : doc.Separate := by
  intro models is n member n' member' _
  rw [found] at is
  cases is
  rw [List.mem_singleton.mp member, List.mem_singleton.mp member']

theorem find_of_models {models : List Model} (found : doc.models filter = .ok models) :
    ModelSet.find doc filter = .ok ⟨doc, models⟩ := by
  rw [ModelSet.find, found]
  rfl

/-- A number has no object literals in it. -/
theorem spaceless_number [Reader] {text written : List Char}
    (shown : (doc.parseExpression text).map
        (fun read => (read.1.children read.2, read.1.role read.2, read.1.text read.2)) =
      .ok ([], .numberLiteral, written)) :
    ∃ grown tree, doc.parseExpression text = .ok (grown, tree) ∧ grown.Spaceless tree ∧ grown.text tree = written := by
  cases run : doc.parseExpression text with
  | error failure =>
    rw [run] at shown
    cases shown
  | ok read =>
    rw [run] at shown
    simp only [Except.map, Except.ok.injEq, Prod.mk.injEq] at shown
    obtain ⟨bare, role, is⟩ := shown
    refine ⟨read.1, read.2, rfl, fun y below object => ?_, is⟩
    rcases Relation.ReflTransGen.cases_head below with rfl | ⟨c, edge, _⟩
    · rw [role] at object
      cases object
    · rw [bare] at edge
      cases edge

/-! ## Edits of records -/

/-- Edits of entries are edits of records. Adding an entry always succeeds, the other two do if all records of the set
    have an entry of the name, and in the records of the set the entries of the container change as asked for. The name
    of an entry that gets a value must not make a model of its container. -/
theorem edits_refine_records [Reader] (file : Document.parse dialect source = .ok first)
    (texts : ∀ text ∈ doc.buffers, Reader.Plain doc.dialect text) (reached : Reached first doc)
    (separate : doc.Separate) (extracted : doc.extract callees none = .ok infos) (found : ModelSet.find doc filter = .ok set) (c : Container)
    (name : List Char) :
    (∀ text grown tree, doc.parseExpression (text.getD c.defaultSource.toList) = .ok (grown, tree) →
      Reader.Plain doc.dialect (Syntax.snippetText (Text.trim (text.getD c.defaultSource.toList))) →
      grown.Spaceless tree → name ≠ Model.namespaceName → set.Spares c name →
      Refines set (.addEntry c name text)
        (.add c (entryRecord c name (grown.text tree) (grown.dispatches callees tree))) callees infos
        (asked filter ·.space)) ∧
    (∀ text grown tree, doc.parseExpression text = .ok (grown, tree) →
      Reader.Plain doc.dialect (Syntax.snippetText (Text.trim text)) → grown.Spaceless tree → set.Spares c name →
      Refines set (.setEntry c name text)
        (.set c (entryRecord c name (grown.text tree) (grown.dispatches callees tree))) callees infos
        (asked filter ·.space)) ∧
    Refines set (.removeEntry c name) (.remove c name) callees infos (asked filter ·.space) := by
  obtain ⟨all, records, recorded, rfl⟩ := reached.recorded file texts separate extracted
  have models : ModelSet.find doc filter = .ok ⟨doc, all.filter fun m => asked filter m.space⟩ := by
    rw [ModelSet.find, models_filter recorded.found]
    rfl
  rw [models] at found
  cases found
  refine ⟨fun text grown tree read tokens spaceless other spares => ?_,
    fun text grown tree read tokens spaceless spares => ?_, ?_⟩
  · exact ModelSet.addEntry_refines recorded read tokens spaceless spares rfl other
  · exact ModelSet.setEntry_refines recorded read tokens spaceless spares
  · exact ModelSet.removeEntry_refines recorded

theorem sampleFile_extracted : ∃ record, sampleFile.extract [] none = .ok [record] ∧
    record.reducers = [⟨['b'], ['1'], []⟩] := by
  have shown : (sampleFile.extract [] none).map (List.map ModelRecord.reducers) = .ok [[⟨['b'], ['1'], []⟩]] := by
    decide +kernel
  cases run : sampleFile.extract [] none with
  | error failure =>
    rw [run] at shown
    cases shown
  | ok infos =>
    rw [run] at shown
    obtain ⟨record, _, rfl, is, none⟩ := List.map_eq_cons_iff.mp (Except.ok.inj shown)
    rw [List.map_eq_nil_iff.mp none]
    exact ⟨record, rfl, is⟩

/-- In the sample one entry becomes two, gets another text, or goes. -/
theorem edits_refine_records_sample :
    ((@ModelSet.apply sampleReader ⟨sampleFile, [⟨5, ['a']⟩]⟩ (.addEntry .reducers ['b'] (some ['2']))).1.doc.extract []
        none).map (List.map ModelRecord.reducers) = .ok [[⟨['b'], ['1'], []⟩, ⟨['b'], ['2'], []⟩]] ∧
    ((@ModelSet.apply sampleReader ⟨sampleFile, [⟨5, ['a']⟩]⟩ (.setEntry .reducers ['b'] ['2'])).1.doc.extract []
        none).map (List.map ModelRecord.reducers) = .ok [[⟨['b'], ['2'], []⟩]] ∧
    ((@ModelSet.apply sampleReader ⟨sampleFile, [⟨5, ['a']⟩]⟩ (.removeEntry .reducers ['b'])).1.doc.extract []
        none).map (List.map ModelRecord.reducers) = .ok [[]] := by
  obtain ⟨record, extracted, entries⟩ := sampleFile_extracted
  obtain ⟨grown, tree, read, spaceless, text⟩ := @spaceless_number sampleFile sampleReader ['2'] ['2']
    (by decide +kernel)
  have models : sampleFile.models none = .ok [⟨5, ['a']⟩] := by decide +kernel
  have plain : ∀ text, @Reader.Plain sampleReader sampleFile.dialect text := fun text =>
    (Syntax.sampleReader_regular _ text).2
  have spares : ModelSet.Spares ⟨sampleFile, [⟨5, ['a']⟩]⟩ .reducers ['b'] := fun _ _ _ _ =>
    ⟨by decide, .inl (by decide)⟩
  obtain ⟨adds, sets, removed, without, _⟩ := @edits_refine_records _ _ _ _ _ _ _ _ sampleReader sampleFile_parsed
    (fun text _ => plain text) (@Reached.refl sampleReader _) (separate_single models) extracted (find_of_models models) .reducers ['b']
  obtain ⟨added, more, _⟩ := adds (some ['2']) grown tree read (plain _) spaceless (by decide) spares
  obtain ⟨given, other, _⟩ := sets ['2'] grown tree read (plain _) spaceless spares
  have lists : ∀ r ∈ [record], asked none r.space → r.Lists .reducers ['b'] := fun r member _ => by
    rw [List.mem_singleton.mp member]
    exact ⟨⟨['b'], ['1'], []⟩, by simp [ModelRecord.entries, entries], rfl⟩
  have chosen : asked none record.space = true := rfl
  rw [more (added.mpr fun _ _ _ => trivial), other (given.mpr lists), without (removed.mpr lists)]
  refine ⟨?_, ?_, ?_⟩
  · simp [Except.map, chosen, RecordEdit.add, ModelRecord.added, ModelRecord.withEntries, ModelRecord.entries,
      entries, entryRecord, text, Container.tracksDispatches]
  · simp [Except.map, chosen, RecordEdit.set, ModelRecord.revised, ModelRecord.withEntries, ModelRecord.entries,
      entries, entryRecord, text, Container.tracksDispatches]
  · simp [Except.map, chosen, RecordEdit.remove, ModelRecord.without, ModelRecord.withEntries, ModelRecord.entries,
      entries]

end Document

namespace Syntax

/-- A file with one model, in which a container has an entry with the name of a namespace. -/
def nestedText : List Char := "x=\x7bnamespace:'a',reducers:\x7bnamespace:'c'\x7d\x7d".toList

/-- The tree of the file. -/
def nestedTree : Tree :=
  .assigned 0 (.braced (some "right") 2 42
    [.spaced 3, .mark "," 16, .keyed 17 25 (.braced (some "value") 26 41 [.spaced 27])])

/-- A reader of this file and the sample snippet. -/
@[reducible] def nestedReader : Reader :=
  ⟨fun _ text => List.lookup text [(nestedText, nestedTree), (snippetText ['2'], sampleSnippetTree)]⟩

end Syntax

namespace Document
open Syntax (nestedText nestedTree nestedReader)

def nestedFile : Document := ofTree .markup nestedText nestedTree

/-- The nested file after a property with the value two is added to its container. -/
def nestedAdded (name : List Char) : ModelSet × Except Failure Unit :=
  @ModelSet.apply nestedReader ⟨nestedFile, [⟨5, ['a']⟩]⟩ (.addEntry .reducers name (some ['2']))

/-- An entry more can make a container look like a model: with a second namespace, which is no text here, or with a
    state beside the namespace that is there. Adding it succeeds, but then no records can be told, or one too many. -/
theorem edits_refine_records_unspared :
    @Document.parse nestedReader .markup nestedText = .ok nestedFile ∧ @Reached nestedReader nestedFile nestedFile ∧
      nestedFile.Separate ∧ (nestedFile.extract [] none).map (List.map fun r => (r.space, r.reducers)) =
        .ok [(['a'], [⟨Model.namespaceName, "'c'".toList, []⟩])] ∧
      ModelSet.find nestedFile none = .ok ⟨nestedFile, [⟨5, ['a']⟩]⟩ ∧
      (∃ grown tree, @parseExpression nestedReader nestedFile ['2'] = .ok (grown, tree) ∧ grown.Spaceless tree) ∧
      (nestedAdded Model.namespaceName).2 = .ok () ∧
      ((nestedAdded Model.namespaceName).1.doc.extract [] none).map List.length =
        .error (.mismatch (.namespaceKind "number")) ∧
      (nestedAdded Model.stateName).2 = .ok () ∧
      ((nestedAdded Model.stateName).1.doc.extract [] none).map (List.map ModelRecord.space) = .ok [['a'], ['c']] := by
  have models : nestedFile.models none = .ok [⟨5, ['a']⟩] := by decide +kernel
  obtain ⟨grown, tree, read, spaceless, _⟩ := @spaceless_number nestedFile nestedReader ['2'] ['2'] (by decide +kernel)
  exact ⟨rfl, @Reached.refl nestedReader _, separate_single models, by decide +kernel, find_of_models models,
    ⟨grown, tree, read, spaceless⟩, by decide +kernel, by decide +kernel, by decide +kernel, by decide +kernel⟩

end Document

end StoreModels
