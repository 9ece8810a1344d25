import StoreModels.Proofs.Literal.Spelled
import StoreModels.Proofs.Model.Respelled
import StoreModels.Proofs.Service.Requests

/-!
Renamed models are found under their new namespace. An update that succeeds leaves a text that can be read; if it is one
of namespaces, the text is that of the file with string literals exchanged for others. So, of a language in which a
string literal may be exchanged for another one without a change of anything else, the file has the models that it had,
with the new namespace in the place of the old one.
-/
namespace StoreModels
open Syntax (Span Tree Role Dialect Reader sampleText sampleTree)
open Text (slice splice Ordered Exchange)
open MapFiles (text?)

/-! ## Reading files whose literals were exchanged -/

namespace Syntax

/-- A part of a text is a string literal that is the value of a pair. -/
def Tree.Quotes (tree : Tree) (span : Span) : Prop :=
  ∃ pair ∈ tree.subtrees, Role.ofKind pair.kind = .pair ∧ ∃ value ∈ pair.children, value.field = some "value" ∧
    Role.ofKind value.kind = .stringLiteral ∧ value.span = span

/-- What is relied on when some string literals of a text are exchanged. The tree of the text lies in it, its tokens and
    its object literals have no other parts than they should have, and if the text can still be read once string literals
    have taken the places of others, nothing else of the tree has changed. -/
structure Reader.Retells [Reader] (dialect : Dialect) (text : List Char) : Prop where
  lawful : Reader.Lawful dialect text
  plain : Reader.Plain dialect text
  bare : ∀ tree, Reader.program? dialect text = some tree → tree.Bare
  retold : ∀ tree, Reader.program? dialect text = some tree → ∀ exchanges : List Exchange,
    Ordered 0 text.length (exchanges.map Prod.fst) →
    (∀ exchange ∈ exchanges, tree.Quotes exchange.1 ∧
      ∃ quote, Literal.isQuote quote = true ∧ Literal.Spelled quote exchange.2) →
    ∀ tree', Reader.program? dialect (splice text text.length 0 exchanges) = some tree' →
      tree.Retold text (splice text text.length 0 exchanges) exchanges tree'

end Syntax

/-- A title that is exchanged is a string literal in the tree that the file was read as. -/
theorem Document.Retitles.quotes {doc : Document} {program : Tree} {models : List Model} {new : List Char} {x : NodeId}
    {exchange : Exchange} (retitles : doc.Retitles models new x exchange) (fresh : doc.Fresh program) :
    program.Quotes exchange.1 := by
  obtain ⟨old, ⟨m, _, p, titled⟩, _, place, _⟩ := retitles
  obtain ⟨pair, child, field⟩ := Document.pairValue?_some titled.held
  obtain ⟨t, below, mirrors⟩ := fresh.mirrors p (Document.lt_of_mem_children child)
  obtain ⟨v, part, reads⟩ := forall₂_mem_left mirrors.children child
  refine ⟨t, below, ?_, v, part, reads.field.symm.trans field, ?_, ?_⟩
  · rw [← mirrors.kind]
    exact pair
  · rw [← reads.kind]
    exact titled.literal
  · exact (Origin.parsed.inj (reads.origin.symm.trans place)).2

/-! ## Updates that succeed -/

namespace Document
variable [Reader] {settings : Settings} {path : Path} {text : List Char} {doc : Document}

theorem ofFile_ok (opened : ofFile settings path text = .ok doc) :
    ∃ start, parse (Dialect.ofPath path) text = .ok start ∧ doc = start.withFallbackIndent settings.fallbackIndent := by
  unfold ofFile at opened
  split at opened
  next start parsed =>
    cases opened
    exact ⟨start, parsed, rfl⟩
  next => cases opened

theorem accepted_ok {op : Operation} {dialect : Dialect} (run : accepted op path dialect text = .ok ()) :
    ∃ doc, parse dialect text = .ok doc := by
  unfold accepted at run
  split at run
  next doc parsed => exact ⟨doc, parsed⟩
  next => cases run

theorem edited_ok {filter : Option (List Char)} {edit : ModelEdit} (run : doc.edited filter edit = .ok text) :
    ∃ models set, doc.models filter = .ok models ∧ (ModelSet.mk doc models).apply edit = (set, .ok ()) ∧
      text = set.doc.print := by
  obtain ⟨found, is, run⟩ := bind_eq_ok.mp run
  obtain ⟨models, listed, known⟩ := bind_eq_ok.mp is
  cases known
  obtain ⟨_, result, run⟩ := bind_eq_ok.mp run
  cases run
  exact ⟨models, _, listed, Prod.ext rfl result, rfl⟩

end Document

namespace Service
variable [Reader] {σ : Type} [Files (StateM σ)] [MapFiles σ] {s s' : σ} {settings : Settings} {op : Operation}
  {payload : Payload} {path : Path}

/-- A file that is read is there, and its text is that of a document. -/
theorem load_ok {doc : Document} (run : (load settings path).outcome s = (.ok doc, s')) :
    ∃ text, text? s path = some text ∧ Document.ofFile settings path text = .ok doc ∧ text? s' = text? s := by
  obtain ⟨text, seen, read, opened⟩ := Job.outcome_bind_ok run
  have read := Job.outcome_call_ok read
  obtain ⟨is, rfl⟩ := Job.outcome_orFail_ok opened
  refine ⟨text, MapFiles.read_ok path s text (by rw [read]), is, ?_⟩
  rw [← MapFiles.read_same path s, read]

/-- An update that succeeds leaves the text of the edited document, which can be read. -/
theorem update_ok {edit : ModelEdit} {outcome : Outcome} (is : op.edit? payload = some edit)
    (run : (execute settings op payload : Job (StateM σ) Outcome).outcome s = (.ok outcome, s'))
    (target : payload.target? = some path) :
    op.missing payload = [] ∧ ∃ before doc after again, text? s path = some before ∧
      Document.ofFile settings path before = .ok doc ∧ doc.edited payload.namespaceFilter edit = .ok after ∧
      text? s' path = some after ∧ Document.ofFile settings path after = .ok again := by
  simp only [execute, is, update] at run
  obtain ⟨known, _, asked, reading⟩ := Job.outcome_bind_ok run
  rw [Job.outcome_lift] at asked
  have full : op.missing payload = [] := by
    by_contra lacking
    rw [Operation.target_lacking lacking] at asked
    cases asked
  rw [Operation.target_path full target] at asked
  cases asked
  obtain ⟨doc, seen, loaded, editing⟩ := Job.outcome_bind_ok reading
  obtain ⟨before, there, opened, untouched⟩ := load_ok loaded
  obtain ⟨after, _, result, writing⟩ := Job.outcome_bind_ok editing
  obtain ⟨edited, rfl⟩ := Job.outcome_orFail_ok result
  obtain ⟨start, parsed, rfl⟩ := Document.ofFile_ok opened
  obtain ⟨texts, language, _, _⟩ := Document.parse_buffers parsed
  have source : (start.withFallbackIndent settings.fallbackIndent).source = before := by
    simp [Document.source, Document.buffer, Document.withFallbackIndent, texts]
  have dialect : (start.withFallbackIndent settings.fallbackIndent).dialect = Dialect.ofPath path := language
  rw [source, dialect] at writing
  by_cases unchanged : after = before
  · rw [if_pos unchanged] at writing
    cases writing
    exact ⟨full, before, _, after, _, there, opened, edited, by rw [untouched, there, unchanged], unchanged ▸ opened⟩
  · rw [if_neg unchanged] at writing
    obtain ⟨_, _, checking, finishing⟩ := Job.outcome_bind_ok writing
    obtain ⟨accepts, rfl⟩ := Job.outcome_orFail_ok checking
    obtain ⟨again, reads⟩ := Document.accepted_ok accepts
    obtain ⟨_, last, wrote, done⟩ := Job.outcome_bind_ok finishing
    have wrote := Job.outcome_call_ok wrote
    cases done
    have written := MapFiles.write_ok path after _ (by rw [wrote])
    rw [wrote] at written
    exact ⟨full, before, _, after, _, there, opened, edited, by rw [written, Function.update_self],
      by rw [Document.ofFile, reads]⟩

/-- The models of a file and those of its text after the models of one namespace have got another: the same in the same
    order, each with the namespace that it had, or the new one if it had the old one. -/
theorem models_respelled {before after old new : List Char} {doc again : Document}
    (retells : Reader.Retells (Dialect.ofPath path) before) (opened : Document.ofFile settings path before = .ok doc)
    (edited : doc.edited (some old) (.setNamespace new) = .ok after)
    (reopened : Document.ofFile settings path after = .ok again) (someOld : old ≠ []) (someNew : new ≠ []) :
    ∃ all all', doc.models none = .ok all ∧ again.models none = .ok all' ∧
      all'.map Model.space = all.map fun m => if m.space = old then new else m.space := by
  obtain ⟨start, parsed, is⟩ := Document.ofFile_ok opened
  obtain ⟨start', parsed', is'⟩ := Document.ofFile_ok reopened
  obtain ⟨models, set, asked, applied, rfl⟩ := Document.edited_ok edited
  obtain ⟨program, read, fresh⟩ := Document.Fresh.ofFile parsed settings.fallbackIndent
  obtain ⟨tree, read', bears, source⟩ := Document.parse_bears parsed settings.fallbackIndent
  obtain ⟨tree', reread, bears', source'⟩ := Document.parse_bears parsed' settings.fallbackIndent
  rw [read] at read'
  cases read'
  rw [← is] at fresh bears source
  rw [← is'] at bears' source'
  -- The new text is the old one with the titles of the models exchanged.
  obtain ⟨_, exchanges, applied', ordered, printed, gathered⟩ := Document.rename_retitles parsed retells.lawful is fresh
    (retells.plain program read) (retells.bare program read) asked new
  rw [applied] at applied'
  cases applied'
  rw [printed] at reread source'
  have literals : ∀ exchange ∈ exchanges, program.Quotes exchange.1 ∧
      ∃ quote, Literal.isQuote quote = true ∧ Literal.Spelled quote exchange.2 := fun exchange member => by
    have retitles := (gathered exchange).mp member
    refine ⟨retitles.quotes fresh, ?_⟩
    obtain ⟨title, _, _, _, text⟩ := retitles
    obtain ⟨isQuote, spelled, _⟩ := doc.newTitle_spelled new title
    exact ⟨_, isQuote, text ▸ spelled⟩
  have retold := retells.retold program read exchanges ordered literals tree' reread
  have sound' := (Document.parse_sound parsed').withFallbackIndent settings.fallbackIndent
  rw [← is'] at sound'
  have present : doc.root < doc.nodes.size := Document.lt_of_bears bears
  obtain ⟨all, found, _⟩ := Document.models_all asked
  obtain ⟨all', found', spaces⟩ := (Document.respells_of_retitles fresh asked gathered).models fresh.sound.forest
    sound'.forest someOld someNew (fresh.plain (retells.plain program read)) present (Document.lt_of_bears bears')
    ⟨program, tree', bears, bears', by rw [source, source']; exact retold⟩ found
  exact ⟨all, all', found, found', spaces⟩

/-- Models that were renamed are found under their new name. If giving the models of one namespace another one succeeds,
    the namespaces of all models of the file are afterwards those that they were before, in the same order, but for the
    new one in every place of the old one. -/
theorem rename_found {outcome : Outcome}
    (run : (execute settings .updateNamespace payload : Job (StateM σ) Outcome).outcome s = (.ok outcome, s'))
    (target : payload.target? = some path)
    (retells : ∀ text, text? s path = some text → Reader.Retells (Dialect.ofPath path) text) :
    ∃ before after doc again all all', text? s path = some before ∧ text? s' path = some after ∧
      Document.ofFile settings path before = .ok doc ∧ Document.ofFile settings path after = .ok again ∧
      doc.models none = .ok all ∧ again.models none = .ok all' ∧
      all'.map Model.space = all.map fun m =>
        if m.space = payload.text .nameSpace then payload.text .newNamespace else m.space := by
  obtain ⟨full, before, doc, after, again, there, opened, edited, there', reopened⟩ := update_ok rfl run target
  have filled : ∀ field ∈ Operation.updateNamespace.required,
      payload.filled? field = some (payload.text field) ∧ payload.text field ≠ [] := fun field required => by
    have some := Operation.missing_eq_nil.mp full field required
    obtain ⟨text, is⟩ := Option.ne_none_iff_exists'.mp some
    obtain ⟨value, nonempty⟩ := Option.filter_eq_some_iff.mp is
    have same : payload.text field = text := by rw [Payload.text, value, Option.getD_some]
    rw [same]
    exact ⟨is, by simpa using nonempty⟩
  obtain ⟨asks, someOld⟩ := filled .nameSpace (by decide)
  obtain ⟨_, someNew⟩ := filled .newNamespace (by decide)
  rw [show payload.namespaceFilter = _ from asks] at edited
  obtain ⟨all, all', found, found', spaces⟩ := models_respelled (retells before there) opened edited reopened someOld
    someNew
  exact ⟨before, after, doc, again, all, all', there, there', opened, reopened, found, found', spaces⟩

/-- The namespace of the sample is given a quote. -/
def renamedPayload : Payload := ⟨fun
  | .nameSpace => some ['a']
  | .newNamespace => some ['c', '\'']
  | .sourcePath => some ['m']
  | .filePath => some ['f']
  | _ => none⟩

/-- The sample file with a model of the other namespace. -/
def renamedText : List Char := "x=\x7bnamespace:'c\\'',reducers:\x7bb:1\x7d\x7d".toList

/-- The tree of that file. -/
def renamedTree : Tree :=
  .assigned 0 (.braced (some "right") 2 34
    [.keyed 3 12 (.quoted (some "value") 13 18 [.fragment 14 15, .escape 15 17]),
      .mark "," 18, .keyed 19 27 (.braced (some "value") 28 33 [.keyed 29 30 (.number (some "value") 31 32)])])

/-- A reader of the two files alone. -/
@[reducible] def renamedReader : Reader :=
  ⟨fun _ text => List.lookup text [(sampleText, sampleTree), (renamedText, renamedTree)]⟩

omit [Reader] in
/-- There is one literal in the sample file. -/
theorem renamedTitle_only : ∀ span, sampleTree.Quotes span → span = ⟨13, 16⟩ := by
  have only : ∀ pair ∈ sampleTree.subtrees, Role.ofKind pair.kind = .pair → ∀ value ∈ pair.children,
      value.field = some "value" → Role.ofKind value.kind = .stringLiteral → value.span = ⟨13, 16⟩ := by
    decide +kernel
  rintro span ⟨pair, below, kind, value, child, field, literal, rfl⟩
  exact only pair below kind value child field literal

omit [Reader] in
/-- The literal can be exchanged once at most. -/
theorem renamedTitle_once {exchanges : List Exchange} (ordered : Ordered 0 sampleText.length (exchanges.map Prod.fst))
    (places : ∀ exchange ∈ exchanges, sampleTree.Quotes exchange.1) :
    exchanges = [] ∨ ∃ literal, exchanges = [(⟨13, 16⟩, literal)] := by
  have same : ∀ exchange ∈ exchanges, exchange.1 = ⟨13, 16⟩ := fun exchange member =>
    renamedTitle_only _ (places exchange member)
  cases exchanges with
  | nil => exact .inl rfl
  | cons first rest =>
    obtain ⟨span, literal⟩ := first
    obtain rfl : span = ⟨13, 16⟩ := same _ List.mem_cons_self
    cases rest with
    | nil => exact .inr ⟨literal, rfl⟩
    | cons second _ =>
      obtain ⟨span', _⟩ := second
      obtain rfl : span' = ⟨13, 16⟩ := same _ (List.mem_cons_of_mem _ List.mem_cons_self)
      exact absurd (show 16 ≤ 13 from ordered.2.2.1) (by decide)

omit [Reader] in
theorem renamedReader_retells (dialect : Dialect) : @Reader.Retells renamedReader dialect sampleText := by
  have read : ∀ tree, List.lookup sampleText [(sampleText, sampleTree), (renamedText, renamedTree)] = some tree →
      tree = sampleTree := fun tree read => by
    rw [List.lookup_cons_self] at read
    exact (Option.some.inj read).symm
  refine @Reader.Retells.mk renamedReader _ _ (fun tree is => ?_) (fun tree is => ?_) (fun tree is => ?_)
    fun tree is exchanges ordered literals tree' reread => ?_
  · rw [read tree is]
    decide
  · rw [read tree is]
    decide
  · rw [read tree is]
    decide +kernel
  · rw [read tree is] at literals ⊢
    -- The literal can be exchanged only by the one of the other file, or by itself.
    obtain rfl | ⟨literal, rfl⟩ := renamedTitle_once ordered fun exchange member => (literals exchange member).1
    · have same : splice sampleText sampleText.length 0 [] = sampleText := by decide +kernel
      rw [same] at reread ⊢
      rw [read tree' reread]
      decide +kernel
    · have around : ∀ text new : List Char, text = slice sampleText 0 13 ++ new ++ slice sampleText 16 32 →
          splice sampleText sampleText.length 0 [(⟨13, 16⟩, literal)] = text → literal = new := fun _ _ split is =>
        List.append_cancel_left (List.append_cancel_right (is.trans split))
      have reread : List.lookup (splice sampleText sampleText.length 0 [(⟨13, 16⟩, literal)])
        [(sampleText, sampleTree), (renamedText, renamedTree)] = some tree' := reread
      simp only [List.lookup_cons, List.lookup_nil] at reread
      split at reread
      next is =>
        cases reread
        obtain rfl := around _ "'a'".toList (by decide +kernel) (beq_iff_eq.mp is)
        decide +kernel
      next =>
        split at reread
        next is =>
          cases reread
          obtain rfl := around _ "'c\\''".toList (by decide +kernel) (beq_iff_eq.mp is)
          decide +kernel
        next => cases reread

/-- The sample file in a session. -/
def renamedSession : Session := ⟨[(⟨"m/f"⟩, sampleText)], []⟩

omit [Reader] in
/-- The one model of the sample is found under a name with a quote in it. -/
theorem rename_found_sample :
    ∃ outcome s', (@Job.outcome Session _ (@execute renamedReader _ _ _ {} .updateNamespace renamedPayload)
        renamedSession) = (.ok outcome, s') ∧
      ∃ before after doc again all all', text? renamedSession ⟨"m/f"⟩ = some before ∧ text? s' ⟨"m/f"⟩ = some after ∧
        @Document.ofFile renamedReader {} ⟨"m/f"⟩ before = .ok doc ∧
        @Document.ofFile renamedReader {} ⟨"m/f"⟩ after = .ok again ∧
        doc.models none = .ok all ∧ again.models none = .ok all' ∧
        all'.map Model.space = all.map fun m => if m.space = ['a'] then ['c', '\''] else m.space := by
  have succeeds : (@Job.outcome Session _ (@execute renamedReader _ _ _ {} .updateNamespace renamedPayload)
      renamedSession).1.toOption.isSome = true := by decide +kernel
  cases is : @Job.outcome Session _ (@execute renamedReader _ _ _ {} .updateNamespace renamedPayload) renamedSession with
  | mk result s' =>
    rw [is] at succeeds
    cases result with
    | error fault => cases succeeds
    | ok outcome =>
      refine ⟨outcome, s', rfl, ?_⟩
      refine @rename_found renamedReader Session _ _ renamedSession s' {} renamedPayload ⟨"m/f"⟩ outcome is rfl
        fun text there => ?_
      cases there
      exact renamedReader_retells _

end Service

end StoreModels
