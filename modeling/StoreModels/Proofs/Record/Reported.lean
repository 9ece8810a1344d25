import StoreModels.Proofs.Document.Swap
import StoreModels.Proofs.Record.Containers
import StoreModels.Proofs.Record.Snippets

/-!
Giving an entry the text that it is reported with. The text is the one that the value has in the file; without the blanks
around it, it is read as a snippet and put in the place of the value, moved over by the indentation of the line that the
value starts on. So the file stays as it is just where this cuts and moves nothing, as in a value of one line that ends in
no blanks.
-/
namespace StoreModels
open Syntax (Dialect Reader Role Tree Span)
open Text (slice)

/-! ## Lines -/

namespace Text
variable {text : List Char}

theorem lines_single (none : '\n' ∉ text) : lines text = [text] := by
  induction text with
  | nil => rfl
  | cons c rest ih =>
    simp only [List.mem_cons, not_or] at none
    rw [lines, if_neg (Ne.symm none.1), ih none.2]
    rfl

/-- A text of one line is not moved. -/
theorem reindent_single (none : '\n' ∉ text) (indent newline : List Char) : reindent text indent newline = text := by
  rw [reindent, lines_single none]

end Text

/-! ## Readers -/

namespace Syntax

/-- Whether the parts of object literals are entries or have no parts of their own. -/
def Tree.Bare (tree : Tree) : Prop :=
  ∀ t ∈ tree.subtrees, Role.ofKind t.kind = .object →
    ∀ c ∈ t.children, (Role.ofKind c.kind).isEntry = true ∨ c.children = []

instance (tree : Tree) : Decidable tree.Bare :=
  inferInstanceAs (Decidable (∀ t ∈ tree.subtrees, _ → ∀ c ∈ t.children, _))

variable [Reader]

/-- Whether a text, but for the blanks around it, is an expression of its own: read as a snippet, it is just that. -/
def Reader.Alone (dialect : Dialect) (text : List Char) : Prop :=
  (parseSnippet dialect (Text.trim text)).toOption.map Tree.span = some ⟨1, 1 + (Text.trim text).length⟩

/-- A text that is an expression of its own is read as a tree that covers all of it but the blanks around. -/
theorem Reader.Alone.parse {dialect : Dialect} {text : List Char} (alone : Reader.Alone dialect text) :
    ∃ tree, parseSnippet dialect (Text.trim text) = .ok tree ∧
      slice (snippetText (Text.trim text)) tree.span.start tree.span.stop = Text.trim text := by
  unfold Alone at alone
  cases is : parseSnippet dialect (Text.trim text) with
  | error e =>
    rw [is] at alone
    cases alone
  | ok tree =>
    rw [is] at alone
    have span : tree.span = ⟨1, 1 + (Text.trim text).length⟩ := Option.some.inj alone
    refine ⟨tree, rfl, ?_⟩
    simp [span, slice, snippetText]

end Syntax

namespace Document
variable {doc doc' doc'' first : Document} {dialect : Dialect} {source text name : List Char} {program : Tree}
  {x c e p object entry value new : NodeId} {model : Model} {container : Container}

/-! ## Exchanging one value -/

/-- Exchanging the value of the only entry with a name. -/
theorem apply_setEntry_one [Reader] {tree : NodeId} (read : doc.parseExpression text = .ok (doc', tree))
    (named : model.namedEntries doc' container name = .ok [entry]) (pair : doc'.pairValue? entry = some value)
    (replaced : doc'.replace value tree = .ok doc'') :
    (ModelSet.mk doc [model]).apply (.setEntry container name text) = (⟨doc'', [model]⟩, .ok ()) := by
  have run : Edit.outcome (ModelSet.editEntries [model] (.setEntry container name text)) doc = (.ok (), doc'') := by
    simp only [ModelSet.editEntries, Snippet.parse, ModelSet.forAll, Model.setEntry, Model.setValues, Model.setValue,
      Snippet.next, Edit.outcome_bind, Edit.outcome_get, Edit.outcome_set, Edit.outcome_pure, Edit.outcome_lift,
      Edit.outcome_look, Edit.outcome_change, read, named, pair, replaced, Bool.false_eq_true, if_false]
  have is : (ModelSet.mk doc [model]).apply (.setEntry container name text) =
      (⟨(Edit.outcome (ModelSet.editEntries [model] (.setEntry container name text)) doc).2, [model]⟩,
        (Edit.outcome (ModelSet.editEntries [model] (.setEntry container name text)) doc).1) := rfl
  rw [is, run]

/-- A file as it was parsed: every node was read as a part of one tree. -/
structure Fresh (doc : Document) (program : Tree) : Prop where
  sound : doc.Sound
  texts : 0 < doc.buffers.length
  mirrors : ∀ x < doc.nodes.size, ∃ t ∈ program.subtrees, doc.Mirrors 0 x t

namespace Fresh

theorem ofFile [Reader] (file : Document.parse dialect source = .ok first) (indent : List Char) :
    ∃ program, Reader.program? dialect source = some program ∧ (first.withFallbackIndent indent).Fresh program := by
  obtain ⟨program, read, mirrors⟩ := parse_tree file
  refine ⟨program, read, (parse_sound file).withFallbackIndent indent, ?_, fun x lt => ?_⟩
  · simp [withFallbackIndent, parse_buffers file]
  · obtain ⟨t, member, kind, origin, children, firstChildren, tookNone, clean⟩ := mirrors x lt
    exact ⟨t, member, kind, origin, children.imp fun c u reads => reads.congr rfl, firstChildren, tookNone, clean⟩

variable (fresh : doc.Fresh program)
include fresh

/-- A node of the file prints as the part of the text that it was parsed from. -/
theorem text_eq (lt : x < doc.nodes.size) :
    ∃ span, (doc.node x).origin = .parsed 0 span ∧ doc.text x = slice doc.source span.start span.stop := by
  obtain ⟨t, _, mirrors⟩ := fresh.mirrors x lt
  exact ⟨t.span, mirrors.origin, fresh.sound.forest.render_clean mirrors.origin mirrors.clean _ _⟩

theorem bare (bare : program.Bare) (object : doc.role x = .object) (child : c ∈ doc.children x) :
    (doc.role c).isEntry = true ∨ doc.children c = [] := by
  obtain ⟨t, member, mirrors⟩ := fresh.mirrors x (lt_of_mem_children child)
  obtain ⟨u, listed, reads⟩ := forall₂_mem_left mirrors.children child
  have kind : Role.ofKind t.kind = .object := by rw [← mirrors.kind]; exact object
  rcases bare t member kind u listed with entry | none
  · exact .inl (by rw [role, Node.role, reads.kind]; exact entry)
  · have count := reads.count
    rw [none] at count
    exact .inr (List.length_eq_zero_iff.mp count)

section
variable {tree : Tree} {buffer : BufferId}
  (adopted : Adopted { doc with buffers := doc.buffers ++ [text] } doc' buffer tree)
include adopted

omit fresh in
/-- With the tree of a snippet behind it, the file is as it was. -/
theorem node_adopted (lt : x < doc.nodes.size) : doc'.node x = doc.node x := adopted.longer.node x lt

theorem children_adopted (lt : x < doc.nodes.size) : doc'.children x = (doc.node x).firstChildren := by
  obtain ⟨_, _, mirrors⟩ := fresh.mirrors x lt
  rw [children, node_adopted adopted lt, mirrors.firstChildren, children]

theorem clean_adopted (x : NodeId) : (doc'.node x).dirty = false := by
  by_cases lt : x < doc.nodes.size
  · obtain ⟨_, _, mirrors⟩ := fresh.mirrors x lt
    rw [node_adopted adopted lt]
    exact mirrors.clean
  · by_cases lt' : x < doc'.nodes.size
    · obtain ⟨_, _, mirrors⟩ := adopted.mirrors x (Nat.le_of_not_lt lt) lt'
      exact mirrors.clean
    · rw [node_beyond (Nat.le_of_not_lt lt')]
      rfl

variable (replaced : Replaced doc' doc'' entry value doc.nodes.size)
include replaced

omit fresh in
/-- What is above a pair of the file belongs to the file. -/
theorem above_old (present : entry < doc.nodes.size) (under : doc''.Below x entry) : x < doc.nodes.size := by
  have before : doc'.Below x entry := by
    rcases replaced.edited.hung.below under with before | ⟨before, _⟩ <;> exact before
  by_contra beyond
  exact Nat.not_le_of_gt present (Nat.le_trans (Nat.le_of_not_lt beyond)
    (adopted.grown.below_new (Nat.le_of_not_lt beyond) before))

/-- Once the tree of a snippet has taken the place of a pair's value, nothing else has happened to the file. -/
theorem swapped (shaped : doc.Shaped) (bare : program.Bare) (sound : doc''.Sound)
    (pair : doc.pairValue? entry = some value) : doc''.Swapped entry value doc.nodes.size := by
  obtain ⟨role, inside, _⟩ := pairValue?_some pair
  have present := lt_of_mem_children inside
  have ext : Extends doc doc'' :=
    ((extends_withBuffer doc text).trans adopted.longer.toExtends).trans replaced.edited.ext
  have old : ∀ x, doc''.Below x entry → x < doc.nodes.size := fun x under =>
    above_old adopted replaced present under
  have unchanged : ∀ x < doc.nodes.size, x ≠ entry → doc''.children x = doc.children x := fun x lt other => by
    rw [replaced.edited.hung.children x other, children, node_adopted adopted lt, children]
  refine ⟨sound, (ext.role present).trans role, ?places, fun {x} under => ?parsed, fun {x span} under parsed => ?laid,
    fun x => ?marked, fun {x} under other => ?kept, fun {x c} under object child => ?parts⟩
  case places =>
    obtain ⟨before, after, was, now⟩ := replaced.place
    exact ⟨before, after, by rw [ext.firstChildren entry present, ← fresh.children_adopted adopted present, was], now⟩
  case parsed =>
    obtain ⟨t, _, mirrors⟩ := fresh.mirrors x (old x under)
    exact ⟨t.span, (ext.origin x (old x under)).trans mirrors.origin⟩
  case laid => exact shaped.lays.stays fresh.sound ext (old x under) parsed
  case marked =>
    rw [replaced.edited.dirty, fresh.clean_adopted adopted x]
    simp
  case kept =>
    rw [replaced.edited.hung.children x other, fresh.children_adopted adopted (old x under),
      ext.firstChildren x (old x under)]
  case parts =>
    have lt := old x under
    have other : x ≠ entry := by
      rintro rfl
      rw [ext.role lt, role] at object
      cases object
    rw [unchanged x lt other] at child
    have lt' := fresh.sound.forest.childLt child
    rcases fresh.bare bare ((ext.role lt).symm.trans object) child with isEntry | none
    · exact .inl (by rw [ext.role lt']; exact isEntry)
    · have apart : c ≠ entry := by
        rintro rfl
        rw [none] at inside
        cases inside
      exact .inr (by rw [unchanged c lt' apart, none])

end

end Fresh

/-- The tree of a snippet prints as the snippet, moved over to where it stands. -/
theorem printChild_adopted {tree : Tree} (adopted : Adopted { doc with buffers := doc.buffers ++ [text] } doc'
      doc.buffers.length tree) (replaced : Replaced doc' doc'' entry value doc.nodes.size) (sound : doc''.Sound)
    (texts : 0 < doc.buffers.length) (indent : List Char) :
    doc''.printChild doc''.render doc.nodes.size indent 0 =
      Text.reindent (slice text tree.span.start tree.span.stop) indent doc.newline.text := by
  have longer := adopted.longer
  have more : doc.nodes.size < doc'.nodes.size := (adopted.sprouted.topLt _ (by simp)).2
  obtain ⟨_, _, mirrors⟩ := adopted.mirrors doc.nodes.size (Nat.le_refl _) more
  have origin : (doc''.node doc.nodes.size).origin = .parsed doc.buffers.length tree.span :=
    (replaced.edited.ext.origin _ more).trans adopted.origin
  have listed : doc.nodes.size ∈ doc''.children entry := by
    obtain ⟨before, after, _, now⟩ := replaced.place
    simp [now]
  have clean : (doc''.node doc.nodes.size).dirty = false := by
    by_contra marked
    rcases (replaced.edited.dirty _).mp (by simpa using marked) with before | above
    · rw [mirrors.clean] at before
      cases before
    · exact sound.forest.not_below_parent listed above
  have ext := (extends_withBuffer doc text).trans (longer.toExtends.trans replaced.edited.ext)
  have known : doc''.buffer doc.buffers.length = text := by
    rw [(longer.toExtends.trans replaced.edited.ext).buffer (by simp), buffer_append]
  have place : (doc''.node doc.nodes.size).buffer? = some doc.buffers.length := by simp [Node.buffer?, origin]
  have other : doc.buffers.length ≠ 0 := Nat.ne_of_gt texts
  simp only [printChild, place, other, if_false, sound.forest.render_clean origin clean, known, ext.newline]

/-! ## Reported entries -/

theorem namedEntries_one (holds : model.containerObject? doc container = .ok (some object))
    (once : doc.entriesNamed object name = [entry]) : model.namedEntries doc container name = .ok [entry] :=
  (Model.namedEntries_iff holds).mpr ⟨once.symm, by simp⟩

/-- An entry with a name of its own is reported once, with the text of its value. -/
theorem source_reported {callees : List (List Char)} {record : ModelRecord}
    (extracted : doc.extractModel callees model = .ok record)
    (holds : model.containerObject? doc container = .ok (some object)) {report : EntryRecord}
    (once : doc.entriesNamed object report.name = [entry]) (pair : doc.pairValue? entry = some value)
    (reported : report ∈ record.entries container) : report.source = doc.text value := by
  obtain ⟨e, listed, tells⟩ := forall₂_mem_right (containerObject?_records extracted holds) reported
  have among : e ∈ doc.entriesNamed object report.name := List.mem_filter.mpr ⟨listed, by simp [tells.name]⟩
  rw [once, List.mem_singleton] at among
  have body : doc.entryBody entry = value := by rw [entryBody, pair, Option.getD_some]
  rw [← tells.source, among, body]
  rfl

/-- Giving the only entry with a name another value, of which the text is an expression of its own: its tree is added
    behind the nodes of the file, and takes the place of the value. -/
theorem Fresh.setEntry_runs [Reader] (fresh : doc.Fresh program) (alone : Reader.Alone doc.dialect text)
    (modelRole : doc.role model.object = .object) (holds : model.containerObject? doc container = .ok (some object))
    (once : doc.entriesNamed object name = [entry]) (pair : doc.pairValue? entry = some value) :
    ∃ (tree : Tree) (grown last : Document),
      Adopted { doc with buffers := doc.buffers ++ [Syntax.snippetText (Text.trim text)] } grown doc.buffers.length tree ∧
        slice (Syntax.snippetText (Text.trim text)) tree.span.start tree.span.stop = Text.trim text ∧
        Replaced grown last entry value doc.nodes.size ∧
        (ModelSet.mk doc [model]).apply (.setEntry container name text) = (⟨last, [model]⟩, .ok ()) := by
  have present := lt_of_mem_children (pairValue?_some pair).2.1
  obtain ⟨tree, parsed, covers⟩ := alone.parse
  obtain ⟨grown, root, run⟩ : ∃ grown root, doc.parseExpression text = .ok (grown, root) := by
    simp only [parseExpression, parsed]
    exact ⟨_, _, rfl⟩
  have calm := parseExpression_calm run fresh.sound
  obtain ⟨rfl, tree', parsed', adopted⟩ := parseExpression_adopted run
  rw [parsed] at parsed'
  cases parsed'
  have forest : grown.Forest := (adopted.sound (fresh.sound.withBuffer _) (by simp)).forest
  have nowhere := doc.apart_nowhere
  -- The entries of the file are found as before.
  have named : model.namedEntries grown container name = .ok [entry] := by
    have object' := (Model.containerObject?_some holds).2
    have found : model.containerObject? grown container = .ok (some object) := by
      rw [calm.containerObject? fresh.sound forest (lt_of_role modelRole (by decide)) (nowhere _), holds]
    refine namedEntries_one found ?_
    rw [calm.entriesNamed fresh.sound forest (lt_of_role object' (by decide)) (nowhere _), once]
  have pair' : grown.pairValue? entry = some value := by
    rw [calm.pairValue? fresh.sound present fun impossible => impossible, pair]
  have parent : grown.parent? value = some entry := forest.childParent (pairValue?_some pair').2.1
  have loose : Loose grown [entry] doc.nodes.size := adopted.loose (fresh.sound.withBuffer _) fun o listed => by
    rw [List.mem_singleton.mp listed]
    exact present
  obtain ⟨last, replace, replaced⟩ := replace_ok forest parent loose.free (loose.apart entry (by simp))
  exact ⟨tree, grown, last, adopted, covers, replaced, apply_setEntry_one run named pair' replace⟩

/-- After that, the text of the file is as it was but for the part of the value, which is exchanged for the other text,
    moved over to where it stands. -/
theorem Fresh.print_setEntry [Reader] (fresh : doc.Fresh program) (shaped : doc.Shaped) (bare : program.Bare)
    (alone : Reader.Alone doc.dialect text) (modelRole : doc.role model.object = .object)
    (down : doc.Below doc.root model.object) (holds : model.containerObject? doc container = .ok (some object))
    (once : doc.entriesNamed object name = [entry]) (pair : doc.pairValue? entry = some value) {span : Span}
    (origin : (doc.node value).origin = .parsed 0 span) :
    ((ModelSet.mk doc [model]).apply (.setEntry container name text)).2 = .ok () ∧
      ((ModelSet.mk doc [model]).apply (.setEntry container name text)).1.doc.print =
        doc.source.take span.start ++
          Text.reindent (Text.trim text) (Text.lineIndent doc.source span.start) doc.newline.text ++
          doc.source.drop span.stop := by
  obtain ⟨tree, grown, last, adopted, covers, replaced, result⟩ := fresh.setEntry_runs alone modelRole holds once pair
  have objects : ∀ m ∈ [model], doc.role m.object = .object := by simpa using modelRole
  have moves := ModelSet.apply_moves fresh.sound objects (.setEntry container name text)
  rw [result] at moves ⊢
  have sound : last.Sound := moves.sound fresh.sound
  have ext : Extends doc last := moves.toExtends fresh.sound
  have inside := (pairValue?_some pair).2.1
  have present := lt_of_mem_children inside
  -- The entry is still a part of the file.
  have entryIn : entry ∈ doc.children object := (mem_entriesNamed (once ▸ List.mem_singleton_self entry)).1
  have before : doc.Below doc.root entry := (down.trans (Model.containerObject?_some holds).1).tail entryIn
  have meanwhile : grown.Below doc.root entry := by
    refine (adopted.longer.steady.below (fresh.sound.withBuffer _).forest ?_).mpr before
    rcases Relation.ReflTransGen.cases_head before with same | ⟨_, edge, _⟩
    · exact same ▸ present
    · exact lt_of_mem_children edge
  have after : last.Below last.root entry := by
    have forest : grown.Forest := (adopted.sound (fresh.sound.withBuffer _) (by simp)).forest
    have listed : value ∈ grown.children entry := by
      obtain ⟨early, late, was, _⟩ := replaced.place
      simp [was]
    rw [ext.root]
    refine replaced.edited.hung.below_stays meanwhile fun g same up => ?_
    cases same
    exact forest.not_below_parent listed up
  have swapped := fresh.swapped adopted replaced shaped bare sound pair
  have printed := swapped.print ((ext.origin value (fresh.sound.forest.childLt inside)).trans origin) after
  have source : last.source = doc.source := ext.buffer fresh.texts
  rw [source, printChild_adopted adopted replaced sound fresh.texts, covers] at printed
  exact ⟨rfl, printed⟩

/-- Each entry that a model is reported with is in an object literal of the container's own. If it is a `key: value`
    entry and the only one of its name there, and its value can be read by itself, giving it the text that it is reported
    with succeeds. The text of the file stays as it was but for the value: the blanks at its end go, and its lines after
    the first get the indentation of the line that it starts on. So it stays the same just if this changes nothing, as in
    a value of one line that ends in no blanks. -/
theorem update_reported [Reader] (file : Document.parse dialect source = .ok first)
    (lawful : Reader.Lawful dialect source)
    (bare : ∀ program, Reader.program? dialect source = some program → program.Bare) {indent : List Char}
    (is : doc = first.withFallbackIndent indent) {filter : Option (List Char)} {models : List Model}
    (found : doc.models filter = .ok models) (member : model ∈ models) {callees : List (List Char)}
    {record : ModelRecord} (extracted : doc.extractModel callees model = .ok record) {report : EntryRecord}
    (reported : report ∈ record.entries container) :
    ∃ object, model.containerObject? doc container = .ok (some object) ∧
      ∀ entry value, doc.entriesNamed object report.name = [entry] → doc.pairValue? entry = some value →
        Reader.Alone dialect report.source →
        ∃ (span : Span) (after : ModelSet), (doc.node value).origin = .parsed 0 span ∧
          report.source = slice source span.start span.stop ∧
          (ModelSet.mk doc [model]).apply (.setEntry container report.name report.source) = (after, .ok ()) ∧
          after.doc.print = source.take span.start ++
            Text.reindent (Text.trim report.source) (Text.lineIndent source span.start) (Text.newlineOf source).text ++
            source.drop span.stop ∧
          (after.doc.print = source ↔
            Text.reindent (Text.trim report.source) (Text.lineIndent source span.start) (Text.newlineOf source).text =
              report.source) ∧
          ('\n' ∉ report.source → Text.trim report.source = report.source → after.doc.print = source) := by
  obtain ⟨program, read, fresh⟩ := Fresh.ofFile file indent
  rw [← is] at fresh
  obtain ⟨texts, language, _, _⟩ := parse_buffers file
  have sourceIs : doc.source = source := by simp [is, Document.source, buffer, withFallbackIndent, texts]
  have dialectIs : doc.dialect = dialect := by rw [is, ← language]; rfl
  have newline : doc.newline = Text.newlineOf source := by rw [is, ← (parse_style file).1]; rfl
  have shaped : doc.Shaped := by
    rw [is]
    exact (parse_shaped file (parse_readable file lawful)).withFallbackIndent indent
  obtain ⟨object, holds⟩ := containerObject?_of_entry extracted reported
  refine ⟨object, holds, fun entry value once pair alone => ?_⟩
  -- The text that is reported is that of the value in the file.
  obtain ⟨span, origin, shown⟩ := fresh.text_eq (fresh.sound.forest.childLt (pairValue?_some pair).2.1)
  rw [sourceIs] at shown
  have text := (source_reported extracted holds once pair reported).trans shown
  obtain ⟨succeeds, printed⟩ := fresh.print_setEntry shaped (bare program read) (dialectIs ▸ alone)
    (models_objects found model member) (models_below found model member) holds once pair origin
  rw [sourceIs, newline] at printed
  have whole : source.take span.start ++ report.source ++ source.drop span.stop = source := by
    obtain ⟨_, _, fits⟩ := shaped.laid origin
    rw [text]
    exact Text.take_slice_drop source fits.1.le
  refine ⟨span, _, origin, text, Prod.ext rfl succeeds, printed, ?unchanged, fun one trimmed => ?single⟩
  case unchanged =>
    rw [printed]
    constructor
    · intro same
      exact List.append_cancel_left (List.append_cancel_right (same.trans whole.symm))
    · intro same
      rw [same, whole]
  case single => rw [printed, trimmed, Text.reindent_single one, whole]

end Document

/-! ## A sample -/

namespace Syntax

/-- A file whose model has an entry of two lines, the second one less deep than the line that the first one is on. -/
def bracketText : List Char := " x=\x7bnamespace:'a',reducers:\x7bb:[\n]\x7d\x7d".toList

/-- The tree of the file. -/
def bracketTree : Tree :=
  .assigned 1 (.braced (some "right") 3 35
    [.spaced 4, .mark "," 17, .keyed 18 26 (.braced (some "value") 27 34 [.keyed 28 29 (.bracketed (some "value") 30 33 [])])])

/-- A reader of the file and of the value of the entry. -/
@[reducible] def bracketReader : Reader :=
  ⟨fun _ text => List.lookup text
    [(bracketText, bracketTree), (snippetText "[\n]".toList, .enclosed 6 (.bracketed none 1 4 []))]⟩

instance (dialect : Dialect) (text : List Char) : Decidable (@Reader.Alone bracketReader dialect text) :=
  inferInstanceAs (Decidable (_ = _))

end Syntax

open Syntax (bracketText bracketTree bracketReader)

namespace Document
variable {doc : Document}

def bracketFile : Document := ofTree .markup bracketText bracketTree

theorem bracketFile_parsed : @Document.parse bracketReader .markup bracketText = .ok bracketFile := rfl

theorem bracketReader_lawful : @Reader.Lawful bracketReader .markup bracketText :=
  Syntax.lawful_of_lookup (by decide +kernel) _ _

theorem bracketTree_bare : bracketTree.Bare := by decide +kernel

/-- The entry is reported once, as it is in the file, but giving it that text moves its second line. -/
theorem update_reported_moves :
    bracketFile.models none = .ok [⟨5, ['a']⟩] ∧
      (bracketFile.extractModel [] ⟨5, ['a']⟩).map ModelRecord.reducers = .ok [⟨['b'], "[\n]".toList, []⟩] ∧
      (∃ object entry value, (Model.mk 5 ['a']).containerObject? bracketFile .reducers = .ok (some object) ∧
        bracketFile.entriesNamed object ['b'] = [entry] ∧ bracketFile.pairValue? entry = some value) ∧
      (@ModelSet.apply bracketReader ⟨bracketFile, [⟨5, ['a']⟩]⟩ (.setEntry .reducers ['b'] "[\n]".toList)).2 = .ok () ∧
      (@ModelSet.apply bracketReader ⟨bracketFile, [⟨5, ['a']⟩]⟩
          (.setEntry .reducers ['b'] "[\n]".toList)).1.doc.print ≠ bracketText := by
  refine ⟨by decide +kernel, by decide +kernel, ⟨18, ?_⟩, by decide +kernel, by decide +kernel⟩
  refine ⟨20, 23, by decide +kernel, by decide +kernel, by decide +kernel⟩

/-- Giving the entry its text succeeds, and moves its second line to where the line of the first one starts. -/
theorem update_reported_brackets :
    ∃ after, @ModelSet.apply bracketReader ⟨bracketFile, [⟨5, ['a']⟩]⟩
        (.setEntry .reducers ['b'] "[\n]".toList) = (after, .ok ()) ∧
      after.doc.print = " x=\x7bnamespace:'a',reducers:\x7bb:[\n ]\x7d\x7d".toList := by
  have found : bracketFile.models none = .ok [⟨5, ['a']⟩] := by decide +kernel
  have records : (bracketFile.extractModel [] ⟨5, ['a']⟩).map (ModelRecord.entries · .reducers) =
      .ok [⟨['b'], "[\n]".toList, []⟩] := by decide +kernel
  obtain ⟨record, extracted, is⟩ : ∃ record, bracketFile.extractModel [] ⟨5, ['a']⟩ = .ok record ∧
      record.entries .reducers = [⟨['b'], "[\n]".toList, []⟩] := by
    cases run : bracketFile.extractModel [] ⟨5, ['a']⟩ with
    | error failure =>
      rw [run] at records
      cases records
    | ok record =>
      rw [run] at records
      exact ⟨record, rfl, Except.ok.inj records⟩
  have same : bracketFile = bracketFile.withFallbackIndent bracketFile.fallbackIndent := withFallbackIndent_self.symm
  obtain ⟨object, holds, updates⟩ := @update_reported _ _ _ _ _ .reducers bracketReader bracketFile_parsed
    bracketReader_lawful (fun tree read => Option.some.inj read ▸ bracketTree_bare) _ same _ _ found (by simp) [] record extracted
    ⟨['b'], "[\n]".toList, []⟩ (by simp [is])
  have here : (Model.mk 5 ['a']).containerObject? bracketFile .reducers = .ok (some 18) := by decide +kernel
  obtain rfl : 18 = object := Option.some.inj (Except.ok.inj (here.symm.trans holds))
  obtain ⟨span, after, origin, _, applied, printed, _⟩ := updates 20 23 (by decide +kernel) (by decide +kernel)
    (by decide +kernel)
  have place : (bracketFile.node 23).origin = .parsed 0 ⟨30, 33⟩ := by decide +kernel
  rw [place] at origin
  cases origin
  exact ⟨after, applied, printed.trans (by decide +kernel)⟩

end Document

end StoreModels
