import StoreModels.Proofs.Document.Forms
import StoreModels.Proofs.Literal.Spelled
import StoreModels.Proofs.Service.Requests

/-!
A file that was made reads back as the model that was asked for. The text of a new file is a fixed frame around one
string literal, and the literal stands for the namespace whatever characters it has. So it is enough that the language
reads the frame, with a string literal in it, as the one model it shows.
-/
namespace StoreModels
open Syntax (Span Tree Role Dialect Reader)

/-! ## The form of a new file -/

namespace Scaffold

/-- The text of a new file around a literal. -/
def frame (literal : List Char) : List Char :=
  "export default \x7b\n  namespace: ".toList ++ literal ++
    ",\n  state: \x7b\x7d,\n  reducers: \x7b\x7d,\n  effects: \x7b\x7d,\n  subscriptions: \x7b\x7d,\n\x7d;\n".toList

theorem modelText_frame (space : List Char) : modelText space = frame (Literal.quoted space '\'') := rfl

/-- The bare name of a property. -/
def bareKey (name : String) : Form := .token "property_identifier" true (some "key") name.toList

/-- A property under a bare name, and the comma behind it. -/
def propertyForm (name : String) (value : Form) : Form := .node "pair" true none [bareKey name, Form.mark ":", value]

/-- An object literal without entries. -/
def emptyForm : Form := .node "object" true (some "value") [Form.mark "\x7b", Form.mark "\x7d"]

/-- A string literal in the place of a value. -/
def literalForm (literal : List Char) : Form := .token "string" true (some "value") literal

/-- The properties of a new model. -/
def propertyForms (literal : List Char) : List Form :=
  [propertyForm "namespace" (literalForm literal), propertyForm "state" emptyForm, propertyForm "reducers" emptyForm,
    propertyForm "effects" emptyForm, propertyForm "subscriptions" emptyForm]

/-- The object literal of a new model, with a comma behind each property. -/
def modelForm (literal : List Char) : Form :=
  .node "object" true (some "value")
    (Form.mark "\x7b" :: (propertyForms literal).flatMap (fun property => [property, Form.mark ","]) ++
      [Form.mark "\x7d"])

/-- A new file: one object literal is exported. -/
def fileForm (literal : List Char) : Form :=
  .node "program" true none
    [.node "export_statement" true none [Form.mark "export", Form.mark "default", modelForm literal, Form.mark ";"]]

theorem literals_fileForm (literal : List Char) :
    (fileForm literal).literals = [modelForm literal, emptyForm, emptyForm, emptyForm, emptyForm] := by
  rfl

end Scaffold

/-- A string literal may hold any characters but its quote, backslashes and line breaks, and escapes: with it in its
    place, a new file is read as the model that it shows. -/
def Syntax.Reader.Frames [Reader] (dialect : Dialect) (literal : List Char) : Prop :=
  Literal.Spelled '\'' literal → ∃ tree, Reader.program? dialect (Scaffold.frame literal) = some tree ∧
    tree.Takes (Scaffold.frame literal) (Scaffold.fileForm literal)

namespace Document
variable {doc : Document} {id e : NodeId} {name : String} {value : Form} {literal space : List Char}
  {callees : List (List Char)} {filter : Option (List Char)}

/-! ## The properties of a new model -/

section
variable (forest : doc.Forest) (shows : doc.Shows e (Scaffold.propertyForm name value))
include shows

theorem Shows.property_body (placed : value.field = some "value") : doc.Shows (doc.entryBody e) value := by
  have first : [Scaffold.bareKey name, Form.mark ":", value].find? (fun f => f.field == some "value") =
      some value := by
    have key : (Scaffold.bareKey name).field = some "key" := rfl
    rw [List.find?_cons_of_neg (by simp [key]), List.find?_cons_of_neg (by decide),
      List.find?_cons_of_pos (by simp [placed])]
  obtain ⟨v, there, shown⟩ := shows.child "value" first
  have pair : doc.role e = .pair := by
    rw [shows.role]
    rfl
  rw [entryBody, pairValue?, if_pos pair, there]
  exact shown

include forest in
theorem Shows.property_name : doc.entryProperty? e = Property.ofName? name := by
  obtain ⟨key, there, shown⟩ := shows.child "key" rfl
  have pair : doc.role e = .pair := by
    rw [shows.role]
    rfl
  have bare : doc.keyOf key = .identifier name.toList := by
    rw [keyOf, shown.role, shown.token_text forest]
    rfl
  simp only [entryProperty?, entryIdentifier?, entryKey?, pair, there, Option.map_some, bare, Option.bind_some,
    EntryKey.identifier?, String.ofList_toList]

end

/-- An object literal without entries is no model. -/
theorem Shows.empty_recognize (shows : doc.Shows id Scaffold.emptyForm) : doc.recognize filter id = .ok none := by
  have none : doc.entries id = [] := List.forall₂_nil_right_iff.mp shows.entries
  rw [recognize, none]
  rfl

/-- The value of an object literal without entries is the empty object. -/
theorem Shows.empty_evaluate (shows : doc.Shows id Scaffold.emptyForm) : doc.evaluate id = .ok (.object []) := by
  have none : doc.namedChildren id = [] := List.forall₂_nil_right_iff.mp shows.namedChildren
  have object : doc.role id = .object := by
    rw [shows.role]
    rfl
  rw [evaluate, depth, evaluateDown, object, none]
  rfl

theorem Shows.empty_records (shows : doc.Shows id Scaffold.emptyForm) (container : Container) :
    doc.containerRecords callees container id = .ok [] := by
  have none : doc.entries id = [] := List.forall₂_nil_right_iff.mp shows.entries
  have object : doc.role id = .object := by
    rw [shows.role]
    rfl
  rw [containerRecords, if_pos object, none]
  rfl

/-! ## The model of a new file -/

/-- The entries of a new model. -/
theorem Shows.model_entries (shows : doc.Shows id (Scaffold.modelForm literal)) :
    ∃ e₁ e₂ e₃ e₄ e₅, doc.entries id = [e₁, e₂, e₃, e₄, e₅] ∧
      doc.Shows e₁ (Scaffold.propertyForm "namespace" (Scaffold.literalForm literal)) ∧
      doc.Shows e₂ (Scaffold.propertyForm "state" Scaffold.emptyForm) ∧
      doc.Shows e₃ (Scaffold.propertyForm "reducers" Scaffold.emptyForm) ∧
      doc.Shows e₄ (Scaffold.propertyForm "effects" Scaffold.emptyForm) ∧
      doc.Shows e₅ (Scaffold.propertyForm "subscriptions" Scaffold.emptyForm) := by
  have shown : List.Forall₂ doc.ShowsField (doc.entries id) (Scaffold.propertyForms literal) := shows.entries
  simp only [Scaffold.propertyForms, List.forall₂_cons_right_iff, List.forall₂_nil_right_iff] at shown
  obtain ⟨e₁, _, f₁, ⟨e₂, _, f₂, ⟨e₃, _, f₃, ⟨e₄, _, f₄, ⟨e₅, _, f₅, rfl, rfl⟩, rfl⟩, rfl⟩, rfl⟩, is⟩ := shown
  exact ⟨e₁, e₂, e₃, e₄, e₅, is, f₁.2, f₂.2, f₃.2, f₄.2, f₅.2⟩

/-- A new model is recognized under the namespace that its literal stands for. -/
theorem Shows.model_recognize (forest : doc.Forest) (shows : doc.Shows id (Scaffold.modelForm literal))
    (stands : Literal.unquoted literal = space) (full : space ≠ []) (asks : filter = none ∨ filter = some space) :
    doc.recognize filter id = .ok (some ⟨id, space⟩) := by
  obtain ⟨e₁, e₂, e₃, e₄, e₅, entries, s₁, s₂, s₃, s₄, s₅⟩ := shows.model_entries
  have body := s₁.property_body rfl
  have literal : doc.role (doc.entryBody e₁) = .stringLiteral := by
    rw [body.role]
    rfl
  have text : doc.namespaceText e₁ = .ok space := by
    rw [namespaceText, if_pos literal, body.token_text forest, stands]
  have run : doc.recognizeEntries none false (doc.entries id) = .ok (some space, true) := by
    simp only [entries, recognizeEntries, s₁.property_name forest, s₂.property_name forest, s₃.property_name forest,
      s₄.property_name forest, s₅.property_name forest, text]
    rfl
  have none : space.isEmpty = false := by simpa using full
  rw [recognize, run]
  rcases asks with rfl | rfl <;> simp [bind, Except.bind, pure, Except.pure, none]

/-- The record of a new model has its namespace, the empty state and nothing else. -/
theorem Shows.model_record (forest : doc.Forest) (shows : doc.Shows id (Scaffold.modelForm literal)) :
    doc.extractModel callees ⟨id, space⟩ = .ok ⟨space, some (.object []), [], [], []⟩ := by
  obtain ⟨e₁, e₂, e₃, e₄, e₅, entries, s₁, s₂, s₃, s₄, s₅⟩ := shows.model_entries
  simp only [extractModel, entries, extractEntries, s₁.property_name forest, s₂.property_name forest,
    s₃.property_name forest, s₄.property_name forest, s₅.property_name forest,
    (s₂.property_body rfl).empty_evaluate, (s₃.property_body rfl).empty_records, (s₄.property_body rfl).empty_records,
    (s₅.property_body rfl).empty_records]
  rfl

/-- A document that shows a new file has the record of the new model and no other. -/
theorem Shows.file_extract (callees : List (List Char)) (forest : doc.Forest) (present : doc.root < doc.nodes.size)
    (shows : doc.Shows doc.root (Scaffold.fileForm literal)) (stands : Literal.unquoted literal = space)
    (full : space ≠ []) (asks : filter = none ∨ filter = some space) :
    doc.extract callees filter = .ok [⟨space, some (.object []), [], [], []⟩] := by
  have objects := shows.objects forest present
  rw [Scaffold.literals_fileForm] at objects
  simp only [List.forall₂_cons_right_iff, List.forall₂_nil_right_iff] at objects
  obtain ⟨m, _, model, ⟨o₁, _, b₁, ⟨o₂, _, b₂, ⟨o₃, _, b₃, ⟨o₄, _, b₄, rfl, rfl⟩, rfl⟩, rfl⟩, rfl⟩, listed⟩ := objects
  have models : doc.models filter = .ok [⟨m, space⟩] := by
    rw [models, listed]
    simp only [recognizeAll, model.model_recognize forest stands full asks, b₁.empty_recognize, b₂.empty_recognize,
      b₃.empty_recognize, b₄.empty_recognize]
    rfl
  rw [extract, models]
  simp only [bind, Except.bind, extractAll, model.model_record forest]
  rfl

end Document

/-! ## Making a file and asking for it -/

namespace Service
variable [Reader] {settings : Settings} {s : Session} {payload asked : Payload} {path : Path} {space : List Char}

/-- Making a file that is not there writes the text of a new model. -/
theorem create_writes (settings : Settings) (full : Operation.create.missing payload = [])
    (target : payload.target? = some path) (absent : s.files.get? path = none)
    (named : payload.value .nameSpace = some space) :
    ∃ s', Job.outcome (execute settings .create payload) s = (.ok (.created path), s') ∧
      s'.files.get? path = some (Scaffold.modelText space) := by
  have is := Operation.target_path full target
  have text : Scaffold.render Scaffold.modelName.toList payload = .ok (Scaffold.modelText space) := by
    rw [Scaffold.render, if_pos rfl, named]
  refine ⟨⟨s.files.put path (Scaffold.modelText space), s.calls ++ [.has path] ++ [.write path]⟩, ?_, ?_⟩
  · simp only [execute, Operation.edit?, create, is, Job.outcome_bind, Job.outcome_lift, Job.outcome_effect,
      Session.run_has, absent, Option.isSome_none, Bool.false_and, Bool.false_eq_true, if_false, text,
      Job.outcome_call, Session.run_write]
    rfl
  · rw [FileMap.get?_put, Function.update_self]

/-- Asking for the models of a file reads its text and extracts their records. -/
theorem info_tells {text : List Char} {doc : Document} {records : List ModelRecord}
    (full : Operation.info.missing asked = []) (target : asked.target? = some path)
    (there : s.files.get? path = some text) (opens : Document.ofFile settings path text = .ok doc)
    (told : doc.extract settings.callees asked.namespaceFilter = .ok records) :
    (Job.outcome (execute settings .info asked) s).1 = .ok (.records records) := by
  have is := Operation.target_path full target
  simp only [execute, Operation.edit?, info, load, is, Job.outcome_bind, Job.outcome_lift, Job.outcome_call,
    Session.run_read, there, Option.elim_some, Except.mapError, opens, Job.outcome_orFail, told]
  rfl

/-- A file that is made reads back as the model that was asked for: where no file is, making one succeeds for any
    namespace, and asking for the models of the file then, for all or for those of that namespace, tells of one model,
    which has the namespace, an empty state, and nothing else. -/
theorem create_reported (full : Operation.create.missing payload = []) (target : payload.target? = some path)
    (absent : s.files.get? path = none) (named : payload.value .nameSpace = some space)
    (frames : Reader.Frames (Dialect.ofPath path) (Literal.quoted space '\''))
    (asks : Operation.info.missing asked = []) (same : asked.target? = some path)
    (filter : asked.namespaceFilter = none ∨ asked.namespaceFilter = some space) :
    ∃ s', Job.outcome (execute settings .create payload) s = (.ok (.created path), s') ∧
      (Job.outcome (execute settings .info asked) s').1 =
        .ok (.records [⟨space, some (.object []), [], [], []⟩]) := by
  obtain ⟨s', made, there⟩ := create_writes settings full target absent named
  refine ⟨s', made, ?_⟩
  obtain ⟨tree, read, takes⟩ := frames (Literal.spelled_quoted rfl space)
  rw [← Scaffold.modelText_frame] at read takes
  have file : Document.parse (Dialect.ofPath path) (Scaffold.modelText space) =
      .ok (Document.ofTree (Dialect.ofPath path) (Scaffold.modelText space) tree) := by
    rw [Document.parse, read]
  have sound := (Document.parse_sound file).withFallbackIndent settings.fallbackIndent
  obtain ⟨_, _, root, present⟩ := Document.parse_buffers file
  have shows := Document.parse_shows file ⟨tree, read, takes⟩ settings.fallbackIndent
  have full' : space ≠ [] := by
    have filled := Operation.missing_eq_nil.mp full .nameSpace (by decide)
    rintro rfl
    simp [Payload.filled?, named] at filled
  have told := shows.file_extract settings.callees sound.forest (root ▸ present)
    (Literal.unquoted_quoted rfl space) full' filter
  refine info_tells asks same there ?_ told
  rw [Document.ofFile, file]

/-- The namespace of the sample: a quote, a backslash and a line break. -/
def createdSpace : List Char := ['\'', '\\', '\n']

def createdPayload : Payload := ⟨fun
  | .nameSpace => some createdSpace
  | .sourcePath => some ['m']
  | .filePath => some ['f']
  | _ => none⟩

/-- The tree of the file that is made for the sample. -/
def createdTree : Tree :=
  let empty (start : Nat) : Tree := .braced (some "value") start (start + 2) []
  let model : Tree := .braced (some "value") 15 106
    [.keyed 19 28 (.quoted (some "value") 30 38 [.escape 31 33, .escape 33 35, .escape 35 37]), .mark "," 38,
      .keyed 42 47 (empty 49), .mark "," 51, .keyed 55 63 (empty 65), .mark "," 67, .keyed 71 78 (empty 80), .mark "," 82,
      .keyed 86 99 (empty 101), .mark "," 103]
  .node "program" true none ⟨0, 108⟩
    [.node "export_statement" true none ⟨0, 107⟩
      [.node "export" false none ⟨0, 6⟩ [], .node "default" false none ⟨7, 14⟩ [], model, .mark ";" 106]]

/-- A reader of the file that is made for the sample alone. -/
@[reducible] def createdReader : Reader :=
  ⟨fun _ text => if text = Scaffold.modelText createdSpace then some createdTree else none⟩

omit [Reader] in
/-- A namespace of a quote, a backslash and a line break survives. -/
theorem create_reported_sample :
    ∃ s', (@Job.outcome Session _ (@execute createdReader _ _ _ {} .create createdPayload) ⟨[], []⟩) =
        (.ok (.created ⟨"m/f"⟩), s') ∧
      (@Job.outcome Session _ (@execute createdReader _ _ _ {} .info createdPayload) s').1 =
        .ok (.records [⟨createdSpace, some (.object []), [], [], []⟩]) := by
  have frames : @Reader.Frames createdReader (Dialect.ofPath ⟨"m/f"⟩) (Literal.quoted createdSpace '\'') :=
    fun _ => ⟨createdTree, if_pos rfl, by decide +kernel⟩
  exact @create_reported createdReader {} ⟨[], []⟩ createdPayload createdPayload ⟨"m/f"⟩ createdSpace (by decide +kernel)
    rfl rfl rfl frames (by decide +kernel) rfl (.inr rfl)

end Service

end StoreModels
