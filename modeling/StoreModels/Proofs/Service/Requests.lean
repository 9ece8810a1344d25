import StoreModels.Proofs.Model.Reached
import StoreModels.Proofs.Service.MapFiles

/-!
Requests are all or nothing. Whatever an operation does to files it does with its last call; if that call is not reached
or fails, the files are as they were. A text that an edit of models writes can be read again, so files that can be read
stay so over any run of requests that do not make files.
-/
namespace StoreModels
open Syntax (Dialect Reader sampleReader)
open MapFiles (text? calls)

variable {σ : Type} [Files (StateM σ)] [MapFiles σ] {s s' s'' : σ} {op : Operation} {payload : Payload} {path : Path}

/-! ## Calls -/

/-- From one state to another, calls have only looked at files. -/
structure Looked (s s' : σ) : Prop where
  files : text? s' = text? s
  made : ∃ log, calls s' = calls s ++ log ∧ ∀ call ∈ log, call.isChange = false

/-- From one state to another, calls have looked at files, and then one was made to change them. -/
def Finished (s s' : σ) : Prop :=
  ∃ log last, calls s' = calls s ++ log ++ [last] ∧ (∀ call ∈ log, call.isChange = false) ∧ last.isChange = true

namespace Looked

theorem refl (s : σ) : Looked s s := ⟨rfl, [], by simp⟩

theorem read (path : Path) (s : σ) : Looked s (StateT.run (Files.read path : StateM σ _) s).2 :=
  ⟨MapFiles.read_same path s, [.read path], MapFiles.calls_read path s, by simp [Call.isChange]⟩

theorem has (path : Path) (s : σ) : Looked s (StateT.run (Files.has path : StateM σ _) s).2 :=
  ⟨MapFiles.has_same path s, [.has path], MapFiles.calls_has path s, by simp [Call.isChange]⟩

/-- A call to change files after some that looked at them. -/
theorem finished (looked : Looked s s') {last : Call} (made : calls s'' = calls s' ++ [last])
    (change : last.isChange = true) : Finished s s'' := by
  obtain ⟨_, log, before, only⟩ := looked
  exact ⟨log, last, by rw [made, before], only, change⟩

theorem lastly (looked : Looked s s') :
    ∃ log, calls s' = calls s ++ log ∧ ∀ call ∈ log.dropLast, call.isChange = false := by
  obtain ⟨_, log, made, only⟩ := looked
  exact ⟨log, made, fun call member => only call (List.dropLast_subset log member)⟩

theorem only (looked : Looked s s') {log : List Call} (made : calls s' = calls s ++ log) :
    ∀ call ∈ log, call.isChange = false := by
  obtain ⟨_, log', made', only⟩ := looked
  rw [made'] at made
  exact List.append_cancel_left made ▸ only

end Looked

theorem Finished.lastly (finished : Finished s s') :
    ∃ log, calls s' = calls s ++ log ∧ ∀ call ∈ log.dropLast, call.isChange = false := by
  obtain ⟨log, last, made, only, _⟩ := finished
  exact ⟨log ++ [last], by rw [made, List.append_assoc], by simpa using only⟩

theorem Finished.not_only (finished : Finished s s') {log : List Call} (made : calls s' = calls s ++ log) :
    ¬ ∀ call ∈ log, call.isChange = false := by
  obtain ⟨log', last, made', _, change⟩ := finished
  rw [made', List.append_assoc] at made
  rw [← List.append_cancel_left made]
  intro only
  have unchanged := only last (by simp)
  rw [change] at unchanged
  cases unchanged

/-! ## What operations do -/

namespace Operation

theorem filePath_required (op : Operation) : Field.filePath ∈ op.required := by
  cases op <;> simp [required]

theorem missing_eq_nil : op.missing payload = [] ↔ ∀ field ∈ op.required, payload.filled? field ≠ none := by
  simp [missing, List.filter_eq_nil_iff, Option.ne_none_iff_isSome]

/-- A request with all required fields is about the path of its payload. -/
theorem target_path {path : Path} (full : op.missing payload = []) (target : payload.target? = some path) :
    op.target payload = .ok path := by
  simp [Operation.target, full, target]

/-- A payload with all required fields has a path. -/
theorem target_full (full : op.missing payload = []) :
    ∃ path, payload.target? = some path ∧ op.target payload = .ok path := by
  have there := missing_eq_nil.mp full .filePath op.filePath_required
  obtain ⟨file, is⟩ := Option.ne_none_iff_exists'.mp there
  have found : ∃ path, payload.target? = some path := by simp [Payload.target?, is]
  obtain ⟨path, target⟩ := found
  exact ⟨path, target, target_path full target⟩

theorem target_lacking (lacking : op.missing payload ≠ []) :
    op.target payload = .error (.missingFields op (op.missing payload)) := by
  simp [Operation.target, lacking]

end Operation

namespace Service
variable [Reader] {settings : Settings}

/-- What an operation may come to: each way in which files and calls may be left, with the result told for it. -/
inductive Did (settings : Settings) (op : Operation) (payload : Payload) (s s' : σ) : Except Fault Outcome → Prop
  | refused (lacking : op.missing payload ≠ []) (same : s' = s) :
    Did settings op payload s s' (.error (.missingFields op (op.missing payload)))
  | gaveUp (full : op.missing payload = []) (looked : Looked s s') (fault : Fault) :
    Did settings op payload s s' (.error fault)
  | failed (full : op.missing payload = []) (changes : op ≠ .info) (files : text? s' = text? s)
    (finished : Finished s s') (fault : Fault) : Did settings op payload s s' (.error fault)
  | created (is : op = .create) (full : op.missing payload = []) {path : Path} (target : payload.target? = some path)
    (free : settings.allowOverwrite = true ∨ text? s path = none) (text : List Char)
    (files : text? s' = Function.update (text? s) path (some text)) (finished : Finished s s') :
    Did settings op payload s s' (.ok (.created path))
  | removed (is : op = .remove) (full : op.missing payload = []) {path : Path} (target : payload.target? = some path)
    (files : text? s' = Function.update (text? s) path none) (finished : Finished s s') :
    Did settings op payload s s' (.ok (.removed path))
  | told (is : op = .info) (full : op.missing payload = []) (looked : Looked s s') (records : List ModelRecord) :
    Did settings op payload s s' (.ok (.records records))
  | kept (edits : (op.edit? payload).isSome) (full : op.missing payload = []) {path : Path}
    (target : payload.target? = some path) (looked : Looked s s') : Did settings op payload s s' (.ok (.updated path false))
  | rewrote (edits : (op.edit? payload).isSome) (full : op.missing payload = []) {path : Path}
    (target : payload.target? = some path) {old new : List Char} (was : text? s path = some old) (differs : new ≠ old)
    {doc : Document} (reads : Document.parse (Dialect.ofPath path) new = .ok doc)
    (files : text? s' = Function.update (text? s) path (some new)) (finished : Finished s s') :
    Did settings op payload s s' (.ok (.updated path true))

/-- What the rest of an operation that was started in one state comes to in another. -/
def Does (settings : Settings) (op : Operation) (payload : Payload) (s : σ) (rest : Job (StateM σ) Outcome) (s' : σ) :
    Prop :=
  Did settings op payload s (rest.outcome s').2 (rest.outcome s').1

/-- Every operation asks for its path first. -/
theorem does_target {next : Path → Job (StateM σ) Outcome}
    (go : ∀ path, op.missing payload = [] → payload.target? = some path → Does settings op payload s (next path) s) :
    Does settings op payload s (liftM (op.target payload) >>= next) s := by
  unfold Does
  rw [Job.outcome_bind, Job.outcome_lift]
  by_cases full : op.missing payload = []
  · obtain ⟨path, target, is⟩ := Operation.target_full full
    rw [is]
    exact go path full target
  · rw [Operation.target_lacking full]
    exact .refused full rfl

/-- A step that only looks at files: if it fails, that is all that has been done. -/
theorem does_look {α : Type} {first : Job (StateM σ) α} {next : α → Job (StateM σ) Outcome}
    (full : op.missing payload = []) (looked : Looked s (first.outcome s').2)
    (go : ∀ a s'', first.outcome s' = (.ok a, s'') → Looked s s'' → Does settings op payload s (next a) s'') :
    Does settings op payload s (first >>= next) s' := by
  unfold Does
  rw [Job.outcome_bind]
  cases is : first.outcome s' with
  | mk result s'' =>
    rw [is] at looked
    cases result with
    | error fault => exact .gaveUp full looked fault
    | ok a => exact go a s'' is looked

/-- A result of the library, that may be a failure. -/
theorem does_orFail {α : Type} {result : Except Failure α} {next : α → Job (StateM σ) Outcome}
    (full : op.missing payload = []) (looked : Looked s s')
    (go : ∀ a, result = .ok a → Does settings op payload s (next a) s') :
    Does settings op payload s (Job.orFail result >>= next) s' := by
  refine does_look full (by rw [Job.outcome_orFail]; exact looked) fun a s'' is _ => ?_
  rw [Job.outcome_orFail] at is
  cases result with
  | error f => cases is
  | ok b =>
    cases is
    exact go a rfl

/-- The last call of an operation: if it fails, files are as they were. -/
theorem does_last {effect : StateM σ (Except StorageError Unit)} {last : Call} {outcome : Outcome}
    (full : op.missing payload = []) (changes : op ≠ .info) (looked : Looked s s')
    (made : calls (StateT.run effect s').2 = calls s' ++ [last]) (change : last.isChange = true)
    (unharmed : ∀ e, (StateT.run effect s').1 = .error e → text? (StateT.run effect s').2 = text? s')
    (go : (StateT.run effect s').1 = .ok () → Finished s (StateT.run effect s').2 →
      Did settings op payload s (StateT.run effect s').2 (.ok outcome)) :
    Does settings op payload s (do Job.call effect; return outcome) s' := by
  unfold Does
  rw [Job.outcome_bind, Job.outcome_call]
  have finished := looked.finished made change
  cases is : (StateT.run effect s').1 with
  | error e => exact .failed full changes ((unharmed e is).trans looked.files) finished _
  | ok _ => exact go is finished

theorem create_does (payload : Payload) (s : σ) : Does settings .create payload s (create settings payload) s := by
  refine does_target fun path full target => ?_
  refine does_look full (Looked.has path s) fun isThere seen is looked => ?_
  have known : isThere = (text? s path).isSome := by
    rw [Job.outcome_effect] at is
    cases is
    exact MapFiles.has_is path s
  by_cases blocked : (isThere && !settings.allowOverwrite) = true
  · rw [if_pos blocked]
    exact .gaveUp full looked _
  · rw [if_neg blocked]
    cases Scaffold.render Scaffold.modelName.toList payload with
    | error e => exact .gaveUp full looked _
    | ok text =>
      refine does_last full (by decide) looked (MapFiles.calls_write path text seen) rfl
        (MapFiles.write_error path text seen) fun wrote finished => ?_
      refine .created rfl full target ?_ text ?_ finished
      · cases allowed : settings.allowOverwrite with
        | true => exact .inl rfl
        | false => exact .inr (by simpa [allowed, known] using blocked)
      · rw [MapFiles.write_ok path text seen wrote, looked.files]

theorem remove_does (payload : Payload) (s : σ) : Does settings .remove payload s (remove payload) s := by
  refine does_target fun path full target => ?_
  refine does_last full (by decide) (Looked.refl s) (MapFiles.calls_remove path s) rfl
    (MapFiles.remove_error path s) fun is finished => ?_
  exact .removed rfl full target (MapFiles.remove_ok path s is) finished

/-- Loading a file looks at it, and the document has its text. -/
theorem load_looks (settings : Settings) (path : Path) (s : σ) :
    Looked s ((load settings path).outcome s).2 ∧ ∀ doc, ((load settings path).outcome s).1 = .ok doc →
      text? s path = some doc.source ∧ doc.dialect = Dialect.ofPath path := by
  have looked := Looked.read path s
  have known := MapFiles.read_ok path s
  have is : (load settings path).outcome s = match (StateT.run (Files.read path : StateM σ _) s).1 with
      | .ok text => ((Document.ofFile settings path text).mapError .failure,
          (StateT.run (Files.read path : StateM σ _) s).2)
      | .error e => (.error (.storage e), (StateT.run (Files.read path : StateM σ _) s).2) := by
    rw [load, Job.outcome_bind, Job.outcome_call]
    cases (StateT.run (Files.read path : StateM σ _) s).1 with
    | error e => rfl
    | ok text => exact Job.outcome_orFail _
  rw [is]
  cases read : (StateT.run (Files.read path : StateM σ _) s).1 with
  | error e => exact ⟨looked, fun doc same => by cases same⟩
  | ok text =>
    refine ⟨looked, fun doc same => ?_⟩
    rw [known text read]
    cases parsed : Document.parse (Dialect.ofPath path) text with
    | error e => simp [Document.ofFile, parsed, Except.mapError] at same
    | ok start =>
      simp only [Except.mapError, Document.ofFile, parsed, Except.ok.injEq] at same
      obtain ⟨texts, dialect, _, _⟩ := Document.parse_buffers parsed
      subst same
      exact ⟨by simp [Document.source, Document.buffer, Document.withFallbackIndent, texts], dialect⟩

theorem info_does (payload : Payload) (s : σ) : Does settings .info payload s (info settings payload) s := by
  refine does_target fun path full _ => ?_
  refine does_look full (load_looks settings path s).1 fun doc seen _ looked => ?_
  refine does_orFail full looked fun records _ => ?_
  exact .told rfl full looked records

theorem update_does {edit : ModelEdit} (is : op.edit? payload = some edit) (s : σ) :
    Does settings op payload s (update settings op payload edit) s := by
  have edits : (op.edit? payload).isSome := by simp [is]
  have changes : op ≠ .info := by
    rintro rfl
    cases is
  refine does_target fun path full target => ?_
  have loaded := load_looks settings path s
  refine does_look full loaded.1 fun doc seen read looked => ?_
  obtain ⟨was, dialect⟩ := loaded.2 doc (congrArg Prod.fst read)
  refine does_orFail full looked fun new _ => ?_
  by_cases same : new = doc.source
  · rw [if_pos same]
    exact .kept edits full target looked
  · rw [if_neg same]
    refine does_orFail full looked fun _ accepted => ?_
    -- A text that is accepted was read in the dialect of the path.
    have reads : ∃ again, Document.parse (Dialect.ofPath path) new = .ok again := by
      rw [Document.accepted, dialect] at accepted
      cases parsed : Document.parse (Dialect.ofPath path) new with
      | error e =>
        rw [parsed] at accepted
        cases accepted
      | ok again => exact ⟨again, rfl⟩
    obtain ⟨again, reads⟩ := reads
    refine does_last full changes looked (MapFiles.calls_write path new seen) rfl
      (MapFiles.write_error path new seen) fun wrote finished => ?_
    refine .rewrote edits full target was same reads ?_ finished
    rw [MapFiles.write_ok path new seen wrote, looked.files]

/-- What any operation does. -/
theorem execute_does (settings : Settings) (op : Operation) (payload : Payload) (s : σ) :
    Does settings op payload s (execute settings op payload) s := by
  unfold execute
  cases is : op.edit? payload with
  | some edit => exact update_does is s
  | none =>
    cases op with
    | create => exact create_does payload s
    | remove => exact remove_does payload s
    | info => exact info_does payload s
    | _ => cases is

/-! ## All or nothing -/

/-- An operation that leads from one state to another with a result has done all of its work or none of it. -/
structure AllOrNothing (settings : Settings) (op : Operation) (payload : Payload) (s : σ)
    (result : Except Fault Outcome) (s' : σ) : Prop where
  /-- Without a required field no call is made. -/
  lacking : (∃ field ∈ op.required, payload.filled? field = none) →
    result = .error (.missingFields op (op.missing payload)) ∧ s' = s
  /-- An operation that fails leaves all files as they were. -/
  failed : ∀ fault, result = .error fault → text? s' = text? s
  /-- No other file than the one asked for changes. -/
  elsewhere : ∀ path, payload.target? ≠ some path → text? s' path = text? s path
  /-- Only the last call may be one to change files. -/
  lastly : ∃ log, calls s' = calls s ++ log ∧ ∀ call ∈ log.dropLast, call.isChange = false
  told : op = .info → Looked s s'
  created : op = .create → settings.allowOverwrite = false → ∀ path, text? s path ≠ none → text? s' path = text? s path
  /-- An edit tells whether it wrote, which is whether the text is another one; and that text can be read. -/
  updated : (op.edit? payload).isSome → ∀ outcome, result = .ok outcome →
    ∃ path changed, outcome = .updated path changed ∧ payload.target? = some path ∧
      (∀ log, calls s' = calls s ++ log → (changed = false ↔ ∀ call ∈ log, call.isChange = false)) ∧
      (changed = false ↔ text? s' path = text? s path) ∧
      (changed = true → ∃ text doc, text? s' path = some text ∧ Document.parse (Dialect.ofPath path) text = .ok doc)

namespace Did
variable {result : Except Fault Outcome}

theorem lacking (did : Did settings op payload s s' result)
    (empty : ∃ field ∈ op.required, payload.filled? field = none) :
    result = .error (.missingFields op (op.missing payload)) ∧ s' = s := by
  obtain ⟨field, needed, none⟩ := empty
  have notFull : op.missing payload ≠ [] := fun full => Operation.missing_eq_nil.mp full field needed none
  cases did with
  | refused _ same => exact ⟨rfl, same⟩
  | _ => contradiction

theorem failed_files {fault : Fault} (did : Did settings op payload s s' (.error fault)) : text? s' = text? s := by
  cases did with
  | refused _ same => rw [same]
  | gaveUp _ looked _ => exact looked.files
  | failed _ _ files _ _ => exact files

theorem elsewhere (did : Did settings op payload s s' result) (outside : payload.target? ≠ some path) :
    text? s' path = text? s path := by
  cases did with
  | refused _ same => rw [same]
  | failed _ _ files _ _ => rw [files]
  | gaveUp _ looked _ | told _ _ looked _ | kept _ _ _ looked => rw [looked.files]
  | created _ _ target _ _ files _ | removed _ _ target files _ | rewrote _ _ target _ _ _ files _ =>
    rw [files, Function.update_of_ne]
    rintro rfl
    exact outside target

theorem lastly (did : Did settings op payload s s' result) :
    ∃ log, calls s' = calls s ++ log ∧ ∀ call ∈ log.dropLast, call.isChange = false := by
  cases did with
  | refused _ same => exact same ▸ (Looked.refl s).lastly
  | gaveUp _ looked _ | told _ _ looked _ | kept _ _ _ looked => exact looked.lastly
  | failed _ _ _ finished _ | created _ _ _ _ _ _ finished | removed _ _ _ _ finished
    | rewrote _ _ _ _ _ _ _ finished => exact finished.lastly

theorem info_looked (did : Did settings .info payload s s' result) : Looked s s' := by
  cases did with
  | refused _ same => exact same ▸ Looked.refl s
  | gaveUp _ looked _ | told _ _ looked _ => exact looked
  | failed _ changes => exact absurd rfl changes
  | created is | removed is => cases is
  | kept edits | rewrote edits => cases edits

theorem create_spares (did : Did settings .create payload s s' result) (forbidden : settings.allowOverwrite = false)
    (there : text? s path ≠ none) : text? s' path = text? s path := by
  cases did with
  | refused _ same => rw [same]
  | gaveUp _ looked _ => rw [looked.files]
  | failed _ _ files _ _ => rw [files]
  | created _ _ _ free _ files _ =>
    rcases free with allowed | absent
    · rw [allowed] at forbidden
      cases forbidden
    · rw [files, Function.update_of_ne]
      rintro rfl
      exact there absent
  | removed is | told is => cases is
  | kept edits | rewrote edits => cases edits

theorem update_tells {outcome : Outcome} (did : Did settings op payload s s' (.ok outcome))
    (edits : (op.edit? payload).isSome) :
    ∃ path changed, outcome = .updated path changed ∧ payload.target? = some path ∧
      (∀ log, calls s' = calls s ++ log → (changed = false ↔ ∀ call ∈ log, call.isChange = false)) ∧
      (changed = false ↔ text? s' path = text? s path) ∧
      (changed = true → ∃ text doc, text? s' path = some text ∧ Document.parse (Dialect.ofPath path) text = .ok doc) := by
  cases did with
  | created is | removed is | told is =>
    subst is
    cases edits
  | @kept _ _ path target looked =>
    refine ⟨path, false, rfl, target, fun log made => iff_of_true rfl (looked.only made), iff_of_true rfl ?_, ?_⟩
    · rw [looked.files]
    · exact fun impossible => by cases impossible
  | @rewrote _ _ path target old new was differs doc reads files finished =>
    have now : text? s' path = some new := by rw [files, Function.update_self]
    refine ⟨path, true, rfl, target, fun log made => iff_of_false (by decide) (finished.not_only made),
      iff_of_false (by decide) fun same => ?_, fun _ => ⟨new, doc, now, reads⟩⟩
    rw [now, was] at same
    exact differs (Option.some.inj same)

theorem allOrNothing (did : Did settings op payload s s' result) : AllOrNothing settings op payload s result s' where
  lacking := did.lacking
  failed _ same := (same ▸ did).failed_files
  elsewhere _ := did.elsewhere
  lastly := did.lastly
  told info := (info ▸ did).info_looked
  created create forbidden _ there := (create ▸ did).create_spares forbidden there
  updated edits _ same := (same ▸ did).update_tells edits

end Did

/-! ## Runs -/

/-- If a path leads to a file, then to one that can be read. -/
def Stays (path : Path) (s : σ) : Prop :=
  ∀ text, text? s path = some text → ∃ doc, Document.parse (Dialect.ofPath path) text = .ok doc

/-- The state after requests that are carried out one after the other, whatever each comes to. -/
def after (settings : Settings) (s : σ) (requests : List (Operation × Payload)) : σ :=
  requests.foldl (fun s request => (Job.outcome (execute settings request.1 request.2) s).2) s

/-- One operation other than making a file keeps a file that can be read so. -/
theorem Did.stays {result : Except Fault Outcome} (did : Did settings op payload s s' result) (makes : op ≠ .create)
    (start : Stays path s) : Stays path s' := by
  have unchanged (files : text? s' = text? s) : Stays path s' := fun text is => start text (files ▸ is)
  cases did with
  | refused _ same => exact same ▸ start
  | gaveUp _ looked _ => exact unchanged looked.files
  | failed _ _ files _ _ => exact unchanged files
  | created is => exact absurd is makes
  | @removed _ _ path' _ files _ =>
    intro text is
    rw [files, Function.update_apply] at is
    split at is
    · cases is
    · exact start text is
  | told _ _ looked _ => exact unchanged looked.files
  | kept _ _ _ looked => exact unchanged looked.files
  | @rewrote _ _ path' _ _ new _ _ doc reads files _ =>
    intro text is
    rw [files, Function.update_apply] at is
    split at is
    next here =>
      cases is
      exact ⟨doc, here ▸ reads⟩
    next => exact start text is

theorem after_stays (settings : Settings) {requests : List (Operation × Payload)}
    (make : ∀ request ∈ requests, request.1 ≠ .create) (start : Stays path s) :
    Stays path (after settings s requests) := by
  induction requests generalizing s with
  | nil => exact start
  | cons request rest ih =>
    have step := (execute_does settings request.1 request.2 s).stays (make request (by simp)) start
    exact ih (fun later member => make later (List.mem_cons_of_mem _ member)) step

/-- Every operation with any payload, on any files that behave as a map, is all or nothing; and over any run of
    operations that do not make files, a file that can be read at the start can be read whenever it is there. -/
theorem execute_allOrNothing (settings : Settings) (s : σ) :
    (∀ op payload, AllOrNothing settings op payload s (Job.outcome (execute settings op payload) s).1
      (Job.outcome (execute settings op payload) s).2) ∧
    ∀ requests : List (Operation × Payload), (∀ request ∈ requests, request.1 ≠ .create) → ∀ path,
      Stays path s → Stays path (after settings s requests) :=
  ⟨fun op payload => (execute_does settings op payload s).allOrNothing,
    fun _ make _ start => after_stays settings make start⟩

/-- A file at `m/f` with the sample in it. -/
def sampleSession : Session := ⟨[(⟨"m/f"⟩, Syntax.sampleText)], []⟩

/-- What to take out of the sample, and where it is. -/
def samplePayload : Payload where
  value
    | .nameSpace => some ['a']
    | .name => some ['b']
    | .sourcePath => some ['m']
    | .filePath => some ['f']
    | _ => none

/-- What becomes of the file when the reducer is asked to go. -/
def sampleRun : Except Fault Outcome × Session :=
  Job.outcome (@execute sampleReader (StateM Session) _ _ {} (.removeEntry .reducers) samplePayload) sampleSession

omit [Reader] in
theorem sampleSession_stays : @Stays Session _ _ sampleReader ⟨"m/f"⟩ sampleSession := by
  intro text found
  have is : text? sampleSession ⟨"m/f"⟩ = some Syntax.sampleText := by decide +kernel
  cases is.symm.trans found
  exact ⟨_, rfl⟩

omit [Reader] in
/-- The sample reader knows no text in which the reducer is gone: so the request is refused after the file was read, and
    the file stays as it was. -/
theorem execute_allOrNothing_session :
    @AllOrNothing Session _ _ sampleReader {} (.removeEntry .reducers) samplePayload sampleSession sampleRun.1 sampleRun.2 ∧
      sampleRun.2.calls = [.read ⟨"m/f"⟩] ∧ sampleRun.2.files = sampleSession.files ∧
      @Stays Session _ _ sampleReader ⟨"m/f"⟩
        (@after Session _ sampleReader {} sampleSession [(.removeEntry .reducers, samplePayload)]) := by
  obtain ⟨one, run⟩ := @execute_allOrNothing Session _ _ sampleReader {} sampleSession
  exact ⟨one _ _, by decide +kernel, by decide +kernel, run _ (by simp) _ sampleSession_stays⟩

end Service

end StoreModels
