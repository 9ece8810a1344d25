import StoreModels.Proofs.Model.Runs
import StoreModels.Service.Run
import StoreModels.Storage.Session

/-!
Files that behave as a map from paths to texts. What a job does to such files is told by what each call does to the map;
the files of a session are an instance.
-/
namespace StoreModels

/-- Files that behave as a map. A state shows the map and the calls made so far; calls that fail leave the map as it
    is, for whatever reason they fail. -/
class MapFiles (σ : Type) [Files (StateM σ)] where
  text? : σ → Path → Option (List Char)
  calls : σ → List Call
  calls_read : ∀ path s, calls (StateT.run (Files.read path : StateM σ _) s).2 = calls s ++ [.read path]
  calls_has : ∀ path s, calls (StateT.run (Files.has path : StateM σ _) s).2 = calls s ++ [.has path]
  calls_write : ∀ path text s, calls (StateT.run (Files.write path text : StateM σ _) s).2 = calls s ++ [.write path]
  calls_remove : ∀ path s, calls (StateT.run (Files.remove path : StateM σ _) s).2 = calls s ++ [.remove path]
  read_same : ∀ path s, text? (StateT.run (Files.read path : StateM σ _) s).2 = text? s
  read_ok : ∀ path s text, (StateT.run (Files.read path : StateM σ _) s).1 = .ok text → text? s path = some text
  has_same : ∀ path s, text? (StateT.run (Files.has path : StateM σ _) s).2 = text? s
  has_is : ∀ path s, (StateT.run (Files.has path : StateM σ _) s).1 = (text? s path).isSome
  write_ok : ∀ path text s, (StateT.run (Files.write path text : StateM σ _) s).1 = .ok () →
    text? (StateT.run (Files.write path text : StateM σ _) s).2 = Function.update (text? s) path (some text)
  write_error : ∀ path text s e, (StateT.run (Files.write path text : StateM σ _) s).1 = .error e →
    text? (StateT.run (Files.write path text : StateM σ _) s).2 = text? s
  remove_ok : ∀ path s, (StateT.run (Files.remove path : StateM σ _) s).1 = .ok () →
    text? (StateT.run (Files.remove path : StateM σ _) s).2 = Function.update (text? s) path none
  remove_error : ∀ path s e, (StateT.run (Files.remove path : StateM σ _) s).1 = .error e →
    text? (StateT.run (Files.remove path : StateM σ _) s).2 = text? s

/-! ## Sessions -/

namespace FileMap
variable (path name other : Path) (text old : List Char) (files : FileMap)

theorem get?_cons : get? ((name, old) :: files) other = if other = name then some old else files.get? other := by
  rw [get?, get?, List.lookup_cons]
  by_cases same : other = name
  · simp [same]
  · simp [same, beq_eq_false_iff_ne.mpr same]

theorem get?_put : (files.put path text).get? = Function.update files.get? path (some text) := by
  funext other
  induction files with
  | nil => simp [put, get?_cons, Function.update_apply]
  | cons file rest ih =>
    obtain ⟨name, old⟩ := file
    rw [Function.update_apply] at ih ⊢
    by_cases here : name = path
    · rw [put, if_pos here, get?_cons, get?_cons, here]
      split <;> rfl
    · rw [put, if_neg here, get?_cons, get?_cons, ih]
      by_cases same : other = path
      · simp [same, Ne.symm here]
      · rw [if_neg same, if_neg same]

theorem get?_drop : (files.drop path).get? = Function.update files.get? path none := by
  funext other
  induction files with
  | nil => simp [drop, get?, Function.update_apply]
  | cons file rest ih =>
    obtain ⟨name, old⟩ := file
    rw [Function.update_apply] at ih ⊢
    rw [drop] at ih ⊢
    by_cases here : name = path
    · rw [List.filter_cons_of_neg (by simpa using here), ih, get?_cons, here]
      split <;> rfl
    · rw [List.filter_cons_of_pos (by simpa using here), get?_cons, get?_cons, ih]
      by_cases same : other = path
      · simp [same, Ne.symm here]
      · rw [if_neg same, if_neg same]

end FileMap

namespace Session
variable (s : Session) (path : Path) (text : List Char)

theorem run_read : StateT.run (Files.read path : StateM Session _) s =
    ((s.files.get? path).elim (.error .notFound) .ok, { s with calls := s.calls ++ [.read path] }) := by
  cases found : s.files.get? path <;> simp [Files.read, record, found] <;> rfl

theorem run_has : StateT.run (Files.has path : StateM Session _) s =
    ((s.files.get? path).isSome, { s with calls := s.calls ++ [.has path] }) := rfl

theorem run_write : StateT.run (Files.write path text : StateM Session _) s =
    (.ok (), { files := s.files.put path text, calls := s.calls ++ [.write path] }) := rfl

theorem run_remove : StateT.run (Files.remove path : StateM Session _) s =
    ((s.files.get? path).elim (.error .notFound, { s with calls := s.calls ++ [.remove path] })
      fun _ => (.ok (), { files := s.files.drop path, calls := s.calls ++ [.remove path] })) := by
  cases found : s.files.get? path <;> simp [Files.remove, record, found] <;> rfl

instance : MapFiles Session where
  text? s := s.files.get?
  calls s := s.calls
  calls_read path s := by rw [run_read]
  calls_has _ _ := rfl
  calls_write _ _ _ := rfl
  calls_remove path s := by
    rw [run_remove]
    cases s.files.get? path <;> rfl
  read_same path s := by simp only [run_read]
  read_ok path s text is := by
    rw [run_read] at is
    cases found : s.files.get? path with
    | none =>
      rw [found] at is
      cases is
    | some other =>
      rw [found] at is
      cases is
      rfl
  has_same _ _ := rfl
  has_is _ _ := rfl
  write_ok path text s _ := s.files.get?_put path text
  write_error _ _ _ _ is := by cases is
  remove_ok path s is := by
    rw [run_remove] at is ⊢
    cases found : s.files.get? path with
    | none =>
      rw [found] at is
      cases is
    | some _ => exact s.files.get?_drop path
  remove_error path s e is := by
    rw [run_remove] at is ⊢
    cases found : s.files.get? path with
    | none => rfl
    | some _ =>
      rw [found] at is
      cases is

end Session

/-! ## Jobs -/

namespace Job
variable {σ α β : Type} {s : σ}

/-- What a job comes to and the state it leaves. -/
def outcome (job : Job (StateM σ) α) (s : σ) : Except Fault α × σ := ExceptT.run job s

theorem outcome_bind (first : Job (StateM σ) α) (next : α → Job (StateM σ) β) :
    outcome (first >>= next) s =
      match outcome first s with
      | (.ok a, s') => outcome (next a) s'
      | (.error fault, s') => (.error fault, s') := by
  show StateT.run (ExceptT.run (first >>= next)) s = _
  rw [ExceptT.run_bind, StateT.run_bind]
  rw [show StateT.run (ExceptT.run first) s = outcome first s from rfl]
  rcases outcome first s with ⟨result, s'⟩
  cases result <;> rfl

/-- A job that succeeds is one step that does and then another. -/
theorem outcome_bind_ok {first : Job (StateM σ) α} {next : α → Job (StateM σ) β} {b : β} {s'' : σ}
    (run : outcome (first >>= next) s = (.ok b, s'')) :
    ∃ a s', outcome first s = (.ok a, s') ∧ outcome (next a) s' = (.ok b, s'') := by
  rw [outcome_bind] at run
  cases is : outcome first s with
  | mk result s' =>
    rw [is] at run
    cases result with
    | error fault => cases run
    | ok a => exact ⟨a, s', rfl, run⟩

@[simp] theorem outcome_pure (a : α) : outcome (pure a : Job (StateM σ) α) s = (.ok a, s) := rfl

@[simp] theorem outcome_throw (fault : Fault) : outcome (throw fault : Job (StateM σ) α) s = (.error fault, s) := rfl

@[simp] theorem outcome_lift (result : Except Fault α) :
    outcome (liftM result : Job (StateM σ) α) s = (result, s) := by
  cases result <;> rfl

@[simp] theorem outcome_orFail (result : Except Failure α) :
    outcome (orFail result : Job (StateM σ) α) s = (result.mapError .failure, s) := by
  cases result <;> rfl

@[simp] theorem outcome_effect (effect : StateM σ α) :
    outcome (liftM effect : Job (StateM σ) α) s = (.ok (StateT.run effect s).1, (StateT.run effect s).2) := rfl

@[simp] theorem outcome_call (effect : StateM σ (Except StorageError α)) :
    outcome (call effect) s = ((StateT.run effect s).1.mapError .storage, (StateT.run effect s).2) := by
  rw [call, outcome_bind, outcome_effect]
  cases (StateT.run effect s).1 <;> rfl

theorem outcome_orFail_ok {result : Except Failure α} {a : α} {s' : σ}
    (run : outcome (orFail result) s = (.ok a, s')) : result = .ok a ∧ s' = s := by
  rw [outcome_orFail] at run
  cases result with
  | error failure => cases run
  | ok a =>
    cases run
    exact ⟨rfl, rfl⟩

theorem outcome_call_ok {effect : StateM σ (Except StorageError α)} {a : α} {s' : σ}
    (run : outcome (call effect) s = (.ok a, s')) : StateT.run effect s = (.ok a, s') := by
  rw [outcome_call] at run
  generalize StateT.run effect s = reached at run ⊢
  obtain ⟨result, seen⟩ := reached
  cases result with
  | error e => cases run
  | ok a =>
    cases run
    rfl

end Job

end StoreModels
