import StoreModels.Proofs.Document.Reread
import StoreModels.Proofs.Literal.Spelled
import StoreModels.Proofs.Model.Retitled

/-!
The models of a file that is read again after the titles of those with one namespace have been exchanged for ones of
another. The file has the same models in the same order; those of the old namespace are now of the new one, and all
others have the namespaces that they had.
-/
namespace StoreModels
open Syntax (Dialect Span Reader Tree)
open Text (slice splice Ordered Exchange)

namespace Document
variable {doc doc' : Document} {exchanges : List Exchange} {x y : NodeId} {es es' : List NodeId}
  {old new : List Char}

/-! ## Entries told again -/

section
variable (forest : doc.Forest) (forest' : doc'.Forest)
include forest forest'

/-- The last entry under a bare name is told again by the last one under it. -/
theorem Retells.entryNamed? (retells : doc.Retells doc' exchanges x y) (object : doc.role x = .object)
    (name : List Char) :
    Option.Rel (doc.Retells doc' exchanges) (doc.entryNamed? x name) (doc'.entryNamed? y name) := by
  refine forall₂_getLast? (List.rel_filter (fun e e' told => ?_) (retells.entries object))
  simp only [told.entryIdentifier? forest forest']

omit forest forest' in
/-- A namespace is told again by a namespace. -/
theorem Retells.namespaceText (retells : doc.Retells doc' exchanges x y) {text : List Char}
    (tells : doc.namespaceText x = .ok text) : ∃ text', doc'.namespaceText y = .ok text' := by
  simp only [Document.namespaceText, retells.entryBody.role] at tells ⊢
  split at tells
  next literal => exact ⟨_, by rw [if_pos literal]⟩
  next => cases tells

/-- Entries that come to a namespace, or to none, come to one again if another property of a model is among them. -/
theorem recognizeEntries_retold (pairs : List.Forall₂ (doc.Retells doc' exchanges) es es')
    {space found : Option (List Char)} {shaped shape : Bool}
    (run : doc.recognizeEntries space shaped es = .ok (found, shape)) (space' : Option (List Char)) :
    ∃ found', doc'.recognizeEntries space' shaped es' = .ok (found', shape) := by
  induction pairs generalizing space shaped space' with
  | nil =>
    cases run
    exact ⟨space', rfl⟩
  | @cons e e' rest rest' told _ ih =>
    have property : doc'.entryProperty? e' = doc.entryProperty? e := by
      rw [entryProperty?, told.entryIdentifier? forest forest', entryProperty?]
    simp only [recognizeEntries, property] at run ⊢
    split at run
    next => exact ih run space'
    next =>
      obtain ⟨text, tells, run⟩ := bind_eq_ok.mp run
      obtain ⟨text', tells'⟩ := told.namespaceText tells
      obtain ⟨found', run'⟩ := ih run (some text')
      exact ⟨found', by rw [tells']; exact run'⟩
    next => exact ih run space'

end

/-! ## Models told again -/

/-- The exchanges are those of the titles of models of one namespace, for literals of another. -/
structure Respells (doc : Document) (exchanges : List Exchange) (old new : List Char) : Prop where
  exchanged : ∀ {x span text}, doc.role x = .stringLiteral → (doc.node x).origin = .parsed 0 span →
    exchanges.lookup span = some text → Literal.unquoted (doc.text x) = old ∧ Literal.unquoted text = new
  titles : ∀ {m p x span}, m.object ∈ doc.objects → doc.recognize none m.object = .ok (some m) → m.space = old →
    m.Titled doc p x → (doc.node x).origin = .parsed 0 span → exchanges.lookup span ≠ none

section
variable (forest : doc.Forest) (forest' : doc'.Forest) (respells : doc.Respells exchanges old new)
include forest forest' respells

/-- A literal that is told again stands for what it stood for, unless it stood for the old namespace. -/
theorem Respells.literal (retells : doc.Retells doc' exchanges x y) (literal : doc.role x = .stringLiteral) :
    ∃ span, (doc.node x).origin = .parsed 0 span ∧
      (exchanges.lookup span = none ∧ Literal.unquoted (doc'.text y) = Literal.unquoted (doc.text x) ∨
        exchanges.lookup span ≠ none ∧ Literal.unquoted (doc.text x) = old ∧ Literal.unquoted (doc'.text y) = new) := by
  obtain ⟨span, parsed, text⟩ := retells.text_literal forest forest' literal
  refine ⟨span, parsed, ?_⟩
  cases found : exchanges.lookup span with
  | none =>
    rw [found, Option.getD_none] at text
    exact .inl ⟨rfl, by rw [text]⟩
  | some told =>
    rw [found, Option.getD_some] at text
    obtain ⟨was, now⟩ := respells.exchanged literal parsed found
    exact .inr ⟨by simp, was, by rw [text, now]⟩

variable (someOld : old ≠ [])
include someOld

/-- The entries of an object literal come to the same namespace again, or from the old one to the new one. -/
theorem Respells.entries (retells : doc.Retells doc' exchanges x y) (listed : x ∈ doc.objects)
    {found : Option (List Char)} {shape : Bool}
    (run : doc.recognizeEntries none false (doc.entries x) = .ok (found, shape)) :
    ∃ found', doc'.recognizeEntries none false (doc'.entries y) = .ok (found', shape) ∧
      (found' = found ∧ ¬ (shape = true ∧ found = some old) ∨ found = some old ∧ found' = some new) := by
  have object : doc.role x = .object := by simpa using (List.mem_filter.mp listed).2
  obtain ⟨found', run'⟩ := recognizeEntries_retold forest forest' (retells.entries object) run none
  refine ⟨found', run', ?_⟩
  have named := retells.entryNamed? forest forest' object Model.namespaceName
  rcases recognizeEntries_titled run with ⟨none, absent⟩ | ⟨p, v, is, held, literal, space⟩
  · rcases recognizeEntries_titled run' with ⟨none', _⟩ | ⟨p', _, is', _⟩
    · exact .inl ⟨none'.trans none.symm, fun both => by simp [none] at both⟩
    · rw [absent, is'] at named
      cases named
  · rcases recognizeEntries_titled run' with ⟨_, absent⟩ | ⟨p', v', is', held', _, space'⟩
    · rw [is, absent] at named
      cases named
    · rw [is, is'] at named
      obtain told | _ := named
      have value := told.pairValue?
      rw [held, held'] at value
      obtain told | _ := value
      obtain ⟨span, parsed, ⟨kept, same⟩ | ⟨_, was, now⟩⟩ := respells.literal forest forest' told literal
      · refine .inl ⟨by rw [space', space, same], fun ⟨shaped, of_old⟩ => ?_⟩
        -- A model of the old namespace would have had its title exchanged.
        have text : Literal.unquoted (doc.text v) = old := Option.some.inj (space.symm.trans of_old)
        have model : doc.recognize none x = .ok (some ⟨x, old⟩) :=
          recognize_some_iff.mpr ⟨rfl, someOld, by rw [run, of_old, shaped]⟩
        exact respells.titles (m := ⟨x, old⟩) listed model rfl ⟨object, is, held, literal, text⟩ parsed kept
      · exact .inr ⟨by rw [space, was], by rw [space', now]⟩

variable (someNew : new ≠ [])
include someNew

/-- An object literal is told again by one that is a model just if it was one, and of the new namespace if it was of
    the old one. -/
theorem Respells.recognize (retells : doc.Retells doc' exchanges x y) (listed : x ∈ doc.objects) {one : Option Model}
    (run : doc.recognize none x = .ok one) :
    doc'.recognize none y = .ok (one.map fun m => ⟨y, if m.space = old then new else m.space⟩) := by
  cases one with
  | none =>
    obtain ⟨found, shape, entries, none⟩ := recognize_none_iff.mp run
    obtain ⟨found', entries', same⟩ := respells.entries forest forest' someOld retells listed entries
    refine recognize_none_iff.mpr ⟨found', shape, entries', fun text is => ?_⟩
    rcases same with ⟨same, _⟩ | ⟨was, _⟩
    · exact none text (same ▸ is)
    · exact .inr ((none old was).resolve_left someOld)
  | some m =>
    obtain ⟨_, filled, entries⟩ := recognize_some_iff.mp run
    obtain ⟨found', entries', same⟩ := respells.entries forest forest' someOld retells listed entries
    rcases same with ⟨rfl, other⟩ | ⟨was, rfl⟩
    · have other : m.space ≠ old := fun same => other ⟨rfl, by rw [same]⟩
      rw [Option.map_some, if_neg other]
      exact recognize_some_iff.mpr ⟨rfl, filled, entries'⟩
    · rw [Option.map_some, if_pos (Option.some.inj was)]
      exact recognize_some_iff.mpr ⟨rfl, someNew, entries'⟩

/-- The models of a file are told again one by one. -/
theorem Respells.models (plain : doc.Plain) (present : doc.root < doc.nodes.size) (present' : doc'.root < doc'.nodes.size)
    (retells : doc.Retells doc' exchanges doc.root doc'.root) {all : List Model} (found : doc.models none = .ok all) :
    ∃ all', doc'.models none = .ok all' ∧
      all'.map Model.space = all.map fun m => if m.space = old then new else m.space := by
  have each : ∀ {xs ys : List NodeId} {ms : List Model}, List.Forall₂ (doc.Retells doc' exchanges) xs ys →
      (∀ x ∈ xs, x ∈ doc.objects) → doc.recognizeAll none xs = .ok ms →
      ∃ ms', doc'.recognizeAll none ys = .ok ms' ∧
        ms'.map Model.space = ms.map fun m => if m.space = old then new else m.space := by
    intro xs ys ms pairs listed run
    induction pairs generalizing ms with
    | nil =>
      cases run
      exact ⟨[], rfl, rfl⟩
    | cons told _ ih =>
      obtain ⟨one, rest, here, later, rfl⟩ := recognizeAll_cons.mp run
      obtain ⟨rest', later', spaces⟩ := ih (fun x member => listed x (List.mem_cons_of_mem _ member)) later
      have here' := respells.recognize forest forest' someOld someNew told (listed _ List.mem_cons_self) here
      refine ⟨_, recognizeAll_cons.mpr ⟨_, rest', here', later', rfl⟩, ?_⟩
      cases one with
      | none => exact spaces
      | some m => simpa using spaces
  exact each (retells.objects plain forest forest' present present') (fun _ member => member) found

end

/-! ## Renamed models told again -/

/-- A new title is a string literal in the quotes of the old one that stands for the new namespace. -/
theorem newTitle_spelled (doc : Document) (new : List Char) (x : NodeId) :
    Literal.isQuote (Literal.quoteOf (doc.text x)) = true ∧
      Literal.Spelled (Literal.quoteOf (doc.text x)) (doc.newTitle new x) ∧
      Literal.unquoted (doc.newTitle new x) = new :=
  have isQuote := Literal.isQuote_quoteOf (doc.text x)
  ⟨isQuote, Literal.spelled_quoted isQuote new, Literal.unquoted_quoted isQuote new⟩

/-- The titles of the models of one namespace are exchanged for titles of another. -/
theorem respells_of_retitles {program : Tree} {models : List Model} (fresh : doc.Fresh program)
    (asked : doc.models (some old) = .ok models)
    (gathered : ∀ exchange, exchange ∈ exchanges ↔ doc.Retitles models new doc.root exchange) :
    doc.Respells exchanges old new where
  exchanged {x span text} literal parsed found := by
    obtain ⟨before, after, split, _⟩ := List.lookup_eq_some_iff.mp found
    have member : (span, text) ∈ exchanges := by simp [split]
    obtain ⟨title, ⟨m, listed, p, titled⟩, _, place, rfl⟩ := (gathered _).mp member
    -- The literal stands at the place of the title, so it has its text.
    have same : doc.text x = doc.text title := by
      obtain ⟨here, origin, text⟩ := fresh.text_eq (lt_of_role literal (by decide))
      obtain ⟨there, origin', text'⟩ := fresh.text_eq (lt_of_role titled.literal (by decide))
      rw [parsed] at origin
      rw [place] at origin'
      cases origin
      cases origin'
      rw [text, text']
    exact ⟨by rw [same, titled.space, ((mem_models_iff asked).mp listed).2.2], (newTitle_spelled doc new title).2.2⟩
  titles {m p x span} listed model space titled parsed none := by
    have member : m ∈ models := (mem_models_iff asked).mpr ⟨listed, model, space⟩
    have below : doc.Below doc.root x :=
      (below_of_mem_descend (List.mem_of_mem_filter listed)).trans
        ((Below.child titled.entry_child).trans (Below.child titled.value_child))
    have exchanged : (span, doc.newTitle new x) ∈ exchanges :=
      (gathered _).mpr ⟨x, ⟨m, member, p, titled⟩, below, parsed, rfl⟩
    have absent := List.lookup_eq_none_iff.mp none _ exchanged
    simp at absent

end Document

end StoreModels
