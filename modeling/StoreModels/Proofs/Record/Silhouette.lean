import StoreModels.Proofs.Record.Found

/-!
What is left of an object literal when the entries with one name are covered up: of every other entry its bare name and
the text that it would have as a namespace. Edits of the entries with that name leave this as it is. So an object
literal that is no model becomes one only if the name is a model property and a bare namespace is among the entries.
-/
namespace StoreModels

namespace Document
variable {doc doc' : Document} {k e : NodeId} {name : List Char} {es es' : List NodeId}

/-- What counts of an entry when models are recognized. -/
def profile (doc : Document) (entry : NodeId) : Option (List Char) × Except Failure (List Char) :=
  (doc.entryIdentifier? entry, doc.namespaceText entry)

/-- The profiles of the entries of an object literal that do not have a name. -/
def silhouette (doc : Document) (object : NodeId) (name : List Char) :
    List (Option (List Char) × Except Failure (List Char)) :=
  ((doc.entries object).filter fun e => doc.entryName? e != some name).map doc.profile

theorem entryName?_of_identifier (named : doc.entryIdentifier? e = some name) : doc.entryName? e = some name := by
  obtain ⟨key, is, bare⟩ := Option.bind_eq_some_iff.mp named
  rw [entryName?, is, Option.bind_some]
  cases key with
  | identifier n => exact bare
  | literal n => cases bare
  | computed => cases bare
  | spread => cases bare

/-- An exchange of some entries with the name for others with it. -/
theorem silhouette_exchange {before after mid mid' : List NodeId} (was : doc.entries k = before ++ mid ++ after)
    (now : doc'.entries k = before ++ mid' ++ after) (named : ∀ e ∈ mid, doc.entryName? e = some name)
    (named' : ∀ e ∈ mid', doc'.entryName? e = some name)
    (same : ∀ e, e ∈ before ∨ e ∈ after → doc'.entryName? e = doc.entryName? e ∧ doc'.profile e = doc.profile e) :
    doc'.silhouette k name = doc.silhouette k name := by
  have covered : ∀ (d : Document) (es : List NodeId), (∀ e ∈ es, d.entryName? e = some name) →
      es.filter (fun e => d.entryName? e != some name) = [] := fun d es named =>
    List.filter_eq_nil_iff.mpr fun e member => by simp [named e member]
  have kept : ∀ es : List NodeId, (∀ e ∈ es, doc'.entryName? e = doc.entryName? e ∧ doc'.profile e = doc.profile e) →
      (es.filter fun e => doc'.entryName? e != some name).map doc'.profile =
        (es.filter fun e => doc.entryName? e != some name).map doc.profile := fun es same => by
    rw [List.filter_congr fun e member => by rw [(same e member).1]]
    exact List.map_congr_left fun e member => (same e (List.mem_of_mem_filter member)).2
  simp only [silhouette, was, now, List.filter_append, List.map_append, covered doc mid named, covered doc' mid' named',
    kept before fun e member => same e (.inl member), kept after fun e member => same e (.inr member), List.map_nil]

/-- Entries of the same profiles are recognized alike. -/
theorem recognizeEntries_congr (same : es'.map doc'.profile = es.map doc.profile) (space : Option (List Char))
    (shaped : Bool) : doc'.recognizeEntries space shaped es' = doc.recognizeEntries space shaped es := by
  induction es generalizing es' space shaped with
  | nil =>
    rw [List.map_nil, List.map_eq_nil_iff] at same
    rw [same]
    rfl
  | cons e rest ih =>
    obtain ⟨e', rest', rfl, here, later⟩ := List.map_eq_cons_iff.mp same
    have property : doc'.entryProperty? e' = doc.entryProperty? e := by
      have bare : doc'.entryIdentifier? e' = doc.entryIdentifier? e := congrArg Prod.fst here
      rw [entryProperty?, bare, entryProperty?]
    have text : doc'.namespaceText e' = doc.namespaceText e := congrArg Prod.snd here
    simp only [recognizeEntries, property, text, ih later]

/-- Being a model is a matter of what the entries are recognized as. -/
theorem recognize_none_iff : doc.recognize none k = .ok none ↔
    ∃ space shaped, doc.recognizeEntries none false (doc.entries k) = .ok (space, shaped) ∧
      ∀ text, space = some text → text = [] ∨ shaped = false := by
  unfold recognize
  cases doc.recognizeEntries none false (doc.entries k) with
  | error failure =>
    constructor
    · intro run
      cases run
    · rintro ⟨_, _, run, _⟩
      cases run
  | ok result =>
    obtain ⟨space, shaped⟩ := result
    cases space with
    | none => exact ⟨fun _ => ⟨none, shaped, rfl, fun _ is => by cases is⟩, fun _ => rfl⟩
    | some text =>
      by_cases plain : text = [] ∨ shaped = false
      · have refused : text.isEmpty || !shaped := by simpa using plain
        refine ⟨fun _ => ⟨some text, shaped, rfl, fun t is => Option.some.inj is ▸ plain⟩, fun _ => ?_⟩
        simp [bind, Except.bind, pure, Except.pure, refused]
      · have taken : (text.isEmpty || !shaped) = false := by simpa using plain
        refine ⟨fun run => ?_, ?_⟩
        · simp [bind, Except.bind, pure, Except.pure, taken] at run
        · rintro ⟨space, shaped', run, none⟩
          cases run
          exact absurd (none text rfl) plain

/-- Leaving out entries that are no namespace leaves the namespace, and adds no other property of a model. -/
theorem recognizeEntries_filter {keep : NodeId → Bool}
    (spares : ∀ e ∈ es, keep e = false → doc.entryIdentifier? e ≠ some Model.namespaceName)
    {space found : Option (List Char)}
    {shaped few shape : Bool} (fewer : few = true → shaped = true)
    (run : doc.recognizeEntries space shaped es = .ok (found, shape)) :
    ∃ shape', doc.recognizeEntries space few (es.filter keep) = .ok (found, shape') ∧
      (shape' = true → shape = true) := by
  induction es generalizing space shaped few with
  | nil =>
    cases run
    exact ⟨few, rfl, fewer⟩
  | cons e rest ih =>
    have later := @ih (fun e member => spares e (List.mem_cons_of_mem _ member))
    unfold recognizeEntries at run
    cases kept : keep e with
    | false =>
      rw [List.filter_cons_of_neg (by simp [kept])]
      split at run
      · exact later fewer run
      next is => exact absurd (entryProperty?_eq_some.mp is) (spares e (by simp) kept)
      · exact later (fun is => by simp [fewer is]) run
    | true =>
      rw [List.filter_cons_of_pos kept]
      unfold recognizeEntries
      split at run
      · exact later fewer run
      · obtain ⟨text, named, run⟩ := bind_eq_ok.mp run
        rw [named]
        exact later fewer run
      next property _ _ =>
        refine later (fun is => ?_) run
        rcases Bool.or_eq_true_iff.mp is with early | late
        · simp [fewer early]
        · simp [late]

/-- Entries with a name that is no property of a model are not looked at. -/
theorem recognizeEntries_unnamed (other : Property.ofName? (String.ofList name) = none) (space : Option (List Char))
    (shaped : Bool) :
    doc.recognizeEntries space shaped (es.filter fun e => doc.entryName? e != some name) =
      doc.recognizeEntries space shaped es := by
  induction es generalizing space shaped with
  | nil => rfl
  | cons e rest ih =>
    by_cases named : doc.entryName? e = some name
    · have none : doc.entryProperty? e = none := by
        rw [entryProperty?, Option.bind_eq_none_iff]
        intro n is
        rw [entryName?_of_identifier is] at named
        rw [Option.some.inj named, other]
      rw [List.filter_cons_of_neg (by simp [named]), ih]
      simp only [recognizeEntries, none]
    · rw [List.filter_cons_of_pos (by simpa using named)]
      simp only [recognizeEntries, ih]

/-- Whether entries with a name can make no model of an object literal that is none. -/
def Harmless (doc : Document) (object : NodeId) (name : List Char) : Prop :=
  name ≠ Model.namespaceName ∧ (Property.ofName? (String.ofList name) = none ∨
    ∀ e ∈ doc.entries object, doc.entryIdentifier? e ≠ some Model.namespaceName)

/-- An object literal that is no model does not become one by edits of its entries with a harmless name. -/
theorem recognize_silhouette (same : doc'.silhouette k name = doc.silhouette k name) (harmless : doc.Harmless k name)
    (before : doc.recognize none k = .ok none) : doc'.recognize none k = .ok none := by
  obtain ⟨other, free | lacking⟩ := harmless
  · have covered :
        doc'.recognizeEntries none false (doc'.entries k) = doc.recognizeEntries none false (doc.entries k) := by
      have rest := recognizeEntries_congr same none false
      rwa [recognizeEntries_unnamed free, recognizeEntries_unnamed free] at rest
    rw [recognize_none_iff] at before ⊢
    rw [covered]
    exact before
  · refine recognize_none fun e member bare => ?_
    have shown : doc'.profile e ∈ doc'.silhouette k name := by
      refine List.mem_map_of_mem (List.mem_filter.mpr ⟨member, ?_⟩)
      rw [entryName?_of_identifier bare]
      simpa using Ne.symm other
    rw [same] at shown
    obtain ⟨e', listed, is⟩ := List.mem_map.mp shown
    exact lacking e' (List.mem_of_mem_filter listed) ((congrArg Prod.fst is).trans bare)

/-- An object literal that is no model does not become one when its entries with a name are taken out. -/
theorem recognize_removed (same : doc'.silhouette k name = doc.silhouette k name)
    (gone : ∀ e ∈ doc'.entries k, doc'.entryName? e ≠ some name) (before : doc.recognize none k = .ok none) :
    doc'.recognize none k = .ok none := by
  by_cases space : name = Model.namespaceName
  · exact recognize_none fun e member bare => gone e member (space ▸ entryName?_of_identifier bare)
  · have all : (doc'.entries k).filter (fun e => doc'.entryName? e != some name) = doc'.entries k :=
      List.filter_eq_self.mpr fun e member => by simpa using gone e member
    have rest : doc'.recognizeEntries none false (doc'.entries k) =
        doc.recognizeEntries none false ((doc.entries k).filter fun e => doc.entryName? e != some name) := by
      rw [← all]
      exact recognizeEntries_congr same _ _
    obtain ⟨found, shape, run, plain⟩ := recognize_none_iff.mp before
    have spares : ∀ e ∈ doc.entries k, (doc.entryName? e != some name) = false →
        doc.entryIdentifier? e ≠ some Model.namespaceName := fun e _ dropped bare => by
      have named : doc.entryName? e = some name := by simpa using dropped
      exact space (Option.some.inj (named.symm.trans (entryName?_of_identifier bare)))
    obtain ⟨shape', run', less⟩ := recognizeEntries_filter spares (fun is => is) run
    refine recognize_none_iff.mpr ⟨found, shape', rest.trans run', fun text is => ?_⟩
    rcases plain text is with empty | unshaped
    · exact .inl empty
    · refine .inr ?_
      by_contra shaped
      rw [less (by simpa using shaped)] at unshaped
      cases unshaped

end Document

end StoreModels
