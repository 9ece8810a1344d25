import StoreModels.Proofs.Model.Entered
import StoreModels.Proofs.Model.Filled
import StoreModels.Proofs.Record.Steps

/-!
Object literals that get one more entry. An entry that is added to a model comes into its container, or into the model
itself with a new container around it. Everywhere else the entries of a name are those that they were, and of the tree that
comes in the same is known as of the snippet.
-/
namespace StoreModels
open Syntax (Reader)

namespace Document
variable {doc doc' first : Document} {name n : List Char} {load : Document → NodeId → Prop} {k q p x value : NodeId}
  {zone : NodeId → Prop} {loose : List NodeId} {m : Model} {c : Container} {snippet : Snippet} {quote : Char}

/-! ## One more entry -/

/-- An object literal has got one more entry, with a name, and nothing else has changed. -/
structure Enlarged (doc doc' : Document) (k q : NodeId) (name : List Char) : Prop where
  sound : doc.Sound
  plain : doc.Plain
  forest : doc'.Forest
  object : doc.role k = .object
  calm : ∃ loose, Calm doc doc' (· = k) loose
  entries : doc'.entries k = doc.entries k ++ [q]
  named : doc'.entryName? q = some name

namespace Enlarged
variable (enlarged : Enlarged doc doc' k q name)
include enlarged

/-- The entries that were there have the keys that they had. -/
theorem entryKey? (member : x ∈ doc.entries p) : doc'.entryKey? x = doc.entryKey? x := by
  obtain ⟨child, entry⟩ := mem_entries member
  obtain ⟨_, calm⟩ := enlarged.calm
  refine calm.entryKey? enlarged.sound enlarged.forest enlarged.plain (fun z same => .inl (same ▸ enlarged.object))
    (enlarged.sound.forest.childLt child) ?_
  rintro rfl
  rw [enlarged.object] at entry
  cases entry

theorem entries_other (lt : x < doc.nodes.size) (other : x ≠ k) : doc'.entries x = doc.entries x := by
  obtain ⟨_, calm⟩ := enlarged.calm
  exact calm.entries enlarged.sound.forest lt other

theorem old_named (n : List Char) (x : NodeId) :
    ((doc.entries x).filter fun e => doc'.entryName? e == some n) = doc.entriesNamed x n :=
  List.filter_congr fun e member => by
    rw [Document.entryName?, enlarged.entryKey? member, Document.entryName?]

/-- The entries with another name are those that they were. -/
theorem entriesNamed (lt : x < doc.nodes.size) (other : x = k → name ≠ n) :
    doc'.entriesNamed x n = doc.entriesNamed x n := by
  rw [Document.entriesNamed]
  by_cases here : x = k
  · subst here
    rw [enlarged.entries, List.filter_append, enlarged.old_named]
    simp [enlarged.named, other rfl]
  · rw [enlarged.entries_other lt here, enlarged.old_named]

/-- The new entry comes behind those with its name. -/
theorem entriesNamed_new : doc'.entriesNamed k name = doc.entriesNamed k name ++ [q] := by
  rw [Document.entriesNamed, enlarged.entries, List.filter_append, enlarged.old_named]
  simp [enlarged.named]

theorem old_bare (n : List Char) (x : NodeId) :
    ((doc.entries x).filter fun e => doc'.entryIdentifier? e == some n) =
      (doc.entries x).filter fun e => doc.entryIdentifier? e == some n :=
  List.filter_congr fun e member => by
    rw [Document.entryIdentifier?, enlarged.entryKey? member, Document.entryIdentifier?]

/-- The entry with another bare name is the one that it was. -/
theorem entryNamed? (lt : x < doc.nodes.size) (other : x = k → name ≠ n) : doc'.entryNamed? x n = doc.entryNamed? x n := by
  rw [Document.entryNamed?]
  by_cases here : x = k
  · subst here
    have silent : doc'.entryIdentifier? q ≠ some n := fun told => by
      have named := entryName?_of_identifier told
      rw [enlarged.named] at named
      exact other rfl (Option.some.inj named)
    rw [enlarged.entries, List.filter_append, enlarged.old_bare, Document.entryNamed?]
    simp [silent]
  · rw [enlarged.entries_other lt here, enlarged.old_bare, Document.entryNamed?]

/-- The new entry is found under its bare name. -/
theorem entryNamed?_new (bare : doc'.entryIdentifier? q = some name) : doc'.entryNamed? k name = some q := by
  rw [Document.entryNamed?, enlarged.entries, List.filter_append]
  simp [bare]

/-- The containers of a model are found as before, unless the new entry has the key of one. -/
theorem containerObject? (object : doc.role m.object = .object) (other : m.object = k → name ≠ c.key.toList) :
    m.containerObject? doc' c = m.containerObject? doc c := by
  have lt := lt_of_role object (by decide)
  obtain ⟨_, calm⟩ := enlarged.calm
  rw [Model.containerObject?, enlarged.entryNamed? lt other, Model.containerObject?]
  cases found : doc.entryNamed? m.object c.key.toList with
  | none => rfl
  | some e =>
    obtain ⟨child, entry⟩ := mem_entries (List.mem_of_mem_filter (List.mem_of_getLast? found))
    have outside : e ≠ k := by
      rintro rfl
      rw [enlarged.object] at entry
      cases entry
    have body := calm.entryBody enlarged.sound (enlarged.sound.forest.childLt child) outside
    have present := enlarged.sound.forest.below_lt lt (below_entryBody child)
    simp only [body, calm.ext.role present, calm.ext.kind _ present]

end Enlarged

/-! ## A pair above a snippet -/

/-- A pair above a tree of a snippet has been appended to an object literal. -/
structure Sown (first doc doc' : Document) (load : Document → NodeId → Prop) (snippet : Snippet) (k p : NodeId)
    (name : List Char) (quote : Char) : Prop where
  calm : ∃ loose, Calm doc doc' (· = k) loose ∧ ∀ y ∈ loose, y = snippet.tree ∧ snippet.used = false ∨ doc.nodes.size ≤ y
  entries : doc'.entries k = doc.entries k ++ [p]
  late : first.Late doc' p
  heads : ∃ value, doc'.Heads name quote p value ∧ load doc' value

/-- Handing out a tree keeps the tree of the snippet, and is a run of moves. -/
theorem next_keeps [Reader] {snippet' : Snippet} (present : snippet.tree < doc.nodes.size)
    (run : Edit.outcome snippet.next doc = (.ok (value, snippet'), doc')) :
    snippet'.used = true ∧ snippet'.tree = snippet.tree ∧ doc.Moves doc' ∧
      (value = snippet.tree ∧ snippet.used = false ∧ doc' = doc ∨ doc.nodes.size ≤ value) := by
  unfold Snippet.next at run
  by_cases used : snippet.used = true
  · have number : (doc.duplicate snippet.tree).2 = doc.nodes.size := rfl
    simp only [used, if_true, Edit.outcome_bind, Edit.outcome_make, Edit.outcome_pure] at run
    have move : Move doc (doc.duplicate snippet.tree).1 := .copy present
    cases run
    exact ⟨used, rfl, .single move, .inr (Nat.le_of_eq number.symm)⟩
  · simp only [used, Bool.false_eq_true, if_false, Edit.outcome_pure] at run
    cases run
    exact ⟨rfl, rfl, .refl, .inl ⟨rfl, by simpa using used, rfl⟩⟩

/-- Appending a pair above a snippet succeeds in any object literal below a node of the file. -/
theorem appendPair_sown [Reader] {o : NodeId} (lasting : Lasting load) (carries : first.Carries doc load snippet)
    (sound : doc.Sound) (ext : Extends first doc) (role : doc.role k = .object) (early : o < first.nodes.size)
    (below : doc.Below o k) (name : List Char) (quote : Char) :
    ∃ snippet' doc' p, Edit.outcome (Model.appendPair k name quote snippet) doc = (.ok snippet', doc') ∧ doc.Moves doc' ∧
      Sown first doc doc' load snippet k p name quote ∧ snippet'.used = true ∧ snippet'.tree = snippet.tree := by
  obtain ⟨value, snippet', grown, next, soundGrown, quiet, _, _, known, late, free⟩ := carries.next lasting sound ext
  obtain ⟨used, tree, moves, origin⟩ := next_keeps carries.present next
  have lt := lt_of_role role (by decide)
  have oLt := Nat.lt_of_lt_of_le early ext.size
  have high : grown.Loose [o] value := ⟨free, by simpa using fun below => Nat.not_le_of_gt early (late o below)⟩
  have below' : grown.Below o k := (quiet.below sound.forest oLt (apart_nowhere doc o)).mpr below
  have objectGrown : grown.role k = .object := (quiet.ext.role lt).trans role
  have ready : grown.Ready [k] [k] := .self soundGrown (by simpa using objectGrown)
  have loose : grown.Loose [k] value := ⟨free, by simpa using high.not_below soundGrown.forest (by simp) below'⟩
  obtain ⟨paired, written, works, made, steady, fresh, _⟩ := writePair_run ready loose name quote
  have moves' := works.moves
  have hung := made.calm steady free
  have soundPaired := moves'.sound soundGrown
  have object : paired.role k = .object := (hung.ext.role (lt_of_role objectGrown (by decide))).trans objectGrown
  have apart := fresh.apart k (by simp)
  obtain ⟨doc', fits, appended⟩ := append_ok soundPaired.forest object fresh.free apart
  have added := appended.calm fresh.free
  have move : Move paired doc' := .append object fresh.free apart fits
  have outside : paired.Apart (· = k) (grown.nodes.size + 1) := apart_of_not_below apart
  have under := Below.child made.heads.value_child
  have latePair := late.written (ext.trans quiet.ext) soundGrown made steady free
  refine ⟨snippet', doc', grown.nodes.size + 1, ?_, (moves.trans moves').tail move, ⟨?_, ?_, fun y below => ?_, value, ?_, ?_⟩,
    used, tree⟩
  · simp only [Model.appendPair, Edit.outcome_bind, next, written, Edit.outcome_change, fits, Edit.outcome_pure]
  · have freed : ∀ y ∈ [value], y < doc.nodes.size → doc.Free y := fun y member lt => by
      obtain rfl := List.mem_singleton.mp member
      rcases origin with ⟨_, _, same⟩ | new
      · exact same ▸ free
      · exact absurd lt (Nat.not_lt_of_ge new)
    have all := (quiet.trans hung sound.forest freed).trans added sound.forest fun y member lt => by
      rw [List.mem_singleton.mp member] at lt
      exact absurd (Nat.lt_of_lt_of_le lt quiet.ext.size) (Nat.not_lt_of_ge (Nat.le_succ _))
    refine ⟨_, all.mono sound.forest (by simp) (fun y member _ => member) all.free, fun y member => ?_⟩
    simp only [List.nil_append, List.mem_append, List.mem_singleton] at member
    rcases member with rfl | rfl
    · exact origin.imp_left fun old => ⟨old.1, old.2.1⟩
    · exact .inr (Nat.le_succ_of_le quiet.ext.size)
  · rw [appended.entries soundPaired.forest fresh.free made.role_pair, hung.entries soundGrown.forest
      (lt_of_role objectGrown (by decide)) id, quiet.entries sound.forest lt id]
  · exact latePair y ((added.below soundPaired.forest fresh.free.lt outside).mp below)
  · refine made.heads.calm added soundPaired.forest outside.outside fun c child _ => ?_
    exact (outside.below (.child child)).outside
  · exact lasting.calm (lasting.calm known hung soundGrown (apart_nowhere grown value) free.lt) added soundPaired
      (outside.below under) (soundPaired.forest.childLt made.heads.value_child)

/-! ## A container that is made -/

/-- A container that is missing is made, with no entries, in an entry that comes behind those of the model. -/
theorem ensureContainer_enlarged [Reader] (sound : doc.Sound) (plain : doc.Plain) (object : doc.role m.object = .object)
    (missing : m.containerObject? doc c = .ok none) (isQuote : Literal.isQuote quote = true) :
    ∃ doc' q, Edit.outcome (m.ensureContainer c quote) doc = (.ok doc.nodes.size, doc') ∧ doc.Moves doc' ∧
      Calm doc doc' (· = m.object) [] ∧ Enlarged doc doc' m.object q c.key.toList ∧
      m.containerObject? doc' c = .ok (some doc.nodes.size) ∧ doc'.entries doc.nodes.size = [] ∧
      doc'.Below m.object doc.nodes.size := by
  have lt := lt_of_role object (by decide)
  have start : doc.Ready [m.object] [m.object] := .self sound (by simpa using object)
  obtain ⟨made, run, moves, first, loose, role, empty, _⟩ := writeObject_empty start
  have ready := start.moves moves
  have new := loose.free.lt
  obtain ⟨paired, run', works, pair, steady, fresh, _⟩ := writePair_run ready loose c.key.toList quote
  have moves' := works.moves
  have soundPaired := moves'.sound ready.sound
  have second := pair.calm steady loose.free
  have objectPaired : paired.role m.object = .object := (second.ext.role (Nat.lt_of_lt_of_le lt first.ext.size)).trans
    ((first.ext.role lt).trans object)
  have apart := fresh.apart m.object (by simp)
  obtain ⟨doc', fits, appended⟩ := append_ok soundPaired.forest objectPaired fresh.free apart
  have third := appended.calm fresh.free
  have move : Move paired doc' := .append objectPaired fresh.free apart fits
  have whole : Calm doc doc' (· = m.object) [] := by
    have none : ∀ y ∈ [doc.nodes.size], ¬ y < doc.nodes.size := fun y member =>
      List.mem_singleton.mp member ▸ Nat.lt_irrefl _
    have newer : ∀ y ∈ [made.nodes.size + 1], ¬ y < doc.nodes.size := fun y member =>
      List.mem_singleton.mp member ▸ Nat.not_lt_of_ge (Nat.le_succ_of_le (Nat.le_of_lt new))
    have both := first.trans second sound.forest fun y member lt => absurd lt (none y member)
    have all := both.trans third sound.forest fun y member lt => absurd lt (newer y member)
    refine all.mono sound.forest (fun z _ inside => by simpa using inside) (fun y member lt => ?_) (by simp)
    rcases List.mem_append.mp member with early | late
    · exact absurd lt (none y (by simpa using early))
    · exact absurd lt (newer y late)
  have outside : paired.Apart (· = m.object) (made.nodes.size + 1) := apart_of_not_below apart
  have heads := pair.heads.calm third soundPaired.forest outside.outside fun c child _ =>
    (outside.below (.child child)).outside
  have forest := appended.edited.forest
  have named := heads.entryName? forest isQuote
  have bare : doc'.entryIdentifier? (made.nodes.size + 1) = some c.key.toList := by
    rw [Document.entryIdentifier?, heads.entryKey? forest isQuote, if_pos (Model.key_isBareName c)]
    rfl
  have entries : doc'.entries m.object = doc.entries m.object ++ [made.nodes.size + 1] := by
    rw [appended.entries soundPaired.forest fresh.free pair.role_pair,
      second.entries ready.sound.forest (Nat.lt_of_lt_of_le lt first.ext.size) id, first.entries sound.forest lt id]
  have enlarged : Enlarged doc doc' m.object (made.nodes.size + 1) c.key.toList :=
    ⟨sound, plain, forest, object, ⟨_, whole⟩, entries, named⟩
  have role' : doc'.role doc.nodes.size = .object := (third.ext.role (Nat.lt_of_lt_of_le new second.ext.size)).trans
    ((second.ext.role new).trans role)
  have body : doc'.entryBody (made.nodes.size + 1) = doc.nodes.size := by
    rw [Document.entryBody, heads.pairValue?]
    rfl
  refine ⟨doc', made.nodes.size + 1, ?_, (moves.trans moves').tail move, whole, enlarged, ?_, ?_, ?_⟩
  · simp only [Model.ensureContainer, Edit.outcome_bind, Edit.outcome_get, Edit.outcome_lift, missing, run, run',
      Edit.outcome_change, fits, Edit.outcome_pure]
  · simp only [Model.containerObject?, enlarged.entryNamed?_new bare, body, role', if_true]
  · have other : doc.nodes.size ≠ m.object := Nat.ne_of_gt lt
    rw [third.entries soundPaired.forest (Nat.lt_of_lt_of_le new second.ext.size) other,
      second.entries ready.sound.forest new id, empty]
  · obtain ⟨before, after, _, now, _⟩ := appended.place
    have listed : made.nodes.size + 1 ∈ doc'.children m.object := by simp [now]
    exact (Below.child listed).tail heads.value_child

end Document

end StoreModels
