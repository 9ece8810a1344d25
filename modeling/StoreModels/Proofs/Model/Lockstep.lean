import StoreModels.Proofs.Document.Grafts
import StoreModels.Proofs.Model.Filled
import StoreModels.Proofs.Model.Likewise

/-!
Edits that go through two documents in lockstep. Entries at the same places of counterparts get values in both documents
that are counterparts again; so what was due in the one document is met, and all else stays alongside.
-/
namespace StoreModels
open Syntax (Reader)
open List (Forall₂)

namespace Document
variable {first doc doc' : Document} {B : BufferId → BufferId → Prop} {R : NodeId → NodeId → Prop}
  {o x y c d v w : NodeId} {name : List Char} {quote quote' : Char} {due : NodeId → Char → Prop} {held : List NodeId}
  {snippet snippet' : Snippet}

/-- The trees of a snippet in two documents are counterparts, and free as long as they have no places. -/
structure Paced (first doc doc' : Document) (held : List NodeId) (R : NodeId → NodeId → Prop) (snippet snippet' : Snippet) :
    Prop where
  used : snippet'.used = snippet.used
  rel : R snippet.tree snippet'.tree
  pending : snippet.Pending doc held
  pending' : snippet'.Pending doc' held
  late : first.Late doc snippet.tree

theorem Facing.keyed (facing : Facing doc doc' R name due x y c d) (parts : Counterparts doc doc' B R)
    (object : doc.role x = .object) (keyed : doc.Keyed c) : doc'.Keyed d := by
  rcases facing.beside.met with rel | unmet
  · unfold Keyed
    rw [parts.role rel]
    exact keyed
  · cases unmet with
    | value _ pair =>
      rw [object] at pair
      cases pair
    | entry _ _ _ _ stranded =>
      obtain ⟨_, heads, _⟩ := stranded.heads
      exact .inl heads.role

/-- Places that are exchanged for others at the same place leave all others where they were. -/
theorem Replaced.zip_stays {next next' : Document} {old old' new new' a b : NodeId} (replaced : Replaced doc next x old new)
    (replaced' : Replaced doc' next' y old' new') (forest : doc.Forest) (forest' : doc'.Forest)
    (here : (old, old') ∈ (doc.children x).zip (doc'.children y)) (other : a ≠ old)
    (place : (a, b) ∈ (doc.children x).zip (doc'.children y)) : (a, b) ∈ (next.children x).zip (next'.children y) := by
  have other' : b ≠ old' := fun is =>
    other (mem_zip_unique (forest'.distinct y) (is ▸ mem_zip_swap place) (mem_zip_swap here))
  rw [replaced.children_map forest, replaced'.children_map forest', List.zip_map, List.mem_map]
  exact ⟨(a, b), place, by simp [other, other']⟩

/-- A written pair and its key are new. -/
theorem PairWritten.parts_new {paired : Document} (made : PairWritten doc paired name quote v) (e : NodeId)
    (here : e = doc.nodes.size + 1 ∨ e ∈ paired.children (doc.nodes.size + 1) ∧ e ≠ v) : doc.nodes.size ≤ e := by
  rcases here with rfl | ⟨part, other⟩
  · exact Nat.le_succ _
  · rw [made.children_pair] at part
    rcases List.mem_pair.mp part with rfl | same
    · exact Nat.le_refl _
    · exact absurd same other

/-- Two documents are alongside again after a step, and all children but one are at the same places as before. -/
def Stepped (doc doc' next next' : Document) (B : BufferId → BufferId → Prop) (R : NodeId → NodeId → Prop)
    (name : List Char) (due : NodeId → Char → Prop) (x y c : NodeId) : Prop :=
  ∃ R' : NodeId → NodeId → Prop, (∀ {x y}, R x y → R' x y) ∧ Alongside next next' B R' name due ∧
    ∀ a b, (a, b) ∈ (doc.children x).zip (doc'.children y) → a ≠ c → (a, b) ∈ (next.children x).zip (next'.children y)

namespace Alongside
variable {next next' : Document} (along : Alongside doc doc' B R name due) (rel : R x y)
  (facing : Facing doc doc' R name due x y c d) (values : R v w) (free : doc.Free v) (free' : doc'.Free w)
include along rel facing values free free'

/-- Entries that are counterparts get counterparts as values. -/
theorem revalue (counterparts : R c d) (revalued : doc.Revalued next name quote x c v)
    (revalued' : doc'.Revalued next' name quote' y d w)
    (spelled : Literal.keyText name quote' = Literal.keyText name quote) :
    Stepped doc doc' next next' B R name due x y c := by
  have forest := along.sound.forest
  have forest' := along.sound'.forest
  have found := along.pairValue? counterparts
  cases revalued with
  | pair has replaced =>
    rw [has] at found
    cases revalued' with
    | other lacking =>
      rw [lacking] at found
      cases found
    | pair has' replaced' =>
      rw [has'] at found
      cases found with
      | some spot =>
        refine ⟨R, id, along.exchange counterparts spot.here values replaced replaced' free free', fun a b place _ => ?_⟩
        have other : x ≠ c := (forest.child_ne facing.child).symm
        have other' : y ≠ d := (forest'.child_ne facing.child').symm
        rw [(replaced.calm free).children x (lt_of_mem_children facing.child) other,
          (replaced'.calm free').children y (lt_of_mem_children facing.child') other']
        exact place
  | @other paired lacking made steady sound freed replaced =>
    rw [lacking] at found
    cases revalued' with
    | pair has' =>
      rw [has'] at found
      cases found
    | @other paired' lacking' made' steady' sound' freed' replaced' =>
      have fresh := fun e here z known => Nat.not_lt_of_ge (made.parts_new e here) (along.parts.present (y := z) known).1
      have fresh' := fun e here z known => Nat.not_lt_of_ge (made'.parts_new e here) (along.parts.present (x := z) known).2
      obtain ⟨R', more, pairs, alongPaired⟩ := (along.quiet (made.calm steady free) (made'.calm steady' free') sound
        sound').pair made.heads made'.heads spelled values freed' fresh fresh'
      have place : (c, d) ∈ (paired.children x).zip (paired'.children y) := by
        rw [steady.children x (lt_of_mem_children facing.child), steady'.children y (lt_of_mem_children facing.child')]
        exact facing.here
      refine ⟨R', more, alongPaired.exchange (more rel) place pairs replaced replaced' freed freed', fun a b here other => ?_⟩
      refine replaced.zip_stays replaced' sound.forest sound'.forest place other ?_
      rw [steady.children x (lt_of_mem_children facing.child), steady'.children y (lt_of_mem_children facing.child')]
      exact here

/-- An entry that is due for the pair that stands in its place meets it. -/
theorem catchUp (unmet : Unmet doc doc' R name due x c d) (object : doc.role x = .object)
    (revalued : doc.Revalued next name quote x c v) (revalued' : doc'.Revalued next' name quote' y d w)
    (awaited : ∀ r, due c r → Literal.keyText name r = Literal.keyText name quote) :
    Stepped doc doc' next next' B R name due x y c := by
  have forest := along.sound.forest
  have forest' := along.sound'.forest
  cases unmet with
  | value _ pair =>
    rw [object] at pair
    cases pair
  | @entry r waits _ _ noPair stranded =>
    obtain ⟨old, heads, _⟩ := stranded.heads
    cases revalued with
    | pair has => exact absurd (pairValue?_some has).1 noPair
    | @other paired lacking made steady sound freed replaced =>
      cases revalued' with
      | other lacking' =>
        rw [heads.pairValue?] at lacking'
        cases lacking'
      | @pair old' has' replaced' =>
        obtain rfl : old = old' := Option.some.inj (heads.pairValue?.symm.trans has')
        have fresh := fun e here z known => Nat.not_lt_of_ge (made.parts_new e here) (along.parts.present (y := z) known).1
        have same := steady.children x (lt_of_mem_children facing.child)
        have other : y ≠ d := (forest'.child_ne facing.child').symm
        have same' := (replaced'.calm free').children y (lt_of_mem_children facing.child') other
        have place : (c, d) ∈ (paired.children x).zip (next'.children y) := by
          rw [same, same']
          exact facing.here
        have filled := (along.quiet (made.calm steady free) (Calm.refl doc') sound along.sound').refill rel facing.child'
          stranded replaced' has' free'
        obtain ⟨R', more, met⟩ := filled.meet rel place (stranded.revalued replaced' has' forest' free')
          ((steady.ext.role (lt_of_mem_children facing.child)).trans object) made.heads (heads.revalued replaced' forest' free')
          (awaited r waits) values fresh replaced freed
        refine ⟨R', more, met, fun a b here differs => ?_⟩
        rw [replaced.children_map sound.forest, same, same', List.zip_map_left, List.mem_map]
        exact ⟨(a, b), here, by simp [differs]⟩

end Alongside

namespace Alongside
variable [Reader] (along : Alongside doc doc' B R name due) (ready : doc.Ready held held)
  (ready' : doc'.Ready held held)
include along ready ready'

/-- The next trees of a snippet are counterparts. -/
theorem next (early : ∀ c quote, due c quote → c < first.nodes.size) (ext : Extends first doc)
    (paced : Paced first doc doc' held R snippet snippet') :
    ∃ (v w : NodeId) (taken taken' : Snippet) (grown grown' : Document) (R' : NodeId → NodeId → Prop),
      Edit.outcome snippet.next doc = (.ok (v, taken), grown) ∧
      Edit.outcome snippet'.next doc' = (.ok (w, taken'), grown') ∧ (∀ {x y}, R x y → R' x y) ∧ R' v w ∧
      Alongside grown grown' B R' name due ∧ doc.Moves grown ∧ doc'.Moves grown' ∧ Steady doc grown ∧ Steady doc' grown' ∧
      grown.Loose held v ∧ grown'.Loose held w ∧ first.Late grown v ∧ taken.used = true ∧
      Paced first grown grown' held R' taken taken' := by
  obtain ⟨tree, used⟩ := snippet
  obtain ⟨tree', used'⟩ := snippet'
  obtain rfl : used' = used := paced.used
  have present := paced.pending.present
  have present' := paced.pending'.present
  cases used' with
  | false =>
    refine ⟨tree, tree', ⟨tree, true⟩, ⟨tree', true⟩, doc, doc', R, rfl, rfl, id, paced.rel, along, .refl, .refl,
      ⟨Extends.refl doc, fun _ _ => rfl⟩, ⟨Extends.refl doc', fun _ _ => rfl⟩, paced.pending.loose rfl,
      paced.pending'.loose rfl, paced.late, rfl, rfl, paced.rel, .of_used rfl present, .of_used rfl present', paced.late⟩
  | true =>
    obtain ⟨number, twin, copied⟩ := duplicate_duplicated along.sound.forest present
    obtain ⟨number', twin', copied'⟩ := duplicate_duplicated along.sound'.forest present'
    have sound := Move.sound (.copy present) along.sound
    have sound' := Move.sound (.copy present') along.sound'
    have steady := copied.longer.steady
    have steady' := copied'.longer.steady
    obtain ⟨R', more, rel, next⟩ := along.copy paced.rel
      (fun z below quote next => Nat.not_lt_of_ge (paced.late z below) (early z quote next)) copied copied' sound sound'
    have late : first.Late (doc.duplicate tree).1 doc.nodes.size := fun z below =>
      Nat.le_trans ext.size (copied.grown.below_new (Nat.le_refl _) below)
    refine ⟨doc.nodes.size, doc'.nodes.size, ⟨tree, true⟩, ⟨tree', true⟩, (doc.duplicate tree).1, (doc'.duplicate tree').1,
      R', ?_, ?_, more, rel, next, .single (.copy present), .single (.copy present'), steady, steady',
      copied.loose along.sound ready.present, copied'.loose along.sound' ready'.present, late, rfl, rfl, more paced.rel,
      .of_used rfl (Nat.lt_of_lt_of_le present steady.ext.size),
      .of_used rfl (Nat.lt_of_lt_of_le present' steady'.ext.size), fun z below => ?_⟩
    · simp only [Snippet.next, if_true, Edit.outcome_bind, Edit.outcome_make, number, Edit.outcome_pure]
    · simp only [Snippet.next, if_true, Edit.outcome_bind, Edit.outcome_make, number', Edit.outcome_pure]
    · exact paced.late z ((steady.below along.sound.forest present).mp below)

/-- Two entries at the same place can get counterparts as values. -/
theorem setValue (member : o ∈ held) (rel : R x y) (object : doc.role x = .object) (below : doc.Below o x)
    (below' : doc'.Below o y) (facing : Facing doc doc' R name due x y c d) (keyed : doc.Keyed c) (values : R v w)
    (loose : doc.Loose held v) (loose' : doc'.Loose held w)
    (spelled : Literal.keyText name quote' = Literal.keyText name quote)
    (awaited : ∀ r, due c r → Literal.keyText name r = Literal.keyText name quote) :
    ∃ (next next' : Document) (R' : NodeId → NodeId → Prop),
      Edit.outcome (Model.setValue c name quote v) doc = (.ok (), next) ∧
      Edit.outcome (Model.setValue d name quote' w) doc' = (.ok (), next') ∧ (∀ {x y}, R x y → R' x y) ∧
      Alongside next next' B R' name due ∧ doc.Moves next ∧ doc'.Moves next' ∧ doc.Revalued next name quote x c v ∧
      next.Below o x ∧ next'.Below o y ∧
      ∀ c' d', (c', d') ∈ (doc.children x).zip (doc'.children y) → c' ≠ c →
        (c', d') ∈ (next.children x).zip (next'.children y) := by
  have forest := along.sound.forest
  have forest' := along.sound'.forest
  obtain ⟨next, set, works, revalued, stays, _⟩ := Model.setValue_run ready member below facing.child keyed loose name
    quote
  obtain ⟨next', set', works', revalued', stays', _⟩ := Model.setValue_run ready' member below' facing.child'
    (facing.keyed along.parts object keyed) loose' name quote'
  have stepped : Stepped doc doc' next next' B R name due x y c := by
    rcases facing.beside.met with counterparts | unmet
    · exact along.revalue rel facing values loose.free loose'.free counterparts revalued revalued' spelled
    · exact along.catchUp rel facing values loose.free loose'.free unmet object revalued revalued' awaited
  obtain ⟨R', more, alongNext, places⟩ := stepped
  exact ⟨next, next', R', set, set', more, alongNext, works.moves, works'.moves, revalued, stays, stays', places⟩

/-- Entries at the same places get counterparts as values one after the other. -/
theorem setValues {entries entries' : List NodeId} (early : ∀ c quote, due c quote → c < first.nodes.size)
    (ext : Extends first doc) (member : o ∈ held) (rel : R x y) (object : doc.role x = .object) (below : doc.Below o x)
    (below' : doc'.Below o y)
    (pairs : Forall₂ (fun c d => (c, d) ∈ (doc.children x).zip (doc'.children y) ∧ doc.Keyed c) entries entries')
    (distinct : entries.Nodup) (paced : Paced first doc doc' held R snippet snippet')
    (spelled : Literal.keyText name quote' = Literal.keyText name quote)
    (awaited : ∀ c ∈ entries, ∀ r, due c r → Literal.keyText name r = Literal.keyText name quote) :
    ∃ (taken taken' : Snippet) (next next' : Document) (R' : NodeId → NodeId → Prop),
      Edit.outcome (Model.setValues name quote snippet entries) doc = (.ok taken, next) ∧
      Edit.outcome (Model.setValues name quote' snippet' entries') doc' = (.ok taken', next') ∧
      (∀ {x y}, R x y → R' x y) ∧ Alongside next next' B R' name due ∧ doc.Moves next ∧ doc'.Moves next' ∧
      Paced first next next' held R' taken taken' := by
  induction entries generalizing doc doc' R snippet snippet' entries' with
  | nil =>
    cases pairs
    exact ⟨snippet, snippet', doc, doc', R, rfl, rfl, id, along, .refl, .refl, paced⟩
  | cons c rest ih =>
    obtain ⟨d, rest', here, later, rfl⟩ := List.forall₂_cons_left_iff.mp pairs
    obtain ⟨absent, distinct⟩ := List.nodup_cons.mp distinct
    obtain ⟨v, w, taken, taken', grown, grown', R₁, run, run', more, values, along₁, moves₁, moves₁', steady, steady', loose,
      loose', late, used, paced₁⟩ := along.next ready ready' early ext paced
    have ready₁ := ready.moves moves₁
    have ready₁' := ready'.moves moves₁'
    have forest := along.sound.forest
    have lt := lt_of_role object (by decide)
    have lt' := (along.parts.present rel).2
    have same := steady.children x lt
    have same' := steady'.children y lt'
    have keep : ∀ c, doc.Keyed c → c < doc.nodes.size → grown.Keyed c := fun c keyed present => by
      unfold Keyed
      rw [steady.ext.role present]
      exact keyed
    have place : (c, d) ∈ (grown.children x).zip (grown'.children y) := by
      rw [same, same']
      exact here.1
    have facing : Facing grown grown' R₁ name due x y c d := ⟨place, forall₂_of_mem_zip (along₁.children (more rel)) place⟩
    obtain ⟨next, next', R₂, set, set', more', along₂, moves₂, moves₂', revalued, below₂, below₂', stays⟩ :=
      along₁.setValue ready₁ ready₁' member (more rel) ((steady.ext.role lt).trans object)
        ((steady.below forest (ready.present o member)).mpr below)
        ((steady'.below along.sound'.forest (ready'.present o member)).mpr below') facing
        (keep c here.2 (forest.childLt (List.of_mem_zip here.1).1)) values loose loose' spelled
        (awaited c List.mem_cons_self)
    have ext₁ := ext.trans steady.ext
    have ext₂ := ext₁.trans (moves₂.toExtends along₁.sound)
    have objectGrown : grown.role x = .object := (steady.ext.role lt).trans object
    have object₂ : next.role x = .object :=
      ((moves₂.toExtends along₁.sound).role (lt_of_role objectGrown (by decide))).trans objectGrown
    have pairs₂ : Forall₂ (fun c d => (c, d) ∈ (next.children x).zip (next'.children y) ∧ next.Keyed c) rest rest' := by
      refine forall₂_imp_mem later fun a inside b _ ⟨spot, keyed⟩ => ⟨stays a b ?_ fun is => absent (is ▸ inside), ?_⟩
      · rw [same, same']
        exact spot
      · have present := forest.childLt (List.of_mem_zip spot).1
        unfold Keyed
        rw [(moves₂.toExtends along₁.sound).role (Nat.lt_of_lt_of_le present steady.ext.size)]
        exact keep a keyed present
    have paced₂ : Paced first next next' held R₂ taken taken' := by
      refine ⟨paced₁.used, more' paced₁.rel, .of_used used ?_, .of_used (paced₁.used.trans used) ?_, ?_⟩
      · exact Nat.lt_of_lt_of_le paced₁.pending.present (moves₂.toExtends along₁.sound).size
      · exact Nat.lt_of_lt_of_le paced₁.pending'.present (moves₂'.toExtends along₁.sound').size
      · exact paced₁.late.revalued paced₁.pending.present late loose.free ext₁ along₁.sound revalued
    obtain ⟨last, last', final, final', R₃, all, all', more'', along₃, moves₃, moves₃', paced₃⟩ :=
      ih along₂ (ready₁.moves moves₂) (ready₁'.moves moves₂') ext₂ (more' (more rel)) object₂ below₂ below₂' pairs₂ distinct
        paced₂ fun a inside => awaited a (List.mem_cons_of_mem _ inside)
    refine ⟨last, last', final, final', R₃, ?_, ?_, fun known => more'' (more' (more known)), along₃,
      (moves₁.trans moves₂).trans moves₃, (moves₁'.trans moves₂').trans moves₃', paced₃⟩
    · simp only [Model.setValues, Edit.outcome_bind, run, set, all]
    · simp only [Model.setValues, Edit.outcome_bind, run', set', all']

end Alongside

end Document

end StoreModels
