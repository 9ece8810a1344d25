import StoreModels.Proofs.Model.Silent
import StoreModels.Proofs.Record.Stock

/-!
Edits that succeed, and the trees of snippets while they are handed out: the first place gets the tree itself, all later
ones get copies. As long as the edits stay out of the snippet, each of these trees offers the same text and actions.
-/
namespace StoreModels
open Syntax (Reader)

variable {α β γ : Type}

/-! ## Edits that succeed -/

namespace Edit
variable [Reader] {doc doc' : Document} {post : α → Document → Prop} {after : β → Document → Prop} {run first : Edit α}
  {next : α → Edit β}

/-- An edit succeeds and leads by moves to a document with a property. -/
def Yields (run : Edit α) (doc : Document) (post : α → Document → Prop) : Prop :=
  ∃ a doc', outcome run doc = (.ok a, doc') ∧ doc.Moves doc' ∧ post a doc'

namespace Yields

theorem pure {a : α} (holds : post a doc) : Yields (pure a) doc post := ⟨a, doc, rfl, Relation.ReflTransGen.refl, holds⟩

/-- An edit that leads by moves to what its outcome is. -/
theorem of_does {targets held : List NodeId} {a : α} {some : α → Document → Prop} (does : Does targets held run doc some)
    (is : outcome run doc = (.ok a, doc'))
    (holds : post a doc') : Yields run doc post := by
  have moves := does.moves
  rw [is] at moves
  exact ⟨a, doc', is, moves, holds⟩

theorem bind (left : Yields first doc post)
    (right : ∀ a doc', doc.Moves doc' → post a doc' → Yields (next a) doc' after) :
    Yields (first >>= next) doc after := by
  obtain ⟨a, doc', is, moves, holds⟩ := left
  obtain ⟨b, doc'', is', moves', holds'⟩ := right a doc' moves holds
  exact ⟨b, doc'', by rw [outcome_bind, is]; exact is', moves.trans moves', holds'⟩

/-- An edit after one whose outcome is known. -/
theorem bind_outcome {a : α} (is : outcome first doc = (.ok a, doc')) (moves : doc.Moves doc')
    (right : Yields (next a) doc' after) : Yields (first >>= next) doc after := by
  obtain ⟨b, doc'', is', moves', holds'⟩ := right
  exact ⟨b, doc'', by rw [outcome_bind, is]; exact is', moves.trans moves', holds'⟩

/-- An edit that brings in no text is known to do so. -/
theorem silent (yields : Yields run doc post) (silent : Silent run) :
    Yields run doc fun a doc' => post a doc' ∧ doc'.buffers = doc.buffers := by
  obtain ⟨a, doc', is, moves, holds⟩ := yields
  exact ⟨a, doc', is, moves, holds, silent.of_outcome is⟩

theorem look (view : Document → γ) {next : γ → Edit β} (right : Yields (next (view doc)) doc after) :
    Yields (Edit.look view >>= next) doc after :=
  bind_outcome rfl Relation.ReflTransGen.refl right

theorem get {next : Document → Edit β} (right : Yields (next doc) doc after) :
    Yields (MonadState.get >>= next) doc after :=
  bind_outcome rfl Relation.ReflTransGen.refl right

theorem lift {result : Except Failure α} {a : α} (is : result = .ok a) (right : Yields (next a) doc after) :
    Yields (liftM result >>= next) doc after :=
  bind_outcome (by rw [outcome_lift, is]) Relation.ReflTransGen.refl right

/-- A change that fits is a move. -/
theorem change {step : Document → Except Mismatch Document} {next : Unit → Edit β} (fits : step doc = .ok doc')
    (move : Document.Move doc doc') (right : Yields (next ()) doc' after) :
    Yields (Edit.change step >>= next) doc after :=
  bind_outcome (by rw [outcome_change, fits]) (Relation.ReflTransGen.single move) right

end Yields

end Edit

/-! ## Snippets -/

namespace Snippet
open Document (Calm Prolongs)

variable {doc doc' : Document} {zone : NodeId → Prop} {loose : List NodeId} {callees : List (List Char)}
  {low high : Nat}
  {snippet : Snippet} {source : List Char} {actions : List (List Char)}

/-- The tree of a snippet offers a text and actions. Its nodes are the ones with numbers in a range, and it is free as
    long as it has no place. -/
structure Supplied (doc : Document) (callees : List (List Char)) (low high : Nat) (source : List Char)
    (actions : List (List Char)) (snippet : Snippet) : Prop where
  offers : doc.Offers callees snippet.tree source actions
  range : ∀ y, doc.Below snippet.tree y → low ≤ y ∧ y < high
  bound : high ≤ doc.nodes.size
  free : snippet.used = false → doc.Free snippet.tree

/-- Edits in a zone that has no nodes in the range leave a snippet as it is. -/
theorem Supplied.calm (supplied : Supplied doc callees low high source actions snippet)
    (calm : Calm doc doc' zone loose)
    (sound : doc.Sound) (forest : doc'.Forest) (elsewhere : ∀ z, zone z → z < low ∨ high ≤ z)
    (free : snippet.used = false → doc'.Free snippet.tree) : Supplied doc' callees low high source actions snippet := by
  have apart : doc.Apart zone snippet.tree := fun z inside below => by
    obtain ⟨least, most⟩ := supplied.range z below
    rcases elsewhere z inside with under | beyond
    · exact Nat.not_lt_of_ge least under
    · exact Nat.not_lt_of_ge beyond most
  refine ⟨supplied.offers.calm calm sound forest apart, fun y below => ?_, Nat.le_trans supplied.bound calm.ext.size,
    free⟩
  exact supplied.range y ((calm.below sound.forest supplied.offers.lt apart).mp below)

/-- A snippet that was read supplies its text. -/
theorem Supplied.parsed [Reader] {text : List Char} {tree : NodeId} (sound : doc.Sound)
    (read : doc.parseExpression text = .ok (doc', tree)) (spaceless : doc'.Spaceless tree) :
    Supplied doc' callees doc.nodes.size doc'.nodes.size (doc'.text tree) (doc'.dispatches callees tree)
      ⟨tree, false⟩ := by
  have offers := (Document.offers_parsed read spaceless : doc'.Offers callees tree _ _)
  obtain ⟨rfl, _, _, adopted⟩ := Document.parseExpression_adopted read
  refine ⟨offers, fun y below => adopted.below_new below, Nat.le_refl _, fun _ => ?_⟩
  have loose : Document.Loose doc' [] doc.nodes.size := adopted.loose (sound.withBuffer _) (by simp)
  exact loose.free

/-- The tree for the next place: the snippet's own, or a copy of it. -/
structure Served (doc doc' : Document) (callees : List (List Char)) (low high : Nat) (source : List Char)
    (actions : List (List Char)) (snippet snippet' : Snippet) (value : NodeId) : Prop where
  longer : Prolongs doc doc'
  supplied : Supplied doc' callees low high source actions snippet'
  used : snippet'.used = true
  offers : doc'.Offers callees value source actions
  free : doc'.Free value
  apart : ∀ y, y < low ∨ high ≤ y → y < doc.nodes.size → ¬ doc'.Below value y
  fresh : (snippet.used = false ∧ doc' = doc ∧ value = snippet.tree) ∨ doc.nodes.size ≤ value

theorem next_yields [Reader] (sound : doc.Sound) (supplied : Supplied doc callees low high source actions snippet) :
    Edit.Yields snippet.next doc fun next doc' =>
      Served doc doc' callees low high source actions snippet next.2 next.1 := by
  unfold next
  by_cases used : snippet.used
  · rw [if_pos used]
    have present := supplied.offers.lt
    obtain ⟨number, twin, copied⟩ := Document.duplicate_duplicated sound.forest present
    have move : Document.Move doc (doc.duplicate snippet.tree).1 := .copy present
    have run : Edit.outcome (Edit.make (·.duplicate snippet.tree)) doc =
        (.ok doc.nodes.size, (doc.duplicate snippet.tree).1) := by
      rw [Edit.outcome_make, number]
    refine Edit.Yields.bind_outcome run (Relation.ReflTransGen.single move) (Edit.Yields.pure ?_)
    have forest := (move.sound sound).forest
    have loose : (doc.duplicate snippet.tree).1.Loose [] doc.nodes.size := copied.loose sound (by simp)
    refine ⟨copied.longer, ?_, used, supplied.offers.copy copied sound forest, loose.free, fun y _ lt below => ?_,
      .inr (Nat.le_refl _)⟩
    · refine supplied.calm copied.longer.calm sound forest (fun z impossible => impossible.elim) fun unused => ?_
      rw [used] at unused
      cases unused
    · exact Nat.not_lt_of_ge (copied.grown.below_new (Nat.le_refl _) below) lt
  · rw [if_neg used]
    have unused : snippet.used = false := by simpa using used
    refine Edit.Yields.pure ⟨.refl doc, ⟨supplied.offers, supplied.range, supplied.bound, fun impossible => ?_⟩, rfl,
      supplied.offers, supplied.free unused, fun y elsewhere _ below => ?_, .inl ⟨unused, rfl, rfl⟩⟩
    · cases impossible
    · obtain ⟨least, most⟩ := supplied.range y below
      rcases elsewhere with under | beyond
      · exact Nat.not_lt_of_ge least under
      · exact Nat.not_lt_of_ge beyond most

theorem Supplied.low_lt (supplied : Supplied doc callees low high source actions snippet) : low < doc.nodes.size := by
  obtain ⟨least, most⟩ := supplied.range _ (Document.Below.refl doc _)
  exact Nat.lt_of_le_of_lt least (Nat.lt_of_lt_of_le most supplied.bound)

namespace Served
variable {value : NodeId} {snippet' : Snippet}
  (served : Served doc doc' callees low high source actions snippet snippet' value)
include served

/-- A tree that was in the document before was free. -/
theorem freed (lt : value < doc.nodes.size) : doc.Free value := by
  rcases served.fresh with ⟨_, same, _⟩ | new
  · exact same ▸ served.free
  · exact absurd lt (Nat.not_lt_of_ge new)

theorem low_le (supplied : Supplied doc callees low high source actions snippet) : low ≤ value := by
  rcases served.fresh with ⟨_, _, rfl⟩ | new
  · exact (supplied.range _ (Document.Below.refl doc _)).1
  · exact Nat.le_trans (Nat.le_of_lt supplied.low_lt) new

/-- A used snippet goes on to supply its text after edits elsewhere. -/
theorem stays {doc'' : Document} (calm : Calm doc' doc'' zone loose) (sound : doc'.Sound) (forest : doc''.Forest)
    (elsewhere : ∀ z, zone z → z < low ∨ high ≤ z) : Supplied doc'' callees low high source actions snippet' := by
  refine served.supplied.calm calm sound forest elsewhere fun unused => ?_
  rw [served.used] at unused
  cases unused

end Served

end Snippet

/-! ## Written entries -/

namespace Document
open Model (entryRecord)

/-- A written object literal has no place and no entries. -/
theorem writeObject_empty [Reader] {doc : Document} {targets held : List NodeId} (ready : doc.Ready targets held) :
    ∃ doc', Edit.outcome (Edit.make (·.writeNode "object" [])) doc = (.ok doc.nodes.size, doc') ∧ doc.Moves doc' ∧
      Calm doc doc' (fun _ => False) [] ∧ doc'.Loose held doc.nodes.size ∧ doc'.role doc.nodes.size = .object ∧
      doc'.entries doc.nodes.size = [] ∧ doc'.Barren doc.nodes.size := by
  obtain ⟨number, joined⟩ := writeNode_joined doc "object" [] (by simp) (by simp)
  have move : Move doc (doc.writeNode "object" []).1 :=
    .join "object" [] rfl (by simp) (by simp) (fun pair => absurd pair (by decide))
  have run : Edit.outcome (Edit.make (·.writeNode "object" [])) doc =
      (.ok doc.nodes.size, (doc.writeNode "object" []).1) := by
    rw [Edit.outcome_make, number]
  have object : (doc.writeNode "object" []).1.role doc.nodes.size = .object := by
    rw [role, joined.top]
    rfl
  have childless : (doc.writeNode "object" []).1.children doc.nodes.size = [] := joined.children_top
  have empty : (doc.writeNode "object" []).1.entries doc.nodes.size = [] := by
    rw [entries, childless]
    rfl
  refine ⟨_, run, Relation.ReflTransGen.single move, joined.calm (by simp),
    joined.loose ready.sound ready.present (by simp), object, empty, fun y below _ => ?_⟩
  rcases Relation.ReflTransGen.cases_head below with rfl | ⟨x, edge, _⟩
  · exact recognize_none fun e member => by
      rw [empty] at member
      cases member
  · rw [childless] at edge
    cases edge

/-- A pair written above a loose tree can become an entry with what the tree offers. -/
theorem writePair_entrant [Reader] {doc : Document} {callees : List (List Char)} {k value : NodeId} {source : List Char}
    {actions : List (List Char)} {quote : Char} (c : Container) (name : List Char) (sound : doc.Sound)
    (object : doc.role k = .object)
    (loose : doc.Loose [k] value) (offers : doc.Offers callees value source actions)
    (isQuote : Literal.isQuote quote = true) :
    ∃ doc', Edit.outcome (Model.writePair name quote value) doc = (.ok (doc.nodes.size + 1), doc') ∧ doc.Moves doc' ∧
      Calm doc doc' (fun _ => False) [value] ∧
      doc'.Entrant callees c k (doc.nodes.size + 1) (entryRecord c name source actions) := by
  have ready : doc.Ready [k] [k] := .self sound (by simpa using object)
  obtain ⟨doc', run, works, pair, steady, fresh, _⟩ := writePair_run ready loose name quote
  have moves := works.moves
  have forest := (moves.sound sound).forest
  have calm := pair.calm steady loose.free
  have offers' := offers.calm calm sound forest (apart_nowhere doc value)
  have apart := fresh.not_below forest (List.mem_singleton_self k) (Below.refl doc' k)
  exact ⟨doc', run, moves, calm, pair.role_pair, fresh.free, apart, pair.entryTells forest isQuote offers',
    pair.barren offers'.barren⟩

end Document

end StoreModels
