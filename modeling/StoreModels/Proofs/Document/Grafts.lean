import StoreModels.Proofs.Document.Alongside

/-!
Trees that grow alongside. A snippet that is read into two documents has trees of counterparts there, and so have the
copies of counterparts.
-/
namespace StoreModels
open Syntax (Reader Tree)
open List (Forall₂)

namespace Document
variable {doc doc' grown grown' : Document} {B : BufferId → BufferId → Prop} {R : NodeId → NodeId → Prop}
  {x y c d top top' tree tree' : NodeId} {b b' : BufferId} {name text : List Char} {due : NodeId → Char → Prop}
  {twin twin' : NodeId → NodeId}

/-! ## Snippets -/

/-- Nodes at the same place of nodes that stand for the same tree stand for the same part of it. -/
theorem Abreast.bears (abreast : Abreast doc doc' top top' x y) {program : Tree} (bears : doc.Bears b top program)
    (bears' : doc'.Bears b' top' program) : ∃ part, doc.Bears b x part ∧ doc'.Bears b' y part := by
  induction abreast with
  | top => exact ⟨program, bears, bears'⟩
  | child _ here ih =>
    obtain ⟨part, left, right⟩ := ih
    obtain ⟨t, has, has'⟩ := forall₂_of_mem_zip (forall₂_through left.children right.children) here
    exact ⟨t, has.2, has'.2⟩

namespace Alongside
variable (along : Alongside doc doc' B R name due)
include along

/-- A snippet that can be read into one document can be read into the other, and its trees become counterparts. -/
theorem read [Reader] (same : doc'.dialect = doc.dialect) (read : doc.parseExpression text = .ok (grown, tree)) :
    ∃ (grown' : Document) (tree' : NodeId) (B' : BufferId → BufferId → Prop) (R' : NodeId → NodeId → Prop),
      doc'.parseExpression text = .ok (grown', tree') ∧ (∀ {b b'}, B b b' → B' b b') ∧ (∀ {x y}, R x y → R' x y) ∧
      R' tree tree' ∧ Alongside grown grown' B' R' name due := by
  obtain ⟨rfl, program, parsed, adopted⟩ := parseExpression_adopted read
  obtain ⟨grown₁, read₁, told, bears⟩ := parseExpression_bears parsed
  obtain ⟨grown', read', told', bears'⟩ := parseExpression_bears (same ▸ parsed : Syntax.parseSnippet doc'.dialect _ = _)
  obtain ⟨rfl, _⟩ : grown₁ = grown ∧ True := ⟨(Prod.mk.inj (Except.ok.inj (read₁.symm.trans read))).1, trivial⟩
  obtain ⟨_, _, _, adopted'⟩ := parseExpression_adopted read'
  have sound := Move.sound (.adopt text read) along.sound
  have sound' := Move.sound (.adopt text read') along.sound'
  have wider := along.quiet (parseExpression_calm read along.sound) (parseExpression_calm read' along.sound') sound sound'
  have present := lt_of_bears bears
  have present' := lt_of_bears bears'
  have more := sound.bufferLt bears.origin
  have more' := sound'.bufferLt bears'.origin
  have known : ∀ c, ¬ B doc.buffers.length c ∧ ¬ B c doc'.buffers.length := fun c =>
    ⟨fun old => Nat.lt_irrefl _ (along.parts.texts old).1, fun old => Nat.lt_irrefl _ (along.parts.texts old).2.1⟩
  have parts := wider.parts.relateTexts more more' (told'.trans told.symm) known
  have start : Alongside grown₁ grown' (fun c c' => B c c' ∨ c = doc.buffers.length ∧ c' = doc'.buffers.length) R name due :=
    { wider with parts }
  have fresh : ∀ {x y}, Abreast grown₁ grown' doc.nodes.size doc'.nodes.size x y →
      (doc.nodes.size ≤ x ∧ x < grown₁.nodes.size) ∧ doc'.nodes.size ≤ y ∧ y < grown'.nodes.size := fun abreast =>
    ⟨adopted.below_new abreast.under, adopted'.below_new abreast.under'⟩
  have read : ∀ {x y}, Abreast grown₁ grown' doc.nodes.size doc'.nodes.size x y →
      ((grown₁.node x).firstChildren = grown₁.children x ∧ (grown₁.node x).replaces = none) ∧
        (grown'.node y).firstChildren = grown'.children y ∧ (grown'.node y).replaces = none := fun abreast => by
    obtain ⟨⟨le, lt⟩, le', lt'⟩ := fresh abreast
    obtain ⟨_, _, mirrors⟩ := adopted.mirrors _ le lt
    obtain ⟨_, _, mirrors'⟩ := adopted'.mirrors _ le' lt'
    exact ⟨⟨mirrors.firstChildren, mirrors.tookNone⟩, mirrors'.firstChildren, mirrors'.tookNone⟩
  have places : ∀ {x y}, Abreast grown₁ grown' doc.nodes.size doc'.nodes.size x y → Forall₂ (fun c d =>
      Abreast grown₁ grown' doc.nodes.size doc'.nodes.size c d ∧ (grown'.node d).field = (grown₁.node c).field)
        (grown₁.children x) (grown'.children y) := fun abreast => by
    obtain ⟨part, left, right⟩ := abreast.bears bears bears'
    refine (forall₂_mem_zip (forall₂_through left.children right.children)).imp fun c d ⟨here, t, has, has'⟩ => ?_
    exact ⟨.child abreast here, has'.1.trans has.1.symm⟩
  refine ⟨grown', _, _, _, read', .inl, .inl, .inr .top, start.graft adopted.root adopted'.root (fun abreast => ?_) present
    present' (fun abreast => ?_) (fun abreast => ?_) (fun abreast => ?_) fun abreast => ?_⟩
  · obtain ⟨⟨le, _⟩, le', _⟩ := fresh abreast
    exact ⟨fun z old => Nat.not_lt_of_ge le (along.parts.present old).1,
      fun z old => Nat.not_lt_of_ge le' (along.parts.present old).2⟩
  · obtain ⟨part, left, right⟩ := abreast.bears bears bears'
    exact right.kind.trans left.kind.symm
  · obtain ⟨part, left, right⟩ := abreast.bears bears bears'
    rw [left.origin, right.origin]
    exact .parsed (.inr ⟨rfl, rfl⟩)
  · obtain ⟨⟨first, _⟩, first', _⟩ := read abreast
    rw [first, first']
    exact (places abreast).imp fun _ _ both => .inr both.1
  · refine (places abreast).imp fun c d both => ⟨both.2, fun _ => ⟨c, d, ?_, ?_, .inr both.1⟩⟩
    · exact .here (read both.1).1.2
    · exact .here (read both.1).2.2

/-! ## Copies -/

section
variable {a b : NodeId} (rel : R x y) (whole : ∀ z, doc.Below x z → ∀ quote, ¬ due z quote)
  (copied : Duplicated doc grown twin x) (copied' : Duplicated doc' grown' twin' y)
  (abreast : Abreast grown grown' doc.nodes.size doc'.nodes.size a b)
include copied copied' abreast

omit along in
/-- Nodes at the same place of two copies belong to the copies. -/
theorem copies_new : (doc.nodes.size ≤ a ∧ a < grown.nodes.size) ∧ doc'.nodes.size ≤ b ∧ b < grown'.nodes.size := by
  have present := copied.sprouted.topLt _ (List.mem_singleton_self doc.nodes.size)
  have present' := copied'.sprouted.topLt _ (List.mem_singleton_self doc'.nodes.size)
  obtain ⟨le, lt⟩ := copied.sprouted.below present.1 present.2 abreast.under
  obtain ⟨le', lt'⟩ := copied'.sprouted.below present'.1 present'.2 abreast.under'
  exact ⟨⟨le, lt⟩, le', lt'⟩

include whole

/-- The children of two copies are copies of children that are beside each other. -/
theorem copies_children (known : R (twin a) (twin' b)) (below : doc.Below x (twin a)) :
    Forall₂ (fun c d => R (twin c) (twin' d) ∧ doc.Below x (twin c) ∧
      Beside doc doc' R name due (twin a) (twin c) (twin' d)) (grown.children a) (grown'.children b) := by
  obtain ⟨⟨le, lt⟩, le', lt'⟩ := copies_new copied copied' abreast
  have beside := along.children known
  rw [← (copied.twins a le lt).children, ← (copied'.twins b le' lt').children, List.forall₂_map_left_iff,
    List.forall₂_map_right_iff] at beside
  refine forall₂_imp_mem beside fun c child d _ both => ?_
  have under : doc.Below x (twin c) := below.tail ((copied.twins a le lt).children ▸ List.mem_map_of_mem child)
  refine ⟨both.met.resolve_right fun unmet => ?_, under, both⟩
  obtain ⟨quote, next⟩ := unmet.pending
  exact whole _ under quote next

include rel

/-- The originals of two copies at the same place are counterparts. -/
theorem copies_originals : R (twin a) (twin' b) ∧ doc.Below x (twin a) := by
  induction abreast with
  | top =>
    rw [copied.original, copied'.original]
    exact ⟨rel, Below.refl doc x⟩
  | child above here ih =>
    obtain ⟨known, under, _⟩ := forall₂_of_mem_zip (along.copies_children whole copied copied' above ih.1 ih.2) here
    exact ⟨known, under⟩

/-- The nodes that two copies were first made of are at the same place, or they are counterparts. -/
theorem copies_firsts : Forall₂ (fun f f' => R f f' ∨ Abreast grown grown' doc.nodes.size doc'.nodes.size f f')
    (grown.node a).firstChildren (grown'.node b).firstChildren := by
  obtain ⟨known, under⟩ := along.copies_originals rel whole copied copied' abreast
  obtain ⟨⟨le, lt⟩, le', lt'⟩ := copies_new copied copied' abreast
  have alike := copied.twins _ le lt
  have alike' := copied'.twins _ le' lt'
  obtain ⟨rename, renames⟩ := copied.renames along.sound le lt
  obtain ⟨rename', renames'⟩ := copied'.renames along.sound' le' lt'
  rw [renames.firsts, renames'.firsts, List.forall₂_map_left_iff, List.forall₂_map_right_iff]
  have places := forall₂_mem_zip (along.copies_children whole copied copied' abreast known under)
  refine (along.parts.firsts known).imp fun f f' both => ?_
  by_cases inside : f ∈ doc.children (twin a)
  · rw [← alike.children, List.mem_map] at inside
    obtain ⟨c, child, rfl⟩ := inside
    obtain ⟨d, child', place, related, _⟩ := forall₂_mem_left places child
    obtain rfl := along.parts.nodesOne.2 both related
    rw [renames.copy c child, renames'.copy d child']
    exact .inr (.child abreast place)
  · have outside : f' ∉ doc'.children (twin' b) := fun member => by
      rw [← alike'.children, List.mem_map] at member
      obtain ⟨d, child', rfl⟩ := member
      obtain ⟨c, child, _, related, _⟩ := forall₂_mem_right places child'
      obtain rfl := along.parts.nodesOne.1 both related
      exact inside (alike.children ▸ List.mem_map_of_mem child)
    rw [renames.other f inside, renames'.other f' outside]
    exact .inl both

/-- The children of two copies fill the same fields, and took places that are counterparts. -/
theorem copies_seated : Forall₂ (fun c d => (grown'.node d).field = (grown.node c).field ∧
    ((grown.node a).isWritten = false →
      Seated grown grown' (fun x y => R x y ∨ Abreast grown grown' doc.nodes.size doc'.nodes.size x y) c d))
    (grown.children a) (grown'.children b) := by
  obtain ⟨known, under⟩ := along.copies_originals rel whole copied copied' abreast
  obtain ⟨⟨le, lt⟩, le', lt'⟩ := copies_new copied copied' abreast
  have alike := copied.twins _ le lt
  have alike' := copied'.twins _ le' lt'
  have places := forall₂_mem_zip (along.copies_children whole copied copied' abreast known under)
  refine forall₂_imp_mem places fun c child d child' both => ?_
  obtain ⟨place, related, _, beside⟩ := both
  obtain ⟨gt, more, _⟩ := copied.sprouted.child _ le lt c child
  obtain ⟨gt', more', _⟩ := copied'.sprouted.child _ le' lt' d child'
  have field := (copied.twins c (Nat.le_trans le (Nat.le_of_lt gt)) more).field
  have field' := (copied'.twins d (Nat.le_trans le' (Nat.le_of_lt gt')) more').field
  refine ⟨by rw [field, field', beside.field], fun parsed => ?_⟩
  rw [Node.isWritten, Node.buffer?, alike.origin] at parsed
  obtain ⟨e, e', ends, ends', seated⟩ := beside.seated parsed
  have took := alike.replaces c child
  have took' := alike'.replaces d child'
  -- A copy took the place that its original took, or none, as its original did.
  cases ends with
  | here none =>
    obtain rfl := along.parts.nodesOne.2 related seated
    rw [along.sound'.ends_self ends'] at took'
    rw [none] at took
    exact ⟨c, d, .here took, .here took', .inr (.child abreast place)⟩
  | there replaced rest =>
    cases ends' with
    | here none =>
      obtain rfl := along.parts.nodesOne.1 related seated
      rw [along.sound.ends_self (.there replaced rest)] at replaced
      cases replaced
    | there replaced' rest' =>
      rw [replaced] at took
      rw [replaced'] at took'
      exact ⟨e, e', .there took (along.sound.ends_prolongs copied.longer (along.sound.takenLt replaced) rest),
        .there took' (along.sound'.ends_prolongs copied'.longer (along.sound'.takenLt replaced') rest'), .inl seated⟩

end

/-- The copies of counterparts below which nothing is due become counterparts. -/
theorem copy (rel : R x y) (whole : ∀ z, doc.Below x z → ∀ quote, ¬ due z quote) (copied : Duplicated doc grown twin x)
    (copied' : Duplicated doc' grown' twin' y) (sound : grown.Sound) (sound' : grown'.Sound) :
    ∃ R' : NodeId → NodeId → Prop, (∀ {x y}, R x y → R' x y) ∧ R' doc.nodes.size doc'.nodes.size ∧
      Alongside grown grown' B R' name due := by
  have wider := along.quiet copied.longer.calm copied'.longer.calm sound sound'
  have present := copied.sprouted.topLt _ (List.mem_singleton_self doc.nodes.size)
  have present' := copied'.sprouted.topLt _ (List.mem_singleton_self doc'.nodes.size)
  refine ⟨_, .inl, .inr .top, wider.graft copied.root copied'.root (fun abreast => ?new) present.2 present'.2
    (fun abreast => ?kind) (fun abreast => ?origin) (along.copies_firsts rel whole copied copied')
    (along.copies_seated rel whole copied copied')⟩
  case new =>
    obtain ⟨⟨le, _⟩, le', _⟩ := copies_new copied copied' abreast
    exact ⟨fun z old => Nat.not_lt_of_ge le (along.parts.present old).1,
      fun z old => Nat.not_lt_of_ge le' (along.parts.present old).2⟩
  case kind =>
    obtain ⟨⟨le, lt⟩, le', lt'⟩ := copies_new copied copied' abreast
    have known := (along.copies_originals rel whole copied copied' abreast).1
    rw [(copied.twins _ le lt).kind, (copied'.twins _ le' lt').kind, along.parts.kind known]
  case origin =>
    obtain ⟨⟨le, lt⟩, le', lt'⟩ := copies_new copied copied' abreast
    rw [(copied.twins _ le lt).origin, (copied'.twins _ le' lt').origin]
    exact along.parts.origin (along.copies_originals rel whole copied copied' abreast).1

end Alongside

end Document

end StoreModels
