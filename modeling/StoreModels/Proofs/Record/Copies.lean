import StoreModels.Proofs.Document.Counterparts
import StoreModels.Proofs.Document.Rows
import StoreModels.Proofs.Record.Snippets

/-!
Copies tell what their originals tell. A copy has new nodes, but what it was parsed with are old ones where these are
children no more, and the places that its entries took are those that the original entries took; so the printer finds
the slots of both at the same positions. From then on the two have nothing to do with each other: work below one of them
changes nothing that the other one tells.
-/
namespace StoreModels
open Syntax (Dialect Reader)
open List (Forall₂)

namespace Document
variable {doc doc' doc'' : Document} {t u x y original : NodeId}

/-! ## What nodes tell -/

/-- A node of the second document tells what one of the first document does. -/
structure Tells (doc doc' : Document) (x y : NodeId) : Prop where
  text : doc'.printNode y = doc.printNode x
  value : doc'.evaluate y = doc.evaluate x
  key : doc'.entryKey? y = doc.entryKey? x
  actions : ∀ callees, doc'.dispatches callees y = doc.dispatches callees x

theorem Tells.refl (doc : Document) (x : NodeId) : Tells doc doc x x := ⟨rfl, rfl, rfl, fun _ => rfl⟩

theorem Tells.trans {z : NodeId} (first : Tells doc doc' x y) (second : Tells doc' doc'' y z) : Tells doc doc'' x z :=
  ⟨second.text.trans first.text, second.value.trans first.value, second.key.trans first.key,
    fun callees => (second.actions callees).trans (first.actions callees)⟩

theorem Tells.symm (tells : Tells doc doc' x y) : Tells doc' doc y x :=
  ⟨tells.text.symm, tells.value.symm, tells.key.symm, fun callees => (tells.actions callees).symm⟩

theorem Likeness.tells {R : NodeId → NodeId → Prop} (like : Likeness doc doc' R) (forest : doc.Forest) (rel : R x y) :
    Tells doc doc' x y :=
  ⟨like.text rel, like.evaluate forest rel, like.entryKey? rel, fun callees => like.dispatches forest callees rel⟩

/-- A tree outside of the zone of some edits tells what it did. -/
theorem Calm.tells {zone : NodeId → Prop} {loose : List NodeId} (calm : Calm doc doc' zone loose) (sound : doc.Sound)
    (forest : doc'.Forest) (lt : x < doc.nodes.size) (apart : doc.Apart zone x) : Tells doc doc' x x :=
  (calm.likeness sound forest).tells sound.forest ⟨rfl, lt, apart⟩

/-! ## Copies -/

section
variable {twin : NodeId → NodeId} (copied : Duplicated doc doc' twin original)
include copied

theorem Duplicated.style : SameStyle doc doc' (· = ·) where
  newline := copied.longer.toExtends.newline
  indentUnit := copied.longer.toExtends.indentUnit
  textsOne := ⟨fun _ _ _ left right => left.trans right.symm, fun _ _ _ left right => left.symm.trans right⟩
  text := by
    rintro b _ rfl
    rw [copied.longer.rest]
    rfl

theorem Duplicated.resembles (le : doc.nodes.size ≤ x) (lt : x < doc'.nodes.size) :
    Resembles (· = ·) (doc.node (twin x)) (doc'.node x) :=
  ⟨(copied.twins x le lt).kind, (copied.twins x le lt).origin ▸ .refl _⟩

/-- A copy was parsed like its twin. -/
theorem Duplicated.parallel {rename : NodeId → NodeId} (sound : doc.Sound) (le : doc.nodes.size ≤ x)
    (lt : x < doc'.nodes.size) (renames : Renames doc doc' twin x rename) :
    Parallel doc doc' (· = ·) (fun f f' => f ∈ (doc.node (twin x)).firstChildren ∧ f' = rename f) (twin x) x where
  here := copied.resembles le lt
  firsts := by
    rw [renames.firsts, List.forall₂_map_right_iff]
    refine List.forall₂_same.mpr fun f listed => ?_
    obtain ⟨kind, origin⟩ := renames.stays copied sound le lt listed
    exact ⟨⟨listed, rfl⟩, kind, origin ▸ .refl _⟩

variable (sound : doc.Sound) (orderly : doc.Orderly)
include sound orderly

/-- The entries of a copied object literal have the positions of their twins. -/
theorem Duplicated.aligned {rename : NodeId → NodeId} {c : NodeId} (le : doc.nodes.size ≤ x) (lt : x < doc'.nodes.size)
    (renames : Renames doc doc' twin x rename) (object : doc.role (twin x) = .object) (child : c ∈ doc'.children x)
    (entry : (doc.role (twin c)).isEntry = true) :
    Aligned doc doc' (fun f f' => f ∈ (doc.node (twin x)).firstChildren ∧ f' = rename f) (twin c) c := by
  obtain ⟨gt, lt', _⟩ := copied.sprouted.child x le lt c child
  have role : doc'.role c = doc.role (twin c) := (copied.resembles (Nat.le_trans le (Nat.le_of_lt gt)) lt').role
  obtain ⟨e, ends⟩ := sound.ends (twin c)
  obtain ⟨e', ends', is⟩ :=
    renames.seat copied sound orderly le lt object (List.mem_filter.mpr ⟨child, role ▸ entry⟩) ends
  refine ⟨e, e', ends, ends', ?_⟩
  rintro f _ ⟨listed, rfl⟩ first
  exact is f (List.mem_filter.mpr ⟨listed, first⟩)

/-- A copy prints as its twin. -/
theorem Duplicated.render (le : doc.nodes.size ≤ x) (lt : x < doc'.nodes.size) (base : List Char) (context : BufferId) :
    doc'.render x base context = doc.render (twin x) base context := by
  have sound' := sound.duplicate copied
  refine sound'.forest.induction (P := fun x => doc.nodes.size ≤ x → x < doc'.nodes.size → ∀ base context,
    doc'.render x base context = doc.render (twin x) base context) (fun x below le lt base context => ?_) x le lt base
    context
  have alike := copied.twins x le lt
  obtain ⟨rename, renames⟩ := copied.renames sound le lt
  have parallel := copied.parallel sound le lt renames
  have pairs : Forall₂ (fun a c => twin c = a ∧ c ∈ doc'.children x ∧ PrintsAs doc doc' doc.render doc'.render (· = ·) a c)
      (doc.children (twin x)) (doc'.children x) := by
    rw [← alike.children, List.forall₂_map_left_iff]
    refine List.forall₂_same.mpr fun c member => ⟨rfl, member, ?_⟩
    obtain ⟨gt, lt', _⟩ := copied.sprouted.child x le lt c member
    have le' := Nat.le_trans le (Nat.le_of_lt gt)
    refine (copied.resembles le' lt').printsAs copied.style fun base b b' same => ?_
    exact same ▸ below c member le' lt' base b
  have shown := pairs.imp fun _ _ both => both.2.2
  have role := (copied.resembles le lt).role
  have bare : (doc'.node x).children.isEmpty = (doc.node (twin x)).children.isEmpty := forall₂_isEmpty pairs
  have written := printWritten_congr (b := context) copied.style.newline copied.style.indentUnit alike.kind shown rfl base
  have clean : ∀ b, doc'.buffer b = doc.buffer b := fun b => copied.style.text rfl
  have parts := fun b span => parallel.printParts copied.style (b := b) rfl shown span
  rw [sound'.forest.render_eq, sound.forest.render_eq]
  simp only [printWith, alike.origin, alike.dirty, role, bare, written, clean, parts]
  split
  · rfl
  · rfl
  · split
    · rfl
    · split
      next object =>
        refine parallel.printObject copied.style rfl sound sound' ?_ _
        refine pairs.imp ?_
        rintro _ c ⟨rfl, child, shown⟩
        exact ⟨shown, copied.aligned sound orderly le lt renames object child⟩
      next => rfl

/-- A copy tells what its twin does. -/
theorem Duplicated.tells (le : doc.nodes.size ≤ x) (lt : x < doc'.nodes.size) : Tells doc doc' (twin x) x := by
  have like := copied.likeness_of (P := fun _ => True) (fun _ _ => trivial) fun b le lt _ => by
    have place : (doc'.node b).buffer? = (doc.node (twin b)).buffer? := by
      rw [Node.buffer?, (copied.twins b le lt).origin, Node.buffer?]
    show doc'.render b [] _ = doc.render (twin b) [] _
    rw [place, copied.render sound orderly le lt]
  exact like.tells sound.forest ⟨rfl, le, lt, trivial⟩

end

/-- Below a copy there are new nodes alone. -/
theorem Duplicated.below_new {twin : NodeId → NodeId} (copied : Duplicated doc doc' twin original)
    (below : doc'.Below doc.nodes.size x) : doc.nodes.size ≤ x :=
  copied.grown.below_new (Nat.le_refl _) below

/-- What is below a copy is aside of what was there before. -/
theorem Duplicated.aside {twin : NodeId → NodeId} (copied : Duplicated doc doc' twin original) (sound : doc.Sound)
    (lt : x < doc.nodes.size) : doc'.Aside doc.nodes.size x := by
  refine ⟨fun below => ?_, fun below => ?_⟩
  · exact Nat.not_lt_of_ge (copied.below_new below) lt
  · have old := sound.forest.below_lt lt ((copied.longer.steady.below sound.forest lt).mp below)
    exact Nat.lt_irrefl _ old

/-! ## Later on -/

section
variable [Reader] {zone kept : NodeId → Prop}

/-- Work aside of a tree changes nothing that it tells. -/
theorem Works.tells (works : Works zone kept doc doc') (sound : doc.Sound) (spares : Spares zone kept doc u) :
    Tells doc doc' u u ∧ Spares zone kept doc' u := by
  induction works with
  | refl => exact ⟨.refl doc u, spares⟩
  | @tail mid later before work ih =>
    obtain ⟨tells, spares⟩ := ih
    have soundMid : mid.Sound := (Works.moves before).sound sound
    obtain ⟨_, _, calm, apart⟩ := work.calm soundMid spares
    exact ⟨tells.trans (calm.tells soundMid (work.move.sound soundMid).forest spares.lt apart),
      work.stays_aside soundMid spares⟩

/-- Some edits of sets of models, each of models that are below a node then. -/
inductive EditsBelow (t : NodeId) : Document → Document → Prop
  | start (doc : Document) : EditsBelow t doc doc
  | edit {doc mid : Document} (before : EditsBelow t doc mid) (models : List Model)
    (objects : ∀ m ∈ models, mid.role m.object = .object ∧ mid.Below t m.object) (edit : ModelEdit) :
    EditsBelow t doc ((ModelSet.mk mid models).apply edit).1.doc

/-- Editing models below a node changes nothing that a node aside of it tells. -/
theorem EditsBelow.tells (edits : EditsBelow t doc doc') (sound : doc.Sound) (lt : u < doc.nodes.size)
    (aside : doc.Aside t u) : Tells doc doc' u u ∧ doc'.Sound ∧ u < doc'.nodes.size ∧ doc'.Aside t u := by
  induction edits with
  | start => exact ⟨.refl doc u, sound, lt, aside⟩
  | @edit mid before models objects edit ih =>
    obtain ⟨tells, soundMid, ltMid, asideMid⟩ := ih
    have ready : mid.Ready (models.map Model.object) (List.range mid.nodes.size) := by
      have object : ∀ o ∈ models.map Model.object, mid.role o = .object := by
        simpa using fun m member => (objects m member).1
      exact ⟨soundMid, object, fun o member => List.mem_range.mpr (lt_of_role (object o member) (by decide)),
        fun x member => List.mem_range.mp member⟩
    have works := (ModelSet.apply_works ready edit).1
    -- The node above the models is aside of the other one, too, and so stays.
    have wider : Works (fun o => o = t ∨ o ∈ models.map Model.object) (· ∈ List.range mid.nodes.size) mid _ :=
      works.mono (fun _ listed => .inr listed) fun _ keep => keep
    have spares : Spares (fun o => o = t ∨ o ∈ models.map Model.object) (· ∈ List.range mid.nodes.size) mid u := by
      refine ⟨ltMid, ?_, fun x above => List.mem_range.mpr (above_lt ltMid above)⟩
      rintro o (rfl | listed)
      · exact asideMid
      · obtain ⟨m, member, rfl⟩ := List.mem_map.mp listed
        exact asideMid.below soundMid.forest (objects m member).2
    obtain ⟨more, still⟩ := wider.tells soundMid spares
    exact ⟨tells.trans more, works.moves.sound soundMid, still.lt, still.aside t (.inl rfl)⟩

/-! ## What a copy is -/

/-- A node of the second document is a copy of one of the first. -/
structure Copy (doc doc' : Document) (original copy : NodeId) : Prop where
  detached : doc'.parent? copy = none
  /-- All texts and all nodes are as they were. -/
  unchanged : doc' = { doc with nodes := doc'.nodes } ∧ ∀ x < doc.nodes.size, doc'.node x = doc.node x
  /-- What is below the copy is new, and no child of an older node. -/
  apart : ∀ x, doc'.Below copy x → doc.nodes.size ≤ x ∧ ∀ p < doc.nodes.size, x ∉ doc'.children p
  same : Tells doc' doc' original copy
  still : Tells doc doc' original original
  /-- Later moves below one of the two that leave the other where it is change nothing that this one tells. -/
  moved : ∀ {t u}, t = copy ∧ u = original ∨ t = original ∧ u = copy → ∀ later,
    Works (· = t) (doc'.Below · u) doc' later → Tells doc' later u u
  /-- Later edits of models below one of the two change nothing that the other one tells. -/
  edited : ∀ {t u}, t = copy ∧ u = original ∨ t = original ∧ u = copy → ∀ later,
    EditsBelow t doc' later → Tells doc' later u u

theorem Duplicated.copy {twin : NodeId → NodeId} (copied : Duplicated doc doc' twin original) (sound : doc.Sound)
    (orderly : doc.Orderly) (present : original < doc.nodes.size) : Copy doc doc' original doc.nodes.size := by
  have sound' := sound.duplicate copied
  have more := (copied.sprouted.topLt doc.nodes.size (by simp)).2
  have still' : original < doc'.nodes.size := Nat.lt_of_lt_of_le present copied.longer.size
  have still := copied.longer.calm.tells sound sound'.forest present (apart_nowhere doc original)
  have tells := copied.tells sound orderly (Nat.le_refl _) more
  rw [copied.original] at tells
  have aside := copied.aside sound present
  refine ⟨copied.root, ⟨copied.longer.rest, copied.longer.node⟩, fun x below => ?_, still.symm.trans tells, still, ?_, ?_⟩
  · have new := copied.below_new below
    refine ⟨new, fun p old child => ?_⟩
    rw [copied.grown.children p old] at child
    exact Nat.not_lt_of_ge new (sound.forest.childLt child)
  · rintro t u (⟨rfl, rfl⟩ | ⟨rfl, rfl⟩) later works
    · exact (works.tells sound' ⟨still', fun o same => same ▸ aside, fun _ above => above⟩).1
    · exact (works.tells sound' ⟨more, fun o same => same ▸ aside.symm, fun _ above => above⟩).1
  · rintro t u (⟨rfl, rfl⟩ | ⟨rfl, rfl⟩) later edits
    · exact (edits.tells sound' still' aside).1
    · exact (edits.tells sound' more aside.symm).1

/-- In every document that edits lead to, also in the middle of an edit, a copy of a node, whatever has been replaced,
    added or taken out below it, is a new tree without a parent that tells what the node does: both have the same text, the
    same value and the same key, and dispatch the same actions. Nothing else is changed by it, and no later work below one
    of the two changes what the other one tells. -/
theorem duplicate_copies {first start : Document} {dialect : Dialect} {source : List Char} (reached : Reached first start)
    (file : Document.parse dialect source = .ok first) (moves : start.Moves doc) {n : NodeId} (present : n < doc.nodes.size) :
    Copy doc (doc.duplicate n).1 n (doc.duplicate n).2 := by
  have sound := moves.sound (reached.sound file)
  obtain ⟨number, twin, copied⟩ := duplicate_duplicated sound.forest present
  rw [number]
  exact copied.copy sound (moves.orderly (reached.sound file) (reached.orderly file)) present

end

/-- A copy of a container that has got one entry and lost another one. -/
theorem duplicate_copies_shifted :
    @Copy Syntax.separatorReader separatorShifted (separatorShifted.duplicate 18).1 18 (separatorShifted.duplicate 18).2 ∧
      (separatorShifted.duplicate 18).1.printNode (separatorShifted.duplicate 18).2 =
        "\x7b/*\n*/b:2, e: 2\x7d".toList := by
  have file : @Document.parse Syntax.separatorReader .markup Syntax.separatorText = .ok separatorFile := rfl
  have copy := @duplicate_copies _ Syntax.separatorReader _ _ _ _ separatorShifted_reached file Relation.ReflTransGen.refl 18
    (by decide +kernel)
  refine ⟨copy, ?_⟩
  obtain ⟨_, _, _, same, still, _, _⟩ := copy
  rw [same.text, still.text]
  decide +kernel

end Document

end StoreModels
