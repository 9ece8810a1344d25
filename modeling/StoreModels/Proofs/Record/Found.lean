import Mathlib.Data.List.Pairwise
import StoreModels.Proofs.Model.Reached
import StoreModels.Proofs.Record.Outside
import StoreModels.Proofs.Record.Parts

/-!
The models that are found in a document. Every object literal of the tree is looked at once, each before those inside
it; those of one namespace are the ones that are asked for among all. Edits inside of some models leave the models that
are found as they are, as long as these are still models and hold no others.
-/
namespace StoreModels

/-- Whether a namespace is the one asked for. -/
def asked (filter : Option (List Char)) (space : List Char) : Bool := !filter.any (· != space)

namespace Document
variable {doc doc' : Document} {x y p : NodeId} {n : Nat} {filter : Option (List Char)} {xs ys : List NodeId}
  {ms all set : List Model} {m : Model} {callees : List (List Char)} {record : ModelRecord} {spared : Option NodeId}
  {zone : NodeId → Prop} {loose : List NodeId}

/-! ## Nodes in the order of the text -/

theorem mem_descend (fits : doc.Fits n x) (below : doc.Below x y) : y ∈ doc.descend n x := by
  induction n generalizing x with
  | zero => exact fits.elim
  | succ n ih =>
    rcases Relation.ReflTransGen.cases_head below with rfl | ⟨c, child, down⟩
    · exact List.mem_cons_self
    · exact List.mem_cons_of_mem _ (List.mem_flatMap.mpr ⟨c, child, ih (fits c child) down⟩)

theorem nodup_descend (forest : doc.Forest) (fits : doc.Fits n x) : (doc.descend n x).Nodup := by
  induction n generalizing x with
  | zero => exact fits.elim
  | succ n ih =>
    refine List.nodup_cons.mpr ⟨fun inside => ?_, List.nodup_flatMap.mpr ⟨fun c child => ih (fits c child), ?_⟩⟩
    · obtain ⟨c, child, down⟩ := List.mem_flatMap.mp inside
      exact forest.not_below_parent child (below_of_mem_descend down)
    · refine (forest.distinct x).pairwise_of_forall_ne fun c child d child' other => ?_
      intro y left right
      exact other (forest.sibling_eq child child' (below_of_mem_descend left) (below_of_mem_descend right))

/-! ## Recognized object literals -/

theorem recognize_eq (doc : Document) (filter : Option (List Char)) (x : NodeId) :
    doc.recognize filter x = (doc.recognize none x).map fun found => found.filter fun m => asked filter m.space := by
  unfold recognize
  cases doc.recognizeEntries none false (doc.entries x) with
  | error failure => rfl
  | ok result =>
    obtain ⟨space, shaped⟩ := result
    cases space with
    | none => rfl
    | some space =>
      simp only [bind, Except.bind, pure, Except.pure]
      by_cases plain : space.isEmpty || !shaped
      · simp [plain, Except.map]
      · by_cases other : filter.any (· != space)
        · simp [plain, other, Except.map, asked, Option.filter]
        · simp [plain, other, Except.map, asked, Option.filter]

/-- An object literal in which no bare key is the one of a namespace is no model. -/
theorem recognize_none (lacking : ∀ e ∈ doc.entries x, doc.entryIdentifier? e ≠ some Model.namespaceName) :
    doc.recognize none x = .ok none := by
  have skip : ∀ shaped, ∃ shaped', doc.recognizeEntries none shaped (doc.entries x) = .ok (none, shaped') := by
    generalize doc.entries x = es at lacking
    intro shaped
    induction es generalizing shaped with
    | nil => exact ⟨shaped, rfl⟩
    | cons e rest ih =>
      have later := ih (fun e member => lacking e (List.mem_cons_of_mem _ member))
      simp only [recognizeEntries]
      split
      · exact later shaped
      next is => exact absurd (entryProperty?_eq_some.mp is) (lacking e (by simp))
      · exact later _
  obtain ⟨shaped', run⟩ := skip false
  rw [recognize, run]
  rfl

theorem recognizeAll_cons : doc.recognizeAll filter (x :: xs) = .ok ms ↔
    ∃ found rest, doc.recognize filter x = .ok found ∧ doc.recognizeAll filter xs = .ok rest ∧
      ms = found.toList ++ rest := by
  constructor
  · intro run
    obtain ⟨found, here, run⟩ := bind_eq_ok.mp run
    obtain ⟨rest, later, run⟩ := bind_eq_ok.mp run
    cases run
    exact ⟨found, rest, here, later, rfl⟩
  · rintro ⟨found, rest, here, later, rfl⟩
    rw [recognizeAll, here, later]
    rfl

theorem recognizeAll_append : doc.recognizeAll filter (xs ++ ys) = do
    let first ← doc.recognizeAll filter xs
    let second ← doc.recognizeAll filter ys
    return first ++ second := by
  induction xs with
  | nil =>
    rw [List.nil_append]
    cases doc.recognizeAll filter ys <;> rfl
  | cons x rest ih =>
    rw [List.cons_append, recognizeAll, ih, recognizeAll]
    cases doc.recognize filter x with
    | error failure => rfl
    | ok found =>
      cases doc.recognizeAll filter rest with
      | error failure => rfl
      | ok first =>
        cases doc.recognizeAll filter ys with
        | error failure => rfl
        | ok second =>
          show Except.ok (found.toList ++ (first ++ second)) = Except.ok ((found.toList ++ first) ++ second)
          rw [List.append_assoc]

/-- Models that are found are recognized at their object literals. -/
theorem recognizeAll_mem (run : doc.recognizeAll filter xs = .ok ms) (member : m ∈ ms) :
    doc.recognize filter m.object = .ok (some m) := by
  induction xs generalizing ms with
  | nil =>
    cases run
    cases member
  | cons x rest ih =>
    obtain ⟨found, others, here, later, rfl⟩ := recognizeAll_cons.mp run
    rcases List.mem_append.mp member with first | second
    · rw [Option.mem_toList.mp first] at here
      rw [recognize_object here]
      exact here
    · exact ih later second

/-- What is recognized among some object literals is found. -/
theorem mem_of_recognize (run : doc.recognizeAll filter xs = .ok ms) (member : x ∈ xs) :
    doc.recognize filter x = .ok none ∨ ∃ m ∈ ms, doc.recognize filter x = .ok (some m) := by
  induction xs generalizing ms with
  | nil => cases member
  | cons y rest ih =>
    obtain ⟨found, others, here, later, rfl⟩ := recognizeAll_cons.mp run
    rcases List.mem_cons.mp member with rfl | further
    · cases found with
      | none => exact .inl here
      | some m => exact .inr ⟨m, by simp, here⟩
    · rcases ih later further with none | ⟨m, listed, is⟩
      · exact .inl none
      · exact .inr ⟨m, List.mem_append_right _ listed, is⟩

theorem recognizeAll_sublist (run : doc.recognizeAll filter xs = .ok ms) : (ms.map Model.object).Sublist xs := by
  induction xs generalizing ms with
  | nil =>
    cases run
    exact List.Sublist.refl []
  | cons x rest ih =>
    obtain ⟨found, others, here, later, rfl⟩ := recognizeAll_cons.mp run
    cases found with
    | none => exact (ih later).cons x
    | some m =>
      have same := recognize_object here
      rw [Option.toList_some, List.singleton_append, List.map_cons, same]
      exact (ih later).cons_cons x

theorem recognizeAll_filter (run : doc.recognizeAll none xs = .ok ms) :
    doc.recognizeAll filter xs = .ok (ms.filter fun m => asked filter m.space) := by
  induction xs generalizing ms with
  | nil =>
    cases run
    rfl
  | cons x rest ih =>
    obtain ⟨found, others, here, later, rfl⟩ := recognizeAll_cons.mp run
    refine recognizeAll_cons.mpr ⟨found.filter fun m => asked filter m.space, _, ?_, ih later, ?_⟩
    · rw [recognize_eq, here]
      rfl
    · rw [List.filter_append]
      cases found with
      | none => rfl
      | some m => cases is : asked filter m.space <;> simp [is, Option.filter]

theorem recognizeAll_none (run : ∀ x ∈ xs, doc.recognize filter x = .ok none) :
    doc.recognizeAll filter xs = .ok [] := by
  induction xs with
  | nil => rfl
  | cons x rest ih =>
    exact recognizeAll_cons.mpr ⟨none, [], run x (by simp),
      ih fun y member => run y (List.mem_cons_of_mem _ member), rfl⟩

/-- The models of one namespace are the ones asked for among all models. -/
theorem models_filter (found : doc.models none = .ok all) :
    doc.models filter = .ok (all.filter fun m => asked filter m.space) :=
  recognizeAll_filter found

/-- Models that were asked for are among those that are there. -/
theorem models_all (found : doc.models filter = .ok ms) :
    ∃ all, doc.models none = .ok all ∧ ms = all.filter fun m => asked filter m.space := by
  have each : ∀ {xs ms}, doc.recognizeAll filter xs = .ok ms → ∃ all, doc.recognizeAll none xs = .ok all := by
    intro xs ms run
    induction xs generalizing ms with
    | nil => exact ⟨[], rfl⟩
    | cons x rest ih =>
      obtain ⟨one, others, here, later, rfl⟩ := recognizeAll_cons.mp run
      obtain ⟨all, is⟩ := ih later
      rw [recognize_eq] at here
      cases unasked : doc.recognize none x with
      | error failure =>
        rw [unasked] at here
        cases here
      | ok one => exact ⟨_, recognizeAll_cons.mpr ⟨one, all, unasked, is, rfl⟩⟩
  obtain ⟨all, is⟩ := each found
  have again : doc.models filter = _ := models_filter is
  cases found.symm.trans again
  exact ⟨all, is, rfl⟩

/-- The models of one namespace are the object literals that are recognized as such. -/
theorem mem_models_iff {space : List Char} (found : doc.models (some space) = .ok ms) :
    m ∈ ms ↔ m.object ∈ doc.objects ∧ doc.recognize none m.object = .ok (some m) ∧ m.space = space := by
  have same : asked (some space) m.space = true ↔ m.space = space :=
    (by simp [asked] : _ ↔ space = m.space).trans eq_comm
  constructor
  · intro member
    obtain ⟨all, whole, rfl⟩ := models_all found
    obtain ⟨listed, is⟩ := List.mem_filter.mp member
    exact ⟨mem_recognizeAll whole listed, recognizeAll_mem whole listed, same.mp is⟩
  · rintro ⟨listed, run, is⟩
    have here : doc.recognize (some space) m.object = .ok (some m) := by
      rw [recognize_eq, run]
      simp [Except.map, Option.filter, same.mpr is]
    rcases mem_of_recognize found listed with none | ⟨n, member, again⟩
    · rw [here] at none
      cases none
    · rw [here] at again
      cases again
      exact member

theorem models_nodup (forest : doc.Forest) (root : doc.root < doc.nodes.size) (found : doc.models filter = .ok ms) :
    (ms.map Model.object).Nodup :=
  ((nodup_descend forest (forest.fits root)).filter _).sublist (recognizeAll_sublist found)

theorem extractAll_iff {records : List ModelRecord} : doc.extractAll callees ms = .ok records ↔
    List.Forall₂ (fun m record => doc.extractModel callees m = .ok record) ms records := by
  induction ms generalizing records with
  | nil => cases records <;> simp [extractAll]
  | cons m rest ih =>
    constructor
    · intro run
      obtain ⟨record, here, run⟩ := bind_eq_ok.mp run
      obtain ⟨others, later, run⟩ := bind_eq_ok.mp run
      cases run
      exact .cons here (ih.mp later)
    · intro pairs
      obtain _ | ⟨here, rest⟩ := pairs
      rw [extractAll, here, ih.mpr rest]
      rfl

/-! ## Models that hold no others -/

/-- An object literal is a model, and none of the object literals inside it is one, but for one that is spared. -/
structure Alone (doc : Document) (m : Model) (spared : Option NodeId) : Prop where
  object : doc.role m.object = .object
  recognized : doc.recognize none m.object = .ok (some m)
  barren : ∀ y, doc.Below m.object y → y ≠ m.object → some y ≠ spared → doc.role y = .object →
    doc.recognize none y = .ok none

/-- No object literal of a tree is a model. -/
def Barren (doc : Document) (x : NodeId) : Prop :=
  ∀ y, doc.Below x y → doc.role y = .object → doc.recognize none y = .ok none

theorem Barren.below (barren : doc.Barren x) (below : doc.Below x y) : doc.Barren y :=
  fun z under => barren z (below.trans under)

/-- A tree like one without models has none. -/
theorem Likeness.barren {R : NodeId → NodeId → Prop} {x' : NodeId} (like : Likeness doc doc' R) (rel : R x x')
    (barren : doc.Barren x) : doc'.Barren x' := by
  intro y' under object
  obtain ⟨y, below, both⟩ := like.below rel under
  rw [like.role both] at object
  rw [like.recognize both, barren y below object]
  rfl

/-- No model of a document holds another one. -/
def Separate (doc : Document) : Prop :=
  ∀ models, doc.models none = .ok models → ∀ m ∈ models, ∀ m' ∈ models, doc.Below m.object m'.object → m' = m

/-- The models that are found stand alone if none of them holds another one. -/
theorem Separate.alone (separate : doc.Separate) (forest : doc.Forest) (root : doc.root < doc.nodes.size)
    (found : doc.models none = .ok all) (member : m ∈ all) : doc.Alone m none := by
  have recognized := recognizeAll_mem found member
  have listed := mem_recognizeAll found member
  rw [objects, List.mem_filter] at listed
  refine ⟨by simpa using listed.2, recognized, fun y below other _ object => ?_⟩
  have under : doc.Below doc.root y := (below_of_mem_descend listed.1).trans below
  have looked : y ∈ doc.objects :=
    List.mem_filter.mpr ⟨mem_descend (forest.fits root) under, by simpa using object⟩
  rcases mem_of_recognize found looked with none | ⟨m', listed', is⟩
  · exact none
  · have here := recognize_object is
    rw [separate all found m member m' listed' (here ▸ below)] at here
    exact absurd here.symm other

/-- A model that stands alone is the only one that is found in its tree. -/
theorem Alone.found (alone : doc.Alone m none) (forest : doc.Forest) (n : Nat) :
    doc.recognizeAll none ((doc.descend (n + 1) m.object).filter fun id => doc.role id = .object) = .ok [m] := by
  rw [descend, List.filter_cons_of_pos (by simpa using alone.object)]
  refine recognizeAll_cons.mpr ⟨some m, [], alone.recognized, recognizeAll_none fun y member => ?_, rfl⟩
  rw [List.mem_filter, List.mem_flatMap] at member
  obtain ⟨⟨c, child, down⟩, object⟩ := member
  have below := below_of_mem_descend down
  refine alone.barren y ((Below.child child).trans below) (fun same => ?_) (by simp) (by simpa using object)
  exact forest.not_below_parent child (same ▸ below)

theorem recognizeAll_flatMap {f g : NodeId → List NodeId}
    (same : ∀ c ∈ xs, doc'.recognizeAll filter (g c) = doc.recognizeAll filter (f c)) :
    doc'.recognizeAll filter (xs.flatMap g) = doc.recognizeAll filter (xs.flatMap f) := by
  induction xs with
  | nil => rfl
  | cons x rest ih =>
    rw [List.flatMap_cons, List.flatMap_cons, recognizeAll_append, recognizeAll_append, same x (by simp),
      ih fun c member => same c (List.mem_cons_of_mem _ member)]

namespace Calm

/-- Edits inside of some models that stand alone before and after leave the models that are found. -/
theorem models (calm : Calm doc doc' zone loose) (sound : doc.Sound) (forest : doc'.Forest) (plain : doc.Plain)
    (roles : ∀ z, zone z → doc.role z = .object ∨ doc.role z = .pair) (root : doc.root < doc.nodes.size)
    (inside : ∀ z, zone z → ∃ m ∈ set, doc.Below m.object z) (attached : ∀ m ∈ set, doc.Below doc.root m.object)
    (before : ∀ m ∈ set, doc.Alone m none) (after : ∀ m ∈ set, doc'.Alone m none) :
    doc'.models none = doc.models none := by
  -- Down from the root, up to the edited models, all children are as before.
  have down : ∀ {n n' x}, doc.Fits n x → n ≤ n' → x < doc.nodes.size →
    (∀ m ∈ set, doc.Below m.object x → m.object = x) →
      doc'.recognizeAll none ((doc'.descend n' x).filter fun id => doc'.role id = .object) =
        doc.recognizeAll none ((doc.descend n x).filter fun id => doc.role id = .object) := by
    intro n
    induction n with
    | zero => exact fun fits => fits.elim
    | succ n ih =>
      intro n' x fits le lt upper
      obtain ⟨n', rfl⟩ : ∃ k, n' = k + 1 := ⟨n' - 1, by omega⟩
      by_cases edited : ∃ m ∈ set, m.object = x
      · obtain ⟨m, member, rfl⟩ := edited
        rw [(after m member).found forest, (before m member).found sound.forest]
      · have above : ∀ m ∈ set, ¬ doc.Below m.object x := fun m member reach =>
          edited ⟨m, member, upper m member reach⟩
        have outside : ¬ zone x := fun here => by
          obtain ⟨m, member, reach⟩ := inside x here
          exact above m member reach
        have lower : ∀ c ∈ doc.children x, ∀ m ∈ set, doc.Below m.object c → m.object = c := by
          intro c child m member reach
          rcases Relation.ReflTransGen.cases_tail reach with same | ⟨q, up, edge⟩
          · exact same.symm
          · exact absurd (sound.forest.parent_unique edge child ▸ up) (above m member)
        have below : doc'.recognizeAll none (((doc.children x).flatMap (doc'.descend n')).filter
              fun id => doc'.role id = .object) =
            doc.recognizeAll none
              (((doc.children x).flatMap (doc.descend n)).filter fun id => doc.role id = .object) := by
          rw [List.filter_flatMap, List.filter_flatMap]
          refine recognizeAll_flatMap fun c child => ?_
          exact ih (fits c child) (by omega) (sound.forest.childLt child) (lower c child)
        have here : doc'.recognize none x = doc.recognize none x := by
          refine calm.recognize sound forest plain roles lt outside (fun e listed taken => ?_) none
          obtain ⟨m, member, reach⟩ := inside e taken
          obtain ⟨child, entry⟩ := mem_entries listed
          rw [← lower e child m member reach, (before m member).object] at entry
          cases entry
        rw [descend, descend, calm.children x lt outside, List.filter_cons, List.filter_cons, calm.ext.role lt]
        split
        · rw [recognizeAll, recognizeAll, here, below]
        · exact below
  unfold Document.models objects descendants
  rw [calm.ext.root]
  refine down (sound.forest.fits root) calm.ext.size root fun m member reach => ?_
  exact sound.forest.below_antisymm reach (attached m member)

/-- A tree outside of the zone is recognized as before. -/
theorem recognize_apart (calm : Calm doc doc' zone loose) (sound : doc.Sound) (forest : doc'.Forest)
    (lt : x < doc.nodes.size) (apart : doc.Apart zone x) : doc'.recognize filter x = doc.recognize filter x := by
  have like := calm.likeness sound forest
  unfold Document.recognize
  rw [like.recognizeEntries (like.entries ⟨rfl, lt, apart⟩)]

theorem barren (calm : Calm doc doc' zone loose) (sound : doc.Sound) (forest : doc'.Forest) (lt : x < doc.nodes.size)
    (apart : doc.Apart zone x) (barren : doc.Barren x) : doc'.Barren x :=
  (calm.likeness sound forest).barren ⟨rfl, lt, apart⟩ barren

/-- A model outside of the zone stands alone as before, and has the same record. -/
theorem alone (calm : Calm doc doc' zone loose) (sound : doc.Sound) (forest : doc'.Forest)
    (apart : doc.Apart zone m.object) (alone : doc.Alone m spared) : doc'.Alone m spared := by
  have lt := lt_of_role alone.object (by decide)
  refine ⟨(calm.ext.role lt).trans alone.object, ?_, fun y below other kept object => ?_⟩
  · rw [calm.recognize_apart sound forest lt apart]
    exact alone.recognized
  · have below := (calm.below sound.forest lt apart).mp below
    have present := sound.forest.below_lt lt below
    rw [calm.ext.role present] at object
    rw [calm.recognize_apart sound forest present (apart.below below)]
    exact alone.barren y below other kept object

theorem extractModel (calm : Calm doc doc' zone loose) (sound : doc.Sound) (forest : doc'.Forest)
    (lt : m.object < doc.nodes.size) (apart : doc.Apart zone m.object) :
    doc'.extractModel callees m = doc.extractModel callees m := by
  have like := calm.likeness sound forest
  exact like.extractEntries sound.forest callees (like.entries ⟨rfl, lt, apart⟩) _

end Calm

end Document

end StoreModels
