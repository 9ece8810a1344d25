import StoreModels.Proofs.Document.Brought
import StoreModels.Proofs.Record.Containers

/-!
Filled entries. An update gives entries of a file another value, one after the other: a tree of the snippet takes the
place of the value of a pair, and an entry that is no pair makes way for one with such a tree. What is known of the tree
of the snippet, and lasts, is known of all these trees in the end; everywhere else the file is as it was.
-/
namespace StoreModels
open Syntax (Reader)

/-! ## Targets -/

/-- An entry of an object literal that gets another value, with the quotes for a key that has to be written. -/
structure Target where
  object : NodeId
  entry : NodeId
  quote : Char

variable {doc doc' first : Document} {name : List Char} {load : Document → NodeId → Prop} {x c f k n value : NodeId}
  {zone : NodeId → Prop} {loose entries : List NodeId} {done done' : Target → Prop} {t u : Target} {snippet : Snippet}

namespace Target

/-- The node that is exchanged: the value of a pair, or else the entry. -/
def spot (t : Target) (doc : Document) : NodeId := doc.entryBody t.entry

/-- The node that the exchanged one is a child of. -/
def holder (t : Target) (doc : Document) : NodeId := if (doc.pairValue? t.entry).isSome then t.entry else t.object

/-- The target is an entry of its object literal. -/
structure Lies (t : Target) (doc : Document) : Prop where
  object : doc.role t.object = .object
  entry : t.entry ∈ doc.entries t.object

theorem spot_pair (held : doc.pairValue? t.entry = some value) :
    t.spot doc = value ∧ t.holder doc = t.entry := by
  simp [spot, holder, Document.entryBody, held]

theorem spot_entry (none : doc.pairValue? t.entry = none) : t.spot doc = t.entry ∧ t.holder doc = t.object := by
  simp [spot, holder, Document.entryBody, none]

namespace Lies
variable (lies : t.Lies doc) (lies' : u.Lies doc)
include lies

theorem entry_child : t.entry ∈ doc.children t.object := (Document.mem_entries lies.entry).1

theorem spot_child : t.spot doc ∈ doc.children (t.holder doc) := by
  cases held : doc.pairValue? t.entry with
  | none =>
    obtain ⟨spot, holder⟩ := spot_entry held
    rw [spot, holder]
    exact lies.entry_child
  | some value =>
    obtain ⟨spot, holder⟩ := spot_pair held
    rw [spot, holder]
    exact (Document.pairValue?_some held).2.1

theorem below_holder : doc.Below t.object (t.holder doc) := by
  unfold holder
  split
  · exact .child lies.entry_child
  · exact .refl doc _

theorem below_spot : doc.Below t.object (t.spot doc) := Document.below_entryBody lies.entry_child

/-- An entry is never an object literal, so a target in it has another holder. -/
theorem not_holder (other : u.entry ≠ t.entry) (object : doc.role u.object = .object) : t.entry ≠ u.holder doc := by
  intro same
  unfold holder at same
  split at same
  · exact other same.symm
  · have entry := (Document.mem_entries lies.entry).2
    rw [same, object] at entry
    cases entry

include lies'

/-- Different entries are exchanged in different spots. -/
theorem entry_eq (forest : doc.Forest) (same : t.spot doc = u.spot doc) : t.entry = u.entry := by
  have holders : t.holder doc = u.holder doc := forest.parent_unique lies.spot_child (same ▸ lies'.spot_child)
  cases held : doc.pairValue? t.entry with
  | none =>
    cases held' : doc.pairValue? u.entry with
    | none => rw [← (spot_entry held).1, same, (spot_entry held').1]
    | some value =>
      have pair := (Document.pairValue?_some held').1
      rw [← (spot_pair held').2, ← holders, (spot_entry held).2, lies.object] at pair
      cases pair
  | some value =>
    cases held' : doc.pairValue? u.entry with
    | none =>
      have pair := (Document.pairValue?_some held).1
      rw [← (spot_pair held).2, holders, (spot_entry held').2, lies'.object] at pair
      cases pair
    | some value' => rw [← (spot_pair held).2, holders, (spot_pair held').2]

/-- Of two targets in one object literal neither is exchanged within the other. -/
theorem apart (forest : doc.Forest) (together : t.object = u.object) (quotes : t.quote = u.quote)
    (below : doc.Below (t.spot doc) (u.spot doc)) : t = u := by
  have down : ∀ s : Target, s.Lies doc → doc.Below s.entry (s.spot doc) := fun s _ => by
    unfold spot Document.entryBody
    cases held : doc.pairValue? s.entry with
    | none => exact .refl doc _
    | some value => exact .child (Document.pairValue?_some held).2.1
  have entries : t.entry = u.entry :=
    forest.sibling_eq lies.entry_child (together ▸ lies'.entry_child) ((down t lies).trans below) (down u lies')
  cases t
  cases u
  simp_all

end Lies

end Target

namespace Document

/-! ## What targets get -/

/-- Everything in a tree was added after the file had been read. -/
def Late (first doc : Document) (c : NodeId) : Prop := ∀ y, doc.Below c y → first.nodes.size ≤ y

theorem Late.apart (late : first.Late doc c) (early : ∀ z, zone z → z < first.nodes.size) : doc.Apart zone c :=
  fun z inside below => Nat.not_lt_of_ge (late z below) (early z inside)

theorem Late.calm (late : first.Late doc c) (calm : Calm doc doc' zone loose) (forest : doc.Forest)
    (lt : c < doc.nodes.size) (early : ∀ z, zone z → z < first.nodes.size) : first.Late doc' c :=
  fun y below => late y ((calm.below forest lt (late.apart early)).mp below)

/-- What is known of a tree as long as nothing in it changes, and then of its copies. -/
structure Lasting (load : Document → NodeId → Prop) : Prop where
  calm : ∀ {doc doc' zone loose value}, load doc value → Calm doc doc' zone loose → doc.Sound → doc.Apart zone value →
    value < doc.nodes.size → load doc' value
  copy : ∀ {doc doc' twin value}, load doc value → Duplicated doc doc' twin value → doc.Sound → load doc' doc.nodes.size

/-- What a target gets: a tree of the snippet, as its value or, below a key, in place of the entry. -/
def Gets (first doc : Document) (name : List Char) (load : Document → NodeId → Prop) (t : Target) (c : NodeId) : Prop :=
  if (first.pairValue? t.entry).isSome then load doc c else ∃ value, doc.Heads name t.quote c value ∧ load doc value

/-- A new tree has taken the spot of a target. -/
structure Filled (first doc : Document) (name : List Char) (load : Document → NodeId → Prop) (t : Target) (c : NodeId) :
    Prop where
  took : (doc.node c).replaces = some (t.spot first)
  field : (doc.node c).field = (first.node (t.spot first)).field
  late : first.Late doc c
  gets : first.Gets doc name load t c

theorem Gets.calm (gets : first.Gets doc name load t c) (lasting : Lasting load) (calm : Calm doc doc' zone loose)
    (sound : doc.Sound) (lt : c < doc.nodes.size) (apart : doc.Apart zone c) : first.Gets doc' name load t c := by
  unfold Gets at gets ⊢
  split at gets
  next pair =>
    rw [if_pos pair]
    exact lasting.calm gets calm sound apart lt
  next other =>
    rw [if_neg other]
    obtain ⟨value, heads, known⟩ := gets
    have below := Below.child heads.value_child
    exact ⟨value, heads.calm calm sound.forest apart.outside fun c child _ => (apart.below (.child child)).outside,
      lasting.calm known calm sound (apart.below below) (sound.forest.childLt heads.value_child)⟩

theorem Filled.calm (filled : first.Filled doc name load t c) (lasting : Lasting load) (calm : Calm doc doc' zone loose)
    (sound : doc.Sound) (lt : c < doc.nodes.size) (early : ∀ z, zone z → z < first.nodes.size) (held : c ∉ loose) :
    first.Filled doc' name load t c where
  took := (calm.replaces c lt held).trans filled.took
  field := (calm.field c lt held).trans filled.field
  late := filled.late.calm calm sound.forest lt early
  gets := filled.gets.calm lasting calm sound lt (filled.late.apart early)

/-! ## Filling one target after the other -/

/-- Some targets of a file have been filled, and all else is as it was. -/
structure Filling (first doc : Document) (name : List Char) (load : Document → NodeId → Prop)
    (done : Target → Prop) : Prop where
  sound : doc.Sound
  lies : ∀ t, done t → t.Lies first
  calm : ∃ loose, Calm first doc (fun z => ∃ t, done t ∧ z = t.holder first) loose ∧ ∀ y ∈ loose, first.nodes.size ≤ y
  places : ∀ x < first.nodes.size, List.Forall₂ (fun c f => (c = f ∧ ∀ t, done t → t.spot first ≠ f) ∨
    ∃ t, done t ∧ t.spot first = f ∧ first.Filled doc name load t c) (doc.children x) (first.children x)

/-- A snippet has a tree for the targets of which something is known, and which has no place until it is used. -/
structure Carries (first doc : Document) (load : Document → NodeId → Prop) (snippet : Snippet) : Prop where
  present : snippet.tree < doc.nodes.size
  known : load doc snippet.tree
  late : first.Late doc snippet.tree
  free : snippet.used = false → doc.Free snippet.tree

/-- The tree of a snippet that was read has no place. -/
theorem Carries.parsed [Reader] {text : List Char} {grown : Document} {tree : NodeId} (sound : first.Sound)
    (read : first.parseExpression text = .ok (grown, tree)) (known : load grown tree) :
    first.Carries grown load ⟨tree, false⟩ := by
  obtain ⟨rfl, _, _, adopted⟩ := parseExpression_adopted read
  have loose : Loose grown [] first.nodes.size := adopted.loose (sound.withBuffer _) (by simp)
  exact ⟨loose.free.lt, known, fun y below => (adopted.below_new below).1, fun _ => loose.free⟩

/-- Of the next tree of the snippet the same is known, and it has no place. -/
theorem Carries.next [Reader] (carries : first.Carries doc load snippet) (lasting : Lasting load) (sound : doc.Sound) (ext : Extends first doc) :
    ∃ value snippet' doc', Edit.outcome snippet.next doc = (.ok (value, snippet'), doc') ∧ doc'.Sound ∧
      Calm doc doc' (fun _ => False) [] ∧ snippet'.used = true ∧ first.Carries doc' load snippet' ∧
      load doc' value ∧ first.Late doc' value ∧ doc'.Free value := by
  unfold Snippet.next
  have present := carries.present
  by_cases used : snippet.used = true
  · obtain ⟨number, twin, copied⟩ := duplicate_duplicated sound.forest present
    have calm := copied.longer.calm
    have sound' := Move.sound (.copy present) sound
    have spared := apart_nowhere doc snippet.tree
    refine ⟨doc.nodes.size, snippet, (doc.duplicate snippet.tree).1, ?_, sound', calm, used,
      ⟨Nat.lt_of_lt_of_le present calm.ext.size, ?_, ?_, ?_⟩, ?_, ?_, ?_⟩
    · simp only [used, if_true, Edit.outcome_bind, Edit.outcome_make, number, Edit.outcome_pure]
    · exact lasting.calm carries.known calm sound spared present
    · exact carries.late.calm calm sound.forest present fun z impossible => impossible.elim
    · intro unused
      rw [used] at unused
      cases unused
    · exact lasting.copy carries.known copied sound
    · exact fun y below => Nat.le_trans ext.size (copied.grown.below_new (Nat.le_refl _) below)
    · exact (copied.loose sound (by simp) : Loose _ [] doc.nodes.size).free
  · have unused : snippet.used = false := by simpa using used
    refine ⟨snippet.tree, { snippet with used := true }, doc, ?_, sound, Calm.refl doc, rfl,
      ⟨present, carries.known, carries.late, ?_⟩, carries.known, carries.late, carries.free unused⟩
    · simp only [unused, Bool.false_eq_true, if_false, Edit.outcome_pure]
    · intro impossible
      cases impossible

/-- Of a snippet that was handed out the same is known after changes elsewhere. -/
theorem Carries.calm (carries : first.Carries doc load snippet) (lasting : Lasting load) (calm : Calm doc doc' zone loose) (sound : doc.Sound)
    (early : ∀ z, zone z → z < first.nodes.size) (used : snippet.used = true) : first.Carries doc' load snippet := by
  refine ⟨Nat.lt_of_lt_of_le carries.present calm.ext.size,
    lasting.calm carries.known calm sound (carries.late.apart early) carries.present,
    carries.late.calm calm sound.forest carries.present early, fun unused => ?_⟩
  rw [used] at unused
  cases unused

/-- A pair that is written above a tree of late nodes is late. -/
theorem Late.written {paired : Document} {quote : Char} (late : first.Late doc value) (ext : Extends first doc)
    (sound : doc.Sound) (made : PairWritten doc paired name quote value) (steady : Steady doc paired)
    (free : doc.Free value) : first.Late paired (doc.nodes.size + 1) := by
  have size := ext.size
  have calm := made.calm steady free
  intro y below
  rcases Relation.ReflTransGen.cases_head below with rfl | ⟨part, edge, down⟩
  · exact Nat.le_succ_of_le size
  rw [made.children_pair] at edge
  rcases List.mem_pair.mp edge with rfl | rfl
  · rcases Relation.ReflTransGen.cases_head down with rfl | ⟨_, edge', _⟩
    · exact size
    · rw [children, made.key] at edge'
      cases edge'
  · exact late.calm calm sound.forest free.lt (fun z impossible => impossible.elim) y down

/-- A tree of late nodes stays one when one of them makes way for a late tree. -/
theorem Late.replaced {p old : NodeId} (late : first.Late doc c) (new : first.Late doc n)
    (replaced : Replaced doc doc' p old n) : first.Late doc' c := fun y below => by
  rcases replaced.edited.hung.below below with down | ⟨_, m, same, under⟩
  · exact late y down
  · cases same
    exact new y under

/-- A tree of late nodes stays one when an entry gets a late tree as its value. -/
theorem Late.revalued {quote : Char} {e : NodeId} (late : first.Late doc c) (lt : c < doc.nodes.size)
    (new : first.Late doc value) (free : doc.Free value) (ext : Extends first doc) (sound : doc.Sound)
    (revalued : doc.Revalued doc' name quote x e value) : first.Late doc' c := by
  cases revalued with
  | pair _ replaced => exact late.replaced new replaced
  | other _ made steady _ _ replaced =>
    have calm := made.calm steady free
    exact (late.calm calm sound.forest lt fun z impossible => impossible.elim).replaced
      (new.written ext sound made steady free) replaced

namespace Filling

theorem start (sound : first.Sound) (name : List Char) (load : Document → NodeId → Prop) :
    first.Filling first name load fun _ => False where
  sound := sound
  lies _ impossible := impossible.elim
  calm := ⟨[], Calm.refl first, by simp⟩
  places _ _ := List.forall₂_same.mpr fun _ _ => .inl ⟨rfl, fun _ impossible => impossible.elim⟩

theorem congr (run : first.Filling doc name load done) (same : ∀ t, done t ↔ done' t) :
    first.Filling doc name load done' := by
  obtain rfl : done = done' := funext fun t => propext (same t)
  exact run

variable (lasting : Lasting load) (run : first.Filling doc name load done)
include run

theorem ext : Extends first doc := by
  obtain ⟨_, calm, _⟩ := run.calm
  exact calm.ext

/-- The nodes of the file fill the fields that they filled. -/
theorem field (lt : x < first.nodes.size) : (doc.node x).field = (first.node x).field := by
  obtain ⟨_, calm, late⟩ := run.calm
  exact calm.field x lt fun listed => Nat.not_le_of_lt lt (late x listed)

/-- A child in no spot that was filled is still where it was. -/
theorem kept (child : f ∈ first.children x) (other : ∀ u, done u → u.spot first ≠ f) : f ∈ doc.children x := by
  obtain ⟨c, listed, ⟨rfl, _⟩ | ⟨u, before, same, _⟩⟩ := forall₂_mem_right (run.places x (lt_of_mem_children child)) child
  · exact listed
  · exact absurd same (other u before)

include lasting

/-- Nodes that are added change nothing. -/
theorem quiet (calm : Calm doc doc' (fun _ => False) loose) (sound : doc'.Sound) (start : first.Sound)
    (late : ∀ y ∈ loose, first.nodes.size ≤ y) : first.Filling doc' name load done := by
  obtain ⟨before, was, beyond⟩ := run.calm
  have both := was.trans calm start.forest fun y member lt => absurd (late y member) (Nat.not_le_of_gt lt)
  refine ⟨sound, run.lies, ⟨before ++ loose, ?_, fun y member => ?_⟩, fun x lt => ?_⟩
  · exact both.mono start.forest (fun z _ inside => inside.resolve_right id) (fun _ member _ => member) both.free
  · exact (List.mem_append.mp member).elim (beyond y) (late y)
  · rw [calm.children x (Nat.lt_of_lt_of_le lt run.ext.size) id]
    refine forall₂_imp_mem (run.places x lt) fun c member f _ place => place.imp_right ?_
    rintro ⟨t, before, same, filled⟩
    have lt' := run.sound.forest.childLt member
    refine ⟨t, before, same, filled.calm lasting calm run.sound lt' (fun z impossible => impossible.elim) fun listed => ?_⟩
    exact (calm.free c listed lt').not_child run.sound.forest member

/-- One more target is filled. -/
theorem fill (start : first.Sound) (lies : t.Lies first) (new : ∀ u, done u → u.spot first ≠ t.spot first)
    (replaced : Replaced doc doc' (t.holder first) (t.spot first) n) (free : doc.Free n) (late : first.Late doc n)
    (gets : first.Gets doc name load t n) : first.Filling doc' name load fun u => u = t ∨ done u := by
  have child := lies.spot_child
  have listed := run.kept child new
  have holderLt := lt_of_mem_children child
  have early : ∀ z, z = t.holder first → z < first.nodes.size := fun z same => same ▸ holderLt
  have calm := replaced.calm free
  have sound := replaced.sound run.sound (run.sound.forest.childParent listed) free
  obtain ⟨before, was, beyond⟩ := run.calm
  have newer : first.nodes.size ≤ n := late n (.refl doc n)
  have both := was.trans calm start.forest fun y member lt =>
    absurd newer (Nat.not_le_of_gt (List.mem_singleton.mp member ▸ lt))
  have stays : ∀ {x c f}, c ∈ doc.children x → f ≠ t.spot first → ((c = f ∧ ∀ u, done u → u.spot first ≠ f) ∨
      ∃ u, done u ∧ u.spot first = f ∧ first.Filled doc name load u c) →
      (c = f ∧ ∀ u, u = t ∨ done u → u.spot first ≠ f) ∨
        ∃ u, (u = t ∨ done u) ∧ u.spot first = f ∧ first.Filled doc' name load u c := by
    rintro x c f member other (⟨rfl, none⟩ | ⟨u, earlier, same, filled⟩)
    · refine .inl ⟨rfl, fun u which => ?_⟩
      rcases which with rfl | earlier
      · exact other.symm
      · exact none u earlier
    · refine .inr ⟨u, .inr earlier, same, filled.calm lasting calm run.sound (run.sound.forest.childLt member) early fun held => ?_⟩
      exact free.not_child run.sound.forest (List.mem_singleton.mp held ▸ member)
  refine ⟨sound, ?_, ⟨before ++ [n], ?_, fun y member => ?_⟩, fun x lt => ?_⟩
  · rintro u (rfl | earlier)
    · exact lies
    · exact run.lies u earlier
  · refine both.mono start.forest (fun z _ inside => ?_) (fun _ member _ => member) both.free
    rcases inside with ⟨u, earlier, holder⟩ | holder
    · exact ⟨u, .inr earlier, holder⟩
    · exact ⟨t, .inl rfl, holder⟩
  · rcases List.mem_append.mp member with early | last
    · exact beyond y early
    · exact List.mem_singleton.mp last ▸ newer
  by_cases here : x = t.holder first
  · subst here
    obtain ⟨front, back, old, now⟩ := replaced.place
    have places := run.places _ lt
    have distinct := run.sound.forest.distinct (t.holder first)
    rw [old] at places distinct
    rw [now]
    refine forall₂_exchange places (fun c around f place => ?_) fun f place => ?_
    · have member : c ∈ doc.children (t.holder first) := by
        rw [old]
        simpa using around.imp_right .inr
      have apart : c ≠ t.spot first := by
        rintro rfl
        simp only [List.nodup_append, List.nodup_cons] at distinct
        grind
      refine stays member ?_ place
      rcases place with ⟨rfl, _⟩ | ⟨u, earlier, same, _⟩
      · exact apart
      · exact same ▸ new u earlier
    · have field : (doc'.node n).field = (first.node (t.spot first)).field :=
        replaced.field.trans (run.field (start.forest.childLt child))
      refine .inr ⟨t, .inl rfl, ?_, replaced.replaces, field, late.calm calm run.sound.forest free.lt early,
        gets.calm lasting calm run.sound free.lt (late.apart early)⟩
      rcases place with ⟨same, _⟩ | ⟨u, _, _, filled⟩
      · exact same
      · exact absurd (filled.late _ (.refl doc _)) (Nat.not_le_of_gt (start.forest.childLt child))
  · rw [calm.children x (Nat.lt_of_lt_of_le lt run.ext.size) here]
    refine forall₂_imp_mem (run.places x lt) fun c member f child' place => stays member ?_ place
    rintro rfl
    exact here (start.forest.parent_unique child' child)

/-- A target that was not filled can get a value. -/
theorem setValue [Reader] (start : first.Sound) (lies : t.Lies first) (new : ∀ u, done u → u.entry ≠ t.entry)
    (known : load doc value) (late : first.Late doc value) (free : doc.Free value) :
    ∃ doc' zone loose, Edit.outcome (Model.setValue t.entry name t.quote value) doc = (.ok (), doc') ∧
      Calm doc doc' zone loose ∧ (∀ z, zone z → z < first.nodes.size) ∧
      first.Filling doc' name load fun u => u = t ∨ done u := by
  obtain ⟨_, was, _⟩ := run.calm
  have forest := run.sound.forest
  have outside : ¬ ∃ u, done u ∧ t.entry = u.holder first := fun ⟨u, earlier, same⟩ =>
    lies.not_holder (new u earlier) (run.lies u earlier).object same
  have entryLt := start.forest.childLt lies.entry_child
  have spots : ∀ u, done u → u.spot first ≠ t.spot first := fun u earlier same =>
    new u earlier ((run.lies u earlier).entry_eq lies start.forest same)
  have listed := run.kept lies.spot_child spots
  have holderLt : t.holder first < first.nodes.size := lt_of_mem_children lies.spot_child
  have early : ∀ z, z = t.holder first → z < first.nodes.size := fun z same => same ▸ holderLt
  have same : doc.pairValue? t.entry = first.pairValue? t.entry := was.pairValue? start entryLt outside
  cases held : first.pairValue? t.entry with
  | some old =>
    have gets : first.Gets doc name load t value := by
      rw [Gets, held]
      exact known
    obtain ⟨doc', fits, replaced⟩ := replace_ok forest (forest.childParent listed) free fun below =>
      Nat.not_le_of_gt holderLt (late _ below)
    refine ⟨doc', _, _, ?_, replaced.calm free, early, run.fill lasting start lies spots replaced free late gets⟩
    rw [(Target.spot_pair held).1] at fits
    simp only [Model.setValue, Edit.outcome_bind, Edit.outcome_look, same, held, Edit.outcome_change, fits]
  | none =>
    obtain ⟨spot, holder⟩ := Target.spot_entry held
    rw [holder] at holderLt
    have object : doc.role t.object = .object := (run.ext.role holderLt).trans lies.object
    have ready : doc.Ready [t.object] [t.object] := .self run.sound (by simpa using object)
    have loose : doc.Loose [t.object] value := ⟨free, by simpa using fun below => Nat.not_le_of_gt holderLt (late _ below)⟩
    obtain ⟨paired, written, works, made, steady, fresh, _⟩ := writePair_run ready loose name t.quote
    have soundPaired := works.moves.sound run.sound
    have calm := made.calm steady free
    have run' := run.quiet lasting calm soundPaired start fun y member => by
      rw [List.mem_singleton.mp member]
      exact late _ (.refl doc _)
    have gets : first.Gets paired name load t (doc.nodes.size + 1) := by
      rw [Gets, held]
      exact ⟨value, made.heads, lasting.calm known calm run.sound (apart_nowhere doc value) free.lt⟩
    have latePair := late.written run.ext run.sound made steady free
    have listed' := run'.kept lies.spot_child spots
    obtain ⟨doc', fits, replaced⟩ := replace_ok soundPaired.forest (soundPaired.forest.childParent listed') fresh.free
      fun below => Nat.not_le_of_gt (lt_of_mem_children lies.spot_child) (latePair _ below)
    have filled := run'.fill lasting start lies spots replaced fresh.free latePair gets
    have later := calm.trans (replaced.calm fresh.free) forest fun y member lt =>
      absurd (List.mem_singleton.mp member ▸ lt) (Nat.not_lt_of_ge (Nat.le_succ _))
    refine ⟨doc', _, _, ?_, later, ?_, filled⟩
    · rw [spot] at fits
      simp only [Model.setValue, Edit.outcome_bind, Edit.outcome_look, same, held, written, Edit.outcome_change, fits]
    · rintro z (impossible | here)
      · exact impossible.elim
      · exact early z here

/-- Entries of an object literal that were not filled can get values one after the other. -/
theorem setValues [Reader] {quote : Char} (start : first.Sound) (object : first.role k = .object)
    (listed : ∀ e ∈ entries, e ∈ first.entries k) (distinct : entries.Nodup)
    (new : ∀ e ∈ entries, ∀ u, done u → u.entry ≠ e) (carries : first.Carries doc load snippet) :
    ∃ snippet' doc', Edit.outcome (Model.setValues name quote snippet entries) doc = (.ok snippet', doc') ∧
      first.Carries doc' load snippet' ∧
      first.Filling doc' name load fun u => (u.object = k ∧ u.quote = quote ∧ u.entry ∈ entries) ∨ done u := by
  induction entries generalizing doc done snippet with
  | nil => exact ⟨snippet, doc, rfl, carries, run.congr fun u => by simp⟩
  | cons e rest ih =>
    obtain ⟨absent, distinct⟩ := List.nodup_cons.mp distinct
    have lies : (Target.mk k e quote).Lies first := ⟨object, listed e (by simp)⟩
    obtain ⟨value, snippet₁, doc₁, next, sound₁, quiet, used, carries₁, known, late, free⟩ :=
      carries.next lasting run.sound run.ext
    have run₁ := run.quiet lasting quiet sound₁ start (by simp)
    obtain ⟨doc₂, zone, loose, set, calm, early, run₂⟩ := run₁.setValue lasting start lies (new e (by simp)) known late free
    have carries₂ := carries₁.calm lasting calm run₁.sound early used
    have new' : ∀ y ∈ rest, ∀ u, u = ⟨k, e, quote⟩ ∨ done u → u.entry ≠ y := by
      rintro y member u (rfl | earlier)
      · rintro rfl
        exact absent member
      · exact new y (List.mem_cons_of_mem _ member) u earlier
    obtain ⟨snippet', doc', all, carries', run'⟩ :=
      ih run₂ (fun y member => listed y (List.mem_cons_of_mem _ member)) distinct new' carries₂
    refine ⟨snippet', doc', ?_, carries', run'.congr fun u => ?_⟩
    · simp only [Model.setValues, Edit.outcome_bind, next, set, all]
    · obtain ⟨o, e', q⟩ := u
      simp only [Target.mk.injEq, List.mem_cons]
      tauto

end Filling

end Document

end StoreModels
