import StoreModels.Proofs.Document.Abreast

/-!
Two documents that change alongside. Counterparts have counterparts as children, in the same fields; and so it stays when
counterparts are copied, when pairs are written above counterparts, and when counterparts take the places of counterparts.
Some children are still due for what the other document has in their places already.
-/
namespace StoreModels
open Syntax (Reader Tree)
open List (Forall₂)

namespace Document
variable {doc doc' grown grown' : Document} {B B' : BufferId → BufferId → Prop} {R R' N : NodeId → NodeId → Prop}
  {x y c d p q v w old new top top' : NodeId} {zone zone' : NodeId → Prop} {loose loose' : List NodeId}
  {name text : List Char} {quote quote' : Char} {due : NodeId → Char → Prop}

/-! ## Places taken -/

/-- Places taken are followed as before where places are found for loose nodes. -/
theorem Calm.ends (calm : Calm doc grown zone loose) (sound : doc.Sound) (lt : c < doc.nodes.size) (held : c ∉ loose)
    {last : NodeId} (ends : doc.Ends c last) : grown.Ends c last :=
  ends.congr (P := fun x => x < doc.nodes.size ∧ x ∉ loose) ⟨lt, held⟩
    (fun x _ _ took => ⟨sound.takenLt took, fun listed => (calm.free _ listed (sound.takenLt took)).lostNone x took⟩)
    fun x known => calm.replaces x known.1 known.2

/-- A node that is the end of its own places took none. -/
theorem Sound.ends_self (sound : doc.Sound) (ends : doc.Ends x x) : (doc.node x).replaces = none := by
  obtain ⟨age, falls⟩ := sound.aged
  have older : ∀ {y last}, doc.Ends y last → age last ≤ age y := fun ends => by
    induction ends with
    | here => exact Nat.le_refl _
    | there took _ ih => exact Nat.le_trans ih (Nat.le_of_lt (falls took))
  cases ends with
  | here none => exact none
  | there took rest => exact absurd (older rest) (Nat.not_le_of_lt (falls took))

/-- The children are those that there were, with the new one for the old. -/
theorem Replaced.children_map (replaced : Replaced doc grown p old new) (forest : doc.Forest) :
    grown.children p = (doc.children p).map fun c => if c = old then new else c := by
  obtain ⟨before, after, was, now⟩ := replaced.place
  have distinct := forest.distinct p
  rw [was, List.nodup_append, List.nodup_cons] at distinct
  have same : ∀ cs : List NodeId, old ∉ cs → cs.map (fun c => if c = old then new else c) = cs := fun cs absent =>
    (List.map_congr_left fun c member => if_neg fun is : c = old => absent (is ▸ member)).trans (List.map_id cs)
  rw [now, was, List.map_append, List.map_cons, if_pos rfl, same after distinct.2.1.1,
    same before fun member => distinct.2.2 old member old List.mem_cons_self rfl]

/-- A written pair keeps its key when it gets another value. -/
theorem Heads.revalued (heads : doc.Heads name quote p v) (replaced : Replaced doc grown p v w) (forest : doc.Forest)
    (free : doc.Free w) : grown.Heads name quote p w := by
  obtain ⟨key, parts, isKey⟩ := heads.parts
  have child : key ∈ doc.children p := by simp [parts]
  have distinct := forest.distinct p
  have other : key ≠ v := by
    rintro rfl
    simp [parts] at distinct
  have calm := replaced.calm free
  have lt := lt_of_role heads.role (by decide)
  have keyLt := forest.childLt child
  have held : key ∉ [w] := fun listed => free.not_child forest (List.mem_singleton.mp listed ▸ child)
  refine ⟨(calm.ext.kind p lt).trans heads.kind, (calm.ext.origin p lt).trans heads.origin,
    (calm.ext.firstChildren p lt).trans heads.bare, replaced.field.trans heads.field, key, ?_, ?_⟩
  · rw [replaced.children_map forest, parts]
    simp [other]
  · exact ⟨(calm.ext.kind key keyLt).trans isKey.kind, (calm.ext.origin key keyLt).trans isKey.origin,
      (calm.field key keyLt held).trans isKey.field,
      (calm.children key keyLt (forest.child_ne child)).trans isKey.leaf,
      (calm.ext.firstChildren key keyLt).trans isKey.bare⟩

/-! ## Children that differ -/

/-- A written pair and its key have no counterparts yet. -/
structure Stranded (doc' : Document) (R : NodeId → NodeId → Prop) (name : List Char) (quote : Char) (d : NodeId) : Prop where
  heads : ∃ value, doc'.Heads name quote d value ∧ ∀ e ∈ doc'.children d, e ≠ value → ∀ a, ¬ R a e
  alone : ∀ a, ¬ R a d

/-- A child is due for another one, which stands in its place in the other document: a value, or an entry that makes way
    for a written pair. -/
inductive Unmet (doc doc' : Document) (R : NodeId → NodeId → Prop) (name : List Char) (due : NodeId → Char → Prop)
    (x c d : NodeId) : Prop
  | value {quote : Char} (next : due c quote) (pair : doc.role x = .pair) (field : (doc.node c).field = some "value")
  | entry {quote : Char} (next : due c quote) (object : doc.role x = .object) (entry : (doc.role c).isEntry = true)
      (other : doc.role c ≠ .pair) (stranded : Stranded doc' R name quote d)

/-- Two children are counterparts, or the first is due for the second; they fill the same field, and took the places of
    counterparts. -/
structure Beside (doc doc' : Document) (R : NodeId → NodeId → Prop) (name : List Char) (due : NodeId → Char → Prop)
    (x c d : NodeId) : Prop where
  met : R c d ∨ Unmet doc doc' R name due x c d
  field : (doc'.node d).field = (doc.node c).field
  seated : (doc.node x).isWritten = false → Seated doc doc' R c d

/-- The children of counterparts are counterparts, or due for what is in their places. -/
structure Alongside (doc doc' : Document) (B : BufferId → BufferId → Prop) (R : NodeId → NodeId → Prop) (name : List Char)
    (due : NodeId → Char → Prop) : Prop where
  parts : Counterparts doc doc' B R
  sound : doc.Sound
  sound' : doc'.Sound
  children : ∀ {x y}, R x y → Forall₂ (Beside doc doc' R name due x) (doc.children x) (doc'.children y)

theorem Unmet.pending (unmet : Unmet doc doc' R name due x c d) : ∃ quote, due c quote := by
  cases unmet with
  | value next => exact ⟨_, next⟩
  | entry next => exact ⟨_, next⟩

theorem Unmet.role (unmet : Unmet doc doc' R name due x c d) : doc.role x = .pair ∨ doc.role x = .object := by
  cases unmet with
  | value _ pair => exact .inl pair
  | entry _ object => exact .inr object

theorem Stranded.mono (stranded : Stranded doc' R name quote d)
    (same : (∀ a, ¬ R a d) → ∀ a e, e = d ∨ e ∈ doc'.children d → R' a e → R a e) : Stranded doc' R' name quote d := by
  obtain ⟨value, heads, apart⟩ := stranded.heads
  have same := same stranded.alone
  exact ⟨⟨value, heads, fun e child other a rel => apart e child other a (same a e (.inr child) rel)⟩,
    fun a rel => stranded.alone a (same a d (.inl rfl) rel)⟩

theorem Stranded.calm (stranded : Stranded doc' R name quote d) (calm : Calm doc' grown' zone' loose')
    (forest : doc'.Forest) (known : ∀ e, zone' e → ∃ a, R a e) : Stranded grown' R name quote d := by
  obtain ⟨value, heads, apart⟩ := stranded.heads
  have outside : ¬ zone' d := fun inside => by
    obtain ⟨a, rel⟩ := known d inside
    exact stranded.alone a rel
  have same := calm.children d (lt_of_role heads.role (by decide)) outside
  refine ⟨⟨value, heads.calm calm forest outside fun e child other inside => ?_, ?_⟩, stranded.alone⟩
  · obtain ⟨a, rel⟩ := known e inside
    exact apart e child other a rel
  · rw [same]
    exact apart

theorem Stranded.revalued (stranded : Stranded doc' R name quote d) (replaced : Replaced doc' grown' d v w)
    (value : doc'.pairValue? d = some v) (forest : doc'.Forest) (free : doc'.Free w) :
    Stranded grown' R name quote d := by
  obtain ⟨v', heads, apart⟩ := stranded.heads
  obtain rfl : v' = v := Option.some.inj (heads.pairValue?.symm.trans value)
  refine ⟨⟨w, heads.revalued replaced forest free, fun e member other => ?_⟩, stranded.alone⟩
  rw [replaced.children_map forest, List.mem_map] at member
  obtain ⟨e', inside, rfl⟩ := member
  split at other
  next => exact absurd rfl other
  next differs =>
    rw [if_neg differs]
    exact apart e' inside differs

theorem Beside.mono (beside : Beside doc doc' R name due x c d) (more : ∀ {x y}, R x y → R' x y)
    (same : (∀ a, ¬ R a d) → ∀ a e, e = d ∨ e ∈ doc'.children d → R' a e → R a e) :
    Beside doc doc' R' name due x c d where
  met := by
    refine beside.met.imp more fun unmet => ?_
    cases unmet with
    | value next pair field => exact .value next pair field
    | entry next object entry other stranded => exact .entry next object entry other (stranded.mono same)
  field := beside.field
  seated parsed := by
    obtain ⟨e, e', ends, ends', rel⟩ := beside.seated parsed
    exact ⟨e, e', ends, ends', more rel⟩

/-- Children that keep their places stay beside each other. -/
theorem Beside.calm (beside : Beside doc doc' R name due x c d) (sound : doc.Sound) (sound' : doc'.Sound)
    (calm : Calm doc grown zone loose) (calm' : Calm doc' grown' zone' loose') (child : c ∈ doc.children x)
    (child' : d ∈ doc'.children y) (known : ∀ e, zone' e → ∃ a, R a e) : Beside grown grown' R name due x c d := by
  have lt := sound.forest.childLt child
  have lt' := sound'.forest.childLt child'
  have above := lt_of_mem_children child
  have held : c ∉ loose := fun listed => (calm.free c listed lt).not_child sound.forest child
  have held' : d ∉ loose' := fun listed => (calm'.free d listed lt').not_child sound'.forest child'
  refine ⟨beside.met.imp_right fun unmet => ?_, ?_, fun parsed => ?_⟩
  · cases unmet with
    | value next pair field =>
      exact .value next ((calm.ext.role above).trans pair) ((calm.field c lt held).trans field)
    | entry next object entry other stranded =>
      have role := calm.ext.role lt
      exact .entry next ((calm.ext.role above).trans object) (role ▸ entry) (role ▸ other)
        (stranded.calm calm' sound'.forest known)
  · rw [calm'.field d lt' held', calm.field c lt held, beside.field]
  · rw [Node.isWritten, calm.ext.buffer? above] at parsed
    obtain ⟨e, e', ends, ends', rel⟩ := beside.seated parsed
    exact ⟨e, e', calm.ends sound lt held ends, calm'.ends sound' lt' held' ends', rel⟩

namespace Alongside
variable (along : Alongside doc doc' B R name due)
include along

/-! ## Further nodes -/

/-- Nodes that are added change nothing. -/
theorem quiet (calm : Calm doc grown (fun _ => False) loose) (calm' : Calm doc' grown' (fun _ => False) loose')
    (sound : grown.Sound) (sound' : grown'.Sound) : Alongside grown grown' B R name due where
  parts := along.parts.extend calm.ext calm'.ext
  sound := sound
  sound' := sound'
  children {x y} rel := by
    obtain ⟨lt, lt'⟩ := along.parts.present rel
    rw [calm.children x lt id, calm'.children y lt' id]
    exact forall₂_imp_mem (along.children rel) fun c child d child' beside =>
      beside.calm along.sound along.sound' calm calm' child child' fun _ impossible => impossible.elim

/-- Further nodes, which no counterparts are above, become counterparts. -/
theorem relate (one : Relator.BiUnique N) (new : ∀ {x y}, N x y → (∀ z, ¬ R x z) ∧ ∀ z, ¬ R z y)
    (up : ∀ {x y z}, N x y → y ∈ doc'.children z → ∃ u, N u z)
    (present : ∀ {x y}, N x y → x < doc.nodes.size ∧ y < doc'.nodes.size)
    (kind : ∀ {x y}, N x y → (doc'.node y).kind = (doc.node x).kind)
    (origin : ∀ {x y}, N x y → Meets B (doc.node x).origin (doc'.node y).origin)
    (firsts : ∀ {x y}, N x y → Forall₂ (fun f f' => R f f' ∨ N f f') (doc.node x).firstChildren (doc'.node y).firstChildren)
    (children : ∀ {x y}, N x y →
      Forall₂ (Beside doc doc' (fun x y => R x y ∨ N x y) name due x) (doc.children x) (doc'.children y)) :
    Alongside doc doc' B (fun x y => R x y ∨ N x y) name due where
  parts := along.parts.relate one new present kind origin firsts
  sound := along.sound
  sound' := along.sound'
  children {x y} rel := by
    rcases rel with rel | rel
    · have apart : ∀ {u z}, N u z → z ∉ doc'.children y := fun related child => by
        obtain ⟨_, above⟩ := up related child
        exact (new above).2 x rel
      refine forall₂_imp_mem (along.children rel) fun c _ d child beside => beside.mono .inl fun _ a e here related => ?_
      refine related.resolve_right fun added => ?_
      rcases here with rfl | inner
      · exact apart added child
      · obtain ⟨_, above⟩ := up added inner
        exact apart above child
    · exact children rel

/-- Trees that were added become counterparts node for node. -/
theorem graft (root : doc.parent? top = none) (root' : doc'.parent? top' = none)
    (new : ∀ {x y}, Abreast doc doc' top top' x y → (∀ z, ¬ R x z) ∧ ∀ z, ¬ R z y)
    (present : top < doc.nodes.size) (present' : top' < doc'.nodes.size)
    (kind : ∀ {x y}, Abreast doc doc' top top' x y → (doc'.node y).kind = (doc.node x).kind)
    (origin : ∀ {x y}, Abreast doc doc' top top' x y → Meets B (doc.node x).origin (doc'.node y).origin)
    (firsts : ∀ {x y}, Abreast doc doc' top top' x y →
      Forall₂ (fun f f' => R f f' ∨ Abreast doc doc' top top' f f') (doc.node x).firstChildren (doc'.node y).firstChildren)
    (fields : ∀ {x y}, Abreast doc doc' top top' x y → Forall₂ (fun c d => (doc'.node d).field = (doc.node c).field ∧
      ((doc.node x).isWritten = false → Seated doc doc' (fun x y => R x y ∨ Abreast doc doc' top top' x y) c d))
        (doc.children x) (doc'.children y)) :
    Alongside doc doc' B (fun x y => R x y ∨ Abreast doc doc' top top' x y) name due := by
  have forest := along.sound.forest
  have forest' := along.sound'.forest
  refine along.relate (Abreast.biUnique forest forest' root root') new (fun abreast child => ?_)
    (fun abreast => ⟨forest.below_lt present abreast.under, forest'.below_lt present' abreast.under'⟩) kind origin firsts
    fun abreast => ?_
  · cases abreast with
    | top =>
      rw [forest'.childParent child] at root'
      cases root'
    | child above here =>
      obtain rfl := forest'.parent_unique (List.of_mem_zip here).2 child
      exact ⟨_, above⟩
  · exact (forall₂_mem_zip (fields abreast)).imp fun c d both => ⟨.inl (.inr (.child abreast both.1)), both.2.1, both.2.2⟩

/-! ## Places that are taken alongside -/

/-- Counterparts can take the places of children that are beside each other. -/
theorem exchange (rel : R x y) (here : (c, d) ∈ (doc.children x).zip (doc'.children y)) (fresh : R p q)
    (replaced : Replaced doc grown x c p) (replaced' : Replaced doc' grown' y d q) (free : doc.Free p)
    (free' : doc'.Free q) : Alongside grown grown' B R name due := by
  have forest := along.sound.forest
  have forest' := along.sound'.forest
  obtain ⟨child, child'⟩ := List.of_mem_zip here
  have calm := replaced.calm free
  have calm' := replaced'.calm free'
  have spot := forall₂_of_mem_zip (along.children rel) here
  refine ⟨along.parts.extend calm.ext calm'.ext, replaced.sound along.sound (forest.childParent child) free,
    replaced'.sound along.sound' (forest'.childParent child') free', fun {z u} related => ?_⟩
  have kept := forall₂_imp_mem (along.children related) fun a member b member' beside =>
    beside.calm along.sound along.sound' calm calm' member member' fun e same => ⟨x, same ▸ rel⟩
  by_cases same : z = x
  · subst same
    obtain rfl := along.parts.nodesOne.2 rel related
    rw [replaced.children_map forest, replaced'.children_map forest', List.forall₂_map_left_iff,
      List.forall₂_map_right_iff]
    refine (forall₂_mem_zip kept).imp fun a b ⟨place, beside⟩ => ?_
    by_cases first : a = c
    · subst first
      obtain rfl := mem_zip_unique (forest.distinct z) place here
      rw [if_pos rfl, if_pos rfl]
      refine ⟨.inl fresh, ?_, fun parsed => ?_⟩
      · rw [replaced.field, replaced'.field, spot.field]
      · obtain ⟨e, e', ends, ends', seated⟩ := beside.seated parsed
        exact ⟨e, e', .there replaced.replaces ends, .there replaced'.replaces ends', seated⟩
    · have second : b ≠ d := fun is =>
        first (mem_zip_unique (forest'.distinct y) (is ▸ mem_zip_swap place) (mem_zip_swap here))
      rw [if_neg first, if_neg second]
      exact beside
  · have other : u ≠ y := fun is => same (along.parts.nodesOne.1 (is ▸ related) rel)
    obtain ⟨lt, lt'⟩ := along.parts.present related
    rw [calm.children z lt same, calm'.children u lt' other]
    exact kept

/-- A pair that stands in the other document already can get another value. -/
theorem refill (rel : R x y) (child : d ∈ doc'.children y) (stranded : Stranded doc' R name quote d)
    (replaced : Replaced doc' grown' d v w) (value : doc'.pairValue? d = some v) (free : doc'.Free w) :
    Alongside doc grown' B R name due := by
  have forest := along.sound'.forest
  have calm := replaced.calm free
  have inside := (pairValue?_some value).2.1
  refine ⟨along.parts.extend (Extends.refl doc) calm.ext, along.sound,
    replaced.sound along.sound' (forest.childParent inside) free, fun {z u} related => ?_⟩
  obtain ⟨lt, lt'⟩ := along.parts.present related
  rw [calm.children u lt' fun is => stranded.alone z (is ▸ related)]
  refine forall₂_imp_mem (along.children related) fun a member b member' beside => ?_
  have present := forest.childLt member'
  have held : b ∉ [w] := fun listed => free.not_child forest (List.mem_singleton.mp listed ▸ member')
  refine ⟨beside.met.imp_right fun unmet => ?_, ?_, fun parsed => ?_⟩
  · cases unmet with
    | value next pair field => exact .value next pair field
    | entry next object entry other alone =>
      refine .entry next object entry other ?_
      by_cases same : b = d
      · subst same
        exact alone.revalued replaced value forest free
      · -- Neither this pair nor its key is the one that gets a value, as that one is a child of a counterpart.
        obtain ⟨value', told, apart⟩ := alone.heads
        have keys : ∀ e ∈ doc'.children b, e ≠ value' → e ≠ d := fun e inner _ is => by
          obtain rfl := forest.parent_unique child (is ▸ inner)
          exact alone.alone x rel
        have now : grown'.children b = doc'.children b := calm.children b present same
        exact ⟨⟨value', told.calm calm forest same keys, now ▸ apart⟩, alone.alone⟩
  · rw [calm.field b present held, beside.field]
  · obtain ⟨e, e', ends, ends', seated⟩ := beside.seated parsed
    exact ⟨e, e', ends, calm.ends along.sound' present held ends', seated⟩

end Alongside

/-! ## Pairs above counterparts -/

/-- Two pairs, and their keys. -/
inductive PairOf (p q key key' : NodeId) : NodeId → NodeId → Prop
  | pair : PairOf p q key key' p q
  | key : PairOf p q key key' key key'

theorem PairOf.biUnique {key key' : NodeId} (other : p ≠ key) (other' : q ≠ key') : Relator.BiUnique (PairOf p q key key') := by
  constructor
  · rintro _ _ _ (_ | _) right
    · cases right with
      | pair => rfl
      | key => exact absurd rfl other'
    · cases right with
      | pair => exact absurd rfl other'
      | key => rfl
  · rintro _ _ _ (_ | _) right
    · cases right with
      | pair => rfl
      | key => exact absurd rfl other
    · cases right with
      | pair => exact absurd rfl other
      | key => rfl

section
variable {key key' : NodeId} (heads : doc.Heads name quote p v) (heads' : doc'.Heads name quote' q w)
  (parts : doc.children p = [key, v]) (parts' : doc'.children q = [key', w]) (isKey : doc.KeyFor name quote key)
  (isKey' : doc'.KeyFor name quote' key')
include heads heads' parts parts' isKey isKey'

/-- Pairs with the same key become counterparts together with their keys. -/
theorem Counterparts.pairs (counterparts : Counterparts doc doc' B R) (forest : doc.Forest) (forest' : doc'.Forest)
    (spelled : Literal.keyText name quote' = Literal.keyText name quote) (new : ∀ z, ¬ R p z ∧ ¬ R key z)
    (new' : ∀ z, ¬ R z q ∧ ¬ R z key') : Counterparts doc doc' B fun x y => R x y ∨ PairOf p q key key' x y := by
  have child : key ∈ doc.children p := by simp [parts]
  have child' : key' ∈ doc'.children q := by simp [parts']
  refine counterparts.relate (PairOf.biUnique (forest.child_ne child).symm (forest'.child_ne child').symm) ?_ ?_ ?_ ?_ ?_
  · rintro _ _ (_ | _)
    · exact ⟨fun z => (new z).1, fun z => (new' z).1⟩
    · exact ⟨fun z => (new z).2, fun z => (new' z).2⟩
  · rintro _ _ (_ | _)
    · exact ⟨lt_of_mem_children child, lt_of_mem_children child'⟩
    · exact ⟨forest.childLt child, forest'.childLt child'⟩
  · rintro _ _ (_ | _)
    · rw [heads.kind, heads'.kind]
    · rw [isKey.kind, isKey'.kind]
  · rintro _ _ (_ | _)
    · rw [heads.origin, heads'.origin]
      exact .written none
    · rw [isKey.origin, isKey'.origin, spelled]
      exact .written _
  · rintro _ _ (_ | _)
    · rw [heads.bare, heads'.bare]
      exact .nil
    · rw [isKey.bare, isKey'.bare]
      exact .nil

/-- The parts of written pairs are beside each other if their values are counterparts. -/
theorem Heads.beside (rel : R v w) (keys : R key key') :
    Forall₂ (Beside doc doc' R name due p) (doc.children p) (doc'.children q) := by
  have written : (doc.node p).isWritten ≠ false := by simp [Node.isWritten, Node.buffer?, heads.origin]
  rw [parts, parts']
  refine .cons ⟨.inl keys, ?_, fun parsed => absurd parsed written⟩
    (.cons ⟨.inl rel, ?_, fun parsed => absurd parsed written⟩ .nil)
  · rw [isKey.field, isKey'.field]
  · rw [heads.field, heads'.field]

end

/-- The key of a written pair. -/
theorem Heads.key_ne (heads : doc.Heads name quote p v) (forest : doc.Forest) {key : NodeId}
    (parts : doc.children p = [key, v]) : key ≠ v := by
  have distinct := forest.distinct p
  rintro rfl
  simp [parts] at distinct

namespace Alongside
variable (along : Alongside doc doc' B R name due)
include along

/-- Free pairs with the same key above counterparts become counterparts. -/
theorem pair (heads : doc.Heads name quote p v) (heads' : doc'.Heads name quote' q w)
    (spelled : Literal.keyText name quote' = Literal.keyText name quote) (rel : R v w) (free' : doc'.Free q)
    (new : ∀ c, c = p ∨ c ∈ doc.children p ∧ c ≠ v → ∀ z, ¬ R c z)
    (new' : ∀ d, d = q ∨ d ∈ doc'.children q ∧ d ≠ w → ∀ z, ¬ R z d) :
    ∃ R' : NodeId → NodeId → Prop, (∀ {x y}, R x y → R' x y) ∧ R' p q ∧ Alongside doc doc' B R' name due := by
  have forest := along.sound.forest
  have forest' := along.sound'.forest
  obtain ⟨key, parts, isKey⟩ := heads.parts
  obtain ⟨key', parts', isKey'⟩ := heads'.parts
  have child : key ∈ doc.children p ∧ key ≠ v := ⟨by simp [parts], heads.key_ne forest parts⟩
  have child' : key' ∈ doc'.children q ∧ key' ≠ w := ⟨by simp [parts'], heads'.key_ne forest' parts'⟩
  have counterparts := Counterparts.pairs heads heads' parts parts' isKey isKey' along.parts forest forest' spelled
    (fun z => ⟨new p (.inl rfl) z, new key (.inr child) z⟩) fun z => ⟨new' q (.inl rfl) z, new' key' (.inr child') z⟩
  refine ⟨_, .inl, .inr .pair, ⟨counterparts, along.sound, along.sound', ?_⟩⟩
  rintro x y (related | added)
  · refine forall₂_imp_mem (along.children related) fun c _ d listed beside => beside.mono .inl fun _ a e here again => ?_
    refine again.resolve_right fun added => ?_
    -- Neither the pair nor its key is a child of a counterpart, or of a child of one.
    have above : ∀ {z}, e ∈ doc'.children z → z = q := fun member => by
      cases added with
      | pair => exact absurd member (free'.not_child forest')
      | key => exact forest'.parent_unique member child'.1
    rcases here with rfl | inner
    · exact new' q (.inl rfl) x (above listed ▸ related)
    · obtain rfl := above inner
      exact free'.not_child forest' listed
  · cases added with
    | pair => exact heads.beside heads' parts parts' isKey isKey' (.inl rel) (.inr .key)
    | key =>
      rw [isKey.leaf, isKey'.leaf]
      exact .nil

/-- A pair can take the place of a child that is due for the pair that stands in its place. -/
theorem meet (related : R x y) (here : (c, d) ∈ (doc.children x).zip (doc'.children y)) (stranded : Stranded doc' R name quote' d)
    (object : doc.role x = .object) (heads : doc.Heads name quote p v) (heads' : doc'.Heads name quote' d w)
    (spelled : Literal.keyText name quote' = Literal.keyText name quote) (rel : R v w)
    (new : ∀ c, c = p ∨ c ∈ doc.children p ∧ c ≠ v → ∀ z, ¬ R c z) (replaced : Replaced doc grown x c p)
    (free : doc.Free p) :
    ∃ R' : NodeId → NodeId → Prop, (∀ {x y}, R x y → R' x y) ∧ Alongside grown doc' B R' name due := by
  have forest := along.sound.forest
  have forest' := along.sound'.forest
  obtain ⟨spot, spot'⟩ := List.of_mem_zip here
  obtain ⟨key, parts, isKey⟩ := heads.parts
  obtain ⟨key', parts', isKey'⟩ := heads'.parts
  obtain ⟨value, told, apart⟩ := stranded.heads
  obtain rfl : value = w := Option.some.inj (told.pairValue?.symm.trans heads'.pairValue?)
  have child : key ∈ doc.children p ∧ key ≠ v := ⟨by simp [parts], heads.key_ne forest parts⟩
  have child' : key' ∈ doc'.children d ∧ key' ≠ value := ⟨by simp [parts'], heads'.key_ne forest' parts'⟩
  have calm := replaced.calm free
  have newKey := new key (.inr child)
  have newPair := new p (.inl rfl)
  have counterparts := Counterparts.pairs heads heads' parts parts' isKey isKey' along.parts forest forest' spelled
    (fun z => ⟨newPair z, newKey z⟩) fun z => ⟨stranded.alone z, apart key' child'.1 child'.2 z⟩
  have still : Calm doc' doc' (fun _ => False) [] := Calm.refl doc'
  have other : p ≠ x := fun is => newPair y (is ▸ related)
  refine ⟨fun a b => R a b ∨ PairOf p d key key' a b, .inl, ⟨counterparts.extend calm.ext (Extends.refl doc'),
    replaced.sound along.sound (forest.childParent spot) free, along.sound', ?_⟩⟩
  -- What is beside each other elsewhere has nothing to do with the pair.
  have kept : ∀ {z u a b}, R z u → (a, b) ∈ (doc.children z).zip (doc'.children u) → a ≠ c →
      Beside grown doc' (fun a b => R a b ∨ PairOf p d key key' a b) name due z a b := by
    intro z u a b known place differs
    obtain ⟨member, member'⟩ := List.of_mem_zip place
    have beside := (forall₂_of_mem_zip (along.children known) place).calm along.sound along.sound' calm still member member'
      fun _ impossible => impossible.elim
    refine beside.mono .inl fun lone e f which again => again.resolve_right fun added => ?_
    have apartFrom : b ≠ d := by
      rintro rfl
      obtain rfl := forest'.parent_unique member' spot'
      obtain rfl := along.parts.nodesOne.1 known related
      exact differs (mem_zip_unique (forest'.distinct u) (mem_zip_swap place) (mem_zip_swap here))
    cases added with
    | pair =>
      rcases which with same | inner
      · exact apartFrom same.symm
      · exact lone x (forest'.parent_unique spot' inner ▸ related)
    | key =>
      rcases which with same | inner
      · exact stranded.alone z (forest'.parent_unique child'.1 (same ▸ member') ▸ known)
      · exact apartFrom (forest'.parent_unique inner child'.1)
  rintro z u (known | added)
  · obtain ⟨lt, _⟩ := along.parts.present known
    by_cases same : z = x
    · subst same
      obtain rfl := along.parts.nodesOne.2 related known
      rw [replaced.children_map forest, List.forall₂_map_left_iff]
      refine (forall₂_mem_zip (along.children known)).imp fun a b both => ?_
      obtain ⟨place, beside⟩ := both
      by_cases first : a = c
      · subst first
        obtain rfl := mem_zip_unique (forest.distinct z) place here
        rw [if_pos rfl]
        refine ⟨.inl (.inr .pair), ?_, fun parsed => ?_⟩
        · rw [replaced.field, beside.field]
        · rw [Node.isWritten, calm.ext.buffer? lt] at parsed
          obtain ⟨e, e', ends, ends', seated⟩ := beside.seated parsed
          have held : a ∉ [p] := fun listed => free.not_child forest (List.mem_singleton.mp listed ▸ spot)
          exact ⟨e, e', .there replaced.replaces (calm.ends along.sound (forest.childLt spot) held ends), ends', .inl seated⟩
      · rw [if_neg first]
        exact kept known place first
    · rw [calm.children z lt same]
      refine (forall₂_mem_zip (along.children known)).imp fun a b both => kept known both.1 ?_
      rintro rfl
      exact same (forest.parent_unique (List.of_mem_zip both.1).1 spot)
  · cases added with
    | pair =>
      have lt := lt_of_role heads.role (by decide)
      have inner : ∀ e ∈ doc.children p, e ≠ v → ¬ e = x := fun e member other is =>
        new e (.inr ⟨member, other⟩) y (is ▸ related)
      have again := heads.calm calm forest other inner
      obtain ⟨key₁, parts₁, isKey₁⟩ := again.parts
      have same : [key₁, v] = [key, v] := parts₁.symm.trans ((calm.children p lt other).trans parts)
      obtain rfl : key₁ = key := (List.cons.inj same).1
      exact again.beside heads' parts₁ parts' isKey₁ isKey' (.inl rel) (.inr .key)
    | key =>
      rw [calm.children key (forest.childLt child.1) fun is => newKey y (is ▸ related), isKey.leaf, isKey'.leaf]
      exact .nil

end Alongside

end Document

end StoreModels
