import StoreModels.Proofs.Document.Growth

/-!
What is true of every document that edits lead to. Its nodes are a forest; what a node remembers (whose place it took,
which children it was parsed with) are nodes of the table; following the places taken always ends. A parsed node other
than an object literal has one child for each of its first children, which that child is or has come after; and a parsed
node without a mark is as it was parsed, with unmarked children.
-/
namespace StoreModels
open Syntax (Span Tree Role)

namespace Document
variable {doc doc' : Document} {id x p f c old new last : NodeId}

/-- The node at the end of the places taken: one that itself took none. -/
inductive Ends (doc : Document) : NodeId → NodeId → Prop
  | here {id : NodeId} (none : (doc.node id).replaces = none) : Ends doc id id
  | there {id old last : NodeId} (took : (doc.node id).replaces = some old) (rest : Ends doc old last) : Ends doc id last

namespace Ends

theorem unique (ends : doc.Ends id x) (ends' : doc.Ends id p) : x = p := by
  induction ends with
  | here none =>
    cases ends' with
    | here _ => rfl
    | there took _ =>
      rw [none] at took
      cases took
  | there took _ ih =>
    cases ends' with
    | here none =>
      rw [none] at took
      cases took
    | there took' rest =>
      rw [took] at took'
      cases took'
      exact ih rest

/-- A node that is not the end itself has a node between that took the place of the end. -/
theorem taken (ends : doc.Ends id last) (other : id ≠ last) : ∃ n, (doc.node n).replaces = some last := by
  induction ends with
  | here _ => exact absurd rfl other
  | @there id old last took _ ih =>
    by_cases same : old = last
    · exact ⟨id, same ▸ took⟩
    · exact ih same

/-- Places taken are followed the same way where no node on the way has changed. -/
theorem congr {P : NodeId → Prop} (ends : doc.Ends id last) (start : P id)
    (next : ∀ x old, P x → (doc.node x).replaces = some old → P old)
    (same : ∀ x, P x → (doc'.node x).replaces = (doc.node x).replaces) : doc'.Ends id last := by
  induction ends with
  | here none => exact .here ((same _ start).trans none)
  | there took _ ih => exact .there ((same _ start).trans took) (ih (next _ _ start took))

end Ends

/-- What is true of every document that edits lead to. -/
structure Sound (doc : Document) : Prop where
  forest : doc.Forest
  bufferLt : ∀ {p buffer span}, (doc.node p).origin = .parsed buffer span → buffer < doc.buffers.length
  takenLt : ∀ {id old}, (doc.node id).replaces = some old → old < doc.nodes.size
  /-- Ages that fall along the places taken: following them ends. -/
  aged : ∃ age : NodeId → Nat, ∀ {id old}, (doc.node id).replaces = some old → age old < age id
  firstLt : ∀ {p f}, f ∈ (doc.node p).firstChildren → f < doc.nodes.size
  firstNodup : ∀ p, (doc.node p).firstChildren.Nodup
  firstTookNone : ∀ {p f}, f ∈ (doc.node p).firstChildren → (doc.node f).replaces = none
  kept : ∀ {p}, (doc.node p).isWritten = false → doc.role p ≠ .object →
    List.Forall₂ doc.Ends (doc.children p) (doc.node p).firstChildren
  clean : ∀ {p}, (doc.node p).isWritten = false → (doc.node p).dirty = false →
    doc.children p = (doc.node p).firstChildren ∧ ∀ c ∈ doc.children p, (doc.node c).dirty = false

namespace Sound

/-- The places taken are followed down to an end because their ages fall. -/
theorem ends (sound : doc.Sound) (id : NodeId) : ∃ last, doc.Ends id last := by
  obtain ⟨age, falls⟩ := sound.aged
  induction id using (measure age).wf.induction with
  | _ id ih =>
    cases took : (doc.node id).replaces with
    | none => exact ⟨id, .here took⟩
    | some old =>
      obtain ⟨last, rest⟩ := ih old (falls took)
      exact ⟨last, .there took rest⟩

/-- A document with another text is as sound as it was. -/
theorem withBuffer (sound : doc.Sound) (text : List Char) : Sound { doc with buffers := doc.buffers ++ [text] } where
  forest := sound.forest.congr rfl (fun _ => rfl) (fun _ => rfl)
  bufferLt parsed := by
    rw [List.length_append]
    exact Nat.lt_add_right _ (sound.bufferLt parsed)
  takenLt := sound.takenLt
  aged := sound.aged
  firstLt := sound.firstLt
  firstNodup := sound.firstNodup
  firstTookNone := sound.firstTookNone
  kept parsed other := by
    refine (sound.kept parsed other).imp fun c f ends => ?_
    exact ends.congr (P := fun _ => True) trivial (fun _ _ _ _ => trivial) fun _ _ => rfl
  clean := sound.clean

end Sound

/-- What new nodes behind the others have to be like. -/
structure NewSound (doc doc' : Document) (x : NodeId) : Prop where
  bufferLt : ∀ {buffer span}, (doc'.node x).origin = .parsed buffer span → buffer < doc'.buffers.length
  takenLt : ∀ {old}, (doc'.node x).replaces = some old → old < doc.nodes.size
  firstLt : ∀ {f}, f ∈ (doc'.node x).firstChildren → f < doc'.nodes.size
  firstNodup : (doc'.node x).firstChildren.Nodup
  firstTookNone : ∀ {f}, f ∈ (doc'.node x).firstChildren → (doc'.node f).replaces = none
  kept : (doc'.node x).isWritten = false → doc'.role x ≠ .object →
    List.Forall₂ doc'.Ends (doc'.children x) (doc'.node x).firstChildren
  clean : (doc'.node x).isWritten = false → (doc'.node x).dirty = false →
    doc'.children x = (doc'.node x).firstChildren ∧ ∀ c ∈ doc'.children x, (doc'.node c).dirty = false

/-- What a node that a table does not have is like. -/
theorem newSound_beyond (beyond : doc'.nodes.size ≤ x) : NewSound doc doc' x := by
  refine ⟨?_, ?_, ?_, ?_, ?_, ?_, ?_⟩ <;>
    simp [children, node_beyond beyond, Node.missing, Node.written, Node.isWritten, Node.buffer?]

/-- Places taken by older nodes are followed as before. -/
theorem Sound.ends_prolongs (sound : doc.Sound) (longer : Prolongs doc doc') (present : id < doc.nodes.size)
    (ends : doc.Ends id last) : doc'.Ends id last :=
  ends.congr (P := fun x => x < doc.nodes.size) present (fun _ _ _ took => sound.takenLt took)
    fun x lt => by rw [longer.node x lt]

/-- A sound document stays so when sound nodes grow behind the others. -/
theorem Sound.prolong (sound : doc.Sound) (longer : Prolongs doc doc') (grown : Grown doc doc')
    (new : ∀ x, doc.nodes.size ≤ x → x < doc'.nodes.size → NewSound doc doc' x) : doc'.Sound := by
  have added : ∀ x, ¬ x < doc.nodes.size → NewSound doc doc' x := fun x behind => by
    by_cases present : x < doc'.nodes.size
    · exact new x (Nat.le_of_not_lt behind) present
    · exact newSound_beyond (Nat.le_of_not_lt present)
  have children : ∀ x < doc.nodes.size, doc'.children x = doc.children x := grown.children
  have role : ∀ x < doc.nodes.size, doc'.role x = doc.role x := fun x lt => longer.toExtends.role lt
  refine ⟨grown.forest sound.forest, ?bufferLt, ?takenLt, ?aged, ?firstLt, ?firstNodup, ?firstTookNone, ?kept, ?clean⟩
  case bufferLt =>
    intro p buffer span parsed
    by_cases lt : p < doc.nodes.size
    · rw [longer.node p lt] at parsed
      exact Nat.lt_of_lt_of_le (sound.bufferLt parsed) longer.toExtends.buffers.length_le
    · exact (added p lt).bufferLt parsed
  case takenLt =>
    intro id old took
    by_cases lt : id < doc.nodes.size
    · rw [longer.node id lt] at took
      exact Nat.lt_of_lt_of_le (sound.takenLt took) longer.size
    · exact Nat.lt_of_lt_of_le ((added id lt).takenLt took) longer.size
  case aged =>
    obtain ⟨age, falls⟩ := sound.aged
    refine ⟨fun x => if x < doc.nodes.size then age x else ((doc'.node x).replaces.map age).getD 0 + 1, ?_⟩
    intro id old took
    by_cases lt : id < doc.nodes.size
    · rw [longer.node id lt] at took
      simp only [if_pos lt, if_pos (sound.takenLt took)]
      exact falls took
    · simp only [if_neg lt, if_pos ((added id lt).takenLt took), took, Option.map_some, Option.getD_some]
      exact Nat.lt_succ_self _
  case firstLt =>
    intro p f member
    by_cases lt : p < doc.nodes.size
    · rw [longer.node p lt] at member
      exact Nat.lt_of_lt_of_le (sound.firstLt member) longer.size
    · exact (added p lt).firstLt member
  case firstNodup =>
    intro p
    by_cases lt : p < doc.nodes.size
    · rw [longer.node p lt]
      exact sound.firstNodup p
    · exact (added p lt).firstNodup
  case firstTookNone =>
    intro p f member
    by_cases lt : p < doc.nodes.size
    · rw [longer.node p lt] at member
      rw [longer.node f (sound.firstLt member)]
      exact sound.firstTookNone member
    · exact (added p lt).firstTookNone member
  case kept =>
    intro p parsed other
    by_cases lt : p < doc.nodes.size
    · rw [longer.node p lt] at parsed
      rw [role p lt] at other
      rw [children p lt, longer.node p lt]
      refine forall₂_imp_mem (sound.kept parsed other) fun c member _ _ ends => ?_
      exact sound.ends_prolongs longer (sound.forest.childLt member) ends
    · exact (added p lt).kept parsed other
  case clean =>
    intro p parsed unmarked
    by_cases lt : p < doc.nodes.size
    · rw [longer.node p lt] at parsed unmarked
      obtain ⟨same, below⟩ := sound.clean parsed unmarked
      rw [children p lt, longer.node p lt]
      refine ⟨same, fun c member => ?_⟩
      rw [longer.node c (sound.forest.childLt member)]
      exact below c member
    · exact (added p lt).clean parsed unmarked

/-! ## Trees of texts -/

theorem Mirrors.newSound {buffer : BufferId} {tree : Tree} (mirrors : doc'.Mirrors buffer x tree)
    (known : buffer < doc'.buffers.length) (inside : ∀ c ∈ doc'.children x, c < doc'.nodes.size)
    (nodup : (doc'.children x).Nodup)
    (below : ∀ c ∈ doc'.children x, (doc'.node c).replaces = none ∧ (doc'.node c).dirty = false) :
    NewSound doc doc' x where
  bufferLt parsed := by
    rw [mirrors.origin] at parsed
    cases parsed
    exact known
  takenLt took := by
    rw [mirrors.tookNone] at took
    cases took
  firstLt member := inside _ (mirrors.firstChildren ▸ member)
  firstNodup := mirrors.firstChildren ▸ nodup
  firstTookNone member := (below _ (mirrors.firstChildren ▸ member)).1
  kept _ _ := by
    rw [mirrors.firstChildren]
    exact List.forall₂_same.mpr fun c member => .here (below c member).1
  clean _ _ := ⟨mirrors.firstChildren.symm, fun c member => (below c member).2⟩

/-! ## Copies -/

theorem lookup_zip_map {twin : NodeId → NodeId} {copies : List NodeId} (distinct : (copies.map twin).Nodup)
    (member : c ∈ copies) : ((copies.map twin).zip copies).lookup (twin c) = some c := by
  induction copies with
  | nil => cases member
  | cons copy rest ih =>
    simp only [List.map_cons, List.nodup_cons] at distinct
    rcases List.mem_cons.mp member with rfl | later
    · simp
    · have other : twin c ≠ twin copy := fun same =>
        distinct.1 (List.mem_map.mpr ⟨c, later, same⟩)
      rw [List.map_cons, List.zip_cons_cons, List.lookup_cons, beq_eq_false_iff_ne.mpr other]
      exact ih distinct.2 later

theorem lookup_zip_none {twin : NodeId → NodeId} {copies : List NodeId} (absent : x ∉ copies.map twin) :
    ((copies.map twin).zip copies).lookup x = none := by
  induction copies with
  | nil => rfl
  | cons copy rest ih =>
    simp only [List.map_cons, List.mem_cons, not_or] at absent
    rw [List.map_cons, List.zip_cons_cons, List.lookup_cons, beq_eq_false_iff_ne.mpr absent.1]
    exact ih absent.2

/-- Nodes that end at distinct ones are told apart by where they end. -/
theorem ends_inj {nodes lasts : List NodeId} (ends : List.Forall₂ doc.Ends nodes lasts) (distinct : lasts.Nodup)
    (first : x ∈ nodes) (second : c ∈ nodes) (left : doc.Ends x last) (right : doc.Ends c last) : x = c := by
  induction ends with
  | nil => cases first
  | @cons n l nodes lasts here rest ih =>
    obtain ⟨fresh, distinct⟩ := List.nodup_cons.mp distinct
    -- A node further down that ends where this one does would make `l` occur twice.
    have apart : ∀ y ∈ nodes, doc.Ends y last → ¬ doc.Ends n last := by
      intro y member ends ends'
      obtain ⟨l', listed, ends''⟩ := forall₂_mem_left rest member
      rw [ends''.unique ends, ← here.unique ends'] at listed
      exact fresh listed
    rcases List.mem_cons.mp first with rfl | later
    · rcases List.mem_cons.mp second with rfl | later'
      · rfl
      · exact absurd left (apart c later' right)
    · rcases List.mem_cons.mp second with rfl | later'
      · exact absurd right (apart x later left)
      · exact ih distinct later later'

/-- What a copy was parsed with: in the place of each first child of its twin the copy of it, or, where it is a child no
    more, the same node. -/
structure Renames (doc doc' : Document) (twin : NodeId → NodeId) (x : NodeId) (rename : NodeId → NodeId) : Prop where
  firsts : (doc'.node x).firstChildren = (doc.node (twin x)).firstChildren.map rename
  copy : ∀ c ∈ doc'.children x, rename (twin c) = c
  other : ∀ f, f ∉ doc.children (twin x) → rename f = f

theorem Duplicated.renames {twin : NodeId → NodeId} {original : NodeId} (copied : Duplicated doc doc' twin original)
    (sound : doc.Sound) (le : doc.nodes.size ≤ x) (lt : x < doc'.nodes.size) : ∃ rename, Renames doc doc' twin x rename := by
  have alike := copied.twins x le lt
  have distinct : ((doc'.children x).map twin).Nodup := by
    rw [alike.children]
    exact sound.forest.distinct _
  refine ⟨_, alike.firstChildren, fun c member => ?_, fun f absent => ?_⟩
  · rw [← alike.children]
    simp only [lookup_zip_map distinct member, Option.getD_some]
  · rw [← alike.children] at absent ⊢
    simp only [lookup_zip_none absent, Option.getD_none]

/-- A first child of a copy's twin either is a child still, and then has a copy, or keeps its number. -/
theorem Renames.cases {twin rename : NodeId → NodeId} (renames : Renames doc doc' twin x rename)
    (alike : Twin doc doc' twin x) (f : NodeId) :
    (∃ c ∈ doc'.children x, twin c = f ∧ rename f = c) ∨ (f ∉ doc.children (twin x) ∧ rename f = f) := by
  by_cases there : f ∈ doc.children (twin x)
  · rw [← alike.children, List.mem_map] at there
    obtain ⟨c, member, rfl⟩ := there
    exact .inl ⟨c, member, rfl, renames.copy c member⟩
  · exact .inr ⟨there, renames.other f there⟩

/-- What a copy was parsed with is of the same kind and from the same part of a text as what its twin was parsed with. -/
theorem Renames.stays {twin rename : NodeId → NodeId} {original : NodeId} (renames : Renames doc doc' twin x rename)
    (copied : Duplicated doc doc' twin original) (sound : doc.Sound) (le : doc.nodes.size ≤ x) (lt : x < doc'.nodes.size)
    (listed : f ∈ (doc.node (twin x)).firstChildren) :
    (doc'.node (rename f)).kind = (doc.node f).kind ∧ (doc'.node (rename f)).origin = (doc.node f).origin := by
  rcases renames.cases (copied.twins x le lt) f with ⟨c, member, rfl, is⟩ | ⟨_, is⟩
  · obtain ⟨gt, lt', _⟩ := copied.sprouted.child x le lt c member
    have same := copied.twins c (Nat.le_trans le (Nat.le_of_lt gt)) lt'
    rw [is]
    exact ⟨same.kind, same.origin⟩
  · rw [is, copied.longer.node f (sound.firstLt listed)]
    exact ⟨rfl, rfl⟩

/-- A sound document stays so when a node is duplicated. -/
theorem Sound.duplicate (sound : doc.Sound) {twin : NodeId → NodeId} {original : NodeId}
    (copied : Duplicated doc doc' twin original) : doc'.Sound := by
  have longer := copied.longer
  refine sound.prolong longer copied.grown fun x le lt => ?_
  have alike := copied.twins x le lt
  have newer : ∀ c ∈ doc'.children x, doc.nodes.size ≤ c := fun c member =>
    Nat.le_trans le (Nat.le_of_lt (copied.sprouted.child x le lt c member).1)
  obtain ⟨rename, renames⟩ := copied.renames sound le lt
  have firsts := renames.firsts
  have written : (doc'.node x).isWritten = (doc.node (twin x)).isWritten := by
    simp only [Node.isWritten, Node.buffer?, alike.origin]
  have role : doc'.role x = doc.role (twin x) := by simp only [Document.role, Node.role, alike.kind]
  refine ⟨?bufferLt, ?takenLt, ?firstLt, ?firstNodup, ?firstTookNone, ?kept, ?clean⟩
  case bufferLt =>
    intro buffer span parsed
    rw [alike.origin] at parsed
    exact Nat.lt_of_lt_of_le (sound.bufferLt parsed) longer.toExtends.buffers.length_le
  case takenLt =>
    intro old took
    rcases copied.sprouted.parent x le lt with top | ⟨p, _, from_size, below_size, member⟩
    · rw [List.mem_singleton.mp top, copied.tookNone] at took
      cases took
    · rw [(copied.twins p from_size below_size).replaces x member] at took
      exact sound.takenLt took
  case firstLt =>
    intro f member
    rw [firsts, List.mem_map] at member
    obtain ⟨g, listed, rfl⟩ := member
    rcases renames.cases alike g with ⟨c, there, _, same⟩ | ⟨_, same⟩
    · rw [same]
      exact (copied.sprouted.child x le lt c there).2.1
    · rw [same]
      exact Nat.lt_of_lt_of_le (sound.firstLt listed) longer.size
  case firstNodup =>
    rw [firsts]
    refine (sound.firstNodup _).map_on fun f listed g listed' same => ?_
    rcases renames.cases alike f with ⟨c, there, rfl, is⟩ | ⟨absent, is⟩
    · rcases renames.cases alike g with ⟨d, _, rfl, is'⟩ | ⟨_, is'⟩
      · rw [← is, ← is', same, is']
      · have beyond := newer c there
        rw [← is, same, is'] at beyond
        exact absurd (sound.firstLt listed') (Nat.not_lt_of_ge beyond)
    · rcases renames.cases alike g with ⟨d, there, rfl, is'⟩ | ⟨_, is'⟩
      · have beyond := newer d there
        rw [← is', ← same, is] at beyond
        exact absurd (sound.firstLt listed) (Nat.not_lt_of_ge beyond)
      · rw [← is, same, is']
  case firstTookNone =>
    intro f member
    rw [firsts, List.mem_map] at member
    obtain ⟨g, listed, rfl⟩ := member
    rcases renames.cases alike g with ⟨c, there, rfl, is⟩ | ⟨_, is⟩
    · rw [is, alike.replaces c there]
      exact sound.firstTookNone listed
    · rw [is, longer.node g (sound.firstLt listed)]
      exact sound.firstTookNone listed
  case kept =>
    intro parsed notObject
    rw [written] at parsed
    rw [role] at notObject
    have kept := sound.kept parsed notObject
    rw [← alike.children, List.forall₂_map_left_iff] at kept
    rw [firsts, List.forall₂_map_right_iff]
    refine forall₂_imp_mem kept fun c member f listed ends => ?_
    have took := alike.replaces c member
    cases ends with
    | here none =>
      rw [renames.copy c member]
      exact .here (took.trans none)
    | @there _ old _ link rest =>
      have absent : f ∉ doc.children (twin x) := by
        intro there
        have none := sound.firstTookNone listed
        have same := ends_inj (sound.kept parsed notObject) (sound.firstNodup _)
          (alike.children ▸ List.mem_map_of_mem member) there (.there link rest) (.here none)
        rw [same, none] at link
        cases link
      rw [renames.other f absent]
      exact .there (took.trans link) (sound.ends_prolongs longer (sound.takenLt link) rest)
  case clean =>
    intro parsed unmarked
    rw [written] at parsed
    rw [alike.dirty] at unmarked
    obtain ⟨same, below⟩ := sound.clean parsed unmarked
    refine ⟨?_, fun c member => ?_⟩
    · rw [firsts, ← same, ← alike.children, List.map_map]
      exact (List.map_id _).symm.trans (List.map_congr_left fun c member => (renames.copy c member).symm)
    · obtain ⟨gt, lt', _⟩ := copied.sprouted.child x le lt c member
      rw [(copied.twins c (newer c member) lt').dirty]
      exact below (twin c) (alike.children ▸ List.mem_map_of_mem member)

/-! ## Written nodes -/

theorem Sound.writeLeaf (sound : doc.Sound) (kind : String) (text : List Char) : (doc.writeLeaf kind text).1.Sound := by
  have longer := writeLeaf_prolongs doc kind text
  have top : (doc.writeLeaf kind text).1.node doc.nodes.size = .written kind (some text) := node_insert_self doc _
  have alone : ∀ x, doc.nodes.size ≤ x → (doc.writeLeaf kind text).1.node x = .written kind (some text) ∨
      (doc.writeLeaf kind text).1.node x = .missing := by
    intro x le
    rcases Nat.eq_or_lt_of_le le with rfl | lt
    · exact .inl top
    · exact .inr (node_beyond (by
        rw [Document.writeLeaf, size_insert]
        exact lt))
  refine sound.prolong longer ⟨longer.size, ?_, ?_, ?_, ?_, ?_⟩ fun x le _ => ?_
  · intro x lt
    rw [parent?, longer.node x lt, parent?]
  · intro x lt
    rw [children, longer.node x lt, children]
  · intro x le c member
    rcases alone x le with same | same <;> rw [children, same] at member <;> cases member
  · intro x le p link
    rcases alone x le with same | same <;> rw [parent?, same] at link <;> cases link
  · intro x le
    rcases alone x le with same | same <;> rw [children, same] <;> exact List.nodup_nil
  · rcases alone x le with same | same <;>
      refine ⟨?_, ?_, ?_, ?_, ?_, ?_, ?_⟩ <;>
      simp [children, same, Node.missing, Node.written, Node.isWritten, Node.buffer?]

namespace Joined
variable {kind : String} {parts : List (Option String × NodeId)}

/-- Of an older node only the parent and the field change. -/
theorem node_old (joined : Joined doc doc' kind parts) (lt : x < doc.nodes.size) :
    doc'.node x = { doc.node x with parent := (doc'.node x).parent, field := (doc'.node x).field } := by
  by_cases part : x ∈ parts.map Prod.snd
  · obtain ⟨⟨field, c⟩, member, rfl⟩ := List.mem_map.mp part
    rw [joined.part field c member]
  · rw [joined.node x lt part]

theorem toExtends (joined : Joined doc doc' kind parts) : Extends doc doc' where
  size := by
    rw [joined.size]
    exact Nat.le_succ _
  buffers := ⟨[], by rw [List.append_nil, joined.rest]⟩
  dialect := by rw [joined.rest]
  root := by rw [joined.rest]
  shownIndent := by rw [joined.rest]
  fallbackIndent := by rw [joined.rest]
  newline := by rw [joined.rest]
  kind x lt := by rw [joined.node_old lt]
  origin x lt := by rw [joined.node_old lt]
  named x lt := by rw [joined.node_old lt]
  firstChildren x lt := by rw [joined.node_old lt]

theorem children_old (joined : Joined doc doc' kind parts) (lt : x < doc.nodes.size) :
    doc'.children x = doc.children x := by
  rw [children, joined.node_old lt, children]

theorem children_top (joined : Joined doc doc' kind parts) : doc'.children doc.nodes.size = parts.map Prod.snd := by
  rw [children, joined.top]

/-- A node of the new document is an older one, the written one, or none at all. -/
theorem cases (joined : Joined doc doc' kind parts) (x : NodeId) :
    x < doc.nodes.size ∨ x = doc.nodes.size ∨ doc'.node x = .missing := by
  rcases Nat.lt_trichotomy x doc.nodes.size with lt | same | gt
  · exact .inl lt
  · exact .inr (.inl same)
  · exact .inr (.inr (node_beyond (joined.size ▸ gt)))

/-- What nodes remember stays. -/
theorem history (joined : Joined doc doc' kind parts) (x : NodeId) :
    (doc'.node x).replaces = (doc.node x).replaces ∧ (doc'.node x).firstChildren = (doc.node x).firstChildren := by
  by_cases lt : x < doc.nodes.size
  · rw [joined.node_old lt]
    exact ⟨rfl, rfl⟩
  · have beyond : doc.node x = .missing := node_beyond (Nat.le_of_not_lt lt)
    rw [beyond]
    rcases joined.cases x with old | rfl | missing
    · exact absurd old lt
    · rw [joined.top]
      exact ⟨rfl, rfl⟩
    · rw [missing]
      exact ⟨rfl, rfl⟩

theorem parent_old (joined : Joined doc doc' kind parts) (lt : x < doc.nodes.size) :
    doc'.parent? x = if x ∈ parts.map Prod.snd then some doc.nodes.size else doc.parent? x := by
  by_cases part : x ∈ parts.map Prod.snd
  · obtain ⟨⟨field, c⟩, member, rfl⟩ := List.mem_map.mp part
    rw [if_pos part, parent?, joined.part field c member]
  · rw [if_neg part, parent?, joined.node x lt part, parent?]

theorem forest (joined : Joined doc doc' kind parts) (forest : doc.Forest) (distinct : (parts.map Prod.snd).Nodup)
    (roots : ∀ c ∈ parts.map Prod.snd, c < doc.nodes.size ∧ doc.parent? c = none) : doc'.Forest := by
  have listed : ∀ {id c}, c ∈ doc'.children id →
      (id = doc.nodes.size ∧ c ∈ parts.map Prod.snd) ∨ (id < doc.nodes.size ∧ c ∈ doc.children id) := by
    intro id c member
    rcases joined.cases id with lt | rfl | missing
    · exact .inr ⟨lt, joined.children_old lt ▸ member⟩
    · exact .inl ⟨rfl, joined.children_top ▸ member⟩
    · rw [children, missing] at member
      cases member
  refine ⟨?childLt, ?childParent, ?parentChild, ?distinct, ?ranked⟩
  case childLt =>
    intro id c member
    rw [joined.size]
    rcases listed member with ⟨_, part⟩ | ⟨_, child⟩
    · exact Nat.lt_succ_of_lt (roots c part).1
    · exact Nat.lt_succ_of_lt (forest.childLt child)
  case childParent =>
    intro id c member
    rcases listed member with ⟨rfl, part⟩ | ⟨_, child⟩
    · rw [joined.parent_old (roots c part).1, if_pos part]
    · have inner : c ∉ parts.map Prod.snd := fun part => by
        have root := (roots c part).2
        rw [forest.childParent child] at root
        cases root
      rw [joined.parent_old (forest.childLt child), if_neg inner, forest.childParent child]
  case parentChild =>
    intro id c link
    rcases joined.cases c with lt | rfl | missing
    · rw [joined.parent_old lt] at link
      by_cases part : c ∈ parts.map Prod.snd
      · rw [if_pos part] at link
        cases link
        rw [joined.children_top]
        exact part
      · rw [if_neg part] at link
        have child := forest.parentChild link
        rw [joined.children_old (lt_of_mem_children child)]
        exact child
    · rw [parent?, joined.top] at link
      cases link
    · rw [parent?, missing] at link
      cases link
  case distinct =>
    intro id
    rcases joined.cases id with lt | rfl | missing
    · rw [joined.children_old lt]
      exact forest.distinct id
    · rw [joined.children_top]
      exact distinct
    · rw [children, missing]
      exact List.nodup_nil
  case ranked =>
    obtain ⟨rank, grows⟩ := forest.ranked
    refine ⟨fun x => if x = doc.nodes.size then 0 else rank x + 1, ?_⟩
    intro id c member
    rcases listed member with ⟨rfl, part⟩ | ⟨lt, child⟩
    · simp only [if_true, if_neg (Nat.ne_of_lt (roots c part).1)]
      exact Nat.succ_pos _
    · simp only [if_neg (Nat.ne_of_lt lt), if_neg (Nat.ne_of_lt (forest.childLt child))]
      exact Nat.succ_lt_succ (grows child)

end Joined

/-- A sound document stays so when a node is written above free ones. -/
theorem Sound.join (sound : doc.Sound) {kind : String} {parts : List (Option String × NodeId)}
    (joined : Joined doc doc' kind parts) (distinct : (parts.map Prod.snd).Nodup)
    (roots : ∀ c ∈ parts.map Prod.snd, c < doc.nodes.size ∧ doc.parent? c = none) : doc'.Sound := by
  have replaces : ∀ x, (doc'.node x).replaces = (doc.node x).replaces := fun x => (joined.history x).1
  have firsts : ∀ x, (doc'.node x).firstChildren = (doc.node x).firstChildren := fun x => (joined.history x).2
  have parsed : ∀ {x}, (doc'.node x).isWritten = false → x < doc.nodes.size := by
    intro x parsed
    rcases joined.cases x with lt | rfl | missing
    · exact lt
    · rw [joined.top] at parsed
      cases parsed
    · rw [missing] at parsed
      cases parsed
  have more : doc.nodes.size ≤ doc'.nodes.size := joined.toExtends.size
  refine ⟨joined.forest sound.forest distinct roots, ?bufferLt, ?takenLt, ?aged, ?firstLt, ?firstNodup, ?firstTookNone,
    ?kept, ?clean⟩
  case bufferLt =>
    intro p buffer span from_text
    have lt : p < doc.nodes.size := parsed (by simp [Node.isWritten, Node.buffer?, from_text])
    rw [joined.node_old lt] at from_text
    exact Nat.lt_of_lt_of_le (sound.bufferLt from_text) joined.toExtends.buffers.length_le
  case takenLt =>
    intro id old took
    rw [replaces] at took
    exact Nat.lt_of_lt_of_le (sound.takenLt took) more
  case aged =>
    obtain ⟨age, falls⟩ := sound.aged
    exact ⟨age, fun took => falls (replaces _ ▸ took)⟩
  case firstLt =>
    intro p f member
    rw [firsts] at member
    exact Nat.lt_of_lt_of_le (sound.firstLt member) more
  case firstNodup =>
    intro p
    rw [firsts]
    exact sound.firstNodup p
  case firstTookNone =>
    intro p f member
    rw [firsts] at member
    rw [replaces]
    exact sound.firstTookNone member
  case kept =>
    intro p from_text other
    have lt := parsed from_text
    rw [joined.toExtends.role lt] at other
    rw [joined.node_old lt] at from_text
    rw [joined.children_old lt, firsts]
    refine (sound.kept from_text other).imp fun c f ends => ?_
    exact ends.congr (P := fun _ => True) trivial (fun _ _ _ _ => trivial) fun x _ => replaces x
  case clean =>
    intro p from_text unmarked
    have lt := parsed from_text
    rw [joined.node_old lt] at from_text unmarked
    obtain ⟨same, below⟩ := sound.clean from_text unmarked
    rw [joined.children_old lt, firsts]
    refine ⟨same, fun c member => ?_⟩
    rw [joined.node_old (sound.forest.childLt member)]
    exact below c member

/-! ## Changes below one node -/

/-- The places that other nodes than the new one took are followed as before. -/
theorem Edited.ends {gone new : Option NodeId} (edited : Edited doc doc' p gone new)
    (free : ∀ n, new = some n → doc.Free n) (other : some x ≠ new) (ends : doc.Ends x last) : doc'.Ends x last := by
  refine ends.congr (P := fun y => some y ≠ new) other (fun y old _ link fresh => ?_) edited.replaces
  exact (free old fresh.symm).lostNone y link

/-- What nodes were parsed with stays. -/
theorem Edited.firstChildren {gone new : Option NodeId} (edited : Edited doc doc' p gone new) (x : NodeId) :
    (doc'.node x).firstChildren = (doc.node x).firstChildren := by
  by_cases lt : x < doc.nodes.size
  · exact edited.ext.firstChildren x lt
  · rw [node_beyond (Nat.le_of_not_lt lt), node_beyond (edited.hung.size ▸ Nat.le_of_not_lt lt)]

/-- A sound document stays so when the children of one node change, where the new child stands for a node of the table
    or for itself. -/
theorem Edited.sound {gone new : Option NodeId} (edited : Edited doc doc' p gone new) (sound : doc.Sound)
    (free : ∀ n, new = some n → doc.Free n)
    (took : ∀ n, new = some n → ∀ old, (doc'.node n).replaces = some old → old < doc.nodes.size ∧ old ≠ n)
    (here : (doc.node p).isWritten = false → doc.role p ≠ .object →
      List.Forall₂ doc'.Ends (doc'.children p) (doc.node p).firstChildren) : doc'.Sound := by
  have size := edited.hung.size
  have parsed : ∀ {x}, (doc'.node x).isWritten = false → x < doc.nodes.size := by
    intro x from_text
    by_contra beyond
    rw [node_beyond (size ▸ Nat.le_of_not_lt beyond)] at from_text
    cases from_text
  have firsts := edited.firstChildren
  have unlisted : ∀ {x c}, c ∈ doc.children x → some c ≠ new := fun member fresh =>
    (free _ fresh.symm).not_child sound.forest member
  refine ⟨edited.forest, ?bufferLt, ?takenLt, ?aged, ?firstLt, ?firstNodup, ?firstTookNone, ?kept, ?clean⟩
  case bufferLt =>
    intro q buffer span from_text
    have lt : q < doc.nodes.size := parsed (by simp [Node.isWritten, Node.buffer?, from_text])
    rw [edited.ext.origin q lt] at from_text
    exact Nat.lt_of_lt_of_le (sound.bufferLt from_text) edited.ext.buffers.length_le
  case takenLt =>
    intro id old link
    rw [size]
    by_cases fresh : some id = new
    · exact (took id fresh.symm old link).1
    · rw [edited.replaces id fresh] at link
      exact sound.takenLt link
  case aged =>
    obtain ⟨age, falls⟩ := sound.aged
    classical
    refine ⟨fun x => if some x = new then ((doc'.node x).replaces.map age).getD 0 + 1 else age x, ?_⟩
    intro id old link
    by_cases fresh : some id = new
    · have other : some old ≠ new := fun same => (took id fresh.symm old link).2 (by
        rw [← fresh] at same
        exact Option.some.inj same)
      simp only [if_pos fresh, if_neg other, link, Option.map_some, Option.getD_some]
      exact Nat.lt_succ_self _
    · rw [edited.replaces id fresh] at link
      have other : some old ≠ new := fun same => (free old same.symm).lostNone id link
      simp only [if_neg fresh, if_neg other]
      exact falls link
  case firstLt =>
    intro q f member
    rw [firsts] at member
    rw [size]
    exact sound.firstLt member
  case firstNodup =>
    intro q
    rw [firsts]
    exact sound.firstNodup q
  case firstTookNone =>
    intro q f member
    rw [firsts] at member
    rw [edited.replaces f fun fresh => (free f fresh.symm).notFirst q member]
    exact sound.firstTookNone member
  case kept =>
    intro q from_text other
    have lt := parsed from_text
    have from_text' : (doc.node q).isWritten = false := by
      simpa only [Node.isWritten, edited.ext.buffer? lt] using from_text
    rw [edited.ext.role lt] at other
    rw [firsts]
    by_cases same : q = p
    · subst same
      exact here from_text' other
    · rw [edited.hung.children q same]
      exact forall₂_imp_mem (sound.kept from_text' other) fun c member _ _ link => edited.ends free (unlisted member) link
  case clean =>
    intro q from_text unmarked
    have lt := parsed from_text
    have from_text' : (doc.node q).isWritten = false := by
      simpa only [Node.isWritten, edited.ext.buffer? lt] using from_text
    have notAbove : ¬ doc'.Below q p := fun below => by
      rw [(edited.dirty q).mpr (.inr below)] at unmarked
      cases unmarked
    have unmarked' : (doc.node q).dirty = false := by
      by_contra marked
      rw [(edited.dirty q).mpr (.inl (by simpa using marked))] at unmarked
      cases unmarked
    have same : doc'.children q = doc.children q :=
      edited.hung.children q fun same => notAbove (same ▸ Below.refl doc' q)
    obtain ⟨firstly, below⟩ := sound.clean from_text' unmarked'
    rw [firsts]
    refine ⟨same.trans firstly, fun c member => ?_⟩
    by_contra marked
    rcases (edited.dirty c).mp (by simpa using marked) with before | above
    · rw [below c (same ▸ member)] at before
      cases before
    · exact notAbove ((Below.child member).trans above)

end Document

end StoreModels
