import StoreModels.Proofs.Document.Lineage

/-!
Entries stay in line. In every document that edits lead to, a node is a child of no other node than the one that it was
parsed with, and the entries of an object literal are, in their order, some of those that it was parsed with, or have come
after them, and then others. This holds of copies, too: what had come after a first entry has come after its copy.
-/
namespace StoreModels
open Syntax (Role Reader)
open List (Forall₂)

namespace Document
variable {first doc doc' : Document} {x y p f c e old new : NodeId} {twin rename : NodeId → NodeId} {original : NodeId}

/-! ## Entries in line -/

/-- The entries that come after some of the first ones, and the new ones behind them. -/
theorem Lined.split (lined : first.Lined doc p) : ∃ olds youngs kept news, doc.entries p = olds ++ youngs ∧
    Forall₂ doc.Ends olds kept ∧ Forall₂ doc.Ends youngs news ∧ kept.Sublist (first.firstEntries p) ∧
    ∀ x ∈ news, x ∉ first.firstEntries p := by
  obtain ⟨kept, news, pairs, sub, fresh⟩ := lined
  obtain ⟨olds, youngs, split, early, late⟩ := forall₂_append_left pairs.flip
  exact ⟨olds, youngs, kept, news, split, early.flip, late.flip, sub, fresh⟩

/-- No two entries have come after the same first one. -/
theorem Lined.only (lined : first.Lined doc p) (distinct : (first.firstEntries p).Nodup) (left : x ∈ doc.entries p)
    (right : y ∈ doc.entries p) (ends : doc.Ends x f) (ends' : doc.Ends y f) (listed : f ∈ first.firstEntries p) : x = y := by
  obtain ⟨olds, youngs, kept, news, split, early, late, sub, fresh⟩ := lined.split
  have among : ∀ {z}, z ∈ doc.entries p → doc.Ends z f → z ∈ olds := by
    intro z member ends
    rw [split] at member
    refine (List.mem_append.mp member).resolve_right fun young => ?_
    obtain ⟨last, isNew, ends'⟩ := forall₂_mem_left late young
    exact fresh last isNew (ends.unique ends' ▸ listed)
  exact ends_inj early (distinct.sublist sub) (among left ends) (among right ends') ends ends'

/-- What entries are in line with may be read off a later document. -/
theorem Lined.rebase (lined : doc.Lined doc' p) (sound : doc.Sound) (ext : Extends doc doc') (lt : p < doc.nodes.size) :
    doc'.Lined doc' p := by
  obtain ⟨kept, news, pairs, sub, fresh⟩ := lined
  rw [← sound.firstEntries_eq ext lt] at sub fresh
  exact ⟨kept, news, pairs, sub, fresh⟩

/-- Whether every node is a child of no other one than it was parsed with, and the entries of all object literals are in
    line with those that the literals were parsed with. -/
structure Orderly (doc : Document) : Prop where
  home : ∀ {p q c}, c ∈ doc.children p → c ∈ (doc.node q).firstChildren → p = q
  lined : ∀ {p}, doc.role p = .object → doc.Lined doc p

namespace Orderly

/-- Of a document as it was parsed. -/
theorem parsed (sound : first.Sound) (untouched : ∀ x, (first.node x).firstChildren = first.children x ∧
    (first.node x).replaces = none) : first.Orderly := by
  have origin := Lineage.parsed sound (fun x => (untouched x).1) fun x => (untouched x).2
  exact ⟨origin.home, origin.lined⟩

theorem withBuffer (orderly : doc.Orderly) (text : List Char) : Orderly { doc with buffers := doc.buffers ++ [text] } where
  home := orderly.home
  lined object := (orderly.lined object).congr rfl fun _ ends =>
    ends.congr (P := fun _ => True) trivial (fun _ _ _ _ => trivial) fun _ _ => rfl

/-- The older entries are in line where no older node gets other children or another place. -/
theorem steady (orderly : doc.Orderly) (sound : doc.Sound) (ext : Extends doc doc')
    (children : ∀ x < doc.nodes.size, doc'.children x = doc.children x)
    (replaces : ∀ x < doc.nodes.size, (doc'.node x).replaces = (doc.node x).replaces) (lt : p < doc.nodes.size)
    (object : doc'.role p = .object) : doc'.Lined doc' p := by
  rw [ext.role lt] at object
  exact ((orderly.lined object).steady sound ext (children p lt) replaces).rebase sound ext lt

/-! ## New nodes -/

/-- New nodes that have the children that they were parsed with, all of them new, and took no places. -/
theorem prolong (orderly : doc.Orderly) (sound : doc.Sound) (longer : Prolongs doc doc') (forest : doc'.Forest)
    (fresh : ∀ x, doc.nodes.size ≤ x → (doc'.node x).firstChildren = doc'.children x ∧
      ∀ c ∈ doc'.children x, doc.nodes.size ≤ c ∧ (doc'.node c).replaces = none) : doc'.Orderly where
  home {p q c} member listed := by
    by_cases lt : p < doc.nodes.size
    · rw [Document.children, longer.node p lt] at member
      by_cases lt' : q < doc.nodes.size
      · rw [longer.node q lt'] at listed
        exact orderly.home member listed
      · obtain ⟨same, inside⟩ := fresh q (Nat.le_of_not_lt lt')
        exact absurd (sound.forest.childLt member) (Nat.not_lt_of_ge (inside c (same ▸ listed)).1)
    · by_cases lt' : q < doc.nodes.size
      · rw [longer.node q lt'] at listed
        exact absurd (sound.firstLt listed) (Nat.not_lt_of_ge ((fresh p (Nat.le_of_not_lt lt)).2 c member).1)
      · rw [(fresh q (Nat.le_of_not_lt lt')).1] at listed
        exact forest.parent_unique member listed
  lined {p} object := by
    by_cases lt : p < doc.nodes.size
    · refine orderly.steady sound longer.toExtends (fun x lt => ?_) (fun x lt => ?_) lt object
      · rw [Document.children, longer.node x lt, Document.children]
      · rw [longer.node x lt]
    · obtain ⟨same, inside⟩ := fresh p (Nat.le_of_not_lt lt)
      refine ⟨doc'.firstEntries p, [], ?_, List.Sublist.refl _, by simp⟩
      rw [List.append_nil, entries, firstEntries, same]
      exact List.forall₂_same.mpr fun e member => .here (inside e (List.mem_of_mem_filter member)).2

theorem adopt {buffer : BufferId} {tree : Syntax.Tree} (orderly : doc.Orderly) (sound : doc.Sound) (forest : doc'.Forest)
    (adopted : Adopted doc doc' buffer tree) : doc'.Orderly := by
  refine orderly.prolong sound adopted.longer forest fun x le => ?_
  by_cases lt : x < doc'.nodes.size
  · obtain ⟨_, _, mirrors⟩ := adopted.mirrors x le lt
    refine ⟨mirrors.firstChildren, fun c member => ?_⟩
    obtain ⟨gt, lt', _⟩ := adopted.sprouted.child x le lt c member
    have le' := Nat.le_trans le (Nat.le_of_lt gt)
    obtain ⟨_, _, mirrors'⟩ := adopted.mirrors c le' lt'
    exact ⟨le', mirrors'.tookNone⟩
  · rw [Document.children, node_beyond (Nat.le_of_not_lt lt)]
    exact ⟨rfl, by simp [Node.missing, Node.written]⟩

theorem writeLeaf (orderly : doc.Orderly) (sound : doc.Sound) (kind : String) (text : List Char) :
    (doc.writeLeaf kind text).1.Orderly := by
  refine orderly.prolong sound (writeLeaf_prolongs doc kind text) (sound.writeLeaf kind text).forest fun x le => ?_
  rw [Document.children, writeLeaf_node]
  split
  · exact ⟨rfl, by simp [Node.written]⟩
  · rw [node_beyond le]
    exact ⟨rfl, by simp [Node.missing, Node.written]⟩

theorem join (orderly : doc.Orderly) (sound : doc.Sound) {kind : String} {parts : List (Option String × NodeId)}
    (joined : Joined doc doc' kind parts) (free : ∀ c ∈ parts.map Prod.snd, doc.Free c) : doc'.Orderly where
  home {p q c} member listed := by
    rw [(joined.history q).2] at listed
    rcases joined.cases p with lt | rfl | missing
    · exact orderly.home (joined.children_old lt ▸ member) listed
    · rw [joined.children_top] at member
      exact absurd listed ((free c member).notFirst q)
    · rw [Document.children, missing] at member
      cases member
  lined {p} object := by
    rcases joined.cases p with lt | rfl | missing
    · exact orderly.steady sound joined.toExtends (fun x lt => joined.children_old lt) (fun x _ => (joined.history x).1) lt
        object
    · have bare : doc'.firstEntries doc.nodes.size = [] := by
        rw [firstEntries, joined.top]
        rfl
      -- Its parts took no places: they are the new ones.
      refine ⟨[], doc'.entries doc.nodes.size, ?_, List.nil_sublist _, by simp [bare]⟩
      refine List.forall₂_same.mpr fun e member => .here ?_
      have part := List.mem_of_mem_filter member
      rw [joined.children_top] at part
      rw [(joined.history e).1, (free e part).tookNone]
    · rw [role, missing] at object
      cases object

/-! ## Changes below one node -/

/-- A change of the children of one node. -/
theorem edit (orderly : doc.Orderly) (sound : doc.Sound) {gone fresh : Option NodeId} (edited : Edited doc doc' p gone fresh)
    (free : ∀ n, fresh = some n → doc.Free n) (here : doc.role p = .object → doc.Lined doc' p) : doc'.Orderly where
  home {x q c} member listed := by
    rw [edited.firstChildren] at listed
    rcases edited.hung.mem_children member with ⟨_, isNew⟩ | ⟨old, _⟩
    · exact absurd listed ((free c isNew.symm).notFirst q)
    · exact orderly.home old listed
  lined {x} object := by
    have lt : x < doc.nodes.size := edited.hung.size ▸ lt_of_role object (by decide)
    rw [edited.ext.role lt] at object
    refine Lined.rebase ?_ sound edited.ext lt
    by_cases same : x = p
    · exact same ▸ here (same ▸ object)
    · exact (orderly.lined object).elsewhere sound edited free same

theorem replace (orderly : doc.Orderly) (sound : doc.Sound) (replaced : Replaced doc doc' p old new)
    (parent : doc.parent? old = some p) (free : doc.Free new) (may : doc.Replaceable p old) : doc'.Orderly :=
  orderly.edit sound replaced.edited (fun _ is => Option.some.inj is ▸ free) fun object =>
    (orderly.lined object).replace sound replaced parent free (may.isEntry object)

theorem append (orderly : doc.Orderly) (sound : doc.Sound) (appended : Appended doc doc' p new) (free : doc.Free new) :
    doc'.Orderly :=
  orderly.edit sound appended.edited (fun _ is => Option.some.inj is ▸ free) fun object =>
    (orderly.lined object).append sound appended free fun listed => free.notFirst p (List.mem_of_mem_filter listed)

theorem remove (orderly : doc.Orderly) (sound : doc.Sound) (removed : Removed doc doc' p old) : doc'.Orderly :=
  orderly.edit sound removed.edited (fun _ is => by cases is) fun object => (orderly.lined object).remove sound removed

end Orderly

/-! ## Copies -/

section
variable (copied : Duplicated doc doc' twin original) (sound : doc.Sound) (orderly : doc.Orderly)
  (le : doc.nodes.size ≤ x) (lt : x < doc'.nodes.size)
include copied le lt

/-- The entries of a copy are the copies of its twin's. -/
theorem Duplicated.entries : (doc'.entries x).map twin = doc.entries (twin x) := by
  have same : ∀ c ∈ doc'.children x, (doc'.role c).isEntry = (doc.role (twin c)).isEntry := fun c member => by
    obtain ⟨gt, lt', _⟩ := copied.sprouted.child x le lt c member
    rw [role, Node.role, (copied.twins c (Nat.le_trans le (Nat.le_of_lt gt)) lt').kind]
    rfl
  rw [Document.entries, Document.entries, ← (copied.twins x le lt).children, List.filter_map]
  exact congrArg _ (List.filter_congr same)

variable (renames : Renames doc doc' twin x rename)
include sound renames

theorem Renames.firstEntries : doc'.firstEntries x = (doc.firstEntries (twin x)).map rename := by
  rw [Document.firstEntries, renames.firsts, List.filter_map, Document.firstEntries]
  refine congrArg _ (List.filter_congr fun f listed => ?_)
  rw [Function.comp_apply, role, Node.role, (renames.stays copied sound le lt listed).1]
  rfl

include orderly

/-- Where a copied entry's places end: at what the copy has for the first entry that its twin's places end at, if that is
    one, and elsewhere otherwise. -/
theorem Renames.seat (object : doc.role (twin x) = .object) (member : c ∈ doc'.entries x) (ends : doc.Ends (twin c) e) :
    ∃ e', doc'.Ends c e' ∧ ∀ f ∈ doc.firstEntries (twin x), rename f = e' ↔ f = e := by
  have child := List.mem_of_mem_filter member
  have alike := copied.twins x le lt
  have took := alike.replaces c child
  have newer : ∀ c ∈ doc'.children x, doc.nodes.size ≤ c := fun c member =>
    Nat.le_trans le (Nat.le_of_lt (copied.sprouted.child x le lt c member).1)
  have entry : twin c ∈ doc.entries (twin x) := copied.entries le lt ▸ List.mem_map_of_mem member
  cases ends with
  | here none =>
    refine ⟨c, .here (took.trans none), fun f listed => ⟨fun same => ?_, fun same => same ▸ renames.copy c child⟩⟩
    rcases renames.cases alike f with ⟨d, member', rfl, is⟩ | ⟨_, is⟩
    · rw [is] at same
      rw [same]
    · have old := sound.firstLt (List.mem_of_mem_filter listed)
      rw [is] at same
      exact absurd old (Nat.not_lt_of_ge (same ▸ newer c child))
  | @there _ old _ link rest =>
    have ends := Ends.there link rest
    have present : e < doc.nodes.size := by
      by_cases same : twin c = e
      · exact same ▸ sound.forest.childLt (List.mem_of_mem_filter entry)
      · obtain ⟨_, taken⟩ := ends.taken same
        exact sound.takenLt taken
    refine ⟨e, .there (took.trans link) (sound.ends_prolongs copied.longer (sound.takenLt link) rest), fun f listed => ?_⟩
    have first := List.mem_of_mem_filter listed
    rcases renames.cases alike f with ⟨d, member', rfl, is⟩ | ⟨_, is⟩
    · rw [is]
      refine ⟨fun same => absurd present (Nat.not_lt_of_ge (same ▸ newer d member')), fun same => ?_⟩
      -- An entry that is still there would be a second one that ends at itself.
      have none := sound.firstTookNone first
      have still : twin d ∈ doc.entries (twin x) :=
        List.mem_filter.mpr ⟨alike.children ▸ List.mem_map_of_mem member', (List.mem_filter.mp listed).2⟩
      have both := (orderly.lined object).only ((sound.firstNodup _).filter _) entry still (same ▸ ends) (.here none) listed
      rw [both, none] at link
      cases link
    · rw [is]

omit renames

/-- The entries of a copied object literal are in line as those of its twin. -/
theorem Duplicated.lined (object : doc'.role x = .object) : doc'.Lined doc' x := by
  obtain ⟨rename, renames⟩ := copied.renames sound le lt
  have alike := copied.twins x le lt
  have firsts := renames.firstEntries copied sound le lt
  have object : doc.role (twin x) = .object := by
    rw [← object, role, role, Node.role, Node.role, alike.kind]
  obtain ⟨olds, youngs, kept, news, split, early, late, sub, fresh⟩ := (orderly.lined object).split
  have entries := copied.entries le lt
  rw [split, List.map_eq_append_iff] at entries
  obtain ⟨olds', youngs', split', rfl, rfl⟩ := entries
  rw [List.forall₂_map_left_iff] at early late
  have within : ∀ {c}, c ∈ olds' ∨ c ∈ youngs' → c ∈ doc'.entries x := fun member => split' ▸ List.mem_append.mpr member
  have seat : ∀ {c e}, c ∈ doc'.entries x → doc.Ends (twin c) e → ∃ e', doc'.Ends c e' ∧
      ∀ f ∈ doc.firstEntries (twin x), rename f = e' ↔ f = e :=
    fun member ends => renames.seat copied sound orderly le lt object member ends
  -- The new ones end somewhere, but at no first entry.
  obtain ⟨news', late', fresh'⟩ : ∃ news', Forall₂ doc'.Ends youngs' news' ∧ ∀ e ∈ news', e ∉ doc'.firstEntries x := by
    refine forall₂_total fun c member => ?_
    obtain ⟨e, isNew, ends⟩ := forall₂_mem_left late member
    obtain ⟨e', ends', is⟩ := seat (within (.inr member)) ends
    refine ⟨e', ends', fun listed => ?_⟩
    rw [firsts, List.mem_map] at listed
    obtain ⟨f, first, same⟩ := listed
    exact fresh e isNew ((is f first).mp same ▸ first)
  refine ⟨kept.map rename, news', ?_, firsts ▸ sub.map rename, fresh'⟩
  rw [split']
  refine List.rel_append (List.forall₂_map_right_iff.mpr ?_) late'
  refine forall₂_imp_mem early fun c member f listed ends => ?_
  obtain ⟨e', ends', is⟩ := seat (within (.inl member)) ends
  exact (is f (sub.subset listed)).mpr rfl ▸ ends'

/-- A first child of a copy that is a child is so of the copy alone. -/
theorem Duplicated.home {q : NodeId} (member : c ∈ doc'.children q) (listed : c ∈ (doc'.node x).firstChildren) : q = x := by
  obtain ⟨rename, renames⟩ := copied.renames sound le lt
  rw [renames.firsts, List.mem_map] at listed
  obtain ⟨f, first, is⟩ := listed
  rcases renames.cases (copied.twins x le lt) f with ⟨d, member', _, same⟩ | ⟨absent, same⟩
  · exact (copied.grown.forest sound.forest).parent_unique member (is ▸ same ▸ member')
  · obtain rfl : f = c := same.symm.trans is
    have old : q < doc.nodes.size := by
      by_contra beyond
      have gt := (copied.sprouted.child q (Nat.le_of_not_lt beyond) (lt_of_mem_children member) f member).1
      exact beyond (Nat.lt_trans gt (sound.firstLt first))
    rw [copied.grown.children q old] at member
    exact absurd (orderly.home member first ▸ member) absent

end

theorem Orderly.duplicate (orderly : doc.Orderly) (sound : doc.Sound) (copied : Duplicated doc doc' twin original) :
    doc'.Orderly where
  home {p q c} member listed := by
    by_cases old : q < doc.nodes.size
    · rw [copied.longer.node q old] at listed
      have lt : p < doc.nodes.size := by
        by_contra beyond
        have gt := (copied.sprouted.child p (Nat.le_of_not_lt beyond) (lt_of_mem_children member) c member).1
        exact beyond (Nat.lt_trans gt (sound.firstLt listed))
      rw [copied.grown.children p lt] at member
      exact orderly.home member listed
    · by_cases present : q < doc'.nodes.size
      · exact copied.home sound orderly (Nat.le_of_not_lt old) present member listed
      · rw [node_beyond (Nat.le_of_not_lt present)] at listed
        cases listed
  lined {p} object := by
    by_cases old : p < doc.nodes.size
    · refine orderly.steady sound copied.longer.toExtends copied.grown.children (fun x lt => ?_) old object
      rw [copied.longer.node x lt]
    · exact copied.lined sound orderly (Nat.le_of_not_lt old) (lt_of_role object (by decide)) object

/-! ## Runs -/

/-- Every move keeps entries in line. -/
theorem Move.orderly [Reader] (move : Move doc doc') (sound : doc.Sound) (orderly : doc.Orderly) : doc'.Orderly := by
  cases move with
  | leaf kind text _ => exact orderly.writeLeaf sound kind text
  | adopt snippet read =>
    obtain ⟨_, tree, _, adopted⟩ := parseExpression_adopted read
    have sound' := adopted.sound (sound.withBuffer _) (by simp)
    exact (orderly.withBuffer _).adopt (sound.withBuffer _) sound'.forest adopted
  | copy present =>
    obtain ⟨_, twin, copied⟩ := duplicate_duplicated sound.forest present
    exact orderly.duplicate sound copied
  | join kind parts _ distinct free _ =>
    exact orderly.join sound (writeNode_joined doc kind parts distinct fun c member => (free c member).lt).2 free
  | replace parent free apart may run =>
    exact orderly.replace sound (Replaced.of_ok sound.forest parent free apart run) parent free may
  | append object free apart run => exact orderly.append sound (Appended.of_ok sound.forest object free apart run) free
  | remove parent object run => exact orderly.remove sound (Removed.of_ok sound.forest parent object run)

/-- Every run of moves keeps entries in line. -/
theorem Moves.orderly [Reader] (moves : Moves doc doc') (sound : doc.Sound) (orderly : doc.Orderly) : doc'.Orderly := by
  induction moves with
  | refl => exact orderly
  | tail before move ih => exact move.orderly (Moves.sound before sound) ih

end Document

end StoreModels
