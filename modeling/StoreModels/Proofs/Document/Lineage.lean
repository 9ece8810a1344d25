import StoreModels.Proofs.Document.Printing

/-!
What becomes of the nodes that a document had at first. A node that was parsed with a parent never gets another one; its
place can be taken only where edits take places, as the value of a pair or as a shorthand or method; and an object
literal keeps some of its entries, in their order, and has new ones behind them.
-/
namespace StoreModels
open Syntax (Role Reader)

namespace Document
variable {first doc doc' : Document} {id x p q f c n old new last : NodeId}

/-- Whether edits may take the place of a node that was parsed below another one: it is the value of a pair, or a
    shorthand or method. -/
def Displaceable (doc : Document) (p f : NodeId) : Prop :=
  (doc.role p = .pair ∧ (doc.node f).field = some "value") ∨ doc.role f = .shorthandProperty ∨
    doc.role f = .methodDefinition

/-- The entries of an object literal are some that it was parsed with, or have come after them, and then new ones. -/
def Lined (first doc : Document) (p : NodeId) : Prop :=
  ∃ kept news, List.Forall₂ doc.Ends (doc.entries p) (kept ++ news) ∧ kept.Sublist (first.firstEntries p) ∧
    ∀ x ∈ news, x ∉ first.firstEntries p

/-- What edits keep of the nodes that a document had at first. -/
structure Lineage (first doc : Document) : Prop where
  ext : Extends first doc
  home : ∀ {p q c}, c ∈ doc.children p → c ∈ (first.node q).firstChildren → p = q
  field : ∀ {q f}, f ∈ (first.node q).firstChildren → (doc.node f).field = (first.node f).field
  taken : ∀ {n q f}, (doc.node n).replaces = some f → f ∈ (first.node q).firstChildren → first.Displaceable q f
  lined : ∀ {p}, first.role p = .object → first.Lined doc p

/-- The entries of a node that keeps its children. -/
theorem entries_congr (ext : Extends doc doc') (forest : doc.Forest) (same : doc'.children p = doc.children p) :
    doc'.entries p = doc.entries p := by
  rw [entries, same, entries]
  refine List.filter_congr fun c member => ?_
  rw [ext.role (forest.childLt member)]

/-- The entries that a node was parsed with stay the same. -/
theorem Sound.firstEntries_eq (sound : first.Sound) (ext : Extends first doc) (lt : p < first.nodes.size) :
    doc.firstEntries p = first.firstEntries p := by
  rw [firstEntries, ext.firstChildren p lt, firstEntries]
  exact List.filter_congr fun f member => by rw [ext.role (sound.firstLt member)]

/-- Entries stay in line where places are followed as before. -/
theorem Lined.congr (lined : first.Lined doc p) (same : doc'.entries p = doc.entries p)
    (ends : ∀ {x last}, x ∈ doc.children p → doc.Ends x last → doc'.Ends x last) : first.Lined doc' p := by
  obtain ⟨kept, news, pairs, sub, fresh⟩ := lined
  refine ⟨kept, news, ?_, sub, fresh⟩
  rw [same]
  exact forall₂_imp_mem pairs fun x member last _ => ends (List.mem_of_mem_filter member)

/-- Some of the entries are in line as well. -/
theorem Lined.sublist (lined : first.Lined doc p) (sub : (doc'.entries p).Sublist (doc.entries p))
    (ends : ∀ {x last}, x ∈ doc'.entries p → doc.Ends x last → doc'.Ends x last) : first.Lined doc' p := by
  obtain ⟨kept, news, pairs, inside, fresh⟩ := lined
  obtain ⟨partners, among, pairs'⟩ := forall₂_sublist sub pairs
  obtain ⟨kept', news', rfl, keptSub, newsSub⟩ := List.sublist_append_iff.mp among
  refine ⟨kept', news', ?_, keptSub.trans inside, fun x member => fresh x (newsSub.subset member)⟩
  exact forall₂_imp_mem pairs' fun x member last _ => ends member

/-- An object literal all whose entries have come after first ones, and all whose first entries have been followed,
    keeps its entries. -/
theorem Lined.keeps (lined : first.Lined doc p) (ext : Extends first doc) (sound : first.Sound)
    (lt : p < first.nodes.size) (none : ∀ e ∈ doc.entries p, ∃ f ∈ doc.firstEntries p, doc.Ends e f)
    (all : ∀ f ∈ doc.firstEntries p, ∃ e ∈ doc.entries p, doc.Ends e f) : doc.KeepsEntries p := by
  have same := sound.firstEntries_eq ext lt
  obtain ⟨kept, news, pairs, sub, fresh⟩ := lined
  rw [same] at none all
  have noNews : news = [] := by
    refine List.eq_nil_iff_forall_not_mem.mpr fun x member => ?_
    obtain ⟨e, listed, ends⟩ := forall₂_mem_right pairs (List.mem_append_right kept member)
    obtain ⟨f, among, ends'⟩ := none e listed
    exact fresh x member (ends.unique ends' ▸ among)
  subst noNews
  rw [List.append_nil] at pairs
  have whole : first.firstEntries p ⊆ kept := fun f member => by
    obtain ⟨e, listed, ends⟩ := all f member
    obtain ⟨g, among, ends'⟩ := forall₂_mem_left pairs listed
    exact ends.unique ends' ▸ among
  have count := (((sound.firstNodup p).filter _).subperm whole).length_le
  rw [KeepsEntries, same, ← sub.eq_of_length_le count]
  exact pairs

/-- Entries stay in line where no older node gets other children or another place. -/
theorem Lined.steady (lined : first.Lined doc p) (sound : doc.Sound) (ext : Extends doc doc')
    (children : doc'.children p = doc.children p)
    (replaces : ∀ x < doc.nodes.size, (doc'.node x).replaces = (doc.node x).replaces) : first.Lined doc' p := by
  refine lined.congr (entries_congr ext sound.forest children) fun {x last} member ends => ?_
  exact ends.congr (P := fun y => y < doc.nodes.size) (sound.forest.childLt member)
    (fun _ _ _ took => sound.takenLt took) fun y lt => replaces y lt

/-- Entries stay in line where the children of another node change. -/
theorem Lined.elsewhere (lined : first.Lined doc x) (sound : doc.Sound) {gone fresh : Option NodeId}
    (edited : Edited doc doc' p gone fresh) (free : ∀ n, fresh = some n → doc.Free n) (other : x ≠ p) :
    first.Lined doc' x := by
  refine lined.congr (entries_congr edited.ext sound.forest (edited.hung.children x other)) fun {y last} member ends => ?_
  exact edited.ends free (fun isNew => (free y isNew.symm).not_child sound.forest member) ends

/-- What may be replaced below an object literal is an entry. -/
theorem Replaceable.isEntry (may : doc.Replaceable p old) (object : doc.role p = .object) :
    (doc.role old).isEntry = true := by
  rcases may with ⟨pair, _⟩ | shorthand | method | ⟨pair, _⟩
  · rw [object] at pair
    cases pair
  · rw [shorthand]
    rfl
  · rw [method]
    rfl
  · rw [pair]
    rfl

/-- Entries stay in line where another node takes the place of one of them. -/
theorem Lined.replace (lined : first.Lined doc p) (sound : doc.Sound) (replaced : Replaced doc doc' p old new)
    (parent : doc.parent? old = some p) (free : doc.Free new) (entry : (doc.role old).isEntry = true) :
    first.Lined doc' p := by
  have listed := sound.forest.parentChild parent
  obtain ⟨before, after, split, now⟩ := replaced.place
  have follow : ∀ {x last}, x ∈ doc.children p → doc.Ends x last → doc'.Ends x last := fun member ends =>
    replaced.ends free (fun same => free.not_child sound.forest (same ▸ member)) ends
  have same : ∀ nodes ⊆ doc.children p, nodes.filter (fun c => (doc'.role c).isEntry) =
      nodes.filter fun c => (doc.role c).isEntry := fun nodes inside =>
    List.filter_congr fun c member => by rw [replaced.edited.ext.role (sound.forest.childLt (inside member))]
  have entriesAre : doc.entries p = before.filter (fun c => (doc.role c).isEntry) ++
      old :: after.filter fun c => (doc.role c).isEntry := by
    rw [entries, split, List.filter_append, List.filter_cons_of_pos (by simpa using entry)]
  have early := same before (by simp [split])
  have late := same after (by simp [split])
  have inside : ∀ x ∈ doc.entries p, x ∈ doc.children p := fun x => List.mem_of_mem_filter
  by_cases entryNew : (doc'.role new).isEntry = true
  · have entriesNow : doc'.entries p = before.filter (fun c => (doc.role c).isEntry) ++
        new :: after.filter fun c => (doc.role c).isEntry := by
      rw [entries, now, List.filter_append, List.filter_cons_of_pos (by simpa using entryNew), early, late]
    obtain ⟨kept, news, pairs, sub, fresh⟩ := lined
    refine ⟨kept, news, ?_, sub, fresh⟩
    rw [entriesAre] at pairs inside
    rw [entriesNow]
    refine forall₂_exchange pairs (fun x among last => follow (inside x ?_)) fun last ends => ?_
    · rcases among with before | after
      · exact List.mem_append_left _ before
      · exact List.mem_append_right _ (List.mem_cons_of_mem _ after)
    · exact .there replaced.replaces (follow listed ends)
  · have entriesNow : doc'.entries p = before.filter (fun c => (doc.role c).isEntry) ++
        after.filter fun c => (doc.role c).isEntry := by
      rw [entries, now, List.filter_append, List.filter_cons_of_neg (by simpa using entryNew), early, late]
    have sub : (doc'.entries p).Sublist (doc.entries p) := by
      rw [entriesNow, entriesAre]
      exact (List.Sublist.refl _).append (List.sublist_cons_self _ _)
    exact lined.sublist sub fun member => follow (inside _ (sub.subset member))

/-- Entries stay in line where one that was none of the first is added behind them. -/
theorem Lined.append (lined : first.Lined doc p) (sound : doc.Sound) (appended : Appended doc doc' p new)
    (free : doc.Free new) (apart : new ∉ first.firstEntries p) : first.Lined doc' p := by
  obtain ⟨before, after, split, now, braces⟩ := appended.place
  have follow : ∀ {x last}, x ∈ doc.children p → doc.Ends x last → doc'.Ends x last := fun member ends =>
    appended.edited.ends (fun n is => Option.some.inj is ▸ free)
      (fun is => free.not_child sound.forest (Option.some.inj is ▸ member)) ends
  have none : after.filter (fun c => (doc'.role c).isEntry) = [] := by
    refine List.filter_eq_nil_iff.mpr fun c member => ?_
    have listed : c ∈ doc.children p := split ▸ List.mem_append_right before member
    rw [appended.edited.ext.role (sound.forest.childLt listed), role, Node.role, braces c member]
    decide
  have others : before.filter (fun c => (doc'.role c).isEntry) = doc.entries p := by
    have gone : after.filter (fun c => (doc.role c).isEntry) = [] := by
      refine List.filter_eq_nil_iff.mpr fun c member => ?_
      rw [role, Node.role, braces c member]
      decide
    rw [entries, split, List.filter_append, gone, List.append_nil]
    refine List.filter_congr fun c member => ?_
    rw [appended.edited.ext.role (sound.forest.childLt (split ▸ List.mem_append_left after member))]
  have entriesNow : doc'.entries p = doc.entries p ++ [new].filter fun c => (doc'.role c).isEntry := by
    rw [entries, now, List.filter_append, others, ← List.singleton_append, List.filter_append, none, List.append_nil]
  obtain ⟨kept, news, pairs, sub, fresh⟩ := lined
  refine ⟨kept, news ++ [new].filter fun c => (doc'.role c).isEntry, ?_, sub, fun x member => ?_⟩
  · rw [entriesNow, ← List.append_assoc]
    refine List.rel_append (forall₂_imp_mem pairs fun x member last _ => follow (List.mem_of_mem_filter member)) ?_
    refine List.forall₂_same.mpr fun x member => ?_
    rw [List.mem_singleton.mp (List.mem_of_mem_filter member)]
    exact .here appended.replaces
  · rcases List.mem_append.mp member with early | late
    · exact fresh x early
    · rw [List.mem_singleton.mp (List.mem_of_mem_filter late)]
      exact apart

/-- Entries stay in line where one of them is taken out. -/
theorem Lined.remove (lined : first.Lined doc p) (sound : doc.Sound) (removed : Removed doc doc' p old) :
    first.Lined doc' p := by
  have inside : ∀ x ∈ doc'.children p, x ∈ doc.children p := fun x member => by
    rw [removed.place] at member
    exact List.mem_of_mem_filter member
  have sub : (doc'.entries p).Sublist (doc.entries p) := by
    have same : doc'.entries p = (doc'.children p).filter fun c => (doc.role c).isEntry :=
      List.filter_congr fun c member => by rw [removed.edited.ext.role (sound.forest.childLt (inside c member))]
    rw [same, removed.place]
    exact List.filter_sublist.filter _
  refine lined.sublist sub fun member ends => ?_
  exact removed.edited.ends (fun n is => by cases is) (by simp) ends

namespace Lineage

/-- Of a document as it was parsed. -/
theorem parsed (sound : first.Sound) (same : ∀ p, (first.node p).firstChildren = first.children p)
    (tookNone : ∀ n, (first.node n).replaces = none) : Lineage first first where
  ext := Extends.refl first
  home {p q c} member listed := by
    rw [same] at listed
    have parent := sound.forest.childParent listed
    rw [sound.forest.childParent member] at parent
    exact Option.some.inj parent
  field _ := rfl
  taken took := by
    rw [tookNone] at took
    cases took
  lined {p} _ := by
    refine ⟨first.firstEntries p, [], ?_, List.Sublist.refl _, by simp⟩
    rw [List.append_nil, entries, firstEntries, same]
    exact List.forall₂_same.mpr fun e _ => .here (tookNone e)

theorem withBuffer (lineage : Lineage first doc) (text : List Char) :
    Lineage first { doc with buffers := doc.buffers ++ [text] } where
  ext := lineage.ext.trans (extends_withBuffer doc text)
  home := lineage.home
  field := lineage.field
  taken := lineage.taken
  lined object := (lineage.lined object).congr rfl fun _ ends =>
    ends.congr (P := fun _ => True) trivial (fun _ _ _ _ => trivial) fun _ _ => rfl

theorem firstChildren_eq (lineage : Lineage first doc) (member : f ∈ (first.node q).firstChildren) :
    (doc.node q).firstChildren = (first.node q).firstChildren := by
  refine lineage.ext.firstChildren q ?_
  by_contra beyond
  rw [node_beyond (Nat.le_of_not_lt beyond)] at member
  cases member

/-- A free node was parsed with no other. -/
theorem not_first (lineage : Lineage first doc) (free : doc.Free n) : n ∉ (first.node q).firstChildren := fun member =>
  free.notFirst q (lineage.firstChildren_eq member ▸ member)

/-- Changes that give and take no children. -/
theorem steady (lineage : Lineage first doc) (sound : doc.Sound) (ext : Extends doc doc')
    (children : ∀ x < doc.nodes.size, doc'.children x = doc.children x)
    (home : ∀ {p q c}, doc.nodes.size ≤ p → c ∈ doc'.children p → c ∉ (first.node q).firstChildren)
    (field : ∀ {q f}, f ∈ (first.node q).firstChildren → (doc'.node f).field = (doc.node f).field)
    (replaces : ∀ x < doc.nodes.size, (doc'.node x).replaces = (doc.node x).replaces)
    (copies : ∀ {x o}, doc.nodes.size ≤ x → (doc'.node x).replaces = some o → ∃ y, (doc.node y).replaces = some o) :
    Lineage first doc' where
  ext := lineage.ext.trans ext
  home {p q c} member listed := by
    by_cases lt : p < doc.nodes.size
    · exact lineage.home (children p lt ▸ member) listed
    · exact absurd listed (home (Nat.le_of_not_lt lt) member)
  field listed := (field listed).trans (lineage.field listed)
  taken {n q f} took listed := by
    by_cases lt : n < doc.nodes.size
    · exact lineage.taken (replaces n lt ▸ took) listed
    · obtain ⟨y, took'⟩ := copies (Nat.le_of_not_lt lt) took
      exact lineage.taken took' listed
  lined {p} object := by
    have lt : p < doc.nodes.size := Nat.lt_of_lt_of_le (lt_of_role object (by decide)) lineage.ext.size
    exact (lineage.lined object).steady sound ext (children p lt) replaces

/-- New nodes behind the others. -/
theorem prolong (lineage : Lineage first doc) (start : first.Sound) (sound : doc.Sound) (longer : Prolongs doc doc')
    (inside : ∀ {p c}, doc.nodes.size ≤ p → c ∈ doc'.children p → doc.nodes.size ≤ c)
    (copies : ∀ {x o}, doc.nodes.size ≤ x → (doc'.node x).replaces = some o → ∃ y, (doc.node y).replaces = some o) :
    Lineage first doc' := by
  have present : ∀ {q f}, f ∈ (first.node q).firstChildren → f < doc.nodes.size := fun listed =>
    Nat.lt_of_lt_of_le (start.firstLt listed) lineage.ext.size
  refine lineage.steady sound longer.toExtends (fun x lt => ?_) (fun beyond member listed => ?_) (fun listed => ?_)
    (fun x lt => ?_) copies
  · rw [Document.children, longer.node x lt, Document.children]
  · exact absurd (present listed) (Nat.not_lt_of_ge (inside beyond member))
  · rw [longer.node _ (present listed)]
  · rw [longer.node x lt]

/-- A stretch of new trees. -/
theorem sprout (lineage : Lineage first doc) (start : first.Sound) (sound : doc.Sound) (longer : Prolongs doc doc')
    {tops : List NodeId} (sprouted : Sprouted doc' doc.nodes.size doc'.nodes.size tops)
    (copies : ∀ {x o}, doc.nodes.size ≤ x → x < doc'.nodes.size → (doc'.node x).replaces = some o →
      ∃ y, (doc.node y).replaces = some o) : Lineage first doc' := by
  refine lineage.prolong start sound longer (fun {p c} le member => ?_) fun {x o} le took => ?_
  · have lt := lt_of_mem_children member
    exact Nat.le_trans le (Nat.le_of_lt (sprouted.child p le lt c member).1)
  · by_cases lt : x < doc'.nodes.size
    · exact copies le lt took
    · rw [node_beyond (Nat.le_of_not_lt lt)] at took
      cases took

theorem join (lineage : Lineage first doc) (sound : doc.Sound) {kind : String} {parts : List (Option String × NodeId)}
    (joined : Joined doc doc' kind parts) (free : ∀ c ∈ parts.map Prod.snd, doc.Free c) (start : first.Sound) :
    Lineage first doc' := by
  have apart : ∀ {q f}, f ∈ (first.node q).firstChildren → f ∉ parts.map Prod.snd := fun listed part =>
    lineage.not_first (free _ part) listed
  refine lineage.steady sound joined.toExtends (fun x lt => joined.children_old lt) (fun {p q c} le member => ?_)
    (fun {q f} listed => ?_) (fun x _ => (joined.history x).1) fun {x o} _ took => ⟨x, (joined.history x).1 ▸ took⟩
  · rcases joined.cases p with lt | rfl | missing
    · exact absurd lt (Nat.not_lt_of_ge le)
    · rw [joined.children_top] at member
      exact lineage.not_first (free c member)
    · rw [Document.children, missing] at member
      cases member
  · have lt := Nat.lt_of_lt_of_le (start.firstLt listed) lineage.ext.size
    rw [joined.node f lt (apart listed)]

/-- A change of the children of one node. -/
theorem edit (lineage : Lineage first doc) (sound : doc.Sound) {gone fresh : Option NodeId}
    (edited : Edited doc doc' p gone fresh) (free : ∀ n, fresh = some n → doc.Free n)
    (taken : ∀ {n q f}, fresh = some n → (doc'.node n).replaces = some f → f ∈ (first.node q).firstChildren →
      first.Displaceable q f)
    (here : first.role p = .object → first.Lined doc' p) : Lineage first doc' where
  ext := lineage.ext.trans edited.ext
  home {x q c} member listed := by
    rcases edited.hung.mem_children member with ⟨_, isNew⟩ | ⟨old, _⟩
    · exact absurd listed (lineage.not_first (free c isNew.symm))
    · exact lineage.home old listed
  field {q f} listed := by
    rw [edited.field f fun isNew => lineage.not_first (free f isNew.symm) listed]
    exact lineage.field listed
  taken {n q f} took listed := by
    by_cases isNew : some n = fresh
    · exact taken isNew.symm took listed
    · exact lineage.taken (edited.replaces n isNew ▸ took) listed
  lined {x} object := by
    by_cases same : x = p
    · exact same ▸ here (same ▸ object)
    · exact (lineage.lined object).elsewhere sound edited free same

/-- What may be replaced as it is now could be at first. -/
theorem displaceable (lineage : Lineage first doc) (start : first.Sound) (shaped : doc.Shaped)
    (parent : old ∈ doc.children p) (may : doc.Replaceable p old) (listed : old ∈ (first.node q).firstChildren) :
    first.Displaceable q old := by
  have same : p = q := lineage.home parent listed
  have role : first.role old = doc.role old := (lineage.ext.role (start.firstLt listed)).symm
  have above : first.role q = doc.role q := by
    refine (lineage.ext.role ?_).symm
    by_contra beyond
    rw [node_beyond (Nat.le_of_not_lt beyond)] at listed
    cases listed
  subst same
  rw [Displaceable, above, role, ← lineage.field listed]
  rcases may with value | shorthand | method | ⟨pair, lacking⟩
  · exact .inl value
  · exact .inr (.inl shorthand)
  · exact .inr (.inr method)
  · obtain ⟨c, member, field⟩ := shaped.valued pair
    exact absurd field (lacking c member)

theorem replace (lineage : Lineage first doc) (start : first.Sound) (sound : doc.Sound) (shaped : doc.Shaped)
    (replaced : Replaced doc doc' p old new) (parent : doc.parent? old = some p) (free : doc.Free new)
    (may : doc.Replaceable p old) : Lineage first doc' := by
  have listed := sound.forest.parentChild parent
  refine lineage.edit sound replaced.edited (fun n is => Option.some.inj is ▸ free) ?_ fun object => ?_
  · intro n q f is took among
    cases is
    rw [replaced.replaces] at took
    cases took
    exact lineage.displaceable start shaped listed may among
  · have above : doc.role p = .object := (lineage.ext.role (lt_of_role object (by decide))).trans object
    exact (lineage.lined object).replace sound replaced parent free (may.isEntry above)

theorem append (lineage : Lineage first doc) (sound : doc.Sound) (appended : Appended doc doc' p new)
    (free : doc.Free new) : Lineage first doc' := by
  refine lineage.edit sound appended.edited (fun n is => Option.some.inj is ▸ free) ?_ fun object => ?_
  · intro n q f is took
    cases is
    rw [appended.replaces] at took
    cases took
  · have apart : new ∉ first.firstEntries p := fun listed => lineage.not_first free (List.mem_of_mem_filter listed)
    exact (lineage.lined object).append sound appended free apart

theorem remove (lineage : Lineage first doc) (sound : doc.Sound) (removed : Removed doc doc' p old) :
    Lineage first doc' :=
  lineage.edit sound removed.edited (fun n is => by cases is) (fun is => by cases is) fun object =>
    (lineage.lined object).remove sound removed

end Lineage

/-- Every move keeps the lineage of the first nodes. -/
theorem Move.lineage [Reader] (move : Move doc doc') (start : first.Sound) (sound : doc.Sound) (shaped : doc.Shaped)
    (lineage : Lineage first doc) : Lineage first doc' := by
  cases move with
  | leaf kind text _ =>
    have bare : ∀ x, doc.nodes.size ≤ x → ((doc.writeLeaf kind text).1.node x).children = [] ∧
        ((doc.writeLeaf kind text).1.node x).replaces = none := fun x le => by
      rw [writeLeaf_node]
      split
      · exact ⟨rfl, rfl⟩
      · rw [node_beyond le]
        exact ⟨rfl, rfl⟩
    refine lineage.prolong start sound (writeLeaf_prolongs doc kind text) (fun {p c} le member => ?_)
      fun {x o} le took => ?_
    · rw [Document.children, (bare p le).1] at member
      cases member
    · rw [(bare x le).2] at took
      cases took
  | adopt snippet read =>
    obtain ⟨_, tree, _, adopted⟩ := parseExpression_adopted read
    refine (lineage.withBuffer _).sprout start (sound.withBuffer _) adopted.longer adopted.sprouted
      fun {x o} le lt took => ?_
    obtain ⟨_, _, mirrors⟩ := adopted.mirrors x le lt
    rw [mirrors.tookNone] at took
    cases took
  | copy present =>
    obtain ⟨_, twin, copied⟩ := duplicate_duplicated sound.forest present
    refine lineage.sprout start sound copied.longer copied.sprouted fun {x o} le lt took => ?_
    rcases copied.sprouted.parent x le lt with top | ⟨p, _, le', lt', member⟩
    · rw [List.mem_singleton.mp top, copied.tookNone] at took
      cases took
    · exact ⟨twin x, ((copied.twins p le' lt').replaces x member).symm.trans took⟩
  | join kind parts _ distinct free _ =>
    have joined := (writeNode_joined doc kind parts distinct fun c member => (free c member).lt).2
    exact lineage.join sound joined free start
  | replace parent free apart may run =>
    have replaced := Replaced.of_ok sound.forest parent free apart run
    exact lineage.replace start sound shaped replaced parent free may
  | append object free apart run =>
    have appended := Appended.of_ok sound.forest object free apart run
    exact lineage.append sound appended free
  | remove parent object run =>
    have removed := Removed.of_ok sound.forest parent object run
    exact lineage.remove sound removed

end Document

end StoreModels
