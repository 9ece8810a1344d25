import StoreModels.Proofs.Document.Sound

/-!
The moves that all edits of models are made of: writing a leaf, adding the tree of a snippet, copying a tree, writing a
node above free ones, and putting a free node in a place, adding one to an object literal or taking an entry out of one.
Each move keeps a document sound and, where the readers of its texts are lawful, well shaped.
-/
namespace StoreModels
open Syntax (Span Tree Role Reader Outline)

namespace Document
variable {doc doc' doc'' : Document} {id x p f c old new : NodeId}

/-! ## Shapes -/

/-- A node has a kind and comes from a part of a text. -/
def IsAt (doc : Document) (buffer : BufferId) (id : NodeId) (part : String × Span) : Prop :=
  (doc.node id).kind = part.1 ∧ (doc.node id).origin = .parsed buffer part.2

/-- The children that nodes were parsed with fit them, and every pair has a value. -/
structure Shaped (doc : Document) : Prop where
  laid : ∀ {p buffer span}, (doc.node p).origin = .parsed buffer span →
    ∃ outline : Outline, List.Forall₂ (doc.IsAt buffer) (doc.node p).firstChildren outline ∧
      outline.Fits (doc.buffer buffer) (doc.node p).kind span
  valued : ∀ {p}, doc.role p = .pair → ∃ c ∈ doc.children p, (doc.node c).field = some "value"

/-- What nodes were parsed as is what a law for texts, kinds, spans and children asks for. -/
def Laid (law : List Char → String → Span → Outline → Prop) (doc : Document) : Prop :=
  ∀ p buffer span, (doc.node p).origin = .parsed buffer span →
    ∃ outline : Outline, List.Forall₂ (doc.IsAt buffer) (doc.node p).firstChildren outline ∧
      law (doc.buffer buffer) (doc.node p).kind span outline

section Laws
variable {law : List Char → String → Span → Outline → Prop}

theorem Shaped.lays (shaped : doc.Shaped) : doc.Laid fun text kind span outline => outline.Fits text kind span :=
  fun _ _ _ parsed => shaped.laid parsed

/-- Older nodes are what they were parsed as. -/
theorem Laid.stays (laid : doc.Laid law) (sound : doc.Sound) (ext : Extends doc doc') (lt : p < doc.nodes.size)
    {buffer : BufferId} {span : Span} (parsed : (doc'.node p).origin = .parsed buffer span) :
    ∃ outline : Outline, List.Forall₂ (doc'.IsAt buffer) (doc'.node p).firstChildren outline ∧
      law (doc'.buffer buffer) (doc'.node p).kind span outline := by
  rw [ext.origin p lt] at parsed
  obtain ⟨outline, places, fits⟩ := laid p buffer span parsed
  refine ⟨outline, ?_, ?_⟩
  · rw [ext.firstChildren p lt]
    refine forall₂_imp_mem places fun f member part _ place => ?_
    have present := sound.firstLt member
    exact ⟨(ext.kind f present).trans place.1, (ext.origin f present).trans place.2⟩
  · rw [ext.buffer (sound.bufferLt parsed), ext.kind p lt]
    exact fits

/-- A law holds on where no parsed node comes. -/
theorem Laid.of_extends (laid : doc.Laid law) (sound : doc.Sound) (ext : Extends doc doc')
    (written : ∀ x, doc.nodes.size ≤ x → (doc'.node x).isWritten = true) : doc'.Laid law := by
  intro p buffer span parsed
  by_cases lt : p < doc.nodes.size
  · exact laid.stays sound ext lt parsed
  · have made := written p (Nat.le_of_not_lt lt)
    simp only [Node.isWritten, Node.buffer?, parsed] at made
    cases made

theorem Laid.withBuffer (laid : doc.Laid law) (sound : doc.Sound) (text : List Char) :
    Laid law { doc with buffers := doc.buffers ++ [text] } := by
  have ext : Extends doc { doc with buffers := doc.buffers ++ [text] } :=
    { Extends.refl doc with buffers := List.prefix_append _ _ }
  refine laid.of_extends sound ext fun x le => ?_
  show (doc.node x).isWritten = true
  rw [node_beyond le]
  rfl

theorem Laid.writeLeaf (laid : doc.Laid law) (sound : doc.Sound) (kind : String) (text : List Char) :
    (doc.writeLeaf kind text).1.Laid law := by
  refine laid.of_extends sound (writeLeaf_prolongs doc kind text).toExtends fun x le => ?_
  rcases Nat.eq_or_lt_of_le le with rfl | gt
  · rw [show (doc.writeLeaf kind text).1.node doc.nodes.size = .written kind (some text) from node_insert_self doc _]
    rfl
  · rw [node_beyond (by
      rw [Document.writeLeaf, size_insert]
      exact gt)]
    rfl

theorem Laid.join (laid : doc.Laid law) (sound : doc.Sound) {kind : String} {parts : List (Option String × NodeId)}
    (joined : Joined doc doc' kind parts) : doc'.Laid law := by
  refine laid.of_extends sound joined.toExtends fun x le => ?_
  rcases joined.cases x with lt | rfl | missing
  · exact absurd lt (Nat.not_lt_of_ge le)
  · rw [joined.top]
    rfl
  · rw [missing]
    rfl

theorem Laid.edit {gone new : Option NodeId} (laid : doc.Laid law) (sound : doc.Sound)
    (edited : Edited doc doc' p gone new) : doc'.Laid law :=
  laid.of_extends sound edited.ext fun x le => by
    rw [node_beyond (edited.hung.size ▸ le)]
    rfl

theorem Laid.duplicate (laid : doc.Laid law) (sound : doc.Sound) {twin : NodeId → NodeId} {original : NodeId}
    (copied : Duplicated doc doc' twin original) : doc'.Laid law := by
  have ext := copied.longer.toExtends
  intro p buffer span parsed
  by_cases lt : p < doc.nodes.size
  · exact laid.stays sound ext lt parsed
  · by_cases present : p < doc'.nodes.size
    · have le := Nat.le_of_not_lt lt
      have alike := copied.twins p le present
      obtain ⟨rename, renames⟩ := copied.renames sound le present
      rw [alike.origin] at parsed
      obtain ⟨outline, places, fits⟩ := laid _ _ _ parsed
      refine ⟨outline, ?_, ?_⟩
      · rw [renames.firsts, List.forall₂_map_left_iff]
        refine forall₂_imp_mem places fun f member part _ place => ?_
        obtain ⟨kind, origin⟩ := renames.stays copied sound le present member
        exact ⟨kind.trans place.1, origin.trans place.2⟩
      · rw [ext.buffer (sound.bufferLt parsed), alike.kind]
        exact fits
    · rw [node_beyond (Nat.le_of_not_lt present)] at parsed
      cases parsed

end Laws

/-- Whether the readers of all texts of a document are lawful. -/
def Readable [Reader] (doc : Document) : Prop := ∀ text ∈ doc.buffers, Reader.Lawful doc.dialect text

theorem Readable.of_extends [Reader] (readable : doc'.Readable) (ext : Extends doc doc') : doc.Readable :=
  fun text member => ext.dialect ▸ readable text (ext.buffers.subset member)

/-- Whether the texts that a document has on top of another one's are read as a law asks for. -/
def Learns (doc doc' : Document) (law : Syntax.Dialect → List Char → Prop) : Prop :=
  ∀ text ∈ doc'.buffers.drop doc.buffers.length, law doc'.dialect text

namespace Learns
variable {law : Syntax.Dialect → List Char → Prop}

theorem of_all (all : ∀ text ∈ doc'.buffers, law doc'.dialect text) : doc.Learns doc' law := fun text member =>
  all text (List.mem_of_mem_drop member)

theorem nothing (same : doc'.buffers = doc.buffers) : doc.Learns doc' law := by
  rw [Learns, same, List.drop_length]
  exact fun text impossible => absurd impossible List.not_mem_nil

/-- A text that was added is learned. -/
theorem added {text : List Char} (learns : doc.Learns doc' law)
    (ext : Extends { doc with buffers := doc.buffers ++ [text] } doc') : law doc.dialect text := by
  have same : doc'.dialect = doc.dialect := ext.dialect
  refine same ▸ learns text ?_
  obtain ⟨more, is⟩ := ext.buffers
  rw [← is, List.append_assoc, List.drop_left]
  exact List.mem_cons_self

/-- What is learned in two steps is learned in each. -/
theorem split {mid : Document} (learns : doc.Learns doc' law) (ext : Extends doc mid) (ext' : Extends mid doc') :
    doc.Learns mid law ∧ mid.Learns doc' law := by
  constructor
  · intro text member
    refine ext'.dialect ▸ learns text ?_
    obtain ⟨more, is⟩ := ext'.buffers
    rw [← is, List.drop_append]
    exact List.mem_append_left _ member
  · exact fun text member => learns text ((List.drop_sublist_drop_left _ ext.buffers.length_le).subset member)

end Learns

/-! ## The tree of a snippet -/

/-- The tree of a text has been added behind the nodes. -/
structure Adopted (doc doc' : Document) (buffer : BufferId) (tree : Tree) : Prop where
  longer : Prolongs doc doc'
  sprouted : Sprouted doc' doc.nodes.size doc'.nodes.size [doc.nodes.size]
  root : doc'.parent? doc.nodes.size = none
  origin : (doc'.node doc.nodes.size).origin = .parsed buffer tree.span
  mirrors : ∀ x, doc.nodes.size ≤ x → x < doc'.nodes.size → ∃ t ∈ tree.subtrees, doc'.Mirrors buffer x t

theorem Adopted.grown {buffer : BufferId} {tree : Tree} (adopted : Adopted doc doc' buffer tree) : Grown doc doc' :=
  adopted.sprouted.grown adopted.longer fun t member => by
    rw [List.mem_singleton.mp member]
    exact adopted.root

theorem Adoption.adopted {buffer : BufferId} {tree : Tree}
    (adoption : Adoption doc doc' buffer none [doc.nodes.size] [tree]) : Adopted doc doc' buffer tree where
  longer := adoption.longer
  sprouted := adoption.sprouted
  root := adoption.parent _ (by simp)
  origin := by
    have reads := adoption.reads
    simp only [List.forall₂_cons, List.Forall₂.nil, and_true] at reads
    exact reads.origin
  mirrors x le lt := by
    obtain ⟨t, member, mirrors⟩ := adoption.mirrors x le lt
    simp only [Tree.subtreesAll, List.append_nil] at member
    exact ⟨t, member, mirrors⟩

/-- The field of the tree's root does not matter. -/
theorem Adopted.withField {buffer : BufferId} {tree : Tree} (adopted : Adopted doc doc' buffer tree)
    (field : Option String) :
    Adopted doc (doc'.update doc.nodes.size fun node => { node with field }) buffer tree := by
  have children : ∀ x, (doc'.update doc.nodes.size fun node => { node with field }).children x = doc'.children x :=
    fun x => node_update_field Node.children _ fun _ => rfl
  have parent : ∀ x, (doc'.update doc.nodes.size fun node => { node with field }).parent? x = doc'.parent? x :=
    fun x => node_update_field Node.parent _ fun _ => rfl
  refine ⟨adopted.longer.update (Nat.le_refl _) _, ?_, ?_, ?_, ?_⟩
  · rw [size_update]
    exact adopted.sprouted.congr (fun x _ _ => children x) (fun x _ _ _ => parent x)
  · rw [parent]
    exact adopted.root
  · rw [← adopted.origin]
    exact node_update_field Node.origin _ fun _ => rfl
  · intro x le lt
    rw [size_update] at lt
    obtain ⟨t, member, mirrors⟩ := adopted.mirrors x le lt
    refine ⟨t, member, ?_, ?_, ?_, ?_, ?_, ?_⟩
    · rw [← mirrors.kind]
      exact node_update_field Node.kind _ fun _ => rfl
    · rw [← mirrors.origin]
      exact node_update_field Node.origin _ fun _ => rfl
    · rw [children]
      refine forall₂_imp_mem mirrors.children fun c inside _ _ reads => reads.congr ?_
      have later := (adopted.sprouted.child x le lt c inside).1
      rw [node_update_of_ne _ (Nat.ne_of_gt (Nat.lt_of_le_of_lt le later))]
    · rw [children, ← mirrors.firstChildren]
      exact node_update_field Node.firstChildren _ fun _ => rfl
    · rw [← mirrors.tookNone]
      exact node_update_field Node.replaces _ fun _ => rfl
    · rw [← mirrors.clean]
      exact node_update_field Node.dirty _ fun _ => rfl

theorem Adopted.sound {buffer : BufferId} {tree : Tree} (adopted : Adopted doc doc' buffer tree) (sound : doc.Sound)
    (known : buffer < doc.buffers.length) : doc'.Sound := by
  have longer := adopted.longer
  refine sound.prolong longer adopted.grown fun x le lt => ?_
  obtain ⟨t, _, mirrors⟩ := adopted.mirrors x le lt
  have inside := adopted.sprouted.child x le lt
  have known' := Nat.lt_of_lt_of_le known longer.toExtends.buffers.length_le
  refine mirrors.newSound known' (fun c member => (inside c member).2.1) (adopted.sprouted.nodup x le lt)
    fun c member => ?_
  obtain ⟨gt, lt', _⟩ := inside c member
  obtain ⟨t', _, mirrors'⟩ := adopted.mirrors c (Nat.le_trans le (Nat.le_of_lt gt)) lt'
  exact ⟨mirrors'.tookNone, mirrors'.clean⟩

theorem Adopted.laid {buffer : BufferId} {tree : Tree} (adopted : Adopted doc doc' buffer tree) (sound : doc.Sound)
    {law : List Char → String → Span → Outline → Prop} (laid : doc.Laid law)
    (meets : ∀ t ∈ tree.subtrees, law (doc'.buffer buffer) t.kind t.span t.outline) : doc'.Laid law := by
  intro p b span parsed
  by_cases lt : p < doc.nodes.size
  · exact laid.stays sound adopted.longer.toExtends lt parsed
  · by_cases present : p < doc'.nodes.size
    · obtain ⟨t, member, mirrors⟩ := adopted.mirrors p (Nat.le_of_not_lt lt) present
      rw [mirrors.origin] at parsed
      cases parsed
      refine ⟨t.outline, ?_, ?_⟩
      · rw [mirrors.firstChildren, Tree.outline, List.forall₂_map_right_iff]
        exact mirrors.children.imp fun c u reads => ⟨reads.kind, reads.origin⟩
      · rw [mirrors.kind]
        exact meets t member
    · rw [node_beyond (Nat.le_of_not_lt present)] at parsed
      cases parsed

theorem Adopted.shaped {buffer : BufferId} {tree : Tree} (adopted : Adopted doc doc' buffer tree) (sound : doc.Sound)
    (shaped : doc.Shaped) (conforms : tree.Conforms (doc'.buffer buffer)) : doc'.Shaped := by
  have ext := adopted.longer.toExtends
  refine ⟨fun {p b span} parsed => ?_, ?_⟩
  · exact adopted.laid sound shaped.lays (fun t member => (conforms t member).1) p b span parsed
  · intro p pair
    by_cases lt : p < doc.nodes.size
    · rw [ext.role lt] at pair
      obtain ⟨c, member, field⟩ := shaped.valued pair
      refine ⟨c, ?_, ?_⟩
      · rw [children, adopted.longer.node p lt]
        exact member
      · rw [adopted.longer.node c (sound.forest.childLt member)]
        exact field
    · by_cases present : p < doc'.nodes.size
      · obtain ⟨t, member, mirrors⟩ := adopted.mirrors p (Nat.le_of_not_lt lt) present
        rw [role, Node.role, mirrors.kind] at pair
        obtain ⟨u, below, field⟩ := (conforms t member).2 pair
        obtain ⟨c, listed, reads⟩ := forall₂_mem_right mirrors.children below
        exact ⟨c, listed, reads.field.trans field⟩
      · rw [role, node_beyond (Nat.le_of_not_lt present)] at pair
        cases pair

/-- What adding the tree of a snippet does: the text comes to the texts and the tree behind the nodes. -/
theorem parseExpression_adopted [Reader] {snippet : List Char} (read : doc.parseExpression snippet = .ok (doc', id)) :
    id = doc.nodes.size ∧ ∃ tree, Syntax.parseSnippet doc.dialect (Text.trim snippet) = .ok tree ∧
      Adopted { doc with buffers := doc.buffers ++ [Syntax.snippetText (Text.trim snippet)] } doc' doc.buffers.length
        tree := by
  simp only [parseExpression] at read
  split at read
  · cases read
  · cases read
  · cases read
  next tree found =>
    obtain ⟨number, adoption⟩ := adopt_adoption
      { doc with buffers := doc.buffers ++ [Syntax.snippetText (Text.trim snippet)] } doc.buffers.length none tree
    simp only [number] at read
    cases read
    exact ⟨rfl, tree, found, adoption.adopted.withField none⟩

/-- Reading a snippet brings its text in, and no other one. -/
theorem Learns.read [Reader] {law : Syntax.Dialect → List Char → Prop} {snippet : List Char}
    (read : doc.parseExpression snippet = .ok (doc', id))
    (reads : law doc.dialect (Syntax.snippetText (Text.trim snippet))) : doc.Learns doc' law := by
  obtain ⟨_, tree, _, adopted⟩ := parseExpression_adopted read
  have rest := adopted.longer.rest
  intro text member
  rw [rest] at member ⊢
  rw [List.drop_left, List.mem_singleton] at member
  exact member ▸ reads

theorem buffer_append (doc : Document) (text : List Char) :
    Document.buffer { doc with buffers := doc.buffers ++ [text] } doc.buffers.length = text := by
  simp [buffer]

/-! ## Moves -/

/-- Whether a node below some parent may get another one in its place: it is the value of a pair, or an entry that is
    no pair or has no value. -/
def Replaceable (doc : Document) (p old : NodeId) : Prop :=
  (doc.role p = .pair ∧ (doc.node old).field = some "value") ∨ doc.role old = .shorthandProperty ∨
    doc.role old = .methodDefinition ∨
    (doc.role old = .pair ∧ ∀ c ∈ doc.children old, (doc.node c).field ≠ some "value")

/-- One of the moves that edits are made of. -/
inductive Move [Reader] : Document → Document → Prop
  | leaf {doc : Document} (kind : String) (text : List Char) (plain : Role.ofKind kind ≠ .pair) :
    Move doc (doc.writeLeaf kind text).1
  | adopt {doc doc' : Document} {id : NodeId} (snippet : List Char)
    (read : doc.parseExpression snippet = .ok (doc', id)) : Move doc doc'
  | copy {doc : Document} {id : NodeId} (present : id < doc.nodes.size) : Move doc (doc.duplicate id).1
  | join {doc : Document} (kind : String) (parts : List (Option String × NodeId))
    (whole : (Role.ofKind kind).isToken = false) (distinct : (parts.map Prod.snd).Nodup)
    (free : ∀ c ∈ parts.map Prod.snd, doc.Free c)
    (valued : Role.ofKind kind = .pair → ∃ c, (some "value", c) ∈ parts) : Move doc (doc.writeNode kind parts).1
  | replace {doc doc' : Document} {p old new : NodeId} (parent : doc.parent? old = some p) (free : doc.Free new)
    (apart : ¬ doc.Below new p) (may : doc.Replaceable p old) (run : doc.replace old new = .ok doc') : Move doc doc'
  | append {doc doc' : Document} {p new : NodeId} (object : doc.role p = .object) (free : doc.Free new)
    (apart : ¬ doc.Below new p) (run : doc.append p new = .ok doc') : Move doc doc'
  | remove {doc doc' : Document} {p old : NodeId} (parent : doc.parent? old = some p) (object : doc.role p = .object)
    (run : doc.remove old = .ok doc') : Move doc doc'

theorem Replaced.ends (replaced : Replaced doc doc' p old new) (free : doc.Free new) {last : NodeId} (other : x ≠ new)
    (ends : doc.Ends x last) : doc'.Ends x last :=
  replaced.edited.ends (fun _ same => Option.some.inj same ▸ free) (fun same => other (Option.some.inj same)) ends

theorem Replaced.sound (replaced : Replaced doc doc' p old new) (sound : doc.Sound)
    (parent : doc.parent? old = some p) (free : doc.Free new) : doc'.Sound := by
  have edited := replaced.edited
  have listed := sound.forest.parentChild parent
  refine edited.sound sound (fun n same => Option.some.inj same ▸ free) ?_ ?_
  · intro n same o took
    cases same
    rw [replaced.replaces] at took
    cases took
    refine ⟨sound.forest.childLt listed, ?_⟩
    rintro rfl
    rw [free.root] at parent
    cases parent
  · intro parsed other
    obtain ⟨before, after, split, now⟩ := replaced.place
    have kept := sound.kept parsed other
    rw [split] at kept
    have follow : ∀ x ∈ doc.children p, ∀ last, doc.Ends x last → doc'.Ends x last := fun x member last ends =>
      replaced.ends free (fun same => free.not_child sound.forest (same ▸ member)) ends
    rw [now]
    refine forall₂_exchange kept (fun x member => follow x ?_) fun last ends => ?_
    · rw [split]
      rcases member with early | late
      · exact List.mem_append_left _ early
      · exact List.mem_append_right _ (List.mem_cons_of_mem _ late)
    · exact .there replaced.replaces (follow old listed last ends)

theorem Appended.sound (appended : Appended doc doc' p new) (sound : doc.Sound) (object : doc.role p = .object)
    (free : doc.Free new) : doc'.Sound := by
  refine appended.edited.sound sound (fun n same => Option.some.inj same ▸ free) ?_ fun _ other => absurd object other
  intro n same old took
  cases same
  rw [appended.replaces] at took
  cases took

theorem Removed.sound (removed : Removed doc doc' p old) (sound : doc.Sound) (object : doc.role p = .object) :
    doc'.Sound :=
  removed.edited.sound sound (fun n same => by cases same) (fun n same => by cases same) fun _ other =>
    absurd object other

namespace Move
variable [Reader]

theorem toExtends (move : Move doc doc') (sound : doc.Sound) : Extends doc doc' := by
  cases move with
  | leaf kind text _ => exact (writeLeaf_prolongs doc kind text).toExtends
  | adopt snippet read =>
    obtain ⟨_, tree, _, adopted⟩ := parseExpression_adopted read
    exact (extends_withBuffer doc _).trans adopted.longer.toExtends
  | copy present =>
    obtain ⟨_, twin, copied⟩ := duplicate_duplicated sound.forest present
    exact copied.longer.toExtends
  | join kind parts _ distinct free _ =>
    exact (writeNode_joined doc kind parts distinct fun c member => (free c member).lt).2.toExtends
  | replace parent free apart _ run =>
    have replaced := Replaced.of_ok sound.forest parent free apart run
    exact replaced.edited.ext
  | append object free apart run =>
    have appended := Appended.of_ok sound.forest object free apart run
    exact appended.edited.ext
  | remove parent object run =>
    have removed := Removed.of_ok sound.forest parent object run
    exact removed.edited.ext

theorem sound (move : Move doc doc') (sound : doc.Sound) : doc'.Sound := by
  cases move with
  | leaf kind text _ => exact sound.writeLeaf kind text
  | adopt snippet read =>
    obtain ⟨_, tree, _, adopted⟩ := parseExpression_adopted read
    exact adopted.sound (sound.withBuffer _) (by simp)
  | copy present =>
    obtain ⟨_, twin, copied⟩ := duplicate_duplicated sound.forest present
    exact sound.duplicate copied
  | join kind parts _ distinct free _ =>
    have joined := (writeNode_joined doc kind parts distinct fun c member => (free c member).lt).2
    exact sound.join joined distinct fun c member => ⟨(free c member).lt, (free c member).root⟩
  | replace parent free apart _ run =>
    have replaced := Replaced.of_ok sound.forest parent free apart run
    exact replaced.sound sound parent free
  | append object free apart run =>
    have appended := Appended.of_ok sound.forest object free apart run
    exact appended.sound sound object free
  | remove parent object run =>
    have removed := Removed.of_ok sound.forest parent object run
    exact removed.sound sound object

end Move

/-! ## Shapes after a move -/

/-- A document keeps its shape where no parsed node comes and every pair still has a value. -/
theorem Shaped.of_extends (shaped : doc.Shaped) (sound : doc.Sound) (ext : Extends doc doc')
    (written : ∀ x, doc.nodes.size ≤ x → (doc'.node x).isWritten = true)
    (valued : ∀ {p}, doc'.role p = .pair → ∃ c ∈ doc'.children p, (doc'.node c).field = some "value") :
    doc'.Shaped :=
  ⟨fun {p buffer span} parsed => shaped.lays.of_extends sound ext written p buffer span parsed, valued⟩

theorem Shaped.withBuffer (shaped : doc.Shaped) (sound : doc.Sound) (text : List Char) :
    Shaped { doc with buffers := doc.buffers ++ [text] } := by
  have ext : Extends doc { doc with buffers := doc.buffers ++ [text] } :=
    { Extends.refl doc with buffers := List.prefix_append _ _ }
  refine shaped.of_extends sound ext (fun x le => ?_) shaped.valued
  show (doc.node x).isWritten = true
  rw [node_beyond le]
  rfl

theorem Shaped.writeLeaf (shaped : doc.Shaped) (sound : doc.Sound) {kind : String} (text : List Char)
    (plain : Role.ofKind kind ≠ .pair) : (doc.writeLeaf kind text).1.Shaped := by
  have longer := writeLeaf_prolongs doc kind text
  have top : (doc.writeLeaf kind text).1.node doc.nodes.size = .written kind (some text) := node_insert_self doc _
  have beyond : ∀ x, doc.nodes.size < x → (doc.writeLeaf kind text).1.node x = .missing := fun x gt =>
    node_beyond (by
      rw [Document.writeLeaf, size_insert]
      exact gt)
  refine shaped.of_extends sound longer.toExtends (fun x le => ?_) fun {p} pair => ?_
  · rcases Nat.eq_or_lt_of_le le with rfl | gt
    · rw [top]
      rfl
    · rw [beyond x gt]
      rfl
  · rcases Nat.lt_trichotomy p doc.nodes.size with lt | rfl | gt
    · rw [longer.toExtends.role lt] at pair
      obtain ⟨c, member, field⟩ := shaped.valued pair
      refine ⟨c, ?_, ?_⟩
      · rw [children, longer.node p lt]
        exact member
      · rw [longer.node c (sound.forest.childLt member)]
        exact field
    · rw [role, top] at pair
      exact absurd pair plain
    · rw [role, beyond p gt] at pair
      cases pair

theorem Shaped.join (shaped : doc.Shaped) (sound : doc.Sound) {kind : String} {parts : List (Option String × NodeId)}
    (joined : Joined doc doc' kind parts) (free : ∀ c ∈ parts.map Prod.snd, doc.Free c)
    (valued : Role.ofKind kind = .pair → ∃ c, (some "value", c) ∈ parts) : doc'.Shaped := by
  have ext := joined.toExtends
  refine shaped.of_extends sound ext (fun x le => ?_) fun {p} pair => ?_
  · rcases joined.cases x with lt | rfl | missing
    · exact absurd lt (Nat.not_lt_of_ge le)
    · rw [joined.top]
      rfl
    · rw [missing]
      rfl
  · rcases joined.cases p with lt | rfl | missing
    · rw [ext.role lt] at pair
      obtain ⟨c, member, field⟩ := shaped.valued pair
      refine ⟨c, joined.children_old lt ▸ member, ?_⟩
      have inner : c ∉ parts.map Prod.snd := fun part => (free c part).not_child sound.forest member
      rw [joined.node c (sound.forest.childLt member) inner]
      exact field
    · rw [role, joined.top] at pair
      obtain ⟨c, part⟩ := valued pair
      refine ⟨c, ?_, ?_⟩
      · rw [joined.children_top]
        exact List.mem_map.mpr ⟨_, part, rfl⟩
      · rw [joined.part _ c part]
    · rw [role, missing] at pair
      cases pair

theorem Shaped.duplicate (shaped : doc.Shaped) (sound : doc.Sound) {twin : NodeId → NodeId} {original : NodeId}
    (copied : Duplicated doc doc' twin original) : doc'.Shaped := by
  have longer := copied.longer
  have ext := longer.toExtends
  refine ⟨fun {p buffer span} parsed => ?_, fun {p} pair => ?_⟩
  · exact shaped.lays.duplicate sound copied p buffer span parsed
  · by_cases lt : p < doc.nodes.size
    · rw [ext.role lt] at pair
      obtain ⟨c, member, field⟩ := shaped.valued pair
      refine ⟨c, ?_, ?_⟩
      · rw [children, longer.node p lt]
        exact member
      · rw [longer.node c (sound.forest.childLt member)]
        exact field
    · by_cases present : p < doc'.nodes.size
      · have le := Nat.le_of_not_lt lt
        have alike := copied.twins p le present
        rw [role, Node.role, alike.kind] at pair
        obtain ⟨o, member, field⟩ := shaped.valued pair
        rw [← alike.children, List.mem_map] at member
        obtain ⟨c, listed, rfl⟩ := member
        obtain ⟨gt, lt', _⟩ := copied.sprouted.child p le present c listed
        exact ⟨c, listed, (copied.twins c (Nat.le_trans le (Nat.le_of_lt gt)) lt').field.trans field⟩
      · rw [role, node_beyond (Nat.le_of_not_lt present)] at pair
        cases pair

theorem Edited.shaped {gone new : Option NodeId} (edited : Edited doc doc' p gone new) (sound : doc.Sound)
    (shaped : doc.Shaped) (free : ∀ n, new = some n → doc.Free n)
    (here : doc.role p = .pair → ∃ c ∈ doc'.children p, (doc'.node c).field = some "value") : doc'.Shaped := by
  refine shaped.of_extends sound edited.ext (fun x le => ?_) fun {q} pair => ?_
  · rw [node_beyond (edited.hung.size ▸ le)]
    rfl
  · have lt : q < doc.nodes.size := by
      by_contra beyond
      rw [role, node_beyond (edited.hung.size ▸ Nat.le_of_not_lt beyond)] at pair
      cases pair
    rw [edited.ext.role lt] at pair
    by_cases same : q = p
    · subst same
      exact here pair
    · obtain ⟨c, member, field⟩ := shaped.valued pair
      refine ⟨c, edited.hung.children q same ▸ member, ?_⟩
      rw [edited.field c fun fresh => (free c fresh.symm).not_child sound.forest member]
      exact field

theorem Replaced.shaped (replaced : Replaced doc doc' p old new) (sound : doc.Sound) (shaped : doc.Shaped)
    (free : doc.Free new) : doc'.Shaped := by
  refine replaced.edited.shaped sound shaped (fun n same => Option.some.inj same ▸ free) fun pair => ?_
  obtain ⟨before, after, split, now⟩ := replaced.place
  obtain ⟨c, member, field⟩ := shaped.valued pair
  by_cases same : c = old
  · subst same
    exact ⟨new, by simp [now], replaced.field.trans field⟩
  · have other : some c ≠ some new := fun fresh =>
      free.not_child sound.forest (Option.some.inj fresh ▸ member)
    refine ⟨c, ?_, (replaced.edited.field c other).trans field⟩
    rw [split] at member
    rw [now]
    simp only [List.mem_append, List.mem_cons, same, false_or] at member ⊢
    exact member.imp id .inr

theorem Move.shaped [Reader] (move : Move doc doc') (sound : doc.Sound) (shaped : doc.Shaped)
    (readable : doc.Learns doc' Reader.Lawful) : doc'.Shaped := by
  cases move with
  | leaf kind text plain => exact shaped.writeLeaf sound text plain
  | adopt snippet read =>
    obtain ⟨_, tree, found, adopted⟩ := parseExpression_adopted read
    have known : doc'.buffer doc.buffers.length = Syntax.snippetText (Text.trim snippet) := by
      rw [adopted.longer.toExtends.buffer (by simp), buffer_append]
    refine adopted.shaped (sound.withBuffer _) (shaped.withBuffer sound _) ?_
    rw [known]
    exact Syntax.parseSnippet_conforms (readable.added adopted.longer.toExtends) found
  | copy present =>
    obtain ⟨_, twin, copied⟩ := duplicate_duplicated sound.forest present
    exact shaped.duplicate sound copied
  | join kind parts _ distinct free valued =>
    have joined := (writeNode_joined doc kind parts distinct fun c member => (free c member).lt).2
    exact shaped.join sound joined free valued
  | replace parent free apart _ run =>
    exact (Replaced.of_ok sound.forest parent free apart run).shaped sound shaped free
  | append object free apart run =>
    have appended := Appended.of_ok sound.forest object free apart run
    refine appended.edited.shaped sound shaped (fun n same => Option.some.inj same ▸ free) fun pair => ?_
    rw [object] at pair
    cases pair
  | remove parent object run =>
    have removed := Removed.of_ok sound.forest parent object run
    refine removed.edited.shaped sound shaped (fun n same => by cases same) fun pair => ?_
    rw [object] at pair
    cases pair

theorem Move.laid [Reader] {law : List Char → String → Span → Outline → Prop} (move : Move doc doc') (sound : doc.Sound)
    (meets : doc.Learns doc' (Reader.Meets law)) (laid : doc.Laid law) : doc'.Laid law := by
  cases move with
  | leaf kind text _ => exact laid.writeLeaf sound kind text
  | adopt snippet read =>
    obtain ⟨_, tree, found, adopted⟩ := parseExpression_adopted read
    have known : doc'.buffer doc.buffers.length = Syntax.snippetText (Text.trim snippet) := by
      rw [adopted.longer.toExtends.buffer (by simp), buffer_append]
    refine adopted.laid (sound.withBuffer _) (laid.withBuffer sound _) ?_
    rw [known]
    exact Syntax.parseSnippet_meets (meets.added adopted.longer.toExtends) found
  | copy present =>
    obtain ⟨_, twin, copied⟩ := duplicate_duplicated sound.forest present
    exact laid.duplicate sound copied
  | join kind parts _ distinct free _ =>
    exact laid.join sound (writeNode_joined doc kind parts distinct fun c member => (free c member).lt).2
  | replace parent free apart _ run =>
    exact laid.edit sound (Replaced.of_ok sound.forest parent free apart run).edited
  | append object free apart run =>
    exact laid.edit sound (Appended.of_ok sound.forest object free apart run).edited
  | remove parent object run =>
    exact laid.edit sound (Removed.of_ok sound.forest parent object run).edited

/-! ## Runs of moves -/

/-- The documents that moves lead to. -/
def Moves [Reader] : Document → Document → Prop := Relation.ReflTransGen Move

namespace Moves
variable [Reader]

theorem sound (moves : Moves doc doc') (sound : doc.Sound) : doc'.Sound := by
  induction moves with
  | refl => exact sound
  | tail _ move ih => exact move.sound ih

theorem toExtends (moves : Moves doc doc') (sound : doc.Sound) : Extends doc doc' := by
  induction moves with
  | refl => exact Extends.refl doc
  | tail before move ih => exact ih.trans (move.toExtends (Moves.sound before sound))

/-- What every move keeps, as long as the texts that come in meet a law, holds at the end of a run. -/
theorem keep {P : Document → Prop} {law : Syntax.Dialect → List Char → Prop} (moves : Moves doc doc') (sound : doc.Sound)
    (learns : doc.Learns doc' law) (start : P doc)
    (step : ∀ {d d'}, Move d d' → d.Sound → d.Learns d' law → P d → P d') : P doc' := by
  induction moves with
  | refl => exact start
  | tail before move ih =>
    have soundly := Moves.sound before sound
    obtain ⟨early, late⟩ := learns.split (Moves.toExtends before sound) (move.toExtends soundly)
    exact step move soundly late (ih early)

theorem shaped (moves : Moves doc doc') (sound : doc.Sound) (shaped : doc.Shaped)
    (learns : doc.Learns doc' Reader.Lawful) : doc'.Shaped :=
  moves.keep sound learns shaped fun move sound learns shaped => move.shaped sound shaped learns

end Moves

end Document

end StoreModels
