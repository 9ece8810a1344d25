import StoreModels.Proofs.Document.Render
import StoreModels.Proofs.Document.Trees
import StoreModels.Proofs.Record.Found

/-!
Runs of the primitives that change a document, called in any order from a file on, where every node that is handed over
has no parent and is not above the place it gets. Such a run keeps the nodes a forest, so printing never goes deeper than
there are nodes. Whether it ends is then a matter of the walks back to the slots, and only one call makes a walk endless:
one that puts a node back in the place of a node that came after it, with no slot between the two. Main statement: without
such a call all walks end and so does printing, and such a call makes the walk from the node it puts back endless at once.
-/
namespace StoreModels
open Syntax (Dialect Reader sampleReader)

namespace Document
variable {doc doc' : Document} {slots : List Slot} {id x y p old new object : NodeId} {position : Option Nat}

/-! ## Calls -/

/-- A call of one of the primitives that change a document. -/
inductive Call
  | parseExpression (snippet : List Char)
  | writeLeaf (kind : String) (text : List Char)
  | writeNode (kind : String) (children : List (Option String × NodeId))
  | duplicate (id : NodeId)
  | append (object entry : NodeId)
  | remove (entry : NodeId)
  | replace (old new : NodeId)

/-- The document after what may fail, and changes nothing then. -/
def afterwards {ε : Type} (doc : Document) : Except ε Document → Document
  | .ok doc' => doc'
  | .error _ => doc

@[simp] theorem afterwards_ok {ε : Type} (doc doc' : Document) : doc.afterwards (.ok doc' : Except ε Document) = doc' := rfl

@[simp] theorem afterwards_error {ε : Type} (doc : Document) (e : ε) : doc.afterwards (.error e) = doc := rfl

/-- The document after a call. -/
def perform [Reader] (doc : Document) : Call → Document
  | .parseExpression snippet => doc.afterwards ((doc.parseExpression snippet).map Prod.fst)
  | .writeLeaf kind text => (doc.writeLeaf kind text).1
  | .writeNode kind children => (doc.writeNode kind children).1
  | .duplicate id => (doc.duplicate id).1
  | .append object entry => doc.afterwards (doc.append object entry)
  | .remove entry => doc.afterwards (doc.remove entry)
  | .replace old new => doc.afterwards (doc.replace old new)

/-- The document after some calls, one after the other. -/
def performAll [Reader] (doc : Document) (calls : List Call) : Document := calls.foldl perform doc

/-- What a caller has to see to: a node that is handed over has no parent, and the place it gets is not in its own tree. -/
def Allows (doc : Document) : Call → Prop
  | .writeNode _ children => (children.map Prod.snd).Nodup ∧ ∀ c ∈ children.map Prod.snd, doc.Detached c
  | .duplicate id => id < doc.nodes.size
  | .append object entry => doc.Detached entry ∧ object ∉ doc.descendants entry
  | .replace old new => doc.Detached new ∧ old ∉ doc.descendants new
  | .parseExpression _ | .writeLeaf _ _ | .remove _ => True

instance (doc : Document) (call : Call) : Decidable (doc.Allows call) :=
  match call with
  | .writeNode _ _ | .append _ _ | .replace _ _ => inferInstanceAs (Decidable (_ ∧ _))
  | .duplicate id => inferInstanceAs (Decidable (id < doc.nodes.size))
  | .parseExpression _ | .writeLeaf _ _ | .remove _ => .isTrue trivial

/-- Whether the caller sees to it at each of some calls. -/
def AllowsAll [Reader] : Document → List Call → Prop
  | _, [] => True
  | doc, call :: rest => doc.Allows call ∧ (doc.perform call).AllowsAll rest

instance decidableAllowsAll [Reader] : (doc : Document) → (calls : List Call) → Decidable (doc.AllowsAll calls)
  | _, [] => .isTrue trivial
  | doc, call :: rest =>
    have := decidableAllowsAll (doc.perform call) rest
    inferInstanceAs (Decidable (doc.Allows call ∧ (doc.perform call).AllowsAll rest))

/-! ## Putting back -/

/-- Whether a call puts a node back: in the place of one that came after it, and no node between the two, itself
    included, has a slot. -/
def PutsBack (doc : Document) (slots : List Slot) : Call → Prop
  | .replace old new => doc.parent? old ≠ none ∧ slots.findIdx? (·.id == new) = none ∧
    Relation.ReflTransGen (doc.StepsBack slots) old new
  | _ => False

/-- Whether one of some calls puts a node back. -/
def PutsBackIn [Reader] (slots : List Slot) : Document → List Call → Prop
  | _, [] => False
  | doc, call :: rest => doc.PutsBack slots call ∨ PutsBackIn slots (doc.perform call) rest

/-! ## Printing to the end -/

/-- Whether printing a node looks for the places of its entries among some slots: it is a changed object literal. -/
def Lays (doc : Document) (id : NodeId) (slots : List Slot) : Prop :=
  ∃ buffer span, (doc.node id).origin = .parsed buffer span ∧ (doc.node id).dirty = true ∧ doc.role id = .object ∧
    slots = (doc.layout id (doc.buffer buffer) span).slots ∧ slots ≠ []

/-- Whether printing a node ends: the walks from its entries do where their places are looked for, and printing each of
    its children ends. -/
inductive Prints (doc : Document) : NodeId → Prop
  | node {id : NodeId} (walks : ∀ slots, doc.Lays id slots → ∀ entry ∈ doc.entries id, doc.WalkEnds slots entry)
    (below : ∀ c ∈ doc.children id, Prints doc c) : Prints doc id

theorem Prints.down (prints : doc.Prints id) (below : doc.Below id x) : doc.Prints x := by
  induction below with
  | refl => exact prints
  | tail _ child ih =>
    cases ih with
    | node _ below => exact below _ child

/-- Printing ends in a forest whose walks all end. -/
theorem Forest.prints (forest : doc.Forest)
    (walks : ∀ o slots, doc.Lays o slots → ∀ entry, ∃ position, doc.Arrives slots entry position) (id : NodeId) :
    doc.Prints id :=
  forest.induction (fun id below => .node (fun slots lays entry _ => walkEnds_iff.mpr (walks id slots lays entry)) below) id

/-! ## What calls remember -/

/-- The nodes remember the places they took; new ones remember what older ones do, or none. -/
structure Remembers (doc doc' : Document) : Prop where
  size : doc.nodes.size ≤ doc'.nodes.size
  kept : ∀ x < doc.nodes.size, (doc'.node x).replaces = (doc.node x).replaces
  new : ∀ x, doc.nodes.size ≤ x → ∀ old, (doc'.node x).replaces = some old → ∃ y, (doc.node y).replaces = some old

/-- What is true of a document at every time: its nodes are a forest, and the places taken are those of its nodes. -/
structure Coherent (doc : Document) : Prop where
  forest : doc.Forest
  takenLt : ∀ {id old}, (doc.node id).replaces = some old → old < doc.nodes.size

namespace Remembers

theorem refl (doc : Document) : Remembers doc doc where
  size := Nat.le_refl _
  kept _ _ := rfl
  new x _ _ took := ⟨x, took⟩

/-- Where nodes are only added that took no place, all is remembered. -/
theorem of_prolongs (longer : Prolongs doc doc')
    (tookNone : ∀ x, doc.nodes.size ≤ x → x < doc'.nodes.size → (doc'.node x).replaces = none) : Remembers doc doc' where
  size := longer.size
  kept x lt := by rw [longer.node x lt]
  new x le old took := by
    by_cases lt : x < doc'.nodes.size
    · rw [tookNone x le lt] at took
      cases took
    · rw [node_beyond (Nat.le_of_not_lt lt)] at took
      cases took

/-- Where every node remembers the same, all is remembered. -/
theorem of_same (size : doc.nodes.size ≤ doc'.nodes.size) (same : ∀ x, (doc'.node x).replaces = (doc.node x).replaces) :
    Remembers doc doc' where
  size := size
  kept x _ := same x
  new x _ _ took := ⟨x, same x ▸ took⟩

theorem duplicated {twin : NodeId → NodeId} {original : NodeId} (copied : Duplicated doc doc' twin original) :
    Remembers doc doc' where
  size := copied.longer.size
  kept x lt := by rw [copied.longer.node x lt]
  new x le old took := by
    by_cases lt : x < doc'.nodes.size
    · rcases copied.sprouted.parent x le lt with top | ⟨q, _, from_size, below_size, member⟩
      · rw [List.mem_singleton.mp top, copied.tookNone] at took
        cases took
      · rw [(copied.twins q from_size below_size).replaces x member] at took
        exact ⟨_, took⟩
    · rw [node_beyond (Nat.le_of_not_lt lt)] at took
      cases took

theorem takenLt (remembers : Remembers doc doc') (taken : ∀ {id old}, (doc.node id).replaces = some old →
    old < doc.nodes.size) (took : (doc'.node id).replaces = some old) : old < doc'.nodes.size := by
  refine Nat.lt_of_lt_of_le ?_ remembers.size
  by_cases lt : id < doc.nodes.size
  · rw [remembers.kept id lt] at took
    exact taken took
  · obtain ⟨_, took⟩ := remembers.new id (Nat.le_of_not_lt lt) old took
    exact taken took

/-- Walks from older nodes go the same way. -/
theorem arrives (remembers : Remembers doc doc') (coherent : doc.Coherent) (lt : id < doc.nodes.size)
    (arrives : doc.Arrives slots id position) : doc'.Arrives slots id position := by
  induction arrives with
  | slot found => exact .slot found
  | first absent none => exact .first absent ((remembers.kept _ lt).trans none)
  | back absent took _ ih => exact .back absent ((remembers.kept _ lt).trans took) (ih (coherent.takenLt took))

/-- Walks from new nodes go on from older ones. -/
theorem arrive (remembers : Remembers doc doc') (coherent : doc.Coherent)
    (all : ∀ entry, ∃ position, doc.Arrives slots entry position) (id : NodeId) :
    ∃ position, doc'.Arrives slots id position := by
  by_cases lt : id < doc.nodes.size
  · exact (all id).imp fun _ => remembers.arrives coherent lt
  · cases found : slots.findIdx? (·.id == id) with
    | some q => exact ⟨some q, .slot found⟩
    | none =>
      cases took : (doc'.node id).replaces with
      | none => exact ⟨none, .first found took⟩
      | some old =>
        obtain ⟨_, before⟩ := remembers.new id (Nat.le_of_not_lt lt) old took
        exact (all old).imp fun _ walk => .back found took (remembers.arrives coherent (coherent.takenLt before) walk)

end Remembers

/-! ## Walks after a replacement -/

namespace Replaced
variable (replaced : Replaced doc doc' p old new)
include replaced

theorem replaces_of_ne (other : x ≠ new) : (doc'.node x).replaces = (doc.node x).replaces :=
  replaced.edited.replaces x fun same => other (Option.some.inj same)

/-- A walk that does not come by the node that took the place goes the same way. -/
theorem arrives_aside (aside : ¬ Relation.ReflTransGen (doc.StepsBack slots) id new)
    (arrives : doc.Arrives slots id position) : doc'.Arrives slots id position := by
  have other : ∀ {x}, ¬ Relation.ReflTransGen (doc.StepsBack slots) x new → x ≠ new := fun aside same =>
    aside (same ▸ .refl)
  induction arrives with
  | slot found => exact .slot found
  | first absent none => exact .first absent ((replaced.replaces_of_ne (other aside)).trans none)
  | back absent took _ ih =>
    exact .back absent ((replaced.replaces_of_ne (other aside)).trans took) (ih fun rest => aside (rest.head ⟨absent, took⟩))

/-- All walks end still where the node that took the place has a slot, or is none that the replaced node's walk comes
    by. -/
theorem arrive (all : ∀ entry, ∃ position, doc.Arrives slots entry position)
    (back : slots.findIdx? (·.id == new) = none → ¬ Relation.ReflTransGen (doc.StepsBack slots) old new) (id : NodeId) :
    ∃ position, doc'.Arrives slots id position := by
  have here : ∃ position, doc'.Arrives slots new position := by
    cases found : slots.findIdx? (·.id == new) with
    | some q => exact ⟨some q, .slot found⟩
    | none => exact (all old).imp fun _ walk => .back found replaced.replaces (replaced.arrives_aside (back found) walk)
  obtain ⟨position, arrives⟩ := all id
  induction arrives with
  | @slot x q found => exact ⟨some q, .slot found⟩
  | @first x absent none =>
    by_cases same : x = new
    · exact same ▸ here
    · exact ⟨Option.none, .first absent ((replaced.replaces_of_ne same).trans none)⟩
  | @back x y position absent took _ ih =>
    by_cases same : x = new
    · exact same ▸ here
    · exact ih.imp fun _ walk => .back absent ((replaced.replaces_of_ne same).trans took) walk

/-- A node that is put back is on a circle then. -/
theorem endless (absent : slots.findIdx? (·.id == new) = none)
    (back : Relation.ReflTransGen (doc.StepsBack slots) old new) : ¬ doc'.WalkEnds slots new := by
  have still : ∀ {x}, Relation.ReflTransGen (doc.StepsBack slots) x new →
      Relation.ReflTransGen (doc'.StepsBack slots) x new := by
    intro x walk
    induction walk using Relation.ReflTransGen.head_induction_on with
    | refl => exact .refl
    | @head a b step _ ih =>
      by_cases same : a = new
      · exact same ▸ .refl
      · exact ih.head ⟨step.1, (replaced.replaces_of_ne same).trans step.2⟩
  intro ends
  obtain ⟨position, arrives⟩ := walkEnds_iff.mp ends
  exact arrives.no_circle (Relation.TransGen.head' ⟨absent, replaced.replaces⟩ (still back))

end Replaced

/-! ## Single calls -/

theorem writeLeaf_forest (forest : doc.Forest) (kind : String) (text : List Char) : (doc.writeLeaf kind text).1.Forest := by
  have longer := writeLeaf_prolongs doc kind text
  have top : (doc.writeLeaf kind text).1.node doc.nodes.size = .written kind (some text) := node_insert_self doc _
  have size : (doc.writeLeaf kind text).1.nodes.size = doc.nodes.size + 1 := size_insert doc _
  have sprouted : Sprouted (doc.writeLeaf kind text).1 doc.nodes.size (doc.nodes.size + 1) [doc.nodes.size] :=
    (Sprouted.nil _ _).node (Nat.lt_succ_self _) (by rw [children, top]; rfl) (by simp)
  refine ((size ▸ sprouted).grown longer fun t member => ?_).forest forest
  rw [List.mem_singleton.mp member, parent?, top]
  rfl

theorem Coherent.not_below (coherent : doc.Coherent) (detached : doc.Detached new) (apart : x ∉ doc.descendants new) :
    ¬ doc.Below new x := fun below => apart (mem_descend (coherent.forest.fits detached.lt) below)

/-- Replacing a node that has a parent as it is allowed succeeds. -/
theorem Coherent.replaced [Reader] (coherent : doc.Coherent) (allowed : doc.Allows (.replace old new))
    (parent : doc.parent? old = some p) : Replaced doc (doc.perform (.replace old new)) p old new := by
  obtain ⟨detached, apart⟩ := allowed
  have outside : ¬ doc.Below new p := fun below =>
    coherent.not_below detached apart (below.tail (coherent.forest.parentChild parent))
  obtain ⟨doc', run, replaced⟩ := replace_detached coherent.forest parent detached outside
  simpa only [perform, run, afterwards_ok] using replaced

/-- A call keeps the forest and all that is remembered, unless it puts a node in the place of another one. -/
theorem Coherent.perform_cases [Reader] (coherent : doc.Coherent) {call : Call} (allowed : doc.Allows call) :
    (Remembers doc (doc.perform call) ∧ (doc.perform call).Forest) ∨
      ∃ p old new, call = .replace old new ∧ doc.parent? old = some p ∧ Replaced doc (doc.perform call) p old new := by
  have forest := coherent.forest
  have nothing : Remembers doc doc ∧ doc.Forest := ⟨.refl doc, forest⟩
  cases call with
  | parseExpression snippet =>
    refine .inl ?_
    cases read : doc.parseExpression snippet with
    | error _ => simpa only [perform, read, Except.map, afterwards_error] using nothing
    | ok result =>
      obtain ⟨doc', id⟩ := result
      obtain ⟨_, tree, _, adopted⟩ := parseExpression_adopted read
      have remembers := Remembers.of_prolongs adopted.longer fun x le lt => by
        obtain ⟨_, _, mirrors⟩ := adopted.mirrors x le lt
        exact mirrors.tookNone
      have grown := adopted.grown.forest (forest.congr rfl (fun _ => rfl) fun _ => rfl)
      simpa only [perform, read, Except.map, afterwards_ok] using ⟨⟨remembers.size, remembers.kept, remembers.new⟩, grown⟩
  | writeLeaf kind text =>
    have remembers := Remembers.of_prolongs (writeLeaf_prolongs doc kind text) fun x le lt => by
      rw [writeLeaf, size_insert] at lt
      obtain rfl : x = doc.nodes.size := by omega
      rw [writeLeaf, node_insert_self]
      rfl
    exact .inl ⟨remembers, writeLeaf_forest forest kind text⟩
  | writeNode kind children =>
    obtain ⟨distinct, detached⟩ := allowed
    have joined := (writeNode_joined doc kind children distinct fun c member => (detached c member).lt).2
    have forest' := joined.forest forest distinct fun c member => ⟨(detached c member).lt, (detached c member).root⟩
    exact .inl ⟨.of_same (joined.size ▸ Nat.le_succ _) fun x => (joined.history x).1, forest'⟩
  | duplicate id =>
    obtain ⟨_, twin, copied⟩ := duplicate_duplicated forest allowed
    exact .inl ⟨.duplicated copied, copied.grown.forest forest⟩
  | append object entry =>
    refine .inl ?_
    by_cases literal : doc.role object = .object
    · obtain ⟨detached, apart⟩ := allowed
      obtain ⟨doc', run, edited, ⟨_, replaces⟩, _⟩ :=
        append_detached forest literal detached (coherent.not_below detached apart)
      have same : ∀ x, (doc'.node x).replaces = (doc.node x).replaces := fun x => by
        by_cases here : x = entry
        · exact here ▸ replaces
        · exact edited.replaces x fun same => here (Option.some.inj same)
      simpa only [perform, run, afterwards_ok] using ⟨.of_same (Nat.le_of_eq edited.hung.size.symm) same, edited.forest⟩
    · have fails : doc.append object entry = .error (.noObject (doc.node object).kind) := by
        simp only [append, requireObject, if_neg literal]
        rfl
      simpa only [perform, fails, afterwards_error] using nothing
  | remove entry =>
    refine .inl ?_
    cases parent : doc.parent? entry with
    | none => simpa only [perform, remove, parent, afterwards_error] using nothing
    | some object =>
      by_cases literal : doc.role object = .object
      · obtain ⟨doc', run, edited, _⟩ := remove_ok forest parent literal
        have same : ∀ x, (doc'.node x).replaces = (doc.node x).replaces := fun x => edited.replaces x fun same => by cases same
        simpa only [perform, run, afterwards_ok] using ⟨.of_same (Nat.le_of_eq edited.hung.size.symm) same, edited.forest⟩
      · have fails : doc.remove entry = .error (.noObject (doc.node object).kind) := by
          simp only [remove, parent, requireObject, if_neg literal]
          rfl
        simpa only [perform, fails, afterwards_error] using nothing
  | replace old new =>
    cases parent : doc.parent? old with
    | none => exact .inl (by simpa only [perform, replace, parent, afterwards_error] using nothing)
    | some p => exact .inr ⟨p, old, new, rfl, parent, coherent.replaced allowed parent⟩

theorem Coherent.perform [Reader] (coherent : doc.Coherent) {call : Call} (allowed : doc.Allows call) :
    (doc.perform call).Coherent := by
  rcases coherent.perform_cases allowed with ⟨remembers, forest⟩ | ⟨p, old, new, rfl, parent, replaced⟩
  · exact ⟨forest, remembers.takenLt coherent.takenLt⟩
  · refine ⟨replaced.edited.forest, fun {id before} took => ?_⟩
    rw [replaced.edited.hung.size]
    by_cases same : id = new
    · rw [same, replaced.replaces] at took
      exact Option.some.inj took ▸ lt_of_parent parent
    · rw [replaced.replaces_of_ne same] at took
      exact coherent.takenLt took

/-- All walks end after a call if they did before and it does not put a node back. -/
theorem Coherent.arrive [Reader] (coherent : doc.Coherent) {call : Call} (allowed : doc.Allows call)
    (back : ¬ doc.PutsBack slots call) (all : ∀ entry, ∃ position, doc.Arrives slots entry position) (id : NodeId) :
    ∃ position, (doc.perform call).Arrives slots id position := by
  rcases coherent.perform_cases allowed with ⟨remembers, _⟩ | ⟨p, old, new, rfl, parent, replaced⟩
  · exact remembers.arrive coherent all id
  · exact replaced.arrive all (fun absent walk => back ⟨by simp [parent], absent, walk⟩) id

/-- The walk from a node that is put back never ends. -/
theorem Coherent.endless [Reader] (coherent : doc.Coherent) (allowed : doc.Allows (.replace old new))
    (back : doc.PutsBack slots (.replace old new)) : ¬ (doc.perform (.replace old new)).WalkEnds slots new := by
  obtain ⟨attached, absent, walk⟩ := back
  obtain ⟨p, parent⟩ := Option.ne_none_iff_exists'.mp attached
  exact (coherent.replaced allowed parent).endless absent walk

/-! ## Runs of calls -/

theorem Coherent.performAll [Reader] {calls : List Call} (coherent : doc.Coherent) (allowed : doc.AllowsAll calls) :
    (doc.performAll calls).Coherent := by
  induction calls generalizing doc with
  | nil => exact coherent
  | cons call rest ih => exact ih (coherent.perform allowed.1) allowed.2

/-- All walks end after a run that puts no node back. -/
theorem Coherent.arriveAll [Reader] {calls : List Call} (coherent : doc.Coherent) (allowed : doc.AllowsAll calls)
    (back : ¬ doc.PutsBackIn slots calls) (all : ∀ entry, ∃ position, doc.Arrives slots entry position) (id : NodeId) :
    ∃ position, (doc.performAll calls).Arrives slots id position := by
  induction calls generalizing doc with
  | nil => exact all id
  | cons call rest ih =>
    simp only [PutsBackIn, not_or] at back
    exact ih (coherent.perform allowed.1) allowed.2 back.2 (coherent.arrive allowed.1 back.1 all)

theorem AllowsAll.append [Reader] {calls more : List Call} :
    doc.AllowsAll (calls ++ more) ↔ doc.AllowsAll calls ∧ (doc.performAll calls).AllowsAll more := by
  induction calls generalizing doc with
  | nil => simp [AllowsAll, performAll]
  | cons call rest ih => simp only [List.cons_append, AllowsAll, ih, and_assoc, performAll, List.foldl_cons]

/-- A file that has just been read is coherent, and no node of it has taken a place. -/
theorem parse_coherent [Reader] {dialect : Dialect} {source : List Char} {file : Document}
    (parsed : Document.parse dialect source = .ok file) : file.Coherent ∧ ∀ x, (file.node x).replaces = none := by
  have sound := parse_sound parsed
  obtain ⟨program, _, mirrors⟩ := parse_tree parsed
  refine ⟨⟨sound.forest, sound.takenLt⟩, fun x => ?_⟩
  by_cases present : x < file.nodes.size
  · obtain ⟨_, _, mirrors⟩ := mirrors x present
    exact mirrors.tookNone
  · rw [node_beyond (Nat.le_of_not_lt present)]
    rfl

/-- No tree is deeper than printing goes. -/
theorem Forest.printDown_depth (forest : doc.Forest) {depth : Nat} (deep : doc.depth ≤ depth) :
    doc.printDown depth = doc.render := by
  funext id base context
  exact printDown_fits (n := doc.depth) (fun c member => forest.fits (forest.childLt member)) deep base context

/-- From a file on, whatever is called as it may be: as long as no call puts a node back past the slots of a literal, every
    walk to them ends within as many steps as there are nodes, and one more; as long as none does past those of any changed
    literal, printing every node ends, and it never goes deeper than there are nodes. A call that does put a node back makes
    the walk from this node endless at once. -/
theorem walks_end [Reader] {dialect : Dialect} {source : List Char} {file : Document} {calls : List Call}
    (parsed : Document.parse dialect source = .ok file) (allowed : file.AllowsAll calls) :
    (∀ slots, ¬ file.PutsBackIn slots calls → ∀ entry, ∃ position,
      (file.performAll calls).slotWalk slots ((file.performAll calls).nodes.size + 1) entry = some position) ∧
    ((∀ o slots, (file.performAll calls).Lays o slots → ¬ file.PutsBackIn slots calls) →
      ∀ id, (file.performAll calls).Prints id) ∧
    (∀ depth, (file.performAll calls).depth ≤ depth →
      (file.performAll calls).printDown depth = (file.performAll calls).render) ∧
    ∀ slots earlier old new, calls = earlier ++ [.replace old new] →
      (file.performAll earlier).PutsBack slots (.replace old new) → ¬ (file.performAll calls).WalkEnds slots new := by
  obtain ⟨coherent, tookNone⟩ := parse_coherent parsed
  have start : ∀ slots entry, ∃ position, file.Arrives slots entry position := by
    intro slots entry
    cases found : slots.findIdx? (·.id == entry) with
    | some q => exact ⟨some q, .slot found⟩
    | none => exact ⟨none, .first found (tookNone entry)⟩
  have walks := fun slots back => coherent.arriveAll allowed back (start slots)
  have forest := (coherent.performAll allowed).forest
  refine ⟨fun slots back entry => ?_, fun back id => ?_, fun depth deep => forest.printDown_depth deep, ?_⟩
  · exact (walks slots back entry).imp fun _ arrives => slotWalk_size_iff.mpr arrives
  · exact forest.prints (fun o slots lays => walks slots (back o slots lays)) id
  · rintro slots earlier old new rfl back
    obtain ⟨before, last⟩ := AllowsAll.append.mp allowed
    have endless := (coherent.performAll before).endless last.1 back
    simpa only [Document.performAll, List.foldl_append, List.foldl_cons, List.foldl_nil] using endless

/-- A new entry for the model of the sample file, and another new one in its place. -/
def renewingCalls : List Call :=
  [.writeLeaf "property_identifier" ['c'], .parseExpression ['2'], .writeNode "pair" [(some "key", 26), (some "value", 27)],
    .append 5 28, .writeLeaf "property_identifier" ['d'], .parseExpression ['2'],
    .writeNode "pair" [(some "key", 29), (some "value", 30)], .replace 28 31]

/-- The sample file after these calls, and after one that puts the first of the two entries back. -/
def renewedFile : Document := @performAll sampleReader sampleFile renewingCalls

@[inherit_doc renewedFile]
def circledFile : Document := @perform sampleReader renewedFile (.replace 31 28)

/-- The file prints where an entry has got a new one in its place, whatever slots there are. -/
theorem walks_end_renewed :
    @Document.parse sampleReader .markup Syntax.sampleText = .ok sampleFile ∧
      @AllowsAll sampleReader sampleFile renewingCalls ∧ renewedFile.Prints renewedFile.root ∧
      renewedFile.print = "x=\x7bnamespace:'a',reducers:\x7bb:1\x7d, d: 2\x7d".toList := by
  have allowed : @AllowsAll sampleReader sampleFile renewingCalls := by decide +kernel
  obtain ⟨_, prints, _, _⟩ := @walks_end sampleReader _ _ _ _ sampleFile_parsed allowed
  refine ⟨sampleFile_parsed, allowed, prints (fun o slots _ back => ?_) renewedFile.root, by decide +kernel⟩
  -- Only the last call gives a node the place of another one, and this other one took none.
  simp only [renewingCalls, PutsBackIn, PutsBack, false_or, or_false] at back
  obtain ⟨_, _, walk⟩ := back
  rcases Relation.ReflTransGen.cases_head walk with same | ⟨old, ⟨_, took⟩, _⟩
  · exact absurd same (by decide)
  · have none : ((@performAll sampleReader sampleFile (renewingCalls.take 7)).node 28).replaces = Option.none := by
      decide +kernel
    cases none.symm.trans took

/-- The entry that was put back is in the literal, and the walk from it never ends, so that printing the file does not
    either. -/
theorem circledFile_endless :
    @Document.parse sampleReader .markup Syntax.sampleText = .ok sampleFile ∧
      @AllowsAll sampleReader sampleFile (renewingCalls ++ [.replace 31 28]) ∧
      (∃ slots, circledFile.Lays 5 slots ∧ 28 ∈ circledFile.entries 5 ∧ ¬ circledFile.WalkEnds slots 28) ∧
      ¬ circledFile.Prints circledFile.root := by
  have allowed : @AllowsAll sampleReader sampleFile (renewingCalls ++ [.replace 31 28]) := by decide +kernel
  obtain ⟨before, last⟩ := (@AllowsAll.append _ sampleReader _ _).mp allowed
  have coherent : renewedFile.Coherent :=
    @Coherent.performAll _ sampleReader _ (@parse_coherent sampleReader _ _ _ sampleFile_parsed).1 before
  have lays : circledFile.Lays 5 (circledFile.layout 5 (circledFile.buffer 0) ⟨2, 32⟩).slots :=
    ⟨0, ⟨2, 32⟩, by decide +kernel, by decide +kernel, by decide +kernel, rfl, by decide +kernel⟩
  generalize slotsAre : (circledFile.layout 5 (circledFile.buffer 0) ⟨2, 32⟩).slots = slots at lays
  have absent : ∀ x ∈ [28, 31], slots.findIdx? (·.id == x) = none := by
    rw [← slotsAre]
    decide +kernel
  have took : (renewedFile.node 31).replaces = some 28 := by decide +kernel
  have endless : ¬ circledFile.WalkEnds slots 28 :=
    @Coherent.endless _ _ _ _ sampleReader coherent last.1
      ⟨by decide +kernel, absent 28 (by simp), .single ⟨absent 31 (by simp), took⟩⟩
  have entry : 28 ∈ circledFile.entries 5 := by decide +kernel
  refine ⟨sampleFile_parsed, allowed, ⟨slots, lays, entry, endless⟩, fun prints => ?_⟩
  have model : 5 ∈ circledFile.descend 4 circledFile.root := by decide +kernel
  cases prints.down (below_of_mem_descend model) with
  | node walks _ => exact endless (walks slots lays 28 entry)

end Document

end StoreModels
