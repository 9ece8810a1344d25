import StoreModels.Proofs.Document.Printing

/-!
The printer without its depth. In a forest the depth that the library prints to is never reached, so the text of a node
is made from the texts of its children by one and the same step. The step depends on the marks of a document only at the
node itself.
-/
namespace StoreModels
open Syntax (Span Role)
open Text (slice)

namespace Document
variable {doc doc' : Document} {print print' : ChildPrinter} {id : NodeId}

/-! ## Children's printers -/

/-- Two printers agree on some nodes. -/
def Agree (print print' : ChildPrinter) (ids : List NodeId) : Prop :=
  ∀ c ∈ ids, ∀ base context, print' c base context = print c base context

theorem Agree.mono {ids some : List NodeId} (agree : Agree print print' ids) (sub : some ⊆ ids) :
    Agree print print' some :=
  fun c member => agree c (sub member)

theorem Agree.single {ids : List NodeId} {c : NodeId} (agree : Agree print print' ids) (member : c ∈ ids) :
    Agree print print' [c] :=
  agree.mono (by simpa using member)

/-- What the text of a node is made from, apart from its mark and the texts of its children, is the same in two
    documents. -/
structure Alike (doc doc' : Document) (id : NodeId) : Prop where
  newline : doc'.newline = doc.newline
  indentUnit : doc'.indentUnit = doc.indentUnit
  kind : (doc'.node id).kind = (doc.node id).kind
  origin : (doc'.node id).origin = (doc.node id).origin
  children : doc'.children id = doc.children id
  firstChildren : (doc'.node id).firstChildren = (doc.node id).firstChildren
  text : ∀ {buffer span}, (doc.node id).origin = .parsed buffer span → doc'.buffer buffer = doc.buffer buffer
  child : ∀ c ∈ doc.children id,
    (doc'.node c).kind = (doc.node c).kind ∧ (doc'.node c).origin = (doc.node c).origin
  first : ∀ f ∈ (doc.node id).firstChildren,
    (doc'.node f).kind = (doc.node f).kind ∧ (doc'.node f).origin = (doc.node f).origin
  position : ∀ c ∈ doc.children id, ∀ slots : List Slot,
    doc'.slotPosition? slots (doc'.nodes.size + 1) c = doc.slotPosition? slots (doc.nodes.size + 1) c

namespace Alike

theorem refl (doc : Document) (id : NodeId) : Alike doc doc id := by
  constructor <;> simp

section
variable (alike : Alike doc doc' id)
include alike

theorem role (c : NodeId) (member : c ∈ doc.children id) : doc'.role c = doc.role c := by
  rw [Document.role, Node.role, (alike.child c member).1, Document.role, Node.role]

theorem buffer? : (doc'.node id).buffer? = (doc.node id).buffer? := by rw [Node.buffer?, alike.origin, Node.buffer?]

theorem span? : (doc'.node id).span? = (doc.node id).span? := by rw [Node.span?, alike.origin, Node.span?]

theorem printChild {c : NodeId} (member : c ∈ doc.children id) (agree : Agree print print' [c]) (base : List Char)
    (context : BufferId) : doc'.printChild print' c base context = doc.printChild print c base context := by
  have place : (doc'.node c).buffer? = (doc.node c).buffer? := by
    rw [Node.buffer?, (alike.child c member).2, Node.buffer?]
  simp only [Document.printChild, place, alike.newline, agree c (by simp)]

theorem printLines {entries : List NodeId} (inside : entries ⊆ doc.children id) (agree : Agree print print' entries)
    (indent : List Char) (context : BufferId) :
    doc'.printLines print' entries indent context = doc.printLines print entries indent context := by
  have each : (entries.map fun entry => doc'.printChild print' entry indent context) =
      entries.map fun entry => doc.printChild print entry indent context :=
    List.map_congr_left fun c member => alike.printChild (inside member) (agree.single member) indent context
  simp only [Document.printLines, each, alike.newline]

theorem printWritten (agree : Agree print print' (doc.children id)) (base : List Char) (context : BufferId) :
    doc'.printWritten print' (doc'.node id) base context = doc.printWritten print (doc.node id) base context := by
  have each : ∀ c ∈ (doc.node id).children,
      doc'.printChild print' c base context = doc.printChild print c base context :=
    fun c member => alike.printChild member (agree.single member) base context
  have roles : (doc'.node id).role = (doc.node id).role := by rw [Node.role, alike.kind, Node.role]
  have children : (doc'.node id).children = (doc.node id).children := alike.children
  have lines : ∀ indent, doc'.printLines print' (doc.node id).children indent context =
      doc.printLines print (doc.node id).children indent context := fun indent =>
    alike.printLines (List.Subset.refl _) agree indent context
  simp only [Document.printWritten, roles, children, lines, alike.newline, alike.indentUnit, List.map_congr_left each,
    List.flatMap_congr each]

theorem printPlaces {buffer : BufferId} (text : doc'.buffer buffer = doc.buffer buffer) {stop start : Nat}
    {places : List (NodeId × NodeId)} (firsts : places.map Prod.fst ⊆ (doc.node id).firstChildren)
    (inside : places.map Prod.snd ⊆ doc.children id) (agree : Agree print print' (places.map Prod.snd)) :
    doc'.printPlaces print' buffer stop start places = doc.printPlaces print buffer stop start places := by
  induction places generalizing start with
  | nil => simp only [Document.printPlaces, text]
  | cons place rest ih =>
    obtain ⟨first, child⟩ := place
    simp only [List.map_cons, List.cons_subset] at firsts inside
    have later : Agree print print' (rest.map Prod.snd) := agree.mono (by simp)
    have here := alike.printChild inside.1 (agree.mono (by simp) : Agree print print' [child])
    have span : (doc'.node first).span? = (doc.node first).span? := by
      rw [Node.span?, (alike.first first firsts.1).2, Node.span?]
    simp only [Document.printPlaces, span, text, here, ih firsts.2 inside.2 later]

theorem printParts {buffer : BufferId} (text : doc'.buffer buffer = doc.buffer buffer)
    (agree : Agree print print' (doc.children id)) (span : Span) :
    doc'.printParts print' (doc'.node id) buffer span = doc.printParts print (doc.node id) buffer span := by
  have each : ∀ base, ∀ c ∈ (doc.node id).children,
      doc'.printChild print' c base buffer = doc.printChild print c base buffer :=
    fun base c member => alike.printChild member (agree.single member) base buffer
  have children : (doc'.node id).children = (doc.node id).children := alike.children
  have firsts : (((doc.node id).firstChildren.zip (doc.node id).children).map Prod.fst) ⊆
      (doc.node id).firstChildren := by
    intro f member
    obtain ⟨pair, listed, rfl⟩ := List.mem_map.mp member
    exact (List.of_mem_zip listed).1
  have inside : (((doc.node id).firstChildren.zip (doc.node id).children).map Prod.snd) ⊆ doc.children id := by
    intro c member
    obtain ⟨pair, listed, rfl⟩ := List.mem_map.mp member
    exact (List.of_mem_zip listed).2
  simp only [Document.printParts, alike.firstChildren, children,
    alike.printPlaces text firsts inside (agree.mono inside), text, List.flatMap_congr (each _)]

theorem printEntries {setting : Setting} {isFirst lineComment : Bool} {previous : Option Nat}
    {entries : List (NodeId × Option Nat)} (inside : entries.map Prod.fst ⊆ doc.children id)
    (agree : Agree print print' (entries.map Prod.fst)) :
    doc'.printEntries print' setting isFirst previous lineComment entries =
      doc.printEntries print setting isFirst previous lineComment entries := by
  induction entries generalizing isFirst previous lineComment with
  | nil => rfl
  | cons entry rest ih =>
    obtain ⟨entry, position⟩ := entry
    simp only [List.map_cons, List.cons_subset] at inside
    have later : Agree print print' (rest.map Prod.fst) := agree.mono (by simp)
    have here := alike.printChild inside.1 (agree.mono (by simp) : Agree print print' [entry])
    simp only [Document.printEntries, here, ih inside.2 later]

theorem printObjectEntries {text : List Char} {buffer : BufferId} {layout : Layout} {base : List Char}
    {entries : List NodeId} (inside : entries ⊆ doc.children id) (agree : Agree print print' entries) :
    doc'.printObjectEntries print' text buffer layout base entries =
      doc.printObjectEntries print text buffer layout base entries := by
  have positions : (entries.map fun entry => (entry, doc'.slotPosition? layout.slots (doc'.nodes.size + 1) entry)) =
      entries.map fun entry => (entry, doc.slotPosition? layout.slots (doc.nodes.size + 1) entry) :=
    List.map_congr_left fun c member => by rw [alike.position c (inside member)]
  have same : (entries.map fun entry => (entry, doc.slotPosition? layout.slots (doc.nodes.size + 1) entry)).map
      Prod.fst = entries := by simp [Function.comp_def]
  simp only [Document.printObjectEntries, slotOf_eq, positions, alike.printEntries (same.symm ▸ inside) (same.symm ▸ agree),
    alike.newline]

theorem layout (text : List Char) (span : Span) : doc'.layout id text span = doc.layout id text span := by
  have items : doc'.parsedItems id = doc.parsedItems id := by
    simp only [parsedItems, alike.firstChildren]
    refine List.filterMap_congr fun f member => ?_
    rw [Node.span?, (alike.first f member).1, (alike.first f member).2, Node.span?]
  rw [Document.layout, items, Document.layout]

theorem printObject {buffer : BufferId} (text : doc'.buffer buffer = doc.buffer buffer)
    (agree : Agree print print' (doc.children id)) (span : Span) :
    doc'.printObject print' id buffer span = doc.printObject print id buffer span := by
  have entries : ((doc'.children id).filter fun c => (doc'.role c).isEntry) =
      (doc.children id).filter fun c => (doc.role c).isEntry := by
    rw [alike.children]
    exact List.filter_congr fun c member => by rw [alike.role c member]
  have inside : ((doc.children id).filter fun c => (doc.role c).isEntry) ⊆ doc.children id :=
    List.filter_sublist.subset
  simp only [Document.printObject, entries, alike.layout, text, printExpanded, printEmptied,
    alike.printLines inside (agree.mono inside), alike.printObjectEntries inside (agree.mono inside), alike.newline,
    alike.indentUnit]

/-- Where the marks of a parsed node agree, so do its texts, as far as those of its children do. -/
theorem printWith (agree : Agree print print' (doc.children id))
    (mark : (doc.node id).isWritten = false → (doc'.node id).dirty = (doc.node id).dirty) (base : List Char)
    (context : BufferId) : doc'.printWith print' id base context = doc.printWith print id base context := by
  have origin := alike.origin
  have children : (doc'.node id).children = (doc.node id).children := alike.children
  cases from_text : (doc.node id).origin with
  | written text =>
    rw [from_text] at origin
    simp only [Document.printWith, origin, from_text, children, alike.printWritten agree]
    cases text <;> rfl
  | parsed buffer span =>
    rw [from_text] at origin
    have marks := mark (by simp [Node.isWritten, Node.buffer?, from_text])
    have role : (doc'.node id).role = (doc.node id).role := by rw [Node.role, alike.kind, Node.role]
    have text := alike.text from_text
    simp only [Document.printWith, origin, from_text, marks, role, text, alike.printObject text agree,
      alike.printParts text agree]

end

end Alike

theorem slotPosition?_congr (same : SameButMarks doc doc') (slots : List Slot) (fuel : Nat) (id : NodeId) :
    doc'.slotPosition? slots fuel id = doc.slotPosition? slots fuel id := by
  induction fuel generalizing id with
  | zero => rfl
  | succ fuel ih =>
    have replaces : (doc'.node id).replaces = (doc.node id).replaces := same.replaces id
    simp only [slotPosition?, replaces, funext ih]

/-- Documents that differ in marks alone are alike everywhere. -/
theorem SameButMarks.alike (same : SameButMarks doc doc') (id : NodeId) : Alike doc doc' id where
  newline := same.toExtends.newline
  indentUnit := same.toExtends.indentUnit
  kind := by rw [same.node id]
  origin := by rw [same.node id]
  children := same.children id
  firstChildren := by rw [same.node id]
  text _ := by
    rw [same.rest]
    rfl
  child c _ := by
    rw [same.node c]
    exact ⟨rfl, rfl⟩
  first f _ := by
    rw [same.node f]
    exact ⟨rfl, rfl⟩
  position c _ slots := by
    rw [same.size, slotPosition?_congr same]

/-! ## The depth does not matter -/

/-- The text of a node by means of the texts of its children. -/
def render (doc : Document) : ChildPrinter := doc.printDown doc.depth

/-- All depths that the walks below a node stay within print it the same way. -/
theorem printDown_fits {m n : Nat} (fits : doc.Fits n id) (le : n ≤ m) (base : List Char) (context : BufferId) :
    doc.printDown m id base context = doc.printDown n id base context := by
  induction n generalizing m id base context with
  | zero => exact fits.elim
  | succ n ih =>
    obtain ⟨m, rfl⟩ : ∃ k, m = k + 1 := ⟨m - 1, by omega⟩
    refine (Alike.refl doc id).printWith (fun c member base context => ?_) (fun _ => rfl) base context
    exact ih (fits c member) (by omega) base context

/-- The text of a node is made from the texts of its children. -/
theorem Forest.render_eq (forest : doc.Forest) (id : NodeId) (base : List Char) (context : BufferId) :
    doc.render id base context = doc.printWith doc.render id base context := by
  refine (Alike.refl doc id).printWith (fun c member base context => ?_) (fun _ => rfl) base context
  exact (printDown_fits (forest.fits (forest.childLt member)) (Nat.le_succ _) base context).symm

/-! ## Unmarked nodes -/

/-- A parsed node without a mark is printed as it was parsed. -/
theorem Forest.render_clean (forest : doc.Forest) {buffer : BufferId} {span : Span}
    (parsed : (doc.node id).origin = .parsed buffer span) (clean : (doc.node id).dirty = false) (base : List Char)
    (context : BufferId) : doc.render id base context = slice (doc.buffer buffer) span.start span.stop := by
  rw [forest.render_eq]
  simp only [printWith, parsed, clean, Bool.not_false, if_true]

theorem printChild_clean (forest : doc.Forest) {buffer : BufferId} {span : Span}
    (parsed : (doc.node id).origin = .parsed buffer span) (clean : (doc.node id).dirty = false) (base : List Char) :
    doc.printChild doc.render id base buffer = slice (doc.buffer buffer) span.start span.stop := by
  have place : (doc.node id).buffer? = some buffer := by simp [Node.buffer?, parsed]
  simp only [printChild, place, if_true, forest.render_clean parsed clean]

/-- Exchanging unmarked nodes for themselves changes nothing. -/
theorem splice_clean (forest : doc.Forest) {buffer : BufferId} {nodes : List NodeId} {exchanges : List Text.Exchange}
    {start stop : Nat} (clean : ∀ c ∈ nodes, (doc.node c).dirty = false)
    (ordered : Text.Ordered start stop (exchanges.map Prod.fst))
    (exchanged : List.Forall₂ (doc.Exchanged doc.render buffer) (nodes.zip nodes) exchanges) :
    Text.splice (doc.buffer buffer) stop start exchanges = slice (doc.buffer buffer) start stop := by
  refine Text.splice_verbatim _ ordered fun exchange member => ?_
  obtain ⟨⟨first, child⟩, listed, parsed, indent, is⟩ := forall₂_mem_right exchanged member
  have same : first = child := by
    obtain ⟨i, _, h⟩ := List.mem_iff_getElem.mp listed
    simp only [List.getElem_zip, Prod.mk.injEq] at h
    exact h.1.symm.trans h.2
  subst same
  rw [is, printChild_clean forest parsed (clean first (List.of_mem_zip listed).1)]

/-- A parsed node without a mark would be printed as it was parsed even if it had one. -/
theorem Sound.print_clean (sound : doc.Sound) (shaped : doc.Shaped) {buffer : BufferId} {span : Span}
    (parsed : (doc.node id).origin = .parsed buffer span) (clean : (doc.node id).dirty = false) :
    (if doc.role id = .object then doc.printObject doc.render id buffer span
      else doc.printParts doc.render (doc.node id) buffer span) =
      slice (doc.buffer buffer) span.start span.stop := by
  have from_text : (doc.node id).isWritten = false := by simp [Node.isWritten, Node.buffer?, parsed]
  obtain ⟨same, below⟩ := sound.clean from_text clean
  obtain ⟨outline, places, fits⟩ := shaped.laid parsed
  split
  next object =>
    have entries : doc.entries id = doc.firstEntries id := by rw [entries, same, firstEntries]
    have keeps : doc.KeepsEntries id := by
      rw [KeepsEntries, entries]
      exact List.forall₂_same.mpr fun f member => .here (sound.firstTookNone (List.mem_of_mem_filter member))
    obtain ⟨exchanges, is, ordered, exchanged⟩ := printObject_splice sound object places fits keeps
    rw [entries] at exchanged
    rw [is]
    refine splice_clean sound.forest (fun c member => ?_) ordered exchanged
    exact below c (same ▸ List.mem_of_mem_filter member)
  next =>
    have count : (doc.node id).children.length = (doc.node id).firstChildren.length := congrArg List.length same
    obtain ⟨exchanges, is, ordered, exchanged⟩ := printPlaces_splice places count fits.1
    rw [printParts, if_pos count, is]
    have children : (doc.node id).children = (doc.node id).firstChildren := same
    rw [children] at exchanged
    exact splice_clean sound.forest (fun c member => below c (same ▸ member)) ordered exchanged

/-- A node whose children print as before prints as before even if it got a mark: where it had none, it printed as it
    was parsed. -/
theorem Sound.printWith_marked (sound : doc.Sound) (shaped : doc.Shaped) (alike : Alike doc doc' id)
    (agree : Agree doc.render doc'.render (doc.children id)) (more : (doc.node id).dirty = true → (doc'.node id).dirty = true)
    (base : List Char) (context : BufferId) :
    doc'.printWith doc'.render id base context = doc.printWith doc.render id base context := by
  by_cases news : (doc.node id).isWritten = false → (doc'.node id).dirty = (doc.node id).dirty
  · exact alike.printWith agree news base context
  · simp only [Classical.not_imp] at news
    obtain ⟨from_text, differs⟩ := news
    have clean : (doc.node id).dirty = false := by
      by_contra marked
      have marked : (doc.node id).dirty = true := by simpa using marked
      exact differs ((more marked).trans marked.symm)
    have marked : (doc'.node id).dirty = true := by
      rw [clean] at differs
      simpa using differs
    cases parsed : (doc.node id).origin with
    | written text =>
      rw [Node.isWritten, Node.buffer?, parsed] at from_text
      cases from_text
    | parsed buffer span =>
      have parsed' : (doc'.node id).origin = .parsed buffer span := alike.origin.trans parsed
      have role : (doc'.node id).role = (doc.node id).role := congrArg Role.ofKind alike.kind
      have text := alike.text parsed
      simp only [printWith, parsed', parsed, marked, clean, Bool.not_true, Bool.not_false, Bool.false_eq_true, if_false,
        if_true, role, alike.printObject text agree, alike.printParts text agree]
      exact sound.print_clean shaped parsed clean

/-- Marks that are set though nothing has changed do not change the text of any node. -/
theorem Sound.render_marked (sound : doc.Sound) (shaped : doc.Shaped) (same : SameButMarks doc doc')
    (more : ∀ x, (doc.node x).dirty = true → (doc'.node x).dirty = true) (id : NodeId) (base : List Char)
    (context : BufferId) : doc'.render id base context = doc.render id base context := by
  refine sound.forest.induction (P := fun id => ∀ base context,
    doc'.render id base context = doc.render id base context) (fun id below base context => ?_) id base context
  rw [(same.forest sound.forest).render_eq, sound.forest.render_eq]
  exact sound.printWith_marked shaped (same.alike id) below (more id) base context

end Document

end StoreModels
