import StoreModels.Proofs.Document.Render

/-!
One exchange. When all that has happened to a file since it was parsed is that one node took the place of a pair's
value, its text is the text of the file with the part of that value exchanged for what the new one prints as.
-/
namespace StoreModels
open Syntax (Span Role Outline)
open Text (slice splice Ordered Exchange)

namespace Document
variable {doc : Document} {buffer : BufferId} {x c p old new : NodeId} {span inner : Span} {part : Exchange}
  {start stop : Nat}

/-! ## One changed child -/

/-- Children that print as they were parsed, but for one in which a part is exchanged. -/
theorem splice_part (forest : doc.Forest) {nodes : List NodeId} {parts : List Exchange} (distinct : nodes.Nodup)
    (member : c ∈ nodes) (clean : ∀ d ∈ nodes, d ≠ c → (doc.node d).dirty = false)
    (parsed : (doc.node c).origin = .parsed buffer inner) (inside : Ordered inner.start inner.stop [part.1])
    (shown : ∀ base, doc.render c base buffer = splice (doc.buffer buffer) inner.stop inner.start [part])
    (ordered : Ordered start stop (parts.map Prod.fst))
    (exchanged : List.Forall₂ (doc.Exchanged doc.render buffer) (nodes.zip nodes) parts) :
    Ordered start stop [part.1] ∧
      splice (doc.buffer buffer) stop start parts = splice (doc.buffer buffer) stop start [part] := by
  induction nodes generalizing parts start with
  | nil => cases member
  | cons d rest ih =>
    obtain ⟨fresh, distinct⟩ := List.nodup_cons.mp distinct
    rw [List.zip_cons_cons] at exchanged
    obtain _ | ⟨⟨origin, indent, is⟩, later⟩ := exchanged
    rename_i here others
    obtain ⟨first, mid, after⟩ := ordered
    have stops := after.le
    obtain ⟨span, printed⟩ := here
    simp only at origin is first mid after stops
    by_cases same : d = c
    · subst same
      obtain rfl : span = inner := by
        rw [origin] at parsed
        cases parsed
        rfl
      have place : (doc.node d).buffer? = some buffer := by simp [Node.buffer?, origin]
      have rest : splice (doc.buffer buffer) stop span.stop others = slice (doc.buffer buffer) span.stop stop :=
        splice_clean forest (fun e listed => clean e (List.mem_cons_of_mem _ listed) fun same => fresh (same ▸ listed))
          after later
      obtain ⟨low, within, high⟩ := inside
      have high : part.1.stop ≤ span.stop := high
      refine ⟨⟨Nat.le_trans first low, within, Nat.le_trans high stops⟩, ?_⟩
      rw [splice, rest, is, printChild, place]
      simp only [if_true]
      rw [shown]
      simp only [splice, List.append_assoc]
      rw [Text.slice_append _ high stops, ← List.append_assoc, Text.slice_append _ first low]
    · have listed : c ∈ rest := (List.mem_cons.mp member).resolve_left (Ne.symm same)
      obtain ⟨⟨low, within, high⟩, tail⟩ :=
        ih distinct listed (fun e member => clean e (List.mem_cons_of_mem _ member)) after later
      refine ⟨⟨Nat.le_trans (Nat.le_trans first mid) low, within, high⟩, ?_⟩
      rw [splice, tail, is, printChild_clean forest origin (clean d (by simp) same)]
      simp only [splice, List.append_assoc]
      rw [← List.append_assoc, ← List.append_assoc, Text.slice_append _ first mid,
        Text.slice_append _ (Nat.le_trans first mid) low]

/-- A node whose children stand in their places, one of them with a part exchanged. -/
theorem Sound.render_part (sound : doc.Sound) {outline : Outline} (parsed : (doc.node x).origin = .parsed buffer span)
    (places : List.Forall₂ (doc.IsAt buffer) (doc.node x).firstChildren outline)
    (fits : outline.Fits (doc.buffer buffer) (doc.node x).kind span) (dirty : (doc.node x).dirty = true)
    (same : doc.children x = (doc.node x).firstChildren) (child : c ∈ doc.children x)
    (entry : doc.role x = .object → (doc.role c).isEntry = true)
    (clean : ∀ d ∈ doc.children x, d ≠ c → (doc.node d).dirty = false)
    (origin : (doc.node c).origin = .parsed buffer inner) (inside : Ordered inner.start inner.stop [part.1])
    (shown : ∀ base, doc.render c base buffer = splice (doc.buffer buffer) inner.stop inner.start [part])
    (base : List Char) :
    Ordered span.start span.stop [part.1] ∧
      doc.render x base buffer = splice (doc.buffer buffer) span.stop span.start [part] := by
  have distinct := sound.forest.distinct x
  rw [sound.forest.render_eq]
  simp only [printWith, parsed, dirty, Bool.not_true, Bool.false_eq_true, if_false]
  by_cases object : doc.role x = .object
  · have entries : doc.entries x = doc.firstEntries x := by rw [entries, same, firstEntries]
    have keeps : doc.KeepsEntries x := by
      rw [KeepsEntries, entries]
      exact List.forall₂_same.mpr fun f member => .here (sound.firstTookNone (List.mem_of_mem_filter member))
    obtain ⟨parts, is, ordered, exchanged⟩ := printObject_splice sound object places fits keeps
    rw [← entries] at exchanged
    have object : (doc.node x).role = .object := object
    rw [if_pos object, is]
    refine splice_part sound.forest (distinct.filter _) (List.mem_filter.mpr ⟨child, entry object⟩)
      (fun d member => clean d (List.mem_of_mem_filter member)) origin inside shown ordered exchanged
  · have children : (doc.node x).children = (doc.node x).firstChildren := same
    have count : (doc.node x).children.length = (doc.node x).firstChildren.length := congrArg List.length children
    obtain ⟨parts, is, ordered, exchanged⟩ := printPlaces_splice places count fits.1
    have object : ¬ (doc.node x).role = .object := object
    rw [if_neg object, printParts, if_pos count, is]
    rw [children, ← same] at exchanged
    exact splice_part sound.forest distinct child clean origin inside shown ordered exchanged

/-! ## A child in another's place -/

variable (new) in
/-- Children in their places, one of which has taken the place of another. -/
theorem printPlaces_part (forest : doc.Forest) {before after : List NodeId} {outline : Outline}
    (places : List.Forall₂ (doc.IsAt buffer) (before ++ old :: after) outline)
    (ordered : Ordered start stop (outline.map Prod.snd))
    (clean : ∀ d ∈ before ++ after, (doc.node d).dirty = false)
    (parsed : (doc.node old).origin = .parsed buffer inner) :
    Ordered start stop [inner] ∧
      doc.printPlaces doc.render buffer stop start ((before ++ old :: after).zip (before ++ new :: after)) =
        splice (doc.buffer buffer) stop start
          [(inner, doc.printChild doc.render new (Text.lineIndent (doc.buffer buffer) inner.start) buffer)] := by
  induction before generalizing outline start with
  | nil =>
    obtain _ | ⟨place, places⟩ := places
    obtain ⟨first, mid, behind⟩ := ordered
    obtain ⟨kind, origin⟩ := place
    rw [parsed] at origin
    cases origin
    obtain ⟨parts, is, ordered, exchanged⟩ := printPlaces_splice places rfl behind
    have rest := splice_clean forest (fun d member => clean d member) ordered exchanged
    refine ⟨⟨first, mid, behind.le⟩, ?_⟩
    simp only [List.nil_append, List.zip_cons_cons, printPlaces, Node.span?, parsed, is, rest, splice]
  | cons d before ih =>
    obtain _ | ⟨⟨kind, origin⟩, places⟩ := places
    obtain ⟨first, mid, behind⟩ := ordered
    obtain ⟨⟨low, within, high⟩, tail⟩ := ih places behind fun e member => clean e (List.mem_cons_of_mem _ member)
    refine ⟨⟨Nat.le_trans (Nat.le_trans first mid) low, within, high⟩, ?_⟩
    simp only [List.cons_append, List.zip_cons_cons, printPlaces, Node.span?, origin]
    rw [tail, printChild_clean forest origin (clean d (by simp))]
    simp only [splice, List.append_assoc]
    rw [← List.append_assoc, ← List.append_assoc, Text.slice_append _ first mid,
      Text.slice_append _ (Nat.le_trans first mid) low]

/-- A file to which nothing has happened since it was parsed but that one node took the place of another below a pair:
    the marks are on the pair and above it, and all other nodes have the children that they were parsed with. -/
structure Swapped (doc : Document) (p old new : NodeId) : Prop where
  sound : doc.Sound
  pair : doc.role p = .pair
  places : ∃ before after, (doc.node p).firstChildren = before ++ old :: after ∧ doc.children p = before ++ new :: after
  parsed : ∀ {x}, doc.Below x p → ∃ span, (doc.node x).origin = .parsed 0 span
  laid : ∀ {x span}, doc.Below x p → (doc.node x).origin = .parsed 0 span →
    ∃ outline : Outline, List.Forall₂ (doc.IsAt 0) (doc.node x).firstChildren outline ∧
      outline.Fits (doc.buffer 0) (doc.node x).kind span
  dirty : ∀ x, (doc.node x).dirty = true ↔ doc.Below x p
  same : ∀ {x}, doc.Below x p → x ≠ p → doc.children x = (doc.node x).firstChildren
  /-- What is in an object literal besides entries has no parts. -/
  bare : ∀ {x c}, doc.Below x p → doc.role x = .object → c ∈ doc.children x →
    (doc.role c).isEntry = true ∨ doc.children c = []

namespace Swapped

/-- The pair itself. -/
theorem render_pair (swapped : doc.Swapped p old new) (parsed : (doc.node p).origin = .parsed 0 span)
    (origin : (doc.node old).origin = .parsed 0 inner) (base : List Char) :
    Ordered span.start span.stop [inner] ∧
      doc.render p base 0 = splice doc.source span.stop span.start
        [(inner, doc.printChild doc.render new (Text.lineIndent doc.source inner.start) 0)] := by
  obtain ⟨before, after, firsts, children⟩ := swapped.places
  obtain ⟨outline, places, fits⟩ := swapped.laid (Below.refl doc p) parsed
  have dirty := (swapped.dirty p).mpr (Below.refl doc p)
  have object : ¬ (doc.node p).role = .object := fun is => by
    have pair : (doc.node p).role = .pair := swapped.pair
    rw [is] at pair
    cases pair
  have now : (doc.node p).children = before ++ new :: after := children
  have count : (doc.node p).children.length = (doc.node p).firstChildren.length := by simp [now, firsts]
  have clean : ∀ d ∈ before ++ after, (doc.node d).dirty = false := by
    intro d member
    have child : d ∈ doc.children p := by
      rw [children]
      rcases List.mem_append.mp member with early | late
      · simp [early]
      · simp [late]
    by_contra marked
    exact swapped.sound.forest.not_below_parent child ((swapped.dirty d).mp (by simpa using marked))
  rw [firsts] at places
  obtain ⟨inside, is⟩ := printPlaces_part new swapped.sound.forest places fits.1 clean origin
  refine ⟨inside, ?_⟩
  rw [swapped.sound.forest.render_eq]
  simp only [printWith, parsed, dirty, Bool.not_true, Bool.false_eq_true, if_false, object, printParts, count, if_true]
  rw [firsts, now]
  exact is

/-- From the pair up to any node above it. -/
theorem render_above (swapped : doc.Swapped p old new) (origin : (doc.node old).origin = .parsed 0 inner)
    (below : doc.Below x p) :
    ∃ span, (doc.node x).origin = .parsed 0 span ∧ Ordered span.start span.stop [inner] ∧
      ∀ base, doc.render x base 0 = splice doc.source span.stop span.start
        [(inner, doc.printChild doc.render new (Text.lineIndent doc.source inner.start) 0)] := by
  induction below using Relation.ReflTransGen.head_induction_on with
  | refl =>
    obtain ⟨span, parsed⟩ := swapped.parsed (Below.refl doc p)
    exact ⟨span, parsed, (swapped.render_pair parsed origin []).1,
      fun base => (swapped.render_pair parsed origin base).2⟩
  | @head x c child down ih =>
    obtain ⟨within, origin', inside, shown⟩ := ih
    have below : doc.Below x p := (Below.child child).trans down
    have forest := swapped.sound.forest
    obtain ⟨span, parsed⟩ := swapped.parsed below
    obtain ⟨outline, places, fits⟩ := swapped.laid below parsed
    have other : x ≠ p := by
      rintro rfl
      exact forest.not_below_parent child down
    have entry : doc.role x = .object → (doc.role c).isEntry = true := fun object => by
      rcases swapped.bare below object child with entry | none
      · exact entry
      · -- A node without children that is above the pair is the pair.
        rcases Relation.ReflTransGen.cases_head down with rfl | ⟨d, edge, _⟩
        · rw [swapped.pair]
          rfl
        · rw [none] at edge
          cases edge
    have clean : ∀ d ∈ doc.children x, d ≠ c → (doc.node d).dirty = false := by
      intro d sibling apart
      by_contra marked
      exact apart (forest.sibling_eq sibling child ((swapped.dirty d).mp (by simpa using marked)) down)
    have whole := swapped.sound.render_part parsed places fits ((swapped.dirty x).mpr below) (swapped.same below other)
      child entry clean origin' inside shown
    exact ⟨span, parsed, (whole []).1, fun base => (whole base).2⟩

/-- The text of the file with the part of the old value exchanged. -/
theorem print (swapped : doc.Swapped p old new) (origin : (doc.node old).origin = .parsed 0 inner)
    (below : doc.Below doc.root p) :
    doc.print = doc.source.take inner.start ++
      doc.printChild doc.render new (Text.lineIndent doc.source inner.start) 0 ++ doc.source.drop inner.stop := by
  obtain ⟨span, parsed, ⟨low, _, high⟩, shown⟩ := swapped.render_above origin below
  have shown : doc.printDown doc.depth doc.root [] 0 = _ := shown []
  unfold Document.print
  simp only [Node.span?, parsed]
  rw [shown]
  simp only [splice, List.append_assoc]
  rw [← List.append_assoc, Text.take_append_slice _ low, Text.slice_append_drop _ high]

end Swapped

end Document

end StoreModels
