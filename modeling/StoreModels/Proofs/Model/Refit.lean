import StoreModels.Proofs.Model.Marks
import StoreModels.Proofs.Record.Reported

/-!
Refitted files. Edits put nodes in the places of some nodes of a file, or change what some of its object literals print
as, and leave all else as it was. Then the text of the file is what it was with the exchanges made that belong to just
these spots: everything above them is taken apart and put together again.
-/
namespace StoreModels
open Syntax (Dialect Outline Span Reader Tree)
open Text (slice splice Ordered Exchange)

/-! ## Patches -/

/-- A text is a part of another one in which just the exchanges that a condition asks for have been made. -/
def Text.Patched (source : List Char) (asked : Exchange → Prop) (part : Exchange) : Prop :=
  ∃ exchanges, Ordered part.1.start part.1.stop (exchanges.map Prod.fst) ∧
    part.2 = splice source part.1.stop part.1.start exchanges ∧ ∀ exchange, exchange ∈ exchanges ↔ asked exchange

namespace Text.Patched
variable {source text : List Char} {asked asked' : Exchange → Prop} {part : Exchange} {span : Span}

theorem congr (patched : Patched source asked part) (same : ∀ exchange, asked exchange ↔ asked' exchange) :
    Patched source asked' part := by
  obtain ⟨exchanges, ordered, is, all⟩ := patched
  exact ⟨exchanges, ordered, is, fun exchange => (all exchange).trans (same exchange)⟩

/-- A part that is exchanged as a whole. -/
theorem whole (le : span.start ≤ span.stop) : Patched source (· = (span, text)) (span, text) :=
  ⟨[(span, text)], ⟨Nat.le_refl _, le, Nat.le_refl _⟩, (splice_whole _ _ _).symm, fun _ => List.mem_singleton⟩

/-- A part that is kept. -/
theorem none (le : span.start ≤ span.stop) (nothing : ∀ exchange, ¬ asked exchange) :
    Patched source asked (span, slice source span.start span.stop) :=
  ⟨[], le, rfl, fun exchange => by simp [nothing exchange]⟩

/-- Parts that are patched make a stretch that is patched. -/
theorem gathered {α : Type} {asked : α → Exchange → Prop} {keys : List α} {parts : List Exchange}
    (ordered : Ordered span.start span.stop (parts.map Prod.fst))
    (inner : List.Forall₂ (fun key part => Patched source (asked key) part) keys parts) :
    Patched source (fun exchange => ∃ key ∈ keys, asked key exchange) (span, splice source span.stop span.start parts) :=
  splice_gathered source ordered inner

/-- A text one part of which is patched. -/
theorem within (patched : Patched source asked (span, text)) (inside : span.stop ≤ source.length) :
    Patched source asked (⟨0, source.length⟩, source.take span.start ++ text ++ source.drop span.stop) := by
  obtain ⟨exchanges, ordered, is, all⟩ := patched
  simp only at is
  obtain ⟨wide, whole⟩ := take_splice_drop source ordered inside
  exact ⟨exchanges, wide, is ▸ whole, all⟩

/-- A text one stretch of which is exchanged. -/
theorem single (patched : Patched source (· = (span, text)) part) (wide : span.start < span.stop) :
    part.1.start ≤ span.start ∧ span.stop ≤ part.1.stop ∧
      part.2 = slice source part.1.start span.start ++ text ++ slice source span.stop part.1.stop := by
  obtain ⟨exchanges, ordered, is, all⟩ := patched
  cases exchanges with
  | nil => cases (all (span, text)).mpr rfl
  | cons exchange rest =>
    obtain rfl : exchange = (span, text) := (all exchange).mp List.mem_cons_self
    obtain ⟨low, _, behind⟩ := ordered
    cases rest with
    | nil => exact ⟨low, behind, is⟩
    | cons second others =>
      obtain rfl : second = (span, text) := (all second).mp (by simp)
      exact absurd behind.1 (Nat.not_le_of_gt wide)

end Text.Patched

open Text (Patched)

namespace Document
variable {doc first : Document} {dialect : Dialect} {source : List Char} {program : Tree} {x f c y : NodeId}
  {outer : Span} {exchange : Exchange} {spot : NodeId → Prop} {news : NodeId → Exchange → Prop}

/-! ## Spots -/

/-- The indentation of a child in some place of a node of the file. -/
def placeIndent (doc : Document) (x : NodeId) (outer place : Span) : List Char :=
  if doc.role x = .object then (doc.layout x doc.source outer).entryIndent doc.source
  else Text.lineIndent doc.source place.start

/-- The exchanges at the spots in a tree. -/
def Changes (doc : Document) (spot : NodeId → Prop) (news : NodeId → Exchange → Prop) (x : NodeId) (exchange : Exchange) :
    Prop :=
  ∃ f, spot f ∧ doc.Below x f ∧ news f exchange

/-- What stands in the place of a child of the file, the child itself with a mark or another node, prints as the part of
    the child with its exchanges made. -/
structure Fitted (first doc : Document) (news : NodeId → Exchange → Prop) (x c f : NodeId) : Prop where
  ends : doc.Ends c f
  marked : c = f → (doc.node f).dirty = true
  entry : first.role x = .object → (first.role f).isEntry = true ∧ (doc.role c).isEntry = true
  shown : ∀ outer inner, (first.node x).origin = .parsed 0 outer → (first.node f).origin = .parsed 0 inner →
    Patched first.source (news f) (inner, doc.printChild doc.render c (first.placeIndent x outer inner) 0)

/-- A file in which each child of a node that is no spot is where it was, or a spot with its exchanges made. -/
structure Refit (first doc : Document) (spot : NodeId → Prop) (news : NodeId → Exchange → Prop) : Prop where
  sound : doc.Sound
  ext : Extends first doc
  apart : ∀ {f g}, spot f → spot g → first.Below f g → f = g
  places : ∀ {x}, x < first.nodes.size → ¬ spot x →
    List.Forall₂ (fun c f => c = f ∧ ¬ spot f ∨ spot f ∧ first.Fitted doc news x c f) (doc.children x) (first.children x)

theorem Sound.parsedItems_extends (sound : first.Sound) (ext : Extends first doc) (lt : x < first.nodes.size) :
    doc.parsedItems x = first.parsedItems x := by
  rw [parsedItems, ext.firstChildren x lt, parsedItems]
  refine List.filterMap_congr fun f member => ?_
  rw [ext.span? (sound.firstLt member), ext.kind f (sound.firstLt member)]

/-- A literal is laid out by what it was parsed as. -/
theorem Sound.layout_extends (sound : first.Sound) (ext : Extends first doc) (lt : x < first.nodes.size)
    (text : List Char) (span : Span) : doc.layout x text span = first.layout x text span := by
  rw [layout, sound.parsedItems_extends ext lt, layout]

namespace Fresh
variable (fresh : first.Fresh program) (ext : Extends first doc) (lt : x < first.nodes.size)
include fresh ext lt

/-- The children that a node of the file was parsed with are those that it had. -/
theorem firstChildren : (doc.node x).firstChildren = first.children x := by
  obtain ⟨t, _, mirrors⟩ := fresh.mirrors x lt
  rw [ext.firstChildren x lt, mirrors.firstChildren]

theorem firstEntries : doc.firstEntries x = first.entries x := by
  rw [Document.firstEntries, fresh.firstChildren ext lt, entries]
  exact List.filter_congr fun f child => by rw [ext.role (fresh.sound.forest.childLt child)]

end Fresh

/-- The exchanges in a tree are those in the trees of its children, unless it is a spot itself. -/
theorem changes_iff (other : ¬ spot x) :
    first.Changes spot news x exchange ↔ ∃ f ∈ first.children x, first.Changes spot news f exchange := by
  constructor
  · rintro ⟨f, inside, below, asked⟩
    rcases Relation.ReflTransGen.cases_head below with rfl | ⟨c, child, down⟩
    · exact absurd inside other
    · exact ⟨c, child, f, inside, down, asked⟩
  · rintro ⟨c, child, f, inside, below, asked⟩
    exact ⟨f, inside, (Below.child child).trans below, asked⟩

namespace Refit
variable (refit : first.Refit doc spot news)
include refit

/-- The only exchanges in the tree of a spot are its own. -/
theorem changes_spot (inside : spot f) : first.Changes spot news f exchange ↔ news f exchange := by
  constructor
  · rintro ⟨g, insideToo, below, asked⟩
    exact refit.apart inside insideToo below ▸ asked
  · exact fun asked => ⟨f, inside, Below.refl first f, asked⟩

variable (fresh : first.Fresh program)
include fresh

theorem source_eq : doc.source = first.source := refit.ext.buffer fresh.texts

/-- In a tree without a mark nothing has changed. -/
theorem clean_below (lt : x < first.nodes.size) (clean : (doc.node x).dirty = false) (below : first.Below x y) :
    (doc.node y).dirty = false ∧ doc.children y = first.children y := by
  have here : ∀ {z}, z < first.nodes.size → (doc.node z).dirty = false →
      doc.children z = first.children z ∧ ∀ c ∈ doc.children z, (doc.node c).dirty = false := by
    intro z lt clean
    obtain ⟨t, _, mirrors⟩ := fresh.mirrors z lt
    have parsed : (doc.node z).isWritten = false := by
      simp [Node.isWritten, Node.buffer?, refit.ext.origin z lt, mirrors.origin]
    obtain ⟨firsts, inside⟩ := refit.sound.clean parsed clean
    exact ⟨firsts.trans (fresh.firstChildren refit.ext lt), inside⟩
  have unmarked : (doc.node y).dirty = false := by
    induction below with
    | refl => exact clean
    | @tail b c down edge ih =>
      obtain ⟨same, inside⟩ := here (fresh.sound.forest.below_lt lt down) ih
      exact inside c (same ▸ edge)
  exact ⟨unmarked, (here (fresh.sound.forest.below_lt lt below) unmarked).1⟩

/-- A tree with a spot below its root is marked. -/
theorem marked (lt : x < first.nodes.size) (other : ¬ spot x) (changes : first.Changes spot news x exchange) :
    (doc.node x).dirty = true := by
  by_contra unmarked
  have clean : (doc.node x).dirty = false := by simpa using unmarked
  obtain ⟨f, inside, below, _⟩ := changes
  rcases Relation.ReflTransGen.cases_tail below with rfl | ⟨p, down, edge⟩
  · exact other inside
  · have outside : ¬ spot p := fun here =>
      fresh.sound.forest.child_ne edge (refit.apart here inside (Below.child edge)).symm
    -- The spot is still a child of the same node, so it has got a mark itself.
    have same := (refit.clean_below fresh lt clean down).2
    have places := refit.places (fresh.sound.forest.below_lt lt down) outside
    rw [same, List.forall₂_same] at places
    rcases places f edge with ⟨_, no⟩ | ⟨_, fitted⟩
    · exact no inside
    · have marked := fitted.marked rfl
      rw [(refit.clean_below fresh lt clean below).1] at marked
      cases marked

/-- Every node of the file that is no spot prints as its part with the exchanges at the spots in it made. -/
def Prints (_ : first.Refit doc spot news) (_ : first.Fresh program) (x : NodeId) : Prop :=
  x < first.nodes.size → ¬ spot x → ∀ span, (doc.node x).origin = .parsed 0 span →
    ∀ base, Patched first.source (first.Changes spot news x) (span, doc.render x base 0)

/-- Children in their places print as their parts with the exchanges at the spots in them made. -/
theorem children_patched {cs fs : List NodeId} {parts : List Exchange}
    (outerIs : (first.node x).origin = .parsed 0 outer) (present : ∀ f ∈ fs, f < first.nodes.size)
    (places : List.Forall₂ (fun c f => c = f ∧ ¬ spot f ∨ spot f ∧ first.Fitted doc news x c f) cs fs)
    (shown : List.Forall₂ (doc.ShownAt doc.render 0 (first.placeIndent x outer)) (fs.zip cs) parts)
    (each : ∀ c ∈ cs, refit.Prints fresh c) :
    List.Forall₂ (fun f part => Patched first.source (first.Changes spot news f) part) fs parts := by
  induction places generalizing parts with
  | nil =>
    cases shown
    exact .nil
  | @cons c f cs fs place _ ih =>
    rw [List.zip_cons_cons] at shown
    obtain ⟨⟨span, text⟩, rest, ⟨parsed, is⟩, later, rfl⟩ := List.forall₂_cons_left_iff.mp shown
    refine .cons ?_ (ih (fun f member => present f (List.mem_cons_of_mem _ member)) later
      fun c member => each c (List.mem_cons_of_mem _ member))
    have lt := present f List.mem_cons_self
    simp only at parsed is
    rw [is]
    rcases place with ⟨rfl, other⟩ | ⟨inside, fitted⟩
    · have buffer : (doc.node c).buffer? = some 0 := by simp [Node.buffer?, parsed]
      simp only [printChild, buffer, if_true]
      exact each c List.mem_cons_self lt other span parsed _
    · rw [refit.ext.origin f lt] at parsed
      exact (fitted.shown outer span outerIs parsed).congr fun _ => (refit.changes_spot inside).symm

section
variable {span : Span} {outline : Outline} (lt : x < first.nodes.size) (other : ¬ spot x)
  (parsed : (doc.node x).origin = .parsed 0 span) (parts : List.Forall₂ (doc.IsAt 0) (doc.node x).firstChildren outline)
  (fits : outline.Fits doc.source (doc.node x).kind span) (each : ∀ c ∈ doc.children x, refit.Prints fresh c)
include lt other parsed parts fits each

/-- An object literal prints with the exchanges at the spots in its entries made, and there are none between them. -/
theorem printObject_patched (bare : program.Bare) (object : doc.role x = .object) :
    Patched first.source (first.Changes spot news x) (span, doc.printObject doc.render x 0 span) := by
  have start := fresh.sound
  have role : first.role x = .object := (refit.ext.role lt).symm.trans object
  have places := refit.places lt other
  have isEntry : ∀ c ∈ doc.children x, ∀ f ∈ first.children x,
      c = f ∧ ¬ spot f ∨ spot f ∧ first.Fitted doc news x c f → (doc.role c).isEntry = (first.role f).isEntry := by
    rintro c _ f child (⟨rfl, _⟩ | ⟨_, fitted⟩)
    · rw [refit.ext.role (start.forest.childLt child)]
    · rw [(fitted.entry role).1, (fitted.entry role).2]
  have firsts := fresh.firstEntries refit.ext lt
  have kept : List.Forall₂ (fun c f => c = f ∧ ¬ spot f ∨ spot f ∧ first.Fitted doc news x c f) (doc.entries x)
      (first.entries x) := forall₂_filter places isEntry
  have keeps : doc.KeepsEntries x := by
    rw [KeepsEntries, firsts]
    refine forall₂_imp_mem kept fun c _ f member place => ?_
    rcases place with ⟨rfl, _⟩ | ⟨_, fitted⟩
    · refine .here (refit.sound.firstTookNone (p := x) ?_)
      rw [fresh.firstChildren refit.ext lt]
      exact (mem_entries member).1
    · exact fitted.ends
  obtain ⟨exchanges, printed, ordered, shown⟩ := @printObject_shown doc doc.render _ _ _ _ refit.sound object parts fits keeps
  have text : doc.buffer 0 = first.source := refit.source_eq fresh
  have indent : (fun _ : Span => (doc.layout x (doc.buffer 0) span).entryIndent (doc.buffer 0)) =
      first.placeIndent x span := by
    funext place
    rw [placeIndent, if_pos role, text, start.layout_extends refit.ext lt]
  rw [indent, firsts] at shown
  have outerIs := (refit.ext.origin x lt).symm.trans parsed
  have inner := refit.children_patched fresh outerIs (fun f member => start.forest.childLt (mem_entries member).1) kept
    shown fun c member => each c (mem_entries member).1
  rw [printed, text]
  refine (Patched.gathered ordered inner).congr fun exchange => ?_
  rw [changes_iff other]
  constructor
  · rintro ⟨f, member, within⟩
    exact ⟨f, (mem_entries member).1, within⟩
  · rintro ⟨f, child, within⟩
    refine ⟨f, ?_, within⟩
    -- What is no entry has no parts, so there is no spot in it.
    rcases fresh.bare bare role child with entry | none
    · exact List.mem_filter.mpr ⟨child, entry⟩
    · obtain ⟨g, inside, down, _⟩ := within
      rcases Relation.ReflTransGen.cases_head down with rfl | ⟨d, edge, _⟩
      · obtain ⟨c, _, ⟨rfl, no⟩ | ⟨_, fitted⟩⟩ := forall₂_mem_right places child
        · exact absurd inside no
        · exact List.mem_filter.mpr ⟨child, (fitted.entry role).1⟩
      · rw [none] at edge
        cases edge

/-- Any other node prints with the exchanges at the spots in its children made. -/
theorem printParts_patched (other' : doc.role x ≠ .object) :
    Patched first.source (first.Changes spot news x) (span, doc.printParts doc.render (doc.node x) 0 span) := by
  have start := fresh.sound
  have firsts := fresh.firstChildren refit.ext lt
  have places := refit.places lt other
  have count : (doc.node x).children.length = (doc.node x).firstChildren.length := by
    rw [firsts]
    exact places.length_eq
  obtain ⟨exchanges, printed, ordered, shown⟩ := @printPlaces_shown _ doc doc.render _ _ _ _ _ parts count fits.1
  have text : doc.buffer 0 = first.source := refit.source_eq fresh
  have indent : (fun place : Span => Text.lineIndent (doc.buffer 0) place.start) = first.placeIndent x span := by
    funext place
    rw [placeIndent, if_neg fun object => other' ((refit.ext.role lt).trans object), text]
  rw [indent, firsts] at shown
  have outerIs := (refit.ext.origin x lt).symm.trans parsed
  have inner := refit.children_patched fresh outerIs (fun f child => start.forest.childLt child) places shown each
  have printed : doc.printPlaces doc.render 0 span.stop span.start ((doc.node x).firstChildren.zip (doc.node x).children) =
      _ := printed
  rw [printParts, if_pos count, printed, text]
  exact (Patched.gathered ordered inner).congr fun exchange => (changes_iff other).symm

end

/-- Every node of the file that is no spot prints as its part with the exchanges at the spots in it made. -/
theorem prints (shaped : first.Shaped) (bare : program.Bare) (x : NodeId) : refit.Prints fresh x := by
  -- From the leaves up: the spots in a tree are in its children, each of which prints as its part.
  refine refit.sound.forest.induction (P := refit.Prints fresh) (fun x below lt other span parsed base => ?_) x
  obtain ⟨outline, parts, fits⟩ := shaped.lays.stays fresh.sound refit.ext lt parsed
  cases dirty : (doc.node x).dirty with
  | false =>
    rw [refit.sound.forest.render_clean parsed dirty base 0, show doc.buffer 0 = _ from refit.source_eq fresh]
    refine Patched.none fits.1.le fun exchange changes => ?_
    rw [refit.marked fresh lt other changes] at dirty
    cases dirty
  | true =>
    have is : doc.render x base 0 = if doc.role x = .object then doc.printObject doc.render x 0 span
        else doc.printParts doc.render (doc.node x) 0 span := by
      rw [refit.sound.forest.render_eq]
      simp only [printWith, parsed, dirty, Bool.not_true, Bool.false_eq_true, if_false]
      rfl
    rw [is]
    split
    next object => exact refit.printObject_patched fresh lt other parsed parts fits below bare object
    next other' => exact refit.printParts_patched fresh lt other parsed parts fits below other'

end Refit

/-! ## Whole files -/

/-- The text of a file is patched as what its root prints as is. -/
theorem print_patched [Reader] {original : Document} (file : Document.parse dialect source = .ok original)
    (lawful : Reader.Lawful dialect source) {indent : List Char} (is : first = original.withFallbackIndent indent)
    (ext : Extends first doc) {asked : Exchange → Prop} (shown : ∀ span, (doc.node first.root).origin = .parsed 0 span →
      Patched source asked (span, doc.render first.root [] 0)) :
    Patched source asked (⟨0, source.length⟩, doc.print) := by
  obtain ⟨texts, _, root, present⟩ := parse_buffers file
  obtain ⟨span, parsed, inside⟩ := parse_root file (parse_readable file lawful)
  have rootIs : first.root = 0 := is ▸ root
  have origin : (doc.node 0).origin = .parsed 0 span := by
    rw [ext.origin 0 (is ▸ present), is]
    exact parsed
  have text : doc.source = source := by
    have kept : doc.buffer 0 = first.buffer 0 := ext.buffer (by simp [is, withFallbackIndent, texts])
    rw [Document.source, kept, is, buffer, withFallbackIndent, texts]
    rfl
  rw [rootIs] at shown
  rw [print_eq, ext.root, rootIs]
  simp only [Node.span?, origin, text]
  exact (shown span origin).within inside

/-- The text of a refitted file is its source with the exchanges at the spots made. -/
theorem Refit.print [Reader] {original : Document} (refit : first.Refit doc spot news)
    (file : Document.parse dialect source = .ok original) (lawful : Reader.Lawful dialect source) {indent : List Char}
    (is : first = original.withFallbackIndent indent) (fresh : first.Fresh program) (bare : program.Bare)
    (other : ¬ spot first.root) :
    Patched source (first.Changes spot news first.root) (⟨0, source.length⟩, doc.print) := by
  obtain ⟨texts, _, root, present⟩ := parse_buffers file
  have shaped : first.Shaped := is ▸ (parse_shaped file (parse_readable file lawful)).withFallbackIndent indent
  have text : first.source = source := by
    rw [Document.source, is, buffer, withFallbackIndent, texts]
    rfl
  have lt : first.root < first.nodes.size := by
    rw [is]
    exact root.symm ▸ present
  refine print_patched file lawful is refit.ext fun span origin => ?_
  rw [← text]
  exact refit.prints fresh shaped bare first.root lt other span origin []

end Document

end StoreModels
