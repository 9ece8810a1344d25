import StoreModels.Proofs.Model.Refit
import StoreModels.Proofs.Model.Renamed

/-!
The text of a file after models have been renamed. It is the text as it was, with the literals that told the namespaces
of these models exchanged for the new ones, each in the quotes of the old one, and with nothing else changed.
-/
namespace StoreModels
open Syntax (Dialect Outline Span Reader Tree)
open Text (slice splice Ordered Exchange)

namespace Document
variable {doc first : Document} {dialect : Dialect} {source new : List Char} {done : List Model} {program : Tree}
  {x f old : NodeId} {span : Span} {exchange part : Exchange}

/-! ## Titles -/

/-- A node is the literal that tells the namespace of one of some models. -/
def IsTitle (doc : Document) (models : List Model) (old : NodeId) : Prop := ∃ m ∈ models, ∃ p, m.Titled doc p old

/-- An exchange puts a new literal in the place of a title in some tree. -/
def Retitles (doc : Document) (models : List Model) (new : List Char) (x : NodeId) (exchange : Exchange) : Prop :=
  ∃ old, doc.IsTitle models old ∧ doc.Below x old ∧ (doc.node old).origin = .parsed 0 exchange.1 ∧
    exchange.2 = doc.newTitle new old

theorem IsTitle.token (title : first.IsTitle done old) : (first.role old).isToken = true := by
  obtain ⟨m, _, p, titled⟩ := title
  rw [titled.literal]
  rfl

/-- What a title is a child of is a pair. -/
theorem IsTitle.parent (title : first.IsTitle done old) (forest : first.Forest) (child : old ∈ first.children x) :
    ∃ m ∈ done, m.Titled first x old := by
  obtain ⟨m, member, p, titled⟩ := title
  exact ⟨m, member, forest.parent_unique titled.value_child child ▸ titled⟩

/-- No title is in the tree of another one: it would have its pair in a token. -/
theorem IsTitle.apart (title : first.IsTitle done old) (forest : first.Forest) (plain : first.Plain)
    (below : first.Below old f) (titleToo : first.IsTitle done f) : old = f := by
  rcases Relation.ReflTransGen.cases_tail below with same | ⟨p, down, edge⟩
  · exact same.symm
  · obtain ⟨m, _, titled⟩ := titleToo.parent forest edge
    exact absurd titled.pair (plain.below title.token down).2

/-- The exchange of a title puts a new literal in its place. -/
def TitleNews (doc : Document) (new : List Char) (old : NodeId) (exchange : Exchange) : Prop :=
  (doc.node old).origin = .parsed 0 exchange.1 ∧ exchange.2 = doc.newTitle new old

/-! ## Printing -/

namespace Renaming
variable (run : first.Renaming doc new done)
include run

theorem ext : Extends first doc := by
  obtain ⟨_, calm, _⟩ := run.calm
  exact calm.ext

/-- Only the pairs of renamed models have other children than before. -/
theorem children (lt : x < first.nodes.size) (other : ∀ m ∈ done, ∀ old, ¬ m.Titled first x old) :
    doc.children x = first.children x := by
  obtain ⟨_, calm, _⟩ := run.calm
  refine calm.children x lt ?_
  rintro ⟨m, member, old, titled⟩
  exact other m member old titled

/-- Each child stands in its place, or is a new literal in the place of a title. -/
theorem places (start : first.Sound) (lt : x < first.nodes.size) :
    List.Forall₂ (fun c f => c = f ∧ ¬ first.IsTitle done f ∨
        first.IsTitle done f ∧ doc.Supersedes (first.newTitle new f) c f)
      (doc.children x) (first.children x) := by
  by_cases pair : ∃ m ∈ done, ∃ old, m.Titled first x old
  · obtain ⟨m, member, old, titled⟩ := pair
    obtain ⟨before, after, n, was, now, _, supersedes⟩ := run.titled m member x old titled
    have distinct := start.forest.distinct x
    have same : List.Forall₂ Eq (before ++ old :: after) (first.children x) := was ▸ List.forall₂_refl _
    rw [now]
    refine forall₂_exchange same (fun c other f is => .inl ⟨is, ?_⟩) fun f is => .inr ?_
    · subst is
      have apart : c ≠ old := by
        rintro rfl
        rw [was] at distinct
        simp only [List.nodup_append, List.nodup_cons] at distinct
        grind
      intro title
      have child : c ∈ first.children x := by
        rw [was]
        simpa using other.imp_right .inr
      obtain ⟨m', _, titled'⟩ := title.parent start.forest child
      exact apart (Option.some.inj (titled'.held.symm.trans titled.held))
    · subst is
      exact ⟨⟨m, member, x, titled⟩, supersedes⟩
  · have other : ∀ m ∈ done, ∀ old, ¬ m.Titled first x old := fun m member old titled => pair ⟨m, member, old, titled⟩
    rw [run.children lt other]
    refine List.forall₂_same.mpr fun f child => .inl ⟨rfl, fun title => ?_⟩
    obtain ⟨m, member, titled⟩ := title.parent start.forest child
    exact other m member f titled

/-- A new literal in the place of a title prints as such. -/
theorem fitted (start : first.Sound) (shaped : first.Shaped) (title : first.IsTitle done f) (child : f ∈ first.children x)
    (listed : f ∈ (doc.node x).firstChildren) (supersedes : doc.Supersedes (first.newTitle new f) c f) :
    first.Fitted doc (first.TitleNews new) x c f where
  ends := .there supersedes.replaces (.here (run.sound.firstTookNone listed))
  marked same := by
    have took := supersedes.replaces
    rw [same, run.sound.firstTookNone listed] at took
    cases took
  entry object := by
    obtain ⟨m, _, titled⟩ := title.parent start.forest child
    have pair := titled.pair
    rw [object] at pair
    cases pair
  shown outer inner _ place := by
    have buffer : (doc.node c).buffer? = none := by simp [Node.buffer?, supersedes.origin]
    have leaf : (doc.node c).children.isEmpty = true := List.isEmpty_iff.mpr supersedes.leaf
    simp only [printChild, buffer]
    rw [run.sound.forest.render_eq]
    simp only [printWith, supersedes.origin, leaf, if_true]
    obtain ⟨_, _, fits⟩ := shaped.laid place
    refine (Text.Patched.whole fits.1.le).congr fun exchange => ?_
    rw [TitleNews, place]
    constructor
    · rintro rfl
      exact ⟨rfl, rfl⟩
    · rintro ⟨same, is⟩
      cases same
      exact Prod.ext rfl is

/-- A file in which models were renamed is the file with their titles refitted. -/
theorem refit (fresh : first.Fresh program) (shaped : first.Shaped) (plain : first.Plain) :
    first.Refit doc (first.IsTitle done) (first.TitleNews new) where
  sound := run.sound
  ext := run.ext
  apart title titleToo below := title.apart fresh.sound.forest plain below titleToo
  places {x} lt _ := by
    obtain ⟨t, _, mirrors⟩ := fresh.mirrors x lt
    refine forall₂_imp_mem (run.places fresh.sound lt) fun c _ f child place => place.imp_right fun ⟨title, supersedes⟩ => ?_
    refine ⟨title, run.fitted fresh.sound shaped title child ?_ supersedes⟩
    rw [run.ext.firstChildren x lt, mirrors.firstChildren]
    exact child

end Renaming

theorem Fresh.plain (fresh : first.Fresh program) (leaves : program.Plain) : first.Plain where
  leaves token member := by
    obtain ⟨t, below, mirrors⟩ := fresh.mirrors _ (lt_of_mem_children member)
    exact mirrors.atomic leaves below token member

/-- Renaming models that were found in a file succeeds, and the text is then that of the file with the titles of these
    models exchanged. -/
theorem rename_retitles [Reader] {original : Document} (file : Document.parse dialect source = .ok original)
    (lawful : Reader.Lawful dialect source) {indent : List Char} (is : first = original.withFallbackIndent indent)
    (fresh : first.Fresh program) (leaves : program.Plain) (bare : program.Bare) {filter : Option (List Char)}
    (found : first.models filter = .ok done) (new : List Char) :
    ∃ set exchanges, (ModelSet.mk first done).apply (.setNamespace new) = (set, .ok ()) ∧
      Ordered 0 source.length (exchanges.map Prod.fst) ∧ set.doc.print = splice source source.length 0 exchanges ∧
      ∀ exchange, exchange ∈ exchanges ↔ first.Retitles done new first.root exchange := by
  obtain ⟨_, _, root, present⟩ := parse_buffers file
  have shaped : first.Shaped := is ▸ (parse_shaped file (parse_readable file lawful)).withFallbackIndent indent
  have plain := fresh.plain leaves
  have root : first.root = 0 := is ▸ root
  have present : 0 < first.nodes.size := is ▸ present
  have objects := models_objects found
  have titled : ∀ m ∈ done, ∃ p old, m.Titled first p old := fun m member => by
    obtain ⟨all, whole, rfl⟩ := models_all found
    exact recognize_titled (objects m member) (recognizeAll_mem whole (List.mem_of_mem_filter member))
  have distinct := models_nodup fresh.sound.forest (root ▸ present) found
  obtain ⟨doc, all, run⟩ := (Renaming.start fresh.sound new).all fresh.sound plain titled distinct
    fun _ _ _ absent => absurd absent List.not_mem_nil
  rw [List.append_nil] at run
  have among : ∀ {old}, first.IsTitle done.reverse old ↔ first.IsTitle done old := by simp [IsTitle]
  have other : ¬ first.IsTitle done.reverse first.root := fun title => by
    obtain ⟨m, member, _, _⟩ := among.mp title
    exact (plain.below title.token (models_below found m member)).1 (objects m member)
  obtain ⟨exchanges, ordered, shown, gathered⟩ :=
    (run.refit fresh shaped plain).print file lawful is fresh bare other
  refine ⟨⟨doc, done.map ({ · with space := new })⟩, exchanges, ?_, ordered, shown, fun exchange => ?_⟩
  · simp only [ModelSet.apply, all]
  · rw [gathered]
    simp only [Changes, Retitles, TitleNews, among]

end Document

end StoreModels
