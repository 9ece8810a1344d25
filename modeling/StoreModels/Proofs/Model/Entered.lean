import StoreModels.Proofs.Document.Brought
import StoreModels.Proofs.Document.Inserted
import StoreModels.Proofs.Model.Reached
import StoreModels.Proofs.Model.Refit
import StoreModels.Proofs.Record.Stock

/-!
Entries that are appended to the object literals of a file. The text of the file is what it was with a comma and the new
entry put in behind the last entry, its comma and its comments: nothing is lost and nothing changes its place.
-/
namespace StoreModels
open Syntax (Dialect Outline Span Reader Tree sampleReader)
open Text (slice splice Ordered Exchange Patched)

namespace Model

/-- Appends a pair with a key of some name, above the tree of a snippet, to an object literal. -/
def appendPair (object : NodeId) (name : List Char) (quote : Char) (snippet : Snippet) : Edit Snippet := do
  let (value, snippet) ← snippet.next
  let pair ← writePair name quote value
  Edit.change (·.append object pair)
  pure snippet

/-- An entry is added to a container by appending a pair. -/
theorem addEntry_eq (model : Model) (container : Container) (name : List Char) (snippet : Snippet) :
    model.addEntry container name snippet = (do
      let quote ← Edit.look model.quote
      let object ← model.ensureContainer container quote
      appendPair object name quote snippet) :=
  rfl

end Model

namespace Document
variable {first doc grown : Document} {dialect : Dialect} {source text name value : List Char} {quote : Char}
  {program : Tree} {object pair tree x : NodeId}

/-- A written pair has been appended to an object literal of a file, and nothing else has changed. -/
structure Entered (first doc : Document) (object pair : NodeId) (name : List Char) (quote : Char) (value : List Char) :
    Prop where
  sound : doc.Sound
  calm : Calm first doc (· = object) []
  entries : doc.entries object = first.entries object ++ [pair]
  spells : doc.Spells name quote value pair
  newer : first.nodes.size ≤ pair
  marked : (doc.node object).dirty = true
  tookNone : (doc.node pair).replaces = none

/-- Appending a pair above a snippet that was read succeeds. -/
theorem appendPair_entered [Reader] (sound : first.Sound) (texts : 0 < first.buffers.length)
    (role : first.role object = .object) (read : first.parseExpression text = .ok (grown, tree)) (name : List Char)
    (quote : Char) :
    ∃ doc pair, Edit.outcome (do Model.appendPair object name quote (← Snippet.parse text)) first = (.ok ⟨tree, true⟩, doc) ∧
      Entered first doc object pair name quote (grown.text tree) := by
  have lt : object < first.nodes.size := lt_of_role role (by decide)
  have move : Move first grown := .adopt text read
  have soundGrown := move.sound sound
  have quiet := parseExpression_calm read sound
  have brings := Brings.read sound texts read
  have loose : grown.Loose [object] tree := by
    obtain ⟨rfl, _, _, adopted⟩ := parseExpression_adopted read
    exact adopted.loose (sound.withBuffer _) (by simpa using lt)
  have ready : grown.Ready [object] [object] := .self soundGrown (by simpa using (quiet.ext.role lt).trans role)
  obtain ⟨paired, run, works, made, steady, fresh, _⟩ := writePair_run ready loose name quote
  have soundPaired := works.moves.sound soundGrown
  have written := made.calm steady loose.free
  have spells := made.spells steady soundGrown loose.free brings
  have rolePaired : paired.role object = .object :=
    (written.ext.role (Nat.lt_of_lt_of_le lt quiet.ext.size)).trans ((quiet.ext.role lt).trans role)
  have apart := fresh.apart object (by simp)
  obtain ⟨doc, fits, appended⟩ := append_ok soundPaired.forest rolePaired fresh.free apart
  have added := appended.calm fresh.free
  refine ⟨doc, grown.nodes.size + 1, ?_, ?_⟩
  · simp only [Model.appendPair, Snippet.parse, Snippet.next, Edit.outcome_bind, Edit.outcome_get, read, Edit.outcome_set,
      Edit.outcome_pure, Bool.false_eq_true, if_false, run, Edit.outcome_change, fits]
  · have newer : first.nodes.size ≤ tree := (parseExpression_adopted read).1.symm.le
    have later : ∀ y ∈ [tree], ¬ y < first.nodes.size := fun y member =>
      List.mem_singleton.mp member ▸ Nat.not_lt_of_ge newer
    have last : ∀ y ∈ [grown.nodes.size + 1], ¬ y < first.nodes.size := fun y member =>
      List.mem_singleton.mp member ▸ Nat.not_lt_of_ge (Nat.le_succ_of_le quiet.ext.size)
    have both := quiet.trans written sound.forest fun y member lt => absurd lt (later y member)
    have all := both.trans added sound.forest fun y member lt => absurd lt (last y member)
    refine ⟨appended.sound soundPaired rolePaired fresh.free, ?_, ?_, spells.calm added soundPaired ?_, ?_, ?_,
      appended.replaces⟩
    · refine all.mono sound.forest (fun z _ inside => by simpa using inside) (fun y member lt => ?_) (by simp)
      rcases List.mem_append.mp member with early | late
      · exact absurd lt (later y (by simpa using early))
      · exact absurd lt (last y late)
    · rw [appended.entries soundPaired.forest fresh.free made.role_pair, both.entries sound.forest lt (by simp)]
    · rintro z rfl
      exact apart
    · exact Nat.le_succ_of_le quiet.ext.size
    · exact (appended.edited.dirty object).mpr (.inr (Below.refl doc object))

namespace Entered
variable (entered : Entered first doc object pair name quote value) (fresh : first.Fresh program)
  (role : first.role object = .object) (some : first.entries object ≠ [])
include entered fresh role some

/-- The literal prints as its text with the pair put in. -/
theorem shown (shaped : first.Shaped) :
    ∃ (ending : Ending) (place : Span), (first.node object).origin = .parsed 0 place ∧
      ending.Of first.source (first.parsedItems object) ∧ place.start < place.stop ∧
      place.start ≤ ending.last.span.stop ∧ ending.tailEnd ≤ place.stop ∧ ∀ base, doc.render object base 0 =
        ending.inserted first.source (ending.separator first.source first.newline.text place)
          (Literal.keyText name quote ++ [':', ' '] ++
            Text.reindent value (ending.indent first.source place) first.newline.text) place.start place.stop := by
  have lt : object < first.nodes.size := lt_of_role role (by decide)
  have ext := entered.calm.ext
  have forest := fresh.sound.forest
  obtain ⟨place, origin, _⟩ := fresh.text_eq lt
  have parsed := (ext.origin object lt).trans origin
  have object' : doc.role object = .object := (ext.role lt).trans role
  obtain ⟨outline, places, fits⟩ := shaped.lays.stays fresh.sound ext lt parsed
  have firsts := fresh.firstEntries ext lt
  have source : doc.buffer 0 = first.source := ext.buffer fresh.texts
  have clean : ∀ f ∈ doc.firstEntries object, (doc.node f).dirty = false := by
    rw [firsts]
    intro f member
    have child := (mem_entries member).1
    have present := forest.childLt child
    obtain ⟨_, _, mirrors⟩ := fresh.mirrors f present
    rw [entered.calm.dirty f present fun z is below => forest.not_below_parent child (is ▸ below), mirrors.clean]
  obtain ⟨ending, is, wide, low, high, printed⟩ := @printObject_new doc doc.render pair _ _ _ _ entered.sound object' places
    fits (firsts ▸ entered.entries) (firsts ▸ some)
    (fun member => Nat.not_lt_of_ge entered.newer (forest.childLt (mem_entries (firsts ▸ member)).1)) entered.tookNone
    fun f member place origin indent => printChild_clean entered.sound.forest origin (clean f member) indent
  rw [source, fresh.sound.parsedItems_extends ext lt] at is
  refine ⟨ending, place, origin, is, wide, low, high, fun base => ?_⟩
  rw [entered.sound.forest.render_eq]
  simp only [printWith, parsed, entered.marked, Bool.not_true, Bool.false_eq_true, if_false]
  rw [if_pos (show (doc.node object).role = .object from object'), printed, entered.spells.printChild entered.sound.forest, source, ext.newline]

/-- A file in which a pair has been appended to an object literal is the file with the literal refitted. -/
theorem refit (bare : program.Bare) {place : Span} (origin : (first.node object).origin = .parsed 0 place)
    (wide : place.start < place.stop) {text : List Char} (shown : ∀ base, doc.render object base 0 = text) :
    first.Refit doc (· = object) fun _ exchange => exchange = (place, text) where
  sound := entered.sound
  ext := entered.calm.ext
  apart is same _ := is.trans same.symm
  places {x} lt other := by
    rw [entered.calm.children x lt other]
    refine List.forall₂_same.mpr fun f child => ?_
    by_cases here : f = object
    · subst here
      have parsed := (entered.calm.ext.origin f (fresh.sound.forest.childLt child)).trans origin
      refine .inr ⟨rfl, ?_, fun _ => entered.marked, fun literal => ?_, fun outer inner _ place' => ?_⟩
      · refine .here (entered.sound.firstTookNone (p := x) ?_)
        rw [fresh.firstChildren entered.calm.ext lt]
        exact child
      · -- A literal with entries is no part of another one.
        rcases fresh.bare bare literal child with entry | none
        · rw [role] at entry
          cases entry
        · exact absurd (by rw [Document.entries, none]; rfl) some
      · rw [origin] at place'
        cases place'
        have buffer : (doc.node f).buffer? = Option.some 0 := by simp [Node.buffer?, parsed]
        simp only [printChild, buffer, if_true, shown]
        exact Patched.whole (Nat.le_of_lt wide)
    · exact .inl ⟨rfl, here⟩

end Entered

/-- Whether no line comment ends where a node does. -/
def Clear (doc : Document) (id : NodeId) : Prop :=
  ∀ whole, (doc.node id).origin = .parsed 0 whole → ∀ c, doc.Below id c → ∀ place, (doc.node c).origin = .parsed 0 place →
    place.stop = whole.stop → Outline.isLineComment doc.source (doc.node c).kind place = false

/-- Appending a pair to an object literal with entries succeeds, and puts it in behind the last entry, its comma and its
    comments: the text gets one more comma, what separates the two entries, and the pair. -/
theorem append_inserts [Reader] {original : Document} (file : Document.parse dialect source = .ok original)
    (lawful : Reader.Lawful dialect source) (bare : ∀ program, Reader.program? dialect source = some program → program.Bare)
    {indent : List Char} (is : first = original.withFallbackIndent indent) (inside : first.Below first.root object)
    (role : first.role object = .object) (some : first.entries object ≠ [])
    (read : first.parseExpression text = .ok (grown, tree)) (name : List Char) (quote : Char) :
    ∃ (doc : Document) (place : Span) (ending : Ending) (separator : List Char),
      Edit.outcome (do Model.appendPair object name quote (← Snippet.parse text)) first = (.ok ⟨tree, true⟩, doc) ∧
      (first.node object).origin = .parsed 0 place ∧ ending.Of source (first.parsedItems object) ∧
      source.take ending.last.span.stop ++ slice source ending.last.span.stop ending.tailEnd ++
        source.drop ending.tailEnd = source ∧
      (first.Clear ending.last.id → separator = ending.separator source first.newline.text place) ∧
      doc.print = source.take ending.last.span.stop ++ (if ending.hasComma then [] else [',']) ++
        slice source ending.last.span.stop ending.tailEnd ++ separator ++
        (Literal.keyText name quote ++ [':', ' '] ++
          Text.reindent (grown.text tree) (ending.indent source place) first.newline.text) ++
        (if ending.hasComma then [','] else []) ++ source.drop ending.tailEnd := by
  obtain ⟨program, found, fresh⟩ := Fresh.ofFile file indent
  rw [← is] at fresh
  have bare := bare program found
  have shaped : first.Shaped := is ▸ (parse_shaped file (parse_readable file lawful)).withFallbackIndent indent
  have sourceIs : first.source = source := by
    rw [Document.source, is, buffer, withFallbackIndent, (parse_buffers file).1]
    rfl
  obtain ⟨doc, pair, run, entered⟩ := appendPair_entered fresh.sound fresh.texts role read name quote
  obtain ⟨ending, place, origin, ends, wide, low, high, shown⟩ := entered.shown fresh role some shaped
  rw [sourceIs] at ends shown
  obtain ⟨separator, separatorIs⟩ : ∃ s, s = ending.separator source first.newline.text place := ⟨_, rfl⟩
  obtain ⟨entry, entryIs⟩ : ∃ s, s = Literal.keyText name quote ++ [':', ' '] ++
    Text.reindent (grown.text tree) (ending.indent source place) first.newline.text := ⟨_, rfl⟩
  rw [← separatorIs, ← entryIs] at shown
  have patched : Patched source (· = (place, ending.inserted source separator entry place.start place.stop))
      (⟨0, source.length⟩, doc.print) := by
    by_cases top : first.root = object
    · refine print_patched file lawful is entered.calm.ext fun span parsed => ?_
      rw [top, entered.calm.ext.origin object (lt_of_role role (by decide)), origin] at parsed
      cases parsed
      rw [top, shown]
      exact Patched.whole (Nat.le_of_lt wide)
    · refine ((entered.refit fresh role some bare origin wide shown).print file lawful is fresh bare top).congr fun e => ?_
      constructor
      · rintro ⟨_, _, _, same⟩
        exact same
      · exact fun same => ⟨object, rfl, inside, same⟩
  obtain ⟨_, within, printed⟩ := patched.single wide
  have stretch : ending.last.span.stop ≤ ending.tailEnd := ends.trails.low
  refine ⟨doc, place, ending, separator, run, origin, ends, Text.take_slice_drop source stretch, fun _ => separatorIs, ?_⟩
  have whole : doc.print = _ := printed.trans (ending.inserted_within source separator entry (Nat.zero_le _) low high within)
  rw [whole, Ending.inserted, Text.slice_zero, Text.slice_end, ← entryIs]

/-- In the sample a second entry is appended behind the only one of the container, with a comma and a blank. -/
theorem append_inserts_sample :
    ∃ (doc : Document) (ending : Ending) (done : Snippet),
      Edit.outcome (do Model.appendPair 18 ['e'] '\'' (← @Snippet.parse sampleReader ['2'])) sampleFile = (.ok done, doc) ∧
      ending.Of Syntax.sampleText (sampleFile.parsedItems 18) ∧
      doc.print = "x=\x7bnamespace:'a',reducers:\x7bb:1, e: 2\x7d\x7d".toList := by
  have same : sampleFile = sampleFile.withFallbackIndent sampleFile.fallbackIndent := withFallbackIndent_self.symm
  have inside : sampleFile.Below sampleFile.root 18 :=
    below_of_mem_descend (by decide +kernel : 18 ∈ sampleFile.descend sampleFile.nodes.size sampleFile.root)
  have reads : (@parseExpression sampleReader sampleFile ['2']).isOk = true := by decide +kernel
  cases read : @parseExpression sampleReader sampleFile ['2'] with
  | error failure =>
    rw [read] at reads
    cases reads
  | ok result =>
    obtain ⟨doc, place, ending, _, run, _, ends, _⟩ := @append_inserts _ _ _ _ _ _ _ sampleReader _ sampleFile_parsed
      (Syntax.sampleReader_regular _ _).1 (by rintro _ ⟨⟩; decide +kernel) _ same inside (by decide +kernel)
      (by decide +kernel) read ['e'] '\''
    refine ⟨doc, ending, _, run, ends, ?_⟩
    have is : doc = (Edit.outcome (do Model.appendPair 18 ['e'] '\'' (← @Snippet.parse sampleReader ['2'])) sampleFile).2 := by
      rw [run]
    rw [is]
    decide +kernel

end Document

/-! ## A line comment without a line feed -/

/-- What is put into a text costs it no character. -/
theorem Text.mem_inserted {text : List Char} {a b : Nat} (le : a ≤ b) (comma gap pair comma' : List Char) {c : Char}
    (member : c ∈ text) : c ∈ text.take a ++ comma ++ slice text a b ++ gap ++ pair ++ comma' ++ text.drop b := by
  rw [← Text.take_slice_drop text le] at member
  simp only [List.mem_append] at member ⊢
  tauto

namespace Syntax

/-- A file with an object literal in which a line comment ends in a line separator, not in a line feed. -/
def separatorText : List Char := "x=\x7bnamespace:'a',reducers:\x7ba:1,//c\u2028/*\n*/b:2\x7d\x7d".toList

/-- The tree of the file. -/
def separatorTree : Tree :=
  .assigned 0 (.braced (some "right") 2 45
    [.spaced 3, .mark "," 16, .keyed 17 25 (.braced (some "value") 26 44
      [.keyed 27 28 (.number (some "value") 29 30), .mark "," 30, .comment 31 34,
        .comment 35 40, .keyed 40 41 (.number (some "value") 42 43)])])

/-- A reader of this file and the sample snippet. -/
@[reducible] def separatorReader : Reader :=
  ⟨fun _ text => List.lookup text [(separatorText, separatorTree), (snippetText ['2'], sampleSnippetTree)]⟩

end Syntax

namespace Document
open Syntax (separatorText separatorTree separatorReader)

def separatorFile : Document := ofTree .markup separatorText separatorTree

/-- The file after an entry has been appended to the container. -/
def separatorEntered : Except Failure Snippet × Document :=
  Edit.outcome (do Model.appendPair 18 ['e'] '\'' (← @Snippet.parse separatorReader ['2'])) separatorFile

/-- Appending an entry can lose a character, so that it puts in nothing: the line separator that ends a line comment is
    exchanged for a line feed. -/
theorem append_inserts_unfed :
    @Document.parse separatorReader .markup separatorText = .ok separatorFile ∧
      separatorFile.role 18 = .object ∧ separatorFile.entries 18 ≠ [] ∧
      separatorEntered.1.map Snippet.used = .ok true ∧
      separatorEntered.2.print = "x=\x7bnamespace:'a',reducers:\x7ba:1,//c\n/*\n*/b:2, e: 2\x7d\x7d".toList ∧
      ∀ a b comma gap pair comma', a ≤ b → separatorEntered.2.print ≠ separatorText.take a ++ comma ++
        slice separatorText a b ++ gap ++ pair ++ comma' ++ separatorText.drop b := by
  have printed : separatorEntered.2.print =
      "x=\x7bnamespace:'a',reducers:\x7ba:1,//c\n/*\n*/b:2, e: 2\x7d\x7d".toList := by decide +kernel
  refine ⟨rfl, by decide +kernel, by decide +kernel, by decide +kernel, printed, ?_⟩
  intro a b comma gap pair comma' le same
  have lost : '\u2028' ∉ separatorEntered.2.print := by rw [printed]; decide +kernel
  have there : '\u2028' ∈ separatorText := by decide +kernel
  exact lost (same ▸ Text.mem_inserted le comma gap pair comma' there)

end Document

end StoreModels
