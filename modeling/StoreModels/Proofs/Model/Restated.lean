import StoreModels.Proofs.Model.Halted
import StoreModels.Proofs.Model.Restating
import StoreModels.Proofs.Model.Substituted

/-!
States that are read back. Another state of the models of a file takes the places of the old ones in its text. As long as
no token of it goes over a line end, the text that is printed can be read, it has the models that the file had, and each
of them that had a state has the new one, whatever the indentation and the line breaks where it stands.
-/
namespace StoreModels
open Syntax (Dialect Reader Tree Role Seat Substitute)
open Text (slice splice Ordered Exchange)

/-! ## Readers -/

namespace Syntax

/-- The expression of a snippet as it goes into a file under a name. -/
def Substitute.ofSnippet (file name snippet : List Char) (expression : Tree) : Substitute where
  text := snippetText (Text.trim snippet)
  expression := expression
  name := name
  newline := (Text.newlineOf file).text

/-- A place that a text offers to an expression with a bare name: that of the value of a pair under the name, where the
    lines are indented as the one that it starts in, or that of an entry of an object literal without a value. -/
def Tree.Offers (text name : List Char) (tree : Tree) (seat : Seat) : Prop :=
  ∃ above ∈ tree.subtrees, ∃ part ∈ above.children, seat.isAt (Role.ofKind above.kind) part = true ∧
    if seat.ofValue then seat.indent = Text.lineIndent text seat.span.start ∧ ∃ key ∈ above.children,
      key.field = some "key" ∧ (Role.ofKind key.kind = .propertyIdentifier ∨ Role.ofKind key.kind = .identifier) ∧
        slice text key.span.start key.span.stop = name
    else ∀ c ∈ seat.indent, Text.isIndent c = true

/-- What is relied on when a literal expression takes places in a text. The trees lie in their texts, tokens and object
    literals have no other parts than they should have, and what makes way is not empty. With the expression in some of
    its places, moved over to the lines there, the text can be read, and nothing else of its tree has changed. -/
structure Reader.Receives [Reader] (dialect : Dialect) (text : List Char) (substitute : Substitute) : Prop where
  lawful : Reader.Lawful dialect text
  plain : Reader.Plain dialect text
  bare : ∀ tree, Reader.program? dialect text = some tree → tree.Bare
  conforms : substitute.expression.Conforms substitute.text
  wide : ∀ tree, Reader.program? dialect text = some tree → ∀ seat, tree.Offers text substitute.name seat →
    seat.span.start < seat.span.stop
  received : ∀ tree, Reader.program? dialect text = some tree → ∀ seats : List Seat,
    Ordered 0 text.length (seats.map Seat.span) → (∀ seat ∈ seats, tree.Offers text substitute.name seat) →
    ∃ tree', Reader.program? dialect (splice text text.length 0 (seats.map substitute.exchange)) = some tree' ∧
      substitute.Keeps text (splice text text.length 0 (seats.map substitute.exchange)) seats tree tree'

end Syntax

/-! ## States that are set -/

namespace ModelSet
variable [Reader] {doc grown : Document} {models : List Model} {text : List Char} {tree : NodeId}

/-- Setting a state to a snippet that can be read does not fail. -/
theorem setState_ok (sound : doc.Sound) (objects : ∀ m ∈ models, doc.role m.object = .object)
    (read : doc.parseExpression text = .ok (grown, tree)) :
    ∃ doc', Edit.outcome (editEntries models (.setState text)) doc = (.ok (), doc') := by
  cases run : Edit.outcome (editEntries models (.setState text)) doc with
  | mk result doc' =>
    cases result with
    | ok _ => exact ⟨doc', rfl⟩
    | error failure =>
      have applied := apply_of_outcome (by simp) run
      have intact := (apply_does sound objects (.setState text)).2 failure (by rw [applied])
      have failed : Edit.outcome (forAll Model.setState ⟨tree, false⟩ models) grown = (.error failure, doc') := by
        have runs : Edit.outcome (do forAll Model.setState (← Snippet.parse text) models) doc = (.error failure, doc') := run
        rwa [Edit.outcome_bind, parse_outcome, read] at runs
      have breaks := forAll_firm Model.setState_firm _ models grown failure doc' failed
      rw [intact] at breaks
      cases breaks

end ModelSet

/-! ## Places of targets -/

/-- There is one target in a model that gets another state. -/
theorem Model.StateTarget.unique {m : Model} {first : Document} {t u : Target} (aimed : m.StateTarget first t)
    (aimed' : m.StateTarget first u) : t = u := by
  obtain ⟨object, quote, named⟩ := aimed
  obtain ⟨object', quote', named'⟩ := aimed'
  cases t
  cases u
  simp_all

namespace Document
variable {first : Document} {program : Tree} {substitute : Substitute} {seat : Seat} {t : Target} {exchange : Exchange}
  {e p x value : NodeId} {name source : List Char}

/-- A node that can make way was read as a tree that can. -/
theorem Mirrors.sitsAt {tree : Tree} (mirrors : first.Mirrors 0 p tree) (child : x ∈ first.children p)
    (sits : first.SitsAt seat (first.role p) x) : ∃ part ∈ tree.children, seat.isAt (Role.ofKind tree.kind) part = true := by
  obtain ⟨part, listed, reads⟩ := forall₂_mem_left mirrors.children child
  refine ⟨part, listed, ?_⟩
  obtain ⟨origin, either⟩ := sits
  have same : part.span = seat.span := (Origin.parsed.inj (reads.origin.symm.trans origin)).2
  rw [role, Node.role, mirrors.kind, reads.field, role, Node.role, reads.kind] at either
  rw [Seat.isAt, same]
  revert either
  cases seat.ofValue <;> simp +contextual

/-- A pair with a bare name was read as one with a key of that name. -/
theorem Mirrors.bareKey {tree : Tree} (mirrors : first.Mirrors 0 e tree) (fresh : first.Fresh program)
    (pair : first.role e = .pair) (named : first.entryIdentifier? e = some name) :
    ∃ key ∈ tree.children, key.field = some "key" ∧
      (Role.ofKind key.kind = .propertyIdentifier ∨ Role.ofKind key.kind = .identifier) ∧
      slice first.source key.span.start key.span.stop = name := by
  simp only [entryIdentifier?, entryKey?, pair, Option.bind_eq_some_iff, Option.map_eq_some_iff] at named
  obtain ⟨_, ⟨k, found, rfl⟩, bare⟩ := named
  obtain ⟨child, field⟩ := childByField?_some found
  obtain ⟨key, listed, reads⟩ := forall₂_mem_left mirrors.children child
  obtain ⟨span, origin, text⟩ := fresh.text_eq (fresh.sound.forest.childLt child)
  cases origin.symm.trans reads.origin
  have role : first.role k = Role.ofKind key.kind := by rw [Document.role, Node.role, reads.kind]
  rw [keyOf, role, text] at bare
  refine ⟨key, listed, reads.field.symm.trans field, ?_⟩
  split at bare
  next is => exact ⟨.inl is, Option.some.inj bare⟩
  next is => exact ⟨.inr is, Option.some.inj bare⟩
  all_goals cases bare

/-- What a target is exchanged for is the expression in a place that its text offers. -/
theorem Refills.offered (refills : first.Refills substitute.name source t exchange) (fresh : first.Fresh program)
    (shaped : first.Shaped) (lies : t.Lies first) (named : first.entryIdentifier? t.entry = some substitute.name)
    (key : Literal.keyText substitute.name t.quote = substitute.name)
    (text : slice substitute.text substitute.expression.span.start substitute.expression.span.stop = source)
    (newline : substitute.newline = first.newline.text) : ∃ seat : Seat, substitute.exchange seat = exchange ∧
      first.SitsAt seat (first.role (t.holder first)) (t.spot first) ∧ program.Offers first.source substitute.name seat := by
  obtain ⟨place, told⟩ := exchange
  obtain ⟨tree, member, mirrors⟩ := fresh.mirrors _ (lt_of_mem_children lies.spot_child)
  unfold Refills at refills
  cases held : first.pairValue? t.entry with
  | some value =>
    rw [held] at refills
    obtain ⟨origin, is⟩ := refills
    obtain rfl : told = Text.reindent source (Text.lineIndent first.source place.start) first.newline.text := is
    obtain ⟨pair, child, field⟩ := pairValue?_some held
    obtain ⟨spot, holder⟩ := Target.spot_pair held
    have sits : first.SitsAt ⟨place, Text.lineIndent first.source place.start, true⟩ (first.role (t.holder first))
        (t.spot first) := by
      rw [spot, holder, pair]
      exact ⟨origin, rfl, field⟩
    obtain ⟨part, listed, isAt⟩ := mirrors.sitsAt lies.spot_child sits
    rw [holder] at mirrors
    refine ⟨_, ?_, sits, tree, member, part, listed, isAt, rfl, mirrors.bareKey fresh pair named⟩
    simp only [Substitute.exchange, Substitute.moved, text, newline, if_true, List.nil_append]
  | none =>
    rw [held] at refills
    obtain ⟨origin, outer, _, is⟩ := refills
    obtain rfl : told = _ := is
    obtain ⟨spot, holder⟩ := Target.spot_entry held
    have entry := (mem_entries lies.entry).2
    have sits : first.SitsAt ⟨place, (first.layout t.object first.source outer).entryIndent first.source, false⟩
        (first.role (t.holder first)) (t.spot first) := by
      rw [spot, holder, lies.object]
      refine ⟨origin, rfl, entry, fun pair => ?_⟩
      obtain ⟨c, child, field⟩ := shaped.valued pair
      rw [pairValue?, if_pos pair, childByField?, List.find?_eq_none] at held
      exact held c child (by simp [field])
    obtain ⟨part, listed, isAt⟩ := mirrors.sitsAt lies.spot_child sits
    refine ⟨_, ?_, sits, tree, member, part, listed, isAt, fun c => Layout.isIndent_entryIndent _⟩
    simp only [Substitute.exchange, Substitute.moved, text, newline, key, Bool.false_eq_true, if_false]

/-- Every target is exchanged for something. -/
theorem exists_refills (fresh : first.Fresh program) (lies : t.Lies first) (name source : List Char) :
    ∃ exchange, first.Refills name source t exchange ∧ (first.node (t.spot first)).origin = .parsed 0 exchange.1 := by
  obtain ⟨inner, origin, _⟩ := fresh.text_eq (fresh.sound.forest.childLt lies.spot_child)
  obtain ⟨outer, above, _⟩ := fresh.text_eq (lt_of_mem_children lies.spot_child)
  exact ⟨_, (refills_iff lies origin above).mpr rfl, origin⟩

/-- The exchanges of targets put the expression in places that the text offers, each of which is that of a target. -/
theorem seats_of_exchanges (substitute : Substitute) (done : Target → Prop) {exchanges : List Exchange} (fresh : first.Fresh program)
    (shaped : first.Shaped) (pristine : first.Pristine 0 first.root) (present : first.root < first.nodes.size)
    (lies : ∀ t, done t → t.Lies first) (attached : ∀ t, done t → first.Below first.root t.object)
    (named : ∀ t, done t → first.entryIdentifier? t.entry = some substitute.name)
    (key : ∀ t, done t → Literal.keyText substitute.name t.quote = substitute.name)
    (apart : ∀ t u, done t → done u → first.Below (t.spot first) (u.spot first) → t = u)
    (text : slice substitute.text substitute.expression.span.start substitute.expression.span.stop = source)
    (newline : substitute.newline = first.newline.text)
    (wide : ∀ seat, program.Offers first.source substitute.name seat → seat.span.start < seat.span.stop)
    (gathered : ∀ exchange, exchange ∈ exchanges ↔ ∃ t, done t ∧ first.Refills substitute.name source t exchange) :
    ∃ seats : List Seat, seats.map substitute.exchange = exchanges ∧
      (∀ seat ∈ seats, program.Offers first.source substitute.name seat ∧
        ∃ t, done t ∧ first.SitsAt seat (first.role (t.holder first)) (t.spot first)) ∧
      ∀ t, done t → ∃ seat ∈ seats, first.SitsAt seat (first.role (t.holder first)) (t.spot first) := by
  have offered : ∀ exchange ∈ exchanges, ∃ seat, exchange = substitute.exchange seat ∧
      program.Offers first.source substitute.name seat ∧
        ∃ t, done t ∧ first.SitsAt seat (first.role (t.holder first)) (t.spot first) := fun exchange member => by
    obtain ⟨t, due, refills⟩ := (gathered exchange).mp member
    obtain ⟨seat, is, sits, offers⟩ := refills.offered fresh shaped (lies t due) (named t due) (key t due) text newline
    exact ⟨seat, is.symm, offers, t, due, sits⟩
  obtain ⟨seats, pairs, each⟩ := forall₂_total offered
  rw [← List.forall₂_map_right_iff, List.forall₂_eq_eq_eq] at pairs
  refine ⟨seats, pairs.symm, each, fun t due => ?_⟩
  obtain ⟨exchange, refills, origin⟩ := exists_refills fresh (lies t due) substitute.name source
  have member := (gathered exchange).mpr ⟨t, due, refills⟩
  rw [pairs] at member
  obtain ⟨seat, listed, rfl⟩ := List.mem_map.mp member
  obtain ⟨offers, u, due', sits⟩ := each seat listed
  have spotted : ∀ t, done t → first.Below first.root (t.spot first) := fun t due =>
    (attached t due).trans (lies t due).below_spot
  -- The place of the target is that of another one at most if one lies within the other.
  have same : u = t := by
    rcases below_or_above fresh.sound.forest shaped pristine present (wide seat offers) (spotted u due') (spotted t due)
      sits.1 origin with up | up
    · exact apart u t due' due up
    · exact (apart t u due due' up).symm
  exact ⟨seat, listed, same ▸ sits⟩

/-! ## States that are read back -/

/-- What is below an expression that was read is found from it. -/
theorem mem_descendants_read [Reader] {doc grown : Document} {text : List Char} {tree y : NodeId} (sound : doc.Sound)
    (read : doc.parseExpression text = .ok (grown, tree)) : y ∈ grown.descendants tree ↔ grown.Below tree y := by
  obtain ⟨rfl, expression, parsed, _⟩ := parseExpression_adopted read
  obtain ⟨_, read', _, bears⟩ := parseExpression_bears parsed
  cases read.symm.trans read'
  exact mem_descendants (Move.sound (.adopt text read) sound).forest (lt_of_bears bears)

theorem keyText_stateName : Literal.keyText Model.stateName '\'' = Model.stateName := by decide

/-- Other states put the expression in the places of the old ones, and the text that is printed can be read again. -/
theorem setState_restates [Reader] {original first grown : Document} {dialect : Dialect} {text indent : List Char}
    {filter : Option (List Char)} {models : List Model} {tree : NodeId} {expression : Tree}
    (file : Document.parse dialect source = .ok original) (is : first = original.withFallbackIndent indent)
    (found : first.models filter = .ok models)
    (separate : ∀ m ∈ models, ∀ m' ∈ models, first.Below m.object m'.object → m' = m)
    (read : first.parseExpression text = .ok (grown, tree)) (bears : grown.Bears first.buffers.length tree expression)
    (known : grown.buffer first.buffers.length = Syntax.snippetText (Text.trim text))
    (law : Reader.Receives dialect source (.ofSnippet source Model.stateName text expression)) :
    ∃ doc, ∃ r : Restating, (ModelSet.mk first models).apply (.setState text) = (⟨doc, models⟩, .ok ()) ∧
      Document.parse dialect doc.print = .ok r.again ∧ r.first = first ∧
      r.substitute = .ofSnippet source Model.stateName text expression ∧
      ∀ t, r.done t ↔ ∃ m ∈ models, m.StateTarget first t := by
  obtain ⟨program, readFile, fresh⟩ := Fresh.ofFile file indent
  obtain ⟨program', readFile', rooted, held⟩ := parse_bears file indent
  cases readFile.symm.trans readFile'
  rw [← is] at fresh rooted held
  have start := fresh.sound
  have objects := models_objects found
  have shaped : first.Shaped := is ▸ (parse_shaped file (parse_readable file law.lawful)).withFallbackIndent indent
  have present : first.root < first.nodes.size := lt_of_bears rooted
  have pristine : first.Pristine 0 first.root := by
    subst is
    exact parse_pristine file indent present
  have newline : first.newline = Text.newlineOf source := is ▸ (parse_style file).1
  obtain ⟨doc, run⟩ := ModelSet.setState_ok start objects read
  obtain ⟨_, _, again, exchanges, ordered, printed, gathered⟩ := substitutes file law.lawful is fresh
    (law.bare program readFile) found separate (fun m member => setState_fills start (objects m member)) run
  cases read.symm.trans again
  have lies : ∀ t, (∃ m ∈ models, m.StateTarget first t) → t.Lies first := fun t ⟨m, member, aimed⟩ =>
    (setState_fills start (objects m member)).lies t aimed
  have attached : ∀ t, (∃ m ∈ models, m.StateTarget first t) → first.Below first.root t.object :=
    fun t ⟨m, member, aimed⟩ => (models_below found m member).trans ((setState_fills start (objects m member)).below t aimed)
  have apart : ∀ t u, (∃ m ∈ models, m.StateTarget first t) → (∃ m ∈ models, m.StateTarget first u) →
      first.Below (t.spot first) (u.spot first) → t = u := by
    rintro t u ⟨m, member, aimed⟩ ⟨n, member', aimed'⟩ below
    have high := (aimed.1 ▸ (lies t ⟨m, member, aimed⟩).below_spot).trans below
    have high' : first.Below n.object (u.spot first) := aimed'.1 ▸ (lies u ⟨n, member', aimed'⟩).below_spot
    obtain rfl : n = m := by
      rcases start.forest.below_or_below high high' with down | up
      · exact separate m member n member' down
      · exact (separate n member' m member up).symm
    exact aimed.unique aimed'
  obtain ⟨seats, rfl, each, seated⟩ := seats_of_exchanges
    (.ofSnippet source Model.stateName text expression) (fun t => ∃ m ∈ models, m.StateTarget first t)
    fresh shaped pristine present lies attached
    (fun t ⟨m, _, aimed⟩ => (entryNamed?_some aimed.2.2).2) (fun t ⟨m, _, aimed⟩ => aimed.2.1 ▸ keyText_stateName) apart
    (known ▸ bears.text (Move.sound (.adopt text read) start).forest).symm (by rw [newline]; rfl)
    (held ▸ law.wide program readFile) fun exchange => (gathered exchange).trans ⟨
      fun ⟨m, member, t, aimed, refills⟩ => ⟨t, ⟨m, member, aimed⟩, refills⟩,
      fun ⟨t, ⟨m, member, aimed⟩, refills⟩ => ⟨m, member, t, aimed, refills⟩⟩
  rw [List.map_map] at ordered
  obtain ⟨tree', reread, keeps⟩ := law.received program readFile seats ordered fun seat member => held ▸ (each seat member).1
  simp only at printed
  rw [← printed] at reread keeps
  have parsed : Document.parse dialect doc.print = .ok (ofTree dialect doc.print tree') := by
    rw [Document.parse, reread]
  have shown : (ofTree dialect doc.print tree').source = doc.print := by
    rw [Document.source, buffer, (parse_buffers parsed).1]
    rfl
  refine ⟨doc, ⟨first, ofTree dialect doc.print tree', _, seats, _, start.forest, (parse_sound parsed).forest, shaped,
    pristine, fresh.plain (law.plain program readFile), present, ⟨program, tree', rooted, ofTree_bears _ _ _, ?_⟩, lies,
    attached, fun t ⟨m, _, aimed⟩ => (entryNamed?_some aimed.2.2).2,
    fun seat member => law.wide program readFile seat (held ▸ (each seat member).1), fun seat member => (each seat member).2,
    seated⟩, ModelSet.apply_of_outcome (by simp) run, parsed, rfl, rfl, fun t => Iff.rfl⟩
  rw [held, shown]
  exact keeps

/-- A state that is written is the state that is read back. Where no token of it goes over a line end, setting the state of
    the models of a file to an expression that has a value succeeds. The text that is printed can be read, it has the
    models that the file had, and in each of them the last entry with the bare name of a state now has that value, if there
    was one. -/
theorem state_returns [Reader] {original first grown : Document} {dialect : Dialect} {text indent : List Char}
    {filter : Option (List Char)} {models : List Model} {tree : NodeId} {v : Value}
    (file : Document.parse dialect source = .ok original) (is : first = original.withFallbackIndent indent)
    (found : first.models filter = .ok models)
    (separate : ∀ m ∈ models, ∀ m' ∈ models, first.Below m.object m'.object → m' = m)
    (read : first.parseExpression text = .ok (grown, tree)) (value : grown.evaluate tree = .ok v)
    (spaceless : grown.Spaceless tree) (unbroken : grown.Unbroken tree)
    (receives : ∀ expression, Syntax.parseSnippet dialect (Text.trim text) = .ok expression →
      Reader.Receives dialect source (.ofSnippet source Model.stateName text expression)) :
    ∃ doc again models', (ModelSet.mk first models).apply (.setState text) = (⟨doc, models⟩, .ok ()) ∧
      Document.parse dialect doc.print = .ok again ∧ again.models filter = .ok models' ∧
      List.Forall₂ (fun m m' => m'.space = m.space ∧ ∀ entry, first.entryNamed? m.object Model.stateName = some entry →
        ∃ entry', again.entryNamed? m'.object Model.stateName = some entry' ∧
          again.evaluate (again.entryBody entry') = .ok v) models models' := by
  obtain ⟨_, _, fresh⟩ := Fresh.ofFile file indent
  rw [← is] at fresh
  have language : first.dialect = dialect := is ▸ (parse_buffers file).2.1
  obtain ⟨rfl, expression, parsed, _⟩ := parseExpression_adopted read
  have law := receives expression (language ▸ parsed)
  obtain ⟨_, read', known, bears⟩ := parseExpression_bears parsed
  cases read.symm.trans read'
  obtain ⟨doc, r, applied, reparsed, rfl, substitute, done⟩ :=
    setState_restates file is found separate read bears known law
  have name : r.substitute.name = Model.stateName := congrArg Substitute.name substitute
  have bears : grown.Bears r.first.buffers.length r.first.nodes.size r.substitute.expression := substitute ▸ bears
  have known : grown.buffer r.first.buffers.length = r.substitute.text := substitute ▸ known
  have conforms : r.substitute.expression.Conforms r.substitute.text := substitute ▸ law.conforms
  have forest := (Move.sound (.adopt text read) fresh.sound).forest
  have nothing : ∀ t, r.done t → ∀ z, r.first.Below (t.spot r.first) z → r.first.role z = .object →
      r.first.recognize filter z = .ok none := fun t gone z below object => by
    obtain ⟨m, member, aimed⟩ := (done t).mp gone
    have lies := r.lies t gone
    have listed : z ∈ r.first.objects := List.mem_filter.mpr ⟨mem_descend (r.forest.fits r.present)
      (((r.attached t gone).trans lies.below_spot).trans below), by simpa using object⟩
    rcases mem_of_recognize found listed with none | ⟨n, member', is⟩
    · exact none
    · have here := recognize_object is
      have down : r.first.Below m.object (t.holder r.first) := aimed.1 ▸ lies.below_holder
      obtain rfl := separate m member n member' (here ▸ (down.tail lies.spot_child).trans below)
      exact absurd (below.trans (here ▸ down)) (r.forest.not_below_parent lies.spot_child)
  obtain ⟨models', found', pairs⟩ := r.models nothing
    (fun is below object => is.recognize bears known conforms forest r.forest' unbroken spaceless below object filter)
    (by rw [name]; decide) found
  refine ⟨doc, r.again, models', applied, reparsed, found', forall₂_imp_mem pairs fun m member m' _ both => ?_⟩
  refine ⟨both.1, fun entry named => ?_⟩
  obtain ⟨entry', indent', named', gone⟩ := both.2.entryNamed? (models_objects found m member) (name ▸ named)
    ((done ⟨m.object, entry, '\''⟩).mpr ⟨m, member, rfl, rfl, named⟩) rfl
  exact ⟨entry', name ▸ named', gone.evaluate bears known conforms forest r.forest' unbroken value⟩

end Document

/-! ## A sample -/

namespace Syntax

/-- A file whose model has a state, on a line with an indentation. -/
def statedText (value : String) : List Char := " x=\x7bnamespace:'a',state:".toList ++ value.toList ++ ['\x7d']

/-- The tree of the file. -/
def statedTree (value : Tree) : Tree :=
  .assigned 1 (.braced (some "right") 3 (value.span.stop + 1) [.spaced 4, .mark "," 17, .keyed 18 23 value])

/-- The state of the file. -/
def stateTree : Tree := .number (some "value") 24 25

/-- A state over two lines. -/
def linesSnippet : List Char := "\x7bp:\n'q'\x7d".toList

/-- A state with a line end within a string literal. -/
def continuedSnippet : List Char := "'p\\\nq'".toList

/-- The pair of that state, at some place and with some indentation. -/
def linesPair (start indent : Nat) : Tree :=
  let value := start + 3 + indent
  .keyed start (start + 1) (.quoted (some "value") value (value + 3) [.fragment (value + 1) (value + 2)])

def linesTree : Tree := .braced none 1 9 [linesPair 2 0]

def linesStateTree : Tree := .braced (some "value") 24 33 [linesPair 25 1]

/-- The parts of the other state. -/
def continuedParts (start stop : Nat) : List Tree :=
  [.fragment start (start + 1), .escape (start + 1) (start + 3), .fragment (start + 3) stop]

def continuedStateTree : Tree := .quoted (some "value") 24 31 (continuedParts 25 30)

/-- A reader of the file, of the two snippets and of the file with each of them as the state. -/
@[reducible] def statedReader : Reader :=
  ⟨fun _ text => List.lookup text [
    (statedText "1", statedTree stateTree),
    (snippetText linesSnippet, .enclosed 11 linesTree),
    (statedText "\x7bp:\n 'q'\x7d", statedTree linesStateTree),
    (snippetText continuedSnippet, .enclosed 9 (.quoted none 1 7 (continuedParts 2 6))),
    (statedText "'p\\\n q'", statedTree continuedStateTree)]⟩

end Syntax

open Syntax (statedText statedTree stateTree statedReader linesSnippet linesTree linesStateTree continuedSnippet
  continuedStateTree)

namespace Document

def statedFile : Document := ofTree .markup (statedText "1") (statedTree stateTree)

/-- There is one place in the file where a state can go. -/
theorem statedFile_offers {seat : Seat} (offers : (statedTree stateTree).Offers (statedText "1") Model.stateName seat) :
    seat = ⟨⟨24, 25⟩, [' '], true⟩ := by
  have values : ∀ above ∈ (statedTree stateTree).subtrees, ∀ part ∈ above.children, ∀ key ∈ above.children,
      part.field = some "value" → slice (statedText "1") key.span.start key.span.stop = Model.stateName →
      part.span = ⟨24, 25⟩ := by decide +kernel
  have entries : ∀ above ∈ (statedTree stateTree).subtrees, ∀ part ∈ above.children, Role.ofKind above.kind = .object →
      (Role.ofKind part.kind).isEntry = true → Role.ofKind part.kind = .pair := by decide +kernel
  obtain ⟨above, below, part, child, isAt, place⟩ := offers
  obtain ⟨span, indent, ofValue⟩ := seat
  simp only [Seat.isAt, Bool.and_eq_true, decide_eq_true_eq] at isAt
  obtain ⟨rfl, role⟩ := isAt
  cases ofValue with
  | true =>
    simp only [if_true, Bool.and_eq_true, beq_iff_eq] at role place
    obtain ⟨is, key, listed, _, _, named⟩ := place
    have lies := values above below part child key listed role.2 named
    rw [lies] at is ⊢
    rw [is]
    rfl
  | false =>
    simp only [Bool.false_eq_true, if_false, Bool.and_eq_true, beq_iff_eq, bne_iff_ne] at role
    exact absurd (entries above below part child role.1.1 role.1.2) role.2

theorem statedFile_parsed : @Document.parse statedReader .markup (statedText "1") = .ok statedFile := rfl

theorem statedFile_sound : statedFile.Sound := @parse_sound _ _ _ statedReader statedFile_parsed

theorem statedFile_models : statedFile.models none = .ok [⟨5, ['a']⟩] := by decide +kernel

/-- The file with a snippet beside it. -/
def statedGrown (snippet : List Char) : Document × NodeId :=
  match @parseExpression statedReader statedFile snippet with
  | .ok grown => grown
  | .error _ => (statedFile, 0)

theorem statedGrown_read {snippet : List Char} (reads : (@parseExpression statedReader statedFile snippet).isOk = true) :
    @parseExpression statedReader statedFile snippet = .ok ((statedGrown snippet).1, (statedGrown snippet).2) := by
  unfold statedGrown
  split
  next grown read => exact read
  next failure read =>
    rw [read] at reads
    cases reads

/-- The file with the lines as the state can be read, and nothing else of its tree has changed. -/
theorem statedReader_receives :
    @Reader.Receives statedReader .markup (statedText "1")
      (.ofSnippet (statedText "1") Model.stateName linesSnippet linesTree) := by
  refine @Reader.Receives.mk statedReader _ _ _ (fun tree read => ?_) (fun tree read => ?_) (fun tree read => ?_) ?_
    (fun tree read seat offers => ?_) fun tree read seats ordered offers => ?_
  · cases read
    decide +kernel
  · cases read
    decide +kernel
  · cases read
    decide +kernel
  · exact (by decide +kernel : linesTree.Conforms (Syntax.snippetText linesSnippet))
  · cases read
    rw [statedFile_offers offers]
    decide
  · cases read
    have same : ∀ seat ∈ seats, seat = ⟨⟨24, 25⟩, [' '], true⟩ := fun seat member => statedFile_offers (offers seat member)
    match seats, same, ordered with
    | [], _, _ => exact ⟨_, by rfl, by decide +kernel⟩
    | [seat], same, _ =>
      rw [same seat (by simp)]
      exact ⟨statedTree linesStateTree, by rfl, by decide +kernel⟩
    | first :: second :: _, same, ordered =>
      -- The place can be taken once.
      rw [same first (by simp), same second (by simp)] at ordered
      exact absurd ordered.2.2.1 (by decide)

/-- A state over two lines that is written under an indentation is read back. -/
theorem state_returns_lines :
    ∃ doc again m' entry, @ModelSet.apply statedReader ⟨statedFile, [⟨5, ['a']⟩]⟩ (.setState linesSnippet) =
        (⟨doc, [⟨5, ['a']⟩]⟩, .ok ()) ∧
      @Document.parse statedReader .markup doc.print = .ok again ∧ again.models none = .ok [m'] ∧ m'.space = ['a'] ∧
      again.entryNamed? m'.object Model.stateName = some entry ∧
      (again.evaluate (again.entryBody entry)).map Value.json = .ok "\x7b\"p\":\"q\"\x7d".toList := by
  have read := @statedGrown_read linesSnippet (by decide +kernel)
  have below := fun y => @mem_descendants_read statedReader _ _ _ _ y statedFile_sound read
  have shown : ((statedGrown linesSnippet).1.evaluate (statedGrown linesSnippet).2).map Value.json =
      .ok "\x7b\"p\":\"q\"\x7d".toList := by decide +kernel
  cases value : (statedGrown linesSnippet).1.evaluate (statedGrown linesSnippet).2 with
  | error failure =>
    rw [value] at shown
    cases shown
  | ok v =>
    rw [value] at shown
    have spaceless : ∀ y ∈ (statedGrown linesSnippet).1.descendants (statedGrown linesSnippet).2,
        (statedGrown linesSnippet).1.role y = .object → ∀ e ∈ (statedGrown linesSnippet).1.entries y,
          (statedGrown linesSnippet).1.entryIdentifier? e ≠ some Model.namespaceName := by decide +kernel
    have unbroken : ∀ y ∈ (statedGrown linesSnippet).1.descendants (statedGrown linesSnippet).2,
        ((statedGrown linesSnippet).1.role y).isToken = true → Text.IsBare ((statedGrown linesSnippet).1.text y) := by
      decide +kernel
    obtain ⟨doc, again, models', applied, parsed, found, pairs⟩ := @state_returns _ statedReader _ _ _ _ _ _ _ _ _ _
      statedFile_parsed withFallbackIndent_self.symm statedFile_models (by simp) read value
      (fun y down => spaceless y ((below y).mpr down)) (fun y down => unbroken y ((below y).mpr down))
      fun expression parsed => by
        cases parsed
        exact statedReader_receives
    obtain ⟨m', _, ⟨space, kept⟩, nothing, rfl⟩ := List.forall₂_cons_left_iff.mp pairs
    cases nothing
    obtain ⟨entry, named, evaluates⟩ := kept 15 (by decide +kernel)
    exact ⟨doc, again, m', entry, applied, parsed, found, space, named, by rw [evaluates]; exact shown⟩

/-- The file after its state was set. -/
def statedSet (snippet : List Char) : ModelSet × Except Failure Unit :=
  @ModelSet.apply statedReader ⟨statedFile, [⟨5, ['a']⟩]⟩ (.setState snippet)

/-- The file with the other state. -/
def continuedFile : Document := ofTree .markup (statedText "'p\\\n q'") (statedTree continuedStateTree)

/-- Where a string literal goes over a line end, the indentation of its second line is read back as a part of it. -/
theorem state_returns_continued :
    @Document.parse statedReader .markup (statedText "1") = .ok statedFile ∧
      statedFile.models none = .ok [⟨5, ['a']⟩] ∧ statedFile.entryNamed? 5 Model.stateName = some 15 ∧
      (∃ grown tree, @parseExpression statedReader statedFile continuedSnippet = .ok (grown, tree) ∧
        (grown.evaluate tree).map Value.json = .ok "\"pq\"".toList ∧ grown.Spaceless tree) ∧
      (statedSet continuedSnippet).2 = .ok () ∧
      @Document.parse statedReader .markup (statedSet continuedSnippet).1.doc.print = .ok continuedFile ∧
      continuedFile.models none = .ok [⟨5, ['a']⟩] ∧ continuedFile.entryNamed? 5 Model.stateName = some 15 ∧
      (continuedFile.evaluate (continuedFile.entryBody 15)).map Value.json = .ok "\"p q\"".toList := by
  have read := @statedGrown_read continuedSnippet (by decide +kernel)
  have below := fun y => @mem_descendants_read statedReader _ _ _ _ y statedFile_sound read
  have printed : (statedSet continuedSnippet).1.doc.print = statedText "'p\\\n q'" := by decide +kernel
  have spaceless : ∀ y ∈ (statedGrown continuedSnippet).1.descendants (statedGrown continuedSnippet).2,
      (statedGrown continuedSnippet).1.role y = .object → ∀ e ∈ (statedGrown continuedSnippet).1.entries y,
        (statedGrown continuedSnippet).1.entryIdentifier? e ≠ some Model.namespaceName := by decide +kernel
  refine ⟨statedFile_parsed, statedFile_models, by decide +kernel,
    ⟨_, _, read, by decide +kernel, fun y down => spaceless y ((below y).mpr down)⟩, by decide +kernel, ?_, by decide +kernel,
    by decide +kernel, by decide +kernel⟩
  rw [printed]
  rfl

end Document

end StoreModels
