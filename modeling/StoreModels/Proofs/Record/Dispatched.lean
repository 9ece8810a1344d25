import Mathlib.Data.Option.Basic
import StoreModels.Record.Extract
import StoreModels.Proofs.Document.Order

/-!
The actions that a piece of code dispatches, exactly: one for each call of one of the callees, by its bare name, whose
first argument is a string literal or an object literal with a string literal for its last type. They stand in the order
in which a walk visits the calls; in a tree that is as it was parsed, this is the order in which the calls start.
-/
namespace StoreModels
open Syntax (Dialect Outline Reader Role Span Tree)

/-- A call starts with its callee, which takes up some place and is the only part that may be an identifier; identifiers
    have no parts. -/
def Syntax.Outline.Calls (_ : List Char) (kind : String) (_ : Span) (outline : Outline) : Prop :=
  (Role.ofKind kind = .identifier → outline = []) ∧
    (Role.ofKind kind = .callExpr → outline.head?.any (fun part => decide (part.2.start < part.2.stop)) = true ∧
      ∀ part ∈ outline.tail, Role.ofKind part.1 ≠ .identifier)

instance (text : List Char) (kind : String) (span : Span) (outline : Outline) :
    Decidable (outline.Calls text kind span) :=
  inferInstanceAs (Decidable ((_ → _) ∧ (_ → _ ∧ ∀ part ∈ outline.tail, _)))

namespace Document
variable {doc first : Document} {dialect : Dialect} {source action : List Char} {callees fewer : List (List Char)}
  {id x y z c e value literal call argument : NodeId} {buffer : BufferId} {span : Span}

/-- The string literal that tells the type of the action which an argument stands for: the argument itself, or the value
    of the last entry of an object literal that is named as the type. -/
inductive Types (doc : Document) : NodeId → NodeId → Prop
  | literal {x : NodeId} (string : doc.role x = .stringLiteral) : Types doc x x
  | object {x e value : NodeId} {before after : List NodeId} (object : doc.role x = .object)
    (entries : doc.entries x = before ++ e :: after) (named : doc.entryName? e = some "type".toList)
    (last : ∀ y ∈ after, doc.entryName? y ≠ some "type".toList) (held : doc.pairValue? e = some value)
    (string : doc.role value = .stringLiteral) : Types doc x value

/-- A node is a call that dispatches an action. -/
structure Dispatches (doc : Document) (callees : List (List Char)) (call : NodeId) (action : List Char) : Prop where
  isCall : doc.role call = .callExpr
  callee : ∃ name, doc.childByField? call "function" = some name ∧ doc.role name = .identifier ∧
    doc.text name ∈ callees
  argument : ∃ arguments first rest literal, doc.childByField? call "arguments" = some arguments ∧
    doc.namedChildren arguments = first :: rest ∧ doc.Types first literal ∧
    Literal.unquoted (doc.text literal) = action

/-! ## Calls -/

/-- The last element that passes a test is followed by none that does. -/
theorem getLast?_filter_eq_some {α : Type} {test : α → Bool} {xs : List α} {x : α} :
    (xs.filter test).getLast? = some x ↔
      ∃ before after, xs = before ++ x :: after ∧ test x = true ∧ ∀ y ∈ after, test y = false := by
  rw [← List.head?_reverse, ← List.filter_reverse, List.head?_filter, List.find?_eq_some_iff_append]
  constructor
  · rintro ⟨passes, after, before, split, none⟩
    have turned := congrArg List.reverse split
    rw [List.reverse_reverse, List.reverse_append, List.reverse_cons, List.append_assoc] at turned
    exact ⟨before.reverse, after.reverse, turned, passes, by simpa using none⟩
  · rintro ⟨before, after, rfl, passes, none⟩
    exact ⟨passes, after.reverse, before.reverse, by simp, by simpa using none⟩

theorem actionLiteral?_eq_some : doc.actionLiteral? argument = some literal ↔ doc.Types argument literal := by
  have last : ∀ {e}, (doc.entriesNamed argument "type".toList).getLast? = some e ↔ ∃ before after,
      doc.entries argument = before ++ e :: after ∧ doc.entryName? e = some "type".toList ∧
        ∀ y ∈ after, doc.entryName? y ≠ some "type".toList := by
    intro e
    rw [entriesNamed, getLast?_filter_eq_some]
    simp
  unfold actionLiteral?
  constructor
  · intro found
    split at found
    next string =>
      cases found
      exact .literal string
    next object =>
      obtain ⟨found, string⟩ := Option.filter_eq_some_iff.mp found
      obtain ⟨e, named, held⟩ := Option.bind_eq_some_iff.mp found
      obtain ⟨before, after, entries, named, last⟩ := last.mp named
      exact .object object entries named last held (by simpa using string)
    next => cases found
  · intro types
    cases types with
    | literal string => rw [string]
    | object object entries named none held string =>
      simp only [object]
      rw [last.mpr ⟨_, _, entries, named, none⟩]
      simp [held, string]

/-- A node that is looked at gives the action that it dispatches, if it is a call that does. -/
theorem actionType?_eq_some : doc.actionType? callees call = some action ↔ doc.Dispatches callees call action := by
  unfold actionType?
  constructor
  · intro found
    simp only [bind, Option.bind_eq_some_iff, Option.guard_eq_some', exists_const] at found
    obtain ⟨isCall, name, function, ⟨is, arguments, held, argument, head, literal, types, told⟩⟩ := found
    rw [Bool.and_eq_true, decide_eq_true_eq, List.contains_iff_mem] at is
    obtain ⟨rest, named⟩ := List.head?_eq_some_iff.mp head
    exact ⟨isCall, ⟨name, function, is⟩, arguments, argument, rest, literal, held, named,
      actionLiteral?_eq_some.mp types, Option.some.inj told⟩
  · rintro ⟨isCall, ⟨name, function, identifier, listed⟩, arguments, first, rest, literal, held, named, types, rfl⟩
    simp [isCall, function, identifier, listed, held, named, actionLiteral?_eq_some.mpr types]

/-- Each call that is listed gives what it dispatches. -/
theorem forall₂_dispatches (callees : List (List Char)) (ids : List NodeId) :
    List.Forall₂ (doc.Dispatches callees) (ids.filter fun id => (doc.actionType? callees id).isSome)
      (ids.filterMap (doc.actionType? callees)) := by
  induction ids with
  | nil => exact .nil
  | cons id rest ih =>
    cases is : doc.actionType? callees id with
    | none => simpa [is] using ih
    | some action => simpa [is] using ⟨actionType?_eq_some.mp is, ih⟩

/-- With fewer callees, a call dispatches what it does with all, or nothing. -/
theorem Dispatches.mono (dispatches : doc.Dispatches fewer call action) (less : fewer ⊆ callees) :
    doc.Dispatches callees call action :=
  have ⟨name, function, identifier, listed⟩ := dispatches.callee
  ⟨dispatches.isCall, ⟨name, function, identifier, less listed⟩, dispatches.argument⟩

theorem dispatches_sublist (less : fewer ⊆ callees) (id : NodeId) :
    (doc.dispatches fewer id).Sublist (doc.dispatches callees id) := by
  unfold dispatches
  induction doc.descendants id with
  | nil => exact List.Sublist.refl _
  | cons id rest ih =>
    cases is : doc.actionType? fewer id with
    | none =>
      rw [List.filterMap_cons_none is]
      exact ih.trans ((List.sublist_cons_self id rest).filterMap _)
    | some action =>
      have same := actionType?_eq_some.mpr ((actionType?_eq_some.mp is).mono less)
      rw [List.filterMap_cons_some is, List.filterMap_cons_some same]
      exact ih.cons_cons action

theorem dispatches_congr (same : ∀ name, name ∈ fewer ↔ name ∈ callees) (id : NodeId) :
    doc.dispatches fewer id = doc.dispatches callees id :=
  (dispatches_sublist (fun name => (same name).mp) id).antisymm (dispatches_sublist (fun name => (same name).mpr) id)

/-- A node dispatches what it does itself, then what its children do, one after the other. -/
theorem dispatches_eq (forest : doc.Forest) (lt : id < doc.nodes.size) :
    doc.dispatches callees id =
      (doc.actionType? callees id).toList ++ (doc.children id).flatMap (doc.dispatches callees) := by
  unfold dispatches
  rw [descendants_eq forest lt, List.filterMap_cons, List.filterMap_flatMap]
  cases doc.actionType? callees id <;> rfl

/-! ## The order of the text -/

section
variable (pristine : doc.Pristine buffer call) (shaped : doc.Shaped) (laid : doc.Laid Outline.Calls)
include pristine shaped laid

/-- A call takes up some place, and the calls inside of it start later. -/
theorem Pristine.call_starts (dispatches : doc.Dispatches callees call action)
    (origin : (doc.node call).origin = .parsed buffer span) :
    span.start < span.stop ∧
      ∀ z, doc.Below call z → z ≠ call → doc.role z = .callExpr → doc.StartsBefore buffer call z := by
  obtain ⟨name, function, identifier, _⟩ := dispatches.callee
  have held := (childByField?_some function).1
  obtain ⟨outline, places, ordered, _⟩ := pristine.places shaped origin
  obtain ⟨starts, others⟩ := (pristine.lawful laid origin places).2 dispatches.isCall
  generalize are : doc.children call = children at places held
  cases places with
  | nil => cases starts
  | @cons first part rest outline place places =>
    obtain ⟨low, _, later⟩ := ordered
    have width : part.2.start < part.2.stop := by simpa using starts
    have high := later.le
    -- The callee is the first child, which has no parts.
    have callee : name = first := by
      rcases List.mem_cons.mp held with is | among
      · exact is
      · obtain ⟨part', listed, place'⟩ := forall₂_mem_left places among
        refine absurd ?_ (others part' listed)
        rw [← place'.1]
        exact identifier
    subst callee
    refine ⟨by omega, fun z below other isCall => ?_⟩
    rcases Relation.ReflTransGen.cases_head below with rfl | ⟨c, child, under⟩
    · exact absurd rfl other
    have inside := pristine.below (Below.child child)
    obtain ⟨span', origin'⟩ := inside.parsed z under
    rw [are] at child
    rcases List.mem_cons.mp child with rfl | among
    · have leaf : doc.children c = [] := by
        obtain ⟨outline', places', _⟩ := inside.places shaped place.2
        rw [(inside.lawful laid place.2 places').1 identifier] at places'
        exact List.forall₂_nil_right_iff.mp places'
      rcases Relation.ReflTransGen.cases_head under with rfl | ⟨d, deeper, _⟩
      · rw [identifier] at isCall
        cases isCall
      · rw [leaf] at deeper
        cases deeper
    · obtain ⟨part', listed, place'⟩ := forall₂_mem_left places among
      have behind := later.mem (List.mem_map_of_mem listed)
      have deeper := inside.inside shaped under place'.2 origin'
      exact ⟨span, span', origin, origin', by omega⟩

/-- In a tree that is as it was parsed, calls are visited in the order in which they start. -/
theorem Pristine.calls_ordered (forest : doc.Forest) (lt : call < doc.nodes.size) (callees : List (List Char)) :
    ((doc.descendants call).filter fun id => (doc.actionType? callees id).isSome).Pairwise (doc.StartsBefore buffer) := by
  have walk := (pristine.descend_ordered shaped (forest.fits lt)).and (nodup_descendants forest lt)
  refine (List.Pairwise.filter _ walk).imp_of_mem fun {y z} first second apart => ?_
  obtain ⟨here, some⟩ := List.mem_filter.mp first
  obtain ⟨there, some'⟩ := List.mem_filter.mp second
  obtain ⟨action, is⟩ := Option.isSome_iff_exists.mp some
  obtain ⟨action', is'⟩ := Option.isSome_iff_exists.mp some'
  have pristine' := pristine.below (below_of_mem_descend here)
  obtain ⟨span, origin⟩ := pristine'.parsed y (Below.refl doc y)
  have starts := pristine'.call_starts shaped laid (actionType?_eq_some.mp is) origin
  rcases apart with ⟨above | ⟨s, s', left, right, behind⟩, other⟩
  · exact starts.2 z above (Ne.symm other) (actionType?_eq_some.mp is').isCall
  · cases origin.symm.trans left
    exact ⟨span, s', origin, right, Nat.lt_of_lt_of_le starts.1 behind⟩

end

/-- In every subtree of a document that edits of a file lead to, each call that dispatches an action gives this action, and
    no other node gives one; they stand in the order of a walk that visits each node before its children and these one
    after the other. In a subtree that is as it was parsed, as all are in the file at first, the calls are in the order
    in which they start. So a node dispatches what it does itself and then what its children do, whatever the order of
    the callees and however often each is listed; and fewer callees only take some actions out. -/
theorem dispatches_exact [Reader] (file : Document.parse dialect source = .ok first) (reached : Reached first doc)
    (lt : id < doc.nodes.size) (callees : List (List Char)) :
    (∃ calls, calls.Sublist (doc.visit doc.nodes.size [id]).1 ∧ calls.Nodup ∧
      (∀ x, x ∈ calls ↔ doc.Below id x ∧ ∃ action, doc.Dispatches callees x action) ∧
      List.Forall₂ (doc.Dispatches callees) calls (doc.dispatches callees id) ∧
      ((∀ text ∈ doc.buffers, Reader.Lawful doc.dialect text ∧ Reader.Meets Outline.Calls doc.dialect text) →
        ∀ buffer, doc.Pristine buffer id → calls.Pairwise (doc.StartsBefore buffer))) ∧
    (∀ indent, doc = first.withFallbackIndent indent → doc.Pristine 0 id) ∧
    (doc.visit doc.nodes.size [id] = (doc.descendants id, []) ∧
      doc.descendants id = id :: (doc.children id).flatMap doc.descendants) ∧
    (∃ own, doc.dispatches callees id = own ++ (doc.children id).flatMap (doc.dispatches callees) ∧
      ((∃ action, own = [action] ∧ doc.Dispatches callees id action) ∨
        own = [] ∧ ∀ action, ¬ doc.Dispatches callees id action)) ∧
    (∀ others, (∀ name, name ∈ others ↔ name ∈ callees) → doc.dispatches others id = doc.dispatches callees id) ∧
    ∀ fewer, fewer ⊆ callees → (doc.dispatches fewer id).Sublist (doc.dispatches callees id) := by
  have forest := (reached.sound file).forest
  have walk := visit_descendants forest lt
  refine ⟨⟨_, ?_, (nodup_descendants forest lt).filter _, fun x => ?_, forall₂_dispatches callees _, ?_⟩, ?_,
    ⟨walk, descendants_eq forest lt⟩, ⟨_, dispatches_eq forest lt, ?_⟩, fun others same => dispatches_congr same id,
    fun fewer less => dispatches_sublist less id⟩
  · rw [walk]
    exact List.filter_sublist
  · rw [List.mem_filter, mem_descendants forest lt, Option.isSome_iff_exists]
    simp only [actionType?_eq_some]
  · intro texts buffer pristine
    have shaped := reached.shaped file fun text member => (texts text member).1
    have laid := reached.laid file fun text member => (texts text member).2
    exact pristine.calls_ordered shaped laid forest lt callees
  · rintro indent rfl
    exact parse_pristine file indent lt
  · cases is : doc.actionType? callees id with
    | none =>
      refine .inr ⟨rfl, fun action dispatches => ?_⟩
      rw [actionType?_eq_some.mpr dispatches] at is
      cases is
    | some action => exact .inl ⟨action, rfl, actionType?_eq_some.mp is⟩

end Document

/-! ## A sample -/

namespace Syntax

/-- A file that dispatches an action in the argument of a call that dispatches none, and another one behind it. -/
def callText : List Char := "f(d('b'),0);d(\x7btype:'a'\x7d)".toList

/-- The tree of the file. -/
def callTree : Tree :=
  let call (start stop : Nat) (given : List Tree) : Tree :=
    .node "call_expression" true none ⟨start, stop⟩
      [.node "identifier" true (some "function") ⟨start, start + 1⟩ [],
        .between "arguments" "(" ")" (some "arguments") (start + 1) stop given]
  let action := Tree.braced none 14 24 [.keyed 15 19 (.quoted (some "value") 20 23 [.fragment 21 22])]
  .node "program" true none ⟨0, 25⟩
    [.node "expression_statement" true none ⟨0, 12⟩
        [call 0 11 [call 2 8 [.quoted none 4 7 [.fragment 5 6]], .mark "," 8, .number none 9 10], .mark ";" 11],
      .node "expression_statement" true none ⟨12, 25⟩ [call 12 25 [action]]]

/-- A reader of the file alone. -/
@[reducible] def callReader : Reader := ⟨fun _ text => List.lookup text [(callText, callTree)]⟩

theorem callReader_lawful (dialect : Dialect) (text : List Char) :
    callReader.Lawful dialect text ∧ @Reader.Meets callReader Outline.Calls dialect text :=
  ⟨lawful_of_lookup (by decide +kernel) dialect text, meets_of_lookup (by decide +kernel) dialect text⟩

end Syntax

namespace Document
open Syntax (callText callTree callReader callReader_lawful)

def callFile : Document := ofTree .markup callText callTree

/-- The inner call comes first, and the call around it gives nothing. -/
theorem dispatches_exact_calls :
    callFile.dispatches ["d".toList] 0 = [['b'], ['a']] ∧
      ∃ calls, (∀ x, x ∈ calls ↔ callFile.Below 0 x ∧ ∃ action, callFile.Dispatches ["d".toList] x action) ∧
        List.Forall₂ (callFile.Dispatches ["d".toList]) calls [['b'], ['a']] ∧
        calls.Pairwise (callFile.StartsBefore 0) := by
  have file : @Document.parse callReader .markup callText = .ok callFile := rfl
  have reached : @Reached callReader callFile callFile := by
    have start := @Reached.start callReader callFile callFile.fallbackIndent
    rwa [withFallbackIndent_self] at start
  have are : callFile.dispatches ["d".toList] 0 = [['b'], ['a']] := by decide +kernel
  have whole := @dispatches_exact callFile _ _ _ 0 callReader file reached (by decide +kernel) ["d".toList]
  obtain ⟨⟨calls, _, _, listed, pairs, ordered⟩, fresh, _⟩ := whole
  rw [are] at pairs
  exact ⟨are, calls, listed, pairs, ordered (fun text _ => callReader_lawful _ text) 0
    (fresh _ withFallbackIndent_self.symm)⟩

end Document

end StoreModels
