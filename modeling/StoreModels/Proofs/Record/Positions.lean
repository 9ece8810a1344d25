import Mathlib.Data.List.ReduceOption
import StoreModels.Json.Value
import StoreModels.Proofs.Model.Reached
import StoreModels.Proofs.Record.Likeness

/-!
The elements of array literals and the values that they get. An array evaluates to the values of the elements that are
written in it, in their order. An element that is left out has no value and takes up no place, so that the values stand
where their elements do as long as none is left out.
-/
namespace StoreModels
open Syntax (Tree Reader)

/-! ## Evaluating one after the other -/

namespace Document
variable {doc : Document} {x : NodeId}

theorem evaluateItems_ok {f : NodeId → Except Failure Value} {ids : List NodeId} {items : List Value}
    (found : evaluateItems f ids = .ok items) : List.Forall₂ (fun id item => f id = .ok item) ids items := by
  induction ids generalizing items with
  | nil =>
    cases found
    exact .nil
  | cons id rest ih =>
    simp only [evaluateItems, bind, Except.bind, pure, Except.pure] at found
    cases here : f id with
    | error failure =>
      rw [here] at found
      cases found
    | ok item =>
      cases later : evaluateItems f rest with
      | error failure =>
        rw [here, later] at found
        cases found
      | ok others =>
        rw [here, later] at found
        cases found
        exact .cons here (ih later)

/-- The members of an object literal that has a value have values. -/
theorem evaluateMembers_ok {f : NodeId → Except Failure Value} {entries : List NodeId}
    {members result : List (List Char × Value)} (found : doc.evaluateMembers f members entries = .ok result) :
    ∀ entry ∈ entries, ∀ value, doc.childByField? entry "value" = some value → ∃ v, f value = .ok v := by
  induction entries generalizing members with
  | nil => exact fun _ member => (List.not_mem_nil member).elim
  | cons first rest ih =>
    unfold evaluateMembers at found
    split at found
    next key value _ _ held =>
      simp only [bind, Except.bind] at found
      cases named : doc.memberName key with
      | error failure =>
        rw [named] at found
        cases found
      | ok name =>
        cases here : f value with
        | error failure =>
          rw [named, here] at found
          cases found
        | ok v =>
          rw [named, here] at found
          intro entry member other is
          rcases List.mem_cons.mp member with rfl | later
          · rw [held] at is
            cases is
            exact ⟨v, here⟩
          · exact ih found entry later other is
    next => cases found

/-- Every node tells the same as itself. -/
theorem Likeness.self (forest : doc.Forest) : Likeness doc doc fun x x' => x' = x ∧ x < doc.nodes.size where
  size := Nat.le_refl _
  present rel := rel.2
  kind rel := by rw [rel.1]
  named rel := by rw [rel.1]
  text rel := by rw [rel.1]
  children := by
    rintro x _ ⟨rfl, _⟩
    rw [List.forall₂_same]
    exact fun c member => ⟨rfl, rfl, forest.childLt member⟩

/-- A depth that a tree fits in is deep enough to evaluate it. -/
theorem evaluateDown_fits (forest : doc.Forest) (present : x < doc.nodes.size) {n : Nat} (fits : doc.Fits n x)
    (le : n ≤ doc.depth) : doc.evaluateDown n x = doc.evaluate x :=
  ((Likeness.self forest).evaluateDown fits le ⟨rfl, present⟩).symm

/-! ## Expressions within expressions -/

/-- The value of an expression is made of that of another: the expression itself, an element of an array in it, or the
    value of a member of an object literal in it. -/
inductive Consults (doc : Document) (root : NodeId) : NodeId → Prop
  | self : Consults doc root root
  | element {array x : NodeId} (inside : Consults doc root array) (is : doc.role array = .array)
    (member : x ∈ doc.namedChildren array) : Consults doc root x
  | member {object entry x : NodeId} (inside : Consults doc root object) (is : doc.role object = .object)
    (member : entry ∈ doc.namedChildren object) (value : doc.childByField? entry "value" = some x) :
    Consults doc root x

/-- The elements of an array that has a value have the values that it holds. -/
theorem evaluate_items (forest : doc.Forest) {array : NodeId} (is : doc.role array = .array) {v : Value}
    (found : doc.evaluate array = .ok v) :
    ∃ items, v = .array items ∧
      List.Forall₂ (fun x item => doc.evaluate x = .ok item) (doc.namedChildren array) items := by
  rw [Document.evaluate, depth, evaluateDown, is] at found
  simp only [bind, Except.bind, pure, Except.pure] at found
  cases evaluated : evaluateItems (doc.evaluateDown doc.nodes.size) (doc.namedChildren array) with
  | error failure =>
    rw [evaluated] at found
    cases found
  | ok items =>
    rw [evaluated] at found
    cases found
    refine ⟨items, rfl, forall₂_imp_mem (evaluateItems_ok evaluated) fun x member item _ value => ?_⟩
    have present : x < doc.nodes.size := forest.childLt (List.mem_of_mem_filter member)
    rwa [← evaluateDown_fits forest present (forest.fits present) (Nat.le_succ _)]

/-- The values of the members of an object literal that has a value have values. -/
theorem evaluate_members (forest : doc.Forest) {object : NodeId} (is : doc.role object = .object) {v : Value}
    (found : doc.evaluate object = .ok v) {entry x : NodeId} (member : entry ∈ doc.namedChildren object)
    (value : doc.childByField? entry "value" = some x) : ∃ w, doc.evaluate x = .ok w := by
  rw [Document.evaluate, depth, evaluateDown, is] at found
  simp only [bind, Except.bind, pure, Except.pure] at found
  cases evaluated : doc.evaluateMembers (doc.evaluateDown doc.nodes.size) [] (doc.namedChildren object) with
  | error failure =>
    rw [evaluated] at found
    cases found
  | ok members =>
    obtain ⟨w, held⟩ := evaluateMembers_ok evaluated entry member x value
    have present : x < doc.nodes.size := forest.childLt (List.mem_of_find?_eq_some value)
    exact ⟨w, by rwa [← evaluateDown_fits forest present (forest.fits present) (Nat.le_succ _)]⟩

/-- Where an expression has a value, so has every expression that its value is made of. -/
theorem Consults.evaluate {root : NodeId} (forest : doc.Forest) (consults : doc.Consults root x) {v : Value}
    (found : doc.evaluate root = .ok v) : ∃ w, doc.evaluate x = .ok w := by
  induction consults with
  | self => exact ⟨v, found⟩
  | element _ is member ih =>
    obtain ⟨w, held⟩ := ih
    obtain ⟨items, _, each⟩ := evaluate_items forest is held
    obtain ⟨item, _, value⟩ := forall₂_mem_left each member
    exact ⟨item, value⟩
  | member _ is member value ih =>
    obtain ⟨w, held⟩ := ih
    exact evaluate_members forest is held member value

/-! ## Elements -/

/-- Whether a node is a comma. -/
def isComma (doc : Document) (id : NodeId) : Bool := !(doc.node id).named && (doc.node id).kind == ","

/-- Whether a node is an element where it stands in an array. -/
def isElement (doc : Document) (id : NodeId) : Bool := (doc.node id).named && doc.role id != .comment

/-- The elements that the parts of an array literal make up, given whether something stands there since the last comma:
    one is left out where there is nothing before a comma. -/
def elementsFrom (doc : Document) : Bool → List NodeId → List (Option NodeId)
  | _, [] => []
  | filled, c :: rest =>
    if doc.isComma c then (if filled then [] else [none]) ++ doc.elementsFrom false rest
    else if doc.isElement c then some c :: doc.elementsFrom true rest
    else doc.elementsFrom filled rest

/-- The elements of an array literal in the order of their positions; none where one is left out. -/
def elements (doc : Document) (array : NodeId) : List (Option NodeId) := doc.elementsFrom false (doc.children array)

/-- The elements that are written are the children that the grammar names. -/
theorem elements_reduceOption (array : NodeId) : (doc.elements array).reduceOption = doc.namedChildren array := by
  have onwards : ∀ filled cs, (doc.elementsFrom filled cs).reduceOption = cs.filter doc.isElement := by
    intro filled cs
    induction cs generalizing filled with
    | nil => rfl
    | cons c rest ih =>
      unfold elementsFrom
      split
      next comma =>
        have nameless : (doc.node c).named = false := by
          rw [isComma, Bool.and_eq_true, Bool.not_eq_true'] at comma
          exact comma.1
        rw [List.reduceOption_append, ih, List.filter_cons_of_neg (by simp [isElement, nameless])]
        cases filled <;> rfl
      · split
        next element => rw [List.reduceOption_cons_of_some, ih, List.filter_cons_of_pos element]
        next other => rw [ih, List.filter_cons_of_neg other]
  exact onwards false _

theorem elements_whole {array : NodeId} (whole : none ∉ doc.elements array) :
    doc.elements array = (doc.namedChildren array).map some := by
  rw [← elements_reduceOption]
  generalize doc.elements array = elements at whole ⊢
  induction elements with
  | nil => rfl
  | cons e rest ih =>
    cases e with
    | none => exact absurd List.mem_cons_self whole
    | some c =>
      rw [List.reduceOption_cons_of_some, List.map_cons, ← ih fun later => whole (List.mem_cons_of_mem _ later)]

/-- Every array literal in an expression that has a value has the values of the elements that are written in it, in their
    order. They are as many as its elements, and each stands where its element does, exactly as long as no element is
    left out. -/
theorem evaluate_arrays (forest : doc.Forest) {root array : NodeId} (consults : doc.Consults root array)
    (is : doc.role array = .array) {v : Value} (found : doc.evaluate root = .ok v) :
    ∃ items, doc.evaluate array = .ok (.array items) ∧
      List.Forall₂ (fun x item => doc.evaluate x = .ok item) (doc.elements array).reduceOption items ∧
      (none ∉ doc.elements array →
        List.Forall₂ (fun e item => e.map doc.evaluate = some (.ok item)) (doc.elements array) items) ∧
      (none ∈ doc.elements array → items.length < (doc.elements array).length) := by
  obtain ⟨w, value⟩ := consults.evaluate forest found
  obtain ⟨items, rfl, each⟩ := evaluate_items forest is value
  refine ⟨items, value, elements_reduceOption array ▸ each, fun whole => ?_, fun holed => ?_⟩
  · rw [elements_whole whole, List.forall₂_map_left_iff]
    exact each.imp fun x item held => congrArg some held
  · rw [← each.length_eq, ← elements_reduceOption]
    exact List.reduceOption_length_lt_iff.mpr holed

/-! ## Samples -/

/-- An array literal with an array, a comment and a comma behind the last element. -/
def arraysText : List Char := "[[1],/**/2,]".toList

/-- The tree of a file of the array literal with an array in it. -/
def arraysTree : Tree :=
  let digit (start : Nat) : Tree := .number none start (start + 1)
  .node "program" true none ⟨0, 12⟩
    [.node "expression_statement" true none ⟨0, 12⟩
      [.bracketed none 0 12
        [.bracketed none 1 4 [digit 2], .mark "," 4, .comment 5 9, digit 9, .mark "," 10]]]

/-- The file of the array literal with an array in it. -/
def arraysFile : Document := ofTree .typed arraysText arraysTree

/-- An array literal without its second element. -/
def holedText : List Char := "[1,,2]".toList

/-- The tree of a file of the array literal without its second element. -/
def holedTree : Tree :=
  let digit (start : Nat) : Tree := .number none start (start + 1)
  .node "program" true none ⟨0, 6⟩
    [.node "expression_statement" true none ⟨0, 6⟩
      [.bracketed none 0 6 [digit 1, .mark "," 2, .mark "," 3, digit 4]]]

/-- The file of the array literal without its second element. -/
def holedFile : Document := ofTree .typed holedText holedTree

/-- A reader of the two files. -/
@[reducible] def arraysReader : Reader :=
  ⟨fun _ text => List.lookup text [(arraysText, arraysTree), (holedText, holedTree)]⟩

theorem evaluate_arrays_nested :
    @Document.parse arraysReader .typed arraysText = .ok arraysFile ∧ arraysFile.elements 2 = [some 4, some 10] ∧
      ∃ items, arraysFile.evaluate 2 = .ok (.array items) ∧
        List.Forall₂ (fun e item => e.map arraysFile.evaluate = some (.ok item)) [some 4, some 10] items := by
  have parsed : @Document.parse arraysReader .typed arraysText = .ok arraysFile := by rfl
  have sound : arraysFile.Sound := @parse_sound _ _ _ arraysReader parsed
  have elements : arraysFile.elements 2 = [some 4, some 10] := by decide +kernel
  have array : arraysFile.role 2 = .array := by decide +kernel
  have shown : (arraysFile.evaluate 2).isOk = true := by decide +kernel
  cases found : arraysFile.evaluate 2 with
  | error failure =>
    rw [found] at shown
    cases shown
  | ok v =>
    obtain ⟨items, value, _, whole, _⟩ := evaluate_arrays sound.forest .self array found
    rw [elements] at whole
    exact ⟨parsed, elements, items, found ▸ value, whole (by decide)⟩

/-- An element that is left out is no reason to refuse an array, and the elements behind it move up. -/
theorem evaluate_arrays_holed :
    @Document.parse arraysReader .typed holedText = .ok holedFile ∧ holedFile.elements 2 = [some 4, none, some 7] ∧
      (holedFile.evaluate 2).map Value.json = .ok "[1,2]".toList :=
  ⟨rfl, by decide +kernel, by decide +kernel⟩

end Document

end StoreModels
