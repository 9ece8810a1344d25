import StoreModels.Record.Extract
import StoreModels.Proofs.Document.Render

/-!
Nodes that tell the same. Two trees of the same shape whose nodes have the same kinds and fields and print the same way
have the same keys, dispatch the same actions, evaluate to the same values and have the same records, wherever in a
document they stand.
-/
namespace StoreModels
open Syntax (Role)

namespace Document
variable {doc doc' : Document} {R : NodeId → NodeId → Prop} {x x' : NodeId}

/-- What is no pair makes no member. -/
theorem evaluateMembers_other {f : NodeId → Except Failure Value} {members : List (List Char × Value)} {e : NodeId}
    {rest : List NodeId} (other : doc.role e ≠ .pair) :
    doc.evaluateMembers f members (e :: rest) = .error (doc.unsupported e) := by
  unfold evaluateMembers
  split
  next pair _ _ => exact absurd pair other
  next => rfl

/-- Object literals whose entries are recognized alike are taken for models of the same namespace. -/
theorem recognize_congr (same : doc'.recognizeEntries none false (doc'.entries x') =
      doc.recognizeEntries none false (doc.entries x)) (filter : Option (List Char)) :
    doc'.recognize filter x' =
      (doc.recognize filter x).map fun found => found.map fun model => { model with object := x' } := by
  unfold Document.recognize
  rw [same]
  cases doc.recognizeEntries none false (doc.entries x) with
  | error failure => rfl
  | ok result =>
    obtain ⟨space, shaped⟩ := result
    cases space with
    | none => rfl
    | some space =>
      simp only [bind, Except.bind, pure, Except.pure]
      split <;> rfl

/-- A relation between nodes of two documents that holds between trees that tell the same. -/
structure Likeness (doc doc' : Document) (R : NodeId → NodeId → Prop) : Prop where
  size : doc.nodes.size ≤ doc'.nodes.size
  present : ∀ {x x'}, R x x' → x < doc.nodes.size
  kind : ∀ {x x'}, R x x' → (doc'.node x').kind = (doc.node x).kind
  named : ∀ {x x'}, R x x' → (doc'.node x').named = (doc.node x).named
  text : ∀ {x x'}, R x x' → doc'.printNode x' = doc.printNode x
  children : ∀ {x x'}, R x x' →
    List.Forall₂ (fun c c' => (doc'.node c').field = (doc.node c).field ∧ R c c') (doc.children x) (doc'.children x')

namespace Likeness
variable (like : Likeness doc doc' R)
include like

theorem role (rel : R x x') : doc'.role x' = doc.role x := by
  rw [Document.role, Node.role, like.kind rel, Document.role, Node.role]

theorem related (rel : R x x') : List.Forall₂ R (doc.children x) (doc'.children x') :=
  (like.children rel).imp fun _ _ both => both.2

/-! ## Keys -/

theorem childByField? (rel : R x x') (field : String) :
    Option.Rel R (doc.childByField? x field) (doc'.childByField? x' field) := by
  have found := forall₂_find? (p := fun c => (doc.node c).field == some field)
    (q := fun c => (doc'.node c).field == some field) (like.children rel) fun c _ c' _ both => by rw [both.1]
  unfold Document.childByField?
  generalize List.find? _ (doc.children x) = left at found ⊢
  generalize List.find? _ (doc'.children x') = right at found ⊢
  cases found with
  | none => exact .none
  | some both => exact .some both.2

theorem keyOf (rel : R x x') : doc'.keyOf x' = doc.keyOf x := by
  simp only [Document.keyOf, like.role rel, Document.text, like.text rel]

theorem keyed (rel : R x x') (field : String) :
    (doc'.childByField? x' field).map doc'.keyOf = (doc.childByField? x field).map doc.keyOf := by
  rw [Option.map_eq_bind, Option.map_eq_bind]
  refine rel_bind_eq (like.childByField? rel field) fun k k' both => ?_
  rw [Function.comp, Function.comp, like.keyOf both]

theorem entryKey? (rel : R x x') : doc'.entryKey? x' = doc.entryKey? x := by
  simp only [Document.entryKey?, like.role rel, like.keyed rel, Document.text, like.text rel]

theorem entryIdentifier? (rel : R x x') : doc'.entryIdentifier? x' = doc.entryIdentifier? x := by
  rw [Document.entryIdentifier?, like.entryKey? rel, Document.entryIdentifier?]

theorem entryName? (rel : R x x') : doc'.entryName? x' = doc.entryName? x := by
  rw [Document.entryName?, like.entryKey? rel, Document.entryName?]

theorem entryProperty? (rel : R x x') : doc'.entryProperty? x' = doc.entryProperty? x := by
  rw [Document.entryProperty?, like.entryIdentifier? rel, Document.entryProperty?]

theorem pairValue? (rel : R x x') : Option.Rel R (doc.pairValue? x) (doc'.pairValue? x') := by
  unfold Document.pairValue?
  rw [like.role rel]
  split
  · exact like.childByField? rel "value"
  · exact .none

theorem entryBody (rel : R x x') : R (doc.entryBody x) (doc'.entryBody x') := by
  have found := like.pairValue? rel
  unfold Document.entryBody
  generalize doc.pairValue? x = left at found ⊢
  generalize doc'.pairValue? x' = right at found ⊢
  cases found with
  | none => exact rel
  | some both => exact both

theorem entries (rel : R x x') : List.Forall₂ R (doc.entries x) (doc'.entries x') :=
  List.rel_filter (fun c c' both => by simp only [like.role both]) (like.related rel)

theorem entriesNamed (rel : R x x') (name : List Char) :
    List.Forall₂ R (doc.entriesNamed x name) (doc'.entriesNamed x' name) :=
  List.rel_filter (fun e e' both => by simp only [like.entryName? both]) (like.entries rel)

/-! ## Models -/

theorem namespaceText (rel : R x x') : doc'.namespaceText x' = doc.namespaceText x := by
  have body := like.entryBody rel
  simp only [Document.namespaceText, like.role body, Document.text, like.text body, like.kind body]

theorem recognizeEntries {es es' : List NodeId} (rels : List.Forall₂ R es es') (space : Option (List Char))
    (shaped : Bool) : doc'.recognizeEntries space shaped es' = doc.recognizeEntries space shaped es := by
  induction rels generalizing space shaped with
  | nil => rfl
  | cons rel _ ih =>
    simp only [Document.recognizeEntries, like.entryProperty? rel, like.namespaceText rel, ih]

/-- Like object literals are taken for models of the same namespace. -/
theorem recognize (rel : R x x') (filter : Option (List Char)) :
    doc'.recognize filter x' =
      (doc.recognize filter x).map fun found => found.map fun model => { model with object := x' } :=
  recognize_congr (like.recognizeEntries (like.entries rel) none false) filter

/-- What lies below like nodes is alike. -/
theorem below (rel : R x x') {y' : NodeId} (under : doc'.Below x' y') : ∃ y, doc.Below x y ∧ R y y' := by
  induction under with
  | refl => exact ⟨x, Below.refl doc x, rel⟩
  | tail _ edge ih =>
    obtain ⟨z, down, here⟩ := ih
    obtain ⟨y, child, both⟩ := forall₂_mem_right (like.related here) edge
    exact ⟨y, down.tail child, both⟩

/-! ## Actions -/

theorem namedChildren (rel : R x x') : List.Forall₂ R (doc.namedChildren x) (doc'.namedChildren x') :=
  List.rel_filter (fun c c' both => by simp only [like.named both, like.role both]) (like.related rel)

theorem actionLiteral? (rel : R x x') : Option.Rel R (doc.actionLiteral? x) (doc'.actionLiteral? x') := by
  unfold Document.actionLiteral?
  rw [like.role rel]
  split
  · exact .some rel
  · have last := forall₂_getLast? (like.entriesNamed rel "type".toList)
    have value := rel_bind last fun e e' both => like.pairValue? both
    generalize Option.bind _ doc.pairValue? = left at value ⊢
    generalize Option.bind _ doc'.pairValue? = right at value ⊢
    cases value with
    | none => exact .none
    | some both =>
      simp only [Option.filter_some, like.role both]
      split
      · exact .some both
      · exact .none
  · exact .none

theorem actionType? (callees : List (List Char)) (rel : R x x') :
    doc'.actionType? callees x' = doc.actionType? callees x := by
  unfold Document.actionType?
  rw [like.role rel]
  refine congrArg (guard (doc.role x = .callExpr) >>= ·) (funext fun _ => ?_)
  refine rel_bind_eq (like.childByField? rel "function") fun f f' callee => ?_
  rw [like.role callee, Document.text, like.text callee, Document.text]
  refine congrArg (guard (doc.role f = .identifier && callees.contains (doc.printNode f)) >>= ·) (funext fun _ => ?_)
  refine rel_bind_eq (like.childByField? rel "arguments") fun a a' arguments => ?_
  refine rel_bind_eq (forall₂_head? (like.namedChildren arguments)) fun b b' first => ?_
  refine rel_bind_eq (like.actionLiteral? first) fun l l' literal => ?_
  rw [Document.text, like.text literal, Document.text]

/-- The nodes below like nodes are alike one by one. -/
theorem descend {n m : Nat} (fits : doc.Fits n x) (le : n ≤ m) (rel : R x x') :
    List.Forall₂ R (doc.descend n x) (doc'.descend m x') := by
  induction n generalizing m x x' with
  | zero => exact fits.elim
  | succ n ih =>
    obtain ⟨m, rfl⟩ : ∃ k, m = k + 1 := ⟨m - 1, by omega⟩
    refine .cons rel ?_
    have inside : ∀ c ∈ doc.children x, doc.Fits n c := fits
    have pairs := like.related rel
    generalize doc.children x = left at pairs inside ⊢
    generalize doc'.children x' = right at pairs ⊢
    induction pairs with
    | nil => exact .nil
    | cons here _ rest =>
      rw [List.flatMap_cons, List.flatMap_cons]
      refine List.rel_append (ih (inside _ (by simp)) (by omega) here) (rest fun c member => ?_)
      exact inside c (List.mem_cons_of_mem _ member)

theorem dispatches (forest : doc.Forest) (callees : List (List Char)) (rel : R x x') :
    doc'.dispatches callees x' = doc.dispatches callees x := by
  have nodes := like.descend (forest.fits (like.present rel)) like.size rel
  rw [Document.dispatches, Document.dispatches, descendants, descendants]
  exact forall₂_filterMap nodes fun a b both => like.actionType? callees both

/-! ## Values -/

theorem numberValue (rel : R x x') : doc'.numberValue x' = doc.numberValue x := by
  simp only [Document.numberValue, Document.text, like.text rel]

theorem memberName (rel : R x x') : doc'.memberName x' = doc.memberName x := by
  simp only [Document.memberName, like.role rel, Document.text, like.text rel, like.numberValue rel, unsupported,
    like.kind rel]

theorem evaluateUnary (rel : R x x') : doc'.evaluateUnary x' = doc.evaluateUnary x := by
  have operator : (doc'.childByField? x' "operator").map doc'.text = (doc.childByField? x "operator").map doc.text := by
    rw [Option.map_eq_bind, Option.map_eq_bind]
    refine rel_bind_eq (like.childByField? rel "operator") fun o o' both => ?_
    rw [Function.comp, Function.comp, Document.text, like.text both, Document.text]
  have argument := like.childByField? rel "argument"
  unfold Document.evaluateUnary
  rw [operator]
  generalize (doc.childByField? x "operator").map doc.text = sign
  generalize doc.childByField? x "argument" = left at argument ⊢
  generalize doc'.childByField? x' "argument" = right at argument ⊢
  cases argument with
  | none => simp only [unsupported, like.kind rel]
  | some both =>
    by_cases minus : sign = some ['-']
    · subst minus
      simp only [unsupported, like.kind rel, like.role both, like.numberValue both]
    · split
      next same _ => exact absurd rfl minus
      next =>
        split
        next => exact absurd rfl minus
        next => simp only [unsupported, like.kind rel]

omit like in
theorem evaluateItems {f g : NodeId → Except Failure Value} {es es' : List NodeId} (rels : List.Forall₂ R es es')
    (same : ∀ e e', e ∈ es → R e e' → g e' = f e) : Document.evaluateItems g es' = Document.evaluateItems f es := by
  induction rels with
  | nil => rfl
  | cons here _ ih =>
    have later := ih fun e e' member => same e e' (List.mem_cons_of_mem _ member)
    simp only [Document.evaluateItems, same _ _ (by simp) here, later]

theorem evaluateMembers {f g : NodeId → Except Failure Value} {es es' : List NodeId} (rels : List.Forall₂ R es es')
    (same : ∀ e ∈ es, ∀ c c', c ∈ doc.children e → R c c' → g c' = f c) (members : List (List Char × Value)) :
    doc'.evaluateMembers g members es' = doc.evaluateMembers f members es := by
  induction rels generalizing members with
  | nil => rfl
  | @cons e e' es es' here _ ih =>
    have later := ih fun e member => same e (List.mem_cons_of_mem _ member)
    have key := like.childByField? here "key"
    have value := like.childByField? here "value"
    have inside : ∀ v, doc.childByField? e "value" = some v → v ∈ doc.children e := fun v found =>
      List.mem_of_find?_eq_some found
    by_cases pair : doc.role e = .pair
    · simp only [Document.evaluateMembers, like.role here, pair]
      generalize doc.childByField? e "key" = left at key ⊢
      generalize doc'.childByField? e' "key" = right at key ⊢
      generalize doc.childByField? e "value" = left at value inside ⊢
      generalize doc'.childByField? e' "value" = right at value ⊢
      cases key with
      | none => cases value <;> simp only [unsupported, like.kind here]
      | some keys =>
        cases value with
        | none => simp only [unsupported, like.kind here]
        | some values =>
          have evaluated := same e (by simp) _ _ (inside _ rfl) values
          simp only [like.memberName keys, evaluated, later]
    · rw [evaluateMembers_other pair, evaluateMembers_other (like.role here ▸ pair), unsupported, like.kind here,
        unsupported]

theorem evaluateDown {n m : Nat} (fits : doc.Fits n x) (le : n ≤ m) (rel : R x x') :
    doc'.evaluateDown m x' = doc.evaluateDown n x := by
  induction n generalizing m x x' with
  | zero => exact fits.elim
  | succ n ih =>
    obtain ⟨m, rfl⟩ : ∃ k, m = k + 1 := ⟨m - 1, by omega⟩
    have inside : ∀ c ∈ doc.namedChildren x, doc.Fits n c := fun c member => fits c (List.mem_of_mem_filter member)
    have items := evaluateItems (like.namedChildren rel) fun c c' member both =>
      ih (inside c member) (Nat.le_of_succ_le_succ le) both
    -- The values of an object's members are two levels down.
    have members := like.evaluateMembers (f := doc.evaluateDown n) (g := doc'.evaluateDown m) (like.namedChildren rel)
      (fun e member c c' child both => by
        have shallow := inside e member
        cases n with
        | zero => exact shallow.elim
        | succ n => exact ih ((shallow c child).mono (Nat.le_succ n)) (Nat.le_of_succ_le_succ le) both) []
    simp only [Document.evaluateDown, like.role rel, Document.text, like.text rel, like.numberValue rel, unsupported,
      like.kind rel, like.evaluateUnary rel, items, members]

theorem evaluate (forest : doc.Forest) (rel : R x x') : doc'.evaluate x' = doc.evaluate x :=
  like.evaluateDown ((forest.fits (like.present rel)).mono (Nat.le_succ _)) (Nat.succ_le_succ like.size) rel

/-! ## Records -/

theorem entryRecords (forest : doc.Forest) (callees : List (List Char)) (container : Container) {es es' : List NodeId}
    (rels : List.Forall₂ R es es') :
    doc'.entryRecords callees container es' = doc.entryRecords callees container es := by
  induction rels with
  | nil => rfl
  | cons here _ ih =>
    have body := like.entryBody here
    simp only [Document.entryRecords, like.entryKey? here, like.dispatches forest callees body, like.text body, ih]

theorem containerRecords (forest : doc.Forest) (callees : List (List Char)) (container : Container) (rel : R x x') :
    doc'.containerRecords callees container x' = doc.containerRecords callees container x := by
  simp only [Document.containerRecords, like.role rel, like.kind rel,
    like.entryRecords forest callees container (like.entries rel)]

theorem extractEntries (forest : doc.Forest) (callees : List (List Char)) {es es' : List NodeId}
    (rels : List.Forall₂ R es es') (record : ModelRecord) :
    doc'.extractEntries callees record es' = doc.extractEntries callees record es := by
  induction rels generalizing record with
  | nil => rfl
  | cons here _ ih =>
    have body := like.entryBody here
    simp only [Document.extractEntries, like.entryProperty? here, like.entryKey? here, like.evaluate forest body,
      like.containerRecords forest callees _ body, ih]

end Likeness

end Document

end StoreModels
