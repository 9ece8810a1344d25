import StoreModels.Proofs.Document.Trees
import StoreModels.Proofs.Record.Parts
import StoreModels.Proofs.Text.Passages
import StoreModels.Record.Evaluate

/-!
Expressions that stand in two texts on other lines. The second text has the parts of the expression one by one, with other
breaks and indentations in between; what stands on one line in the first text has the same text in the second one. As long
as no token of a literal expression goes over a line end, it has the same keys and the same value in both.
-/
namespace StoreModels
open Syntax (Tree Role)
open Text (slice IsBare)

/-! ## Trees -/

namespace Syntax.Tree

mutual

/-- A tree of a text is echoed by another one: the nodes have the same kinds and fields, and those that stand on one line
    lie where their ends have moved to. -/
def Echoes (text : List Char) (move : Nat → Nat) : Tree → Tree → Prop
  | .node kind named _ span children, tree' =>
    tree'.kind = kind ∧ tree'.named = named ∧
      (IsBare (slice text span.start span.stop) → tree'.span = ⟨move span.start, move span.stop⟩) ∧
      EchoesAll text move children tree'.children

/-- Trees of a text are echoed one by one. -/
def EchoesAll (text : List Char) (move : Nat → Nat) : List Tree → List Tree → Prop
  | [], [] => True
  | tree :: trees, tree' :: trees' =>
    tree'.field = tree.field ∧ Echoes text move tree tree' ∧ EchoesAll text move trees trees'
  | _, _ => False

end

mutual

/-- Whether a tree is echoed. -/
def decideEchoes (text : List Char) (move : Nat → Nat) : (tree tree' : Tree) → Decidable (Echoes text move tree tree')
  | .node _ _ _ _ children, tree' =>
    have := decideEchoesAll text move children tree'.children
    inferInstanceAs (Decidable (_ ∧ _ ∧ (_ → _) ∧ EchoesAll text move children tree'.children))

/-- Whether trees are echoed one by one. -/
def decideEchoesAll (text : List Char) (move : Nat → Nat) :
    (trees trees' : List Tree) → Decidable (EchoesAll text move trees trees')
  | [], [] => .isTrue trivial
  | tree :: trees, tree' :: trees' =>
    have := decideEchoes text move tree tree'
    have := decideEchoesAll text move trees trees'
    inferInstanceAs (Decidable (_ ∧ Echoes text move tree tree' ∧ _))
  | [], _ :: _ | _ :: _, [] => .isFalse id

end

instance (text : List Char) (move : Nat → Nat) (tree tree' : Tree) : Decidable (Echoes text move tree tree') :=
  decideEchoes text move tree tree'

theorem echoesAll_iff {text : List Char} {move : Nat → Nat} {trees trees' : List Tree} :
    EchoesAll text move trees trees' ↔
      List.Forall₂ (fun tree tree' => tree'.field = tree.field ∧ Echoes text move tree tree') trees trees' := by
  induction trees generalizing trees' with
  | nil => cases trees' <;> simp [EchoesAll]
  | cons tree rest ih => cases trees' <;> simp [EchoesAll, ih, and_assoc]

end Syntax.Tree

namespace Document

/-! ## Nodes -/

/-- An expression of a document that has been taken over into the text of another one. What stands on one line has its text
    again at the places that its ends have moved to. -/
structure Passage (doc doc' : Document) (top : NodeId) where
  buffer : BufferId
  buffer' : BufferId
  move : Nat → Nat
  keeps : ∀ {x span}, doc.Below top x → (doc.node x).origin = .parsed buffer span →
    IsBare (slice (doc.buffer buffer) span.start span.stop) →
    slice (doc'.buffer buffer') (move span.start) (move span.stop) = slice (doc.buffer buffer) span.start span.stop

variable {doc doc' : Document} {top : NodeId} {passage : Passage doc doc' top} {x y : NodeId} {v : Value} {n m : Nat}

/-- A part of the expression is echoed by a node of the other document. -/
def Echoes (doc doc' : Document) (passage : Passage doc doc' top) (x y : NodeId) : Prop :=
  doc.Below top x ∧ ∃ tree tree', doc.Bears passage.buffer x tree ∧ doc'.Bears passage.buffer' y tree' ∧
    tree.Echoes (doc.buffer passage.buffer) passage.move tree'

/-- No token of a tree goes over a line end. -/
def Unbroken (doc : Document) (x : NodeId) : Prop :=
  ∀ z, doc.Below x z → (doc.role z).isToken = true → IsBare (doc.text z)

theorem Unbroken.below (unbroken : doc.Unbroken x) (below : doc.Below x y) : doc.Unbroken y :=
  fun z down => unbroken z (below.trans down)

namespace Echoes
variable (echoes : doc.Echoes doc' passage x y)
include echoes

theorem kind : (doc'.node y).kind = (doc.node x).kind := by
  obtain ⟨_, tree, tree', bears, bears', echo⟩ := echoes
  cases tree
  rw [bears'.kind, bears.kind, echo.1]
  rfl

theorem role : doc'.role y = doc.role x := by
  rw [Document.role, Node.role, echoes.kind, Document.role, Node.role]

theorem named : (doc'.node y).named = (doc.node x).named := by
  obtain ⟨_, tree, tree', bears, bears', echo⟩ := echoes
  cases tree
  rw [bears'.named, bears.named, echo.2.1]
  rfl

theorem children : List.Forall₂ (fun c d => (doc'.node d).field = (doc.node c).field ∧
    doc.Echoes doc' passage c d) (doc.children x) (doc'.children y) := by
  obtain ⟨below, tree, tree', bears, bears', echo⟩ := echoes
  have each : ∀ {xs ys : List NodeId} {trees trees' : List Tree}, (∀ c ∈ xs, doc.Below top c) →
      List.Forall₂ (doc.BearsField passage.buffer) xs trees →
      List.Forall₂ (fun t t' => t'.field = t.field ∧ t.Echoes (doc.buffer passage.buffer) passage.move t') trees trees' →
      List.Forall₂ (doc'.BearsField passage.buffer') ys trees' →
      List.Forall₂ (fun c d => (doc'.node d).field = (doc.node c).field ∧ doc.Echoes doc' passage c d) xs ys := by
    intro xs ys trees trees' inside held pairs held'
    induction pairs generalizing xs ys with
    | nil =>
      cases held
      cases held'
      exact .nil
    | cons here _ ih =>
      obtain ⟨c, rest, first, later, rfl⟩ := List.forall₂_cons_right_iff.mp held
      obtain ⟨c', rest', first', later', rfl⟩ := List.forall₂_cons_right_iff.mp held'
      obtain ⟨now, ahead⟩ := List.forall_mem_cons.mp inside
      exact .cons ⟨by rw [first.1, first'.1, here.1], now, _, _, first.2, first'.2, here.2⟩ (ih ahead later later')
  cases tree
  exact each (fun c child => below.tail child) bears.children (Tree.echoesAll_iff.mp echo.2.2.2) bears'.children

theorem childByField? (field : String) :
    Option.Rel (fun c d => c ∈ doc.children x ∧ doc.Echoes doc' passage c d)
      (doc.childByField? x field) (doc'.childByField? y field) := by
  have pairs := forall₂_imp_mem echoes.children
    (S := fun c d => (doc'.node d).field = (doc.node c).field ∧ c ∈ doc.children x ∧ doc.Echoes doc' passage c d)
    fun c member d _ both => ⟨both.1, member, both.2⟩
  have found := forall₂_find? (p := fun c => (doc.node c).field == some field)
    (q := fun c => (doc'.node c).field == some field) pairs fun c _ d _ both => by rw [both.1]
  unfold Document.childByField?
  generalize List.find? _ (doc.children x) = left at found ⊢
  generalize List.find? _ (doc'.children y) = right at found ⊢
  cases found with
  | none => exact .none
  | some both => exact .some both.2

theorem namedChildren : List.Forall₂ (fun c d => c ∈ doc.children x ∧ doc.Echoes doc' passage c d)
    (doc.namedChildren x) (doc'.namedChildren y) := by
  refine forall₂_imp_mem (List.rel_filter (R := doc.Echoes doc' passage) (fun c d both => ?_) ?_)
    fun c member d _ both => ⟨List.mem_of_mem_filter member, both⟩
  · simp only [both.named, both.role]
  · exact echoes.children.imp fun _ _ both => both.2

theorem entries : List.Forall₂ (fun c d => c ∈ doc.children x ∧ doc.Echoes doc' passage c d)
    (doc.entries x) (doc'.entries y) := by
  refine forall₂_imp_mem (List.rel_filter (R := doc.Echoes doc' passage) (fun c d both => ?_) ?_)
    fun c member d _ both => ⟨List.mem_of_mem_filter member, both⟩
  · simp only [both.role]
  · exact echoes.children.imp fun _ _ both => both.2

/-- What lies below an echo echoes something. -/
theorem below {z : NodeId} (under : doc'.Below y z) : ∃ w, doc.Below x w ∧ doc.Echoes doc' passage w z := by
  induction under with
  | refl => exact ⟨x, Below.refl doc x, echoes⟩
  | tail _ edge ih =>
    obtain ⟨w, down, here⟩ := ih
    obtain ⟨c, child, both⟩ := forall₂_mem_right here.children edge
    exact ⟨c, down.tail child, both.2⟩

variable (forest : doc.Forest) (forest' : doc'.Forest)
include forest forest'

/-- What stands on one line has its text again. -/
theorem text (bare : IsBare (doc.text x)) : doc'.text y = doc.text x := by
  obtain ⟨below, tree, tree', bears, bears', echo⟩ := echoes
  rw [bears.text forest] at bare ⊢
  rw [bears'.text forest']
  cases tree
  rw [echo.2.2.1 bare]
  exact passage.keeps below bears.origin bare

/-! ## Keys -/

variable (unbroken : doc.Unbroken x)
include unbroken

theorem text_token (token : (doc.role x).isToken = true) : doc'.text y = doc.text x :=
  echoes.text forest forest' (unbroken x (Below.refl doc x) token)

theorem keyOf : doc'.keyOf y = doc.keyOf x := by
  have token := echoes.text_token forest forest' unbroken
  unfold Document.keyOf
  rw [echoes.role]
  split
  next is => rw [token (by rw [is]; rfl)]
  next is => rw [token (by rw [is]; rfl)]
  next is => rw [token (by rw [is]; rfl)]
  next is => rw [token (by rw [is]; rfl)]
  next => rfl

theorem keyed (field : String) :
    (doc'.childByField? y field).map doc'.keyOf = (doc.childByField? x field).map doc.keyOf := by
  rw [Option.map_eq_bind, Option.map_eq_bind]
  refine rel_bind_eq (echoes.childByField? field) fun k k' both => ?_
  rw [Function.comp, Function.comp, both.2.keyOf forest forest' (unbroken.below (.child both.1))]

theorem entryIdentifier? : doc'.entryIdentifier? y = doc.entryIdentifier? x := by
  have keyed := echoes.keyed forest forest' unbroken
  have token := echoes.text_token forest forest' unbroken
  unfold Document.entryIdentifier? Document.entryKey?
  rw [echoes.role]
  split
  next => rw [keyed]
  next => rw [keyed]
  next is => rw [token (by rw [is]; rfl)]
  next => rfl
  next => rfl

/-! ## Values -/

theorem numberValue (number : doc.role x = .numberLiteral) : doc'.numberValue y = doc.numberValue x := by
  rw [Document.numberValue, echoes.text_token forest forest' unbroken (by rw [number]; rfl), Document.numberValue]

theorem memberName {name : List Char} (tells : doc.memberName x = .ok name) : doc'.memberName y = .ok name := by
  have token := echoes.text_token forest forest' unbroken
  unfold Document.memberName at tells ⊢
  rw [echoes.role]
  split at tells
  next is => rwa [token (by rw [is]; rfl)]
  next is => rwa [token (by rw [is]; rfl)]
  next is => rwa [echoes.numberValue forest forest' unbroken is]
  next => cases tells

theorem evaluateUnary (tells : doc.evaluateUnary x = .ok v) : doc'.evaluateUnary y = .ok v := by
  have operator := echoes.childByField? "operator"
  have argument := echoes.childByField? "argument"
  unfold Document.evaluateUnary at tells ⊢
  split at tells
  next a sign held =>
    rw [held] at argument
    obtain ⟨o, is, minus⟩ := Option.map_eq_some_iff.mp sign
    rw [is] at operator
    generalize doc'.childByField? y "argument" = right at argument ⊢
    generalize doc'.childByField? y "operator" = left at operator ⊢
    obtain both | _ := argument
    obtain both' | _ := operator
    have bare : IsBare (doc.text o) := by
      rw [minus]
      decide
    simp only [Option.map_some, both'.2.text forest forest' bare, minus]
    rw [both.2.role]
    by_cases number : doc.role a = .numberLiteral
    · rw [if_pos number] at tells ⊢
      rw [both.2.numberValue forest forest' (unbroken.below (.child both.1)) number]
      obtain ⟨read, is, tells⟩ := bind_eq_ok.mp tells
      refine bind_eq_ok.mpr ⟨read, is, ?_⟩
      split at tells
      next => exact tells
      next => cases tells
    · rw [if_neg number] at tells
      cases tells
  next => cases tells

end Echoes

/-- The values of elements that are echoed one by one. -/
theorem evaluateItems_again {R : NodeId → NodeId → Prop} {f g : NodeId → Except Failure Value} {es es' : List NodeId}
    {vs : List Value} (pairs : List.Forall₂ R es es') (again : ∀ e e' v, R e e' → f e = .ok v → g e' = .ok v)
    (run : evaluateItems f es = .ok vs) : evaluateItems g es' = .ok vs := by
  induction pairs generalizing vs with
  | nil => exact run
  | cons here _ ih =>
    obtain ⟨v, first, run⟩ := bind_eq_ok.mp run
    obtain ⟨rest, later, done⟩ := bind_eq_ok.mp run
    cases done
    exact bind_eq_ok.mpr ⟨v, again _ _ _ here first, bind_eq_ok.mpr ⟨rest, ih later, rfl⟩⟩

section
variable (forest : doc.Forest) (forest' : doc'.Forest)
include forest forest'

/-- The members of an object literal whose entries are echoed one by one. -/
theorem evaluateMembers_again {f g : NodeId → Except Failure Value} {es es' : List NodeId}
    {members found : List (List Char × Value)}
    (pairs : List.Forall₂ (fun e e' => doc.Unbroken e ∧ doc.Echoes doc' passage e e') es es')
    (again : ∀ e ∈ es, ∀ c c' v, c ∈ doc.children e → doc.Echoes doc' passage c c' → f c = .ok v → g c' = .ok v)
    (run : doc.evaluateMembers f members es = .ok found) : doc'.evaluateMembers g members es' = .ok found := by
  induction pairs generalizing members with
  | nil => exact run
  | @cons e e' _ _ here _ ih =>
    obtain ⟨unbroken, echoes⟩ := here
    have key := echoes.childByField? "key"
    have value := echoes.childByField? "value"
    unfold evaluateMembers at run ⊢
    split at run
    next k w pair keyed valued =>
      rw [keyed] at key
      rw [valued] at value
      rw [echoes.role, pair]
      generalize doc'.childByField? e' "key" = left at key ⊢
      generalize doc'.childByField? e' "value" = right at value ⊢
      obtain both | _ := key
      obtain both' | _ := value
      obtain ⟨name, tells, run⟩ := bind_eq_ok.mp run
      obtain ⟨v, evaluates, run⟩ := bind_eq_ok.mp run
      refine bind_eq_ok.mpr ⟨name, both.2.memberName forest forest' (unbroken.below (.child both.1)) tells,
        bind_eq_ok.mpr ⟨v, again e List.mem_cons_self _ _ v both'.1 both'.2 evaluates, ih (fun e member => ?_) run⟩⟩
      exact again e (List.mem_cons_of_mem _ member)
    next => cases run

/-- A literal expression has its value again, at any depth that suffices for it in the first text. -/
theorem Echoes.evaluateDown (echoes : doc.Echoes doc' passage x y) (unbroken : doc.Unbroken x) (le : n ≤ m)
    (run : doc.evaluateDown n x = .ok v) : doc'.evaluateDown m y = .ok v := by
  induction n generalizing m x y v with
  | zero => cases run
  | succ n ih =>
    obtain ⟨m, rfl⟩ : ∃ k, m = k + 1 := ⟨m - 1, by omega⟩
    have le : n ≤ m := Nat.le_of_succ_le_succ le
    have inside : ∀ e ∈ doc.children x, doc.Unbroken e := fun e child => unbroken.below (.child child)
    have token := echoes.text_token forest forest' unbroken
    unfold Document.evaluateDown at run ⊢
    rw [echoes.role]
    split at run
    next =>
      obtain ⟨members, run, done⟩ := bind_eq_ok.mp run
      refine bind_eq_ok.mpr ⟨members, ?_, done⟩
      refine evaluateMembers_again forest forest' (echoes.namedChildren.imp fun e e' both => ⟨inside e both.1, both.2⟩)
        (fun e member c c' v child echo run => ?_) run
      exact ih echo ((inside e (List.mem_of_mem_filter member)).below (.child child)) le run
    next =>
      obtain ⟨items, run, done⟩ := bind_eq_ok.mp run
      exact bind_eq_ok.mpr ⟨items, evaluateItems_again echoes.namedChildren
        (fun e e' v both run => ih both.2 (inside e both.1) le run) run, done⟩
    next is => rwa [token (by rw [is]; rfl)]
    next is => rwa [echoes.numberValue forest forest' unbroken is]
    next => exact run
    next => exact run
    next => exact run
    next => exact echoes.evaluateUnary forest forest' unbroken run
    next => cases run

end

end Document

end StoreModels
