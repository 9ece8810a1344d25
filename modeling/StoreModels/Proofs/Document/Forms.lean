import StoreModels.Model.Match
import StoreModels.Proofs.Document.Trees

/-!
Forms: what a tree is to look like, wherever its parts stand in the text. A form tells the kinds, names and fields of
nodes and the texts of the tokens. What the library finds in a node that shows a form, its children, keys, values and
object literals, is what the form has there.
-/
namespace StoreModels
open Syntax (Span Tree Role Dialect Reader)

/-- The look of a tree: a token with its text, or a node with its parts. -/
inductive Form
  | token (kind : String) (named : Bool) (field : Option String) (text : List Char)
  | node (kind : String) (named : Bool) (field : Option String) (parts : List Form)

namespace Form

def kind : Form → String
  | token kind _ _ _ | node kind _ _ _ => kind

def named : Form → Bool
  | token _ named _ _ | node _ named _ _ => named

def field : Form → Option String
  | token _ _ field _ | node _ _ field _ => field

def role (form : Form) : Role := Role.ofKind form.kind

/-- Whether a part has a name and is no comment. -/
def counts (form : Form) : Bool := form.named && form.role != .comment

/-- A word or a sign of the language. -/
def mark (text : String) : Form := .token text false none text.toList

/-- Forms with commas between. -/
def separated : List Form → List Form
  | [] => []
  | [form] => [form]
  | form :: rest => form :: mark "," :: separated rest

theorem filter_separated {forms : List Form} (each : ∀ form ∈ forms, form.counts = true) :
    (separated forms).filter counts = forms := by
  have comma : ¬ (mark ",").counts := by decide
  induction forms with
  | nil => rfl
  | cons form rest ih =>
    have later := ih fun f member => each f (List.mem_cons_of_mem _ member)
    cases rest with
    | nil => exact List.filter_cons_of_pos (each form (by simp))
    | cons next rest =>
      rw [separated, List.filter_cons_of_pos (each form (by simp)), List.filter_cons_of_neg comma, later]
      exact fun none => by cases none

/-- The brackets and the commas of a list aside, its parts are its items. -/
theorem filter_parts {first last : String} {forms : List Form} (each : ∀ form ∈ forms, form.counts = true) :
    (mark first :: separated forms ++ [mark last]).filter counts = forms := by
  have sign : ∀ text : String, (mark text).counts = false := fun _ => rfl
  rw [List.cons_append, List.filter_cons_of_neg (by simp [sign]), List.filter_append, filter_separated each,
    List.filter_cons_of_neg (by simp [sign]), List.filter_nil, List.append_nil]

mutual

/-- The text of a form, with no blank in it. -/
def text : Form → List Char
  | token _ _ _ text => text
  | node _ _ _ parts => textAll parts

/-- The texts of forms one after the other. -/
def textAll : List Form → List Char
  | [] => []
  | form :: rest => form.text ++ textAll rest

end

theorem textAll_append (first second : List Form) : textAll (first ++ second) = textAll first ++ textAll second := by
  induction first with
  | nil => rfl
  | cons form rest ih => rw [List.cons_append, textAll, textAll, ih, List.append_assoc]

mutual

/-- The object literals in a form, each before those inside it. -/
def literals : Form → List Form
  | token kind named field text =>
    if Role.ofKind kind = .object then [token kind named field text] else []
  | node kind named field parts =>
    (if Role.ofKind kind = .object then [node kind named field parts] else []) ++ literalsAll parts

/-- The object literals in some forms. -/
def literalsAll : List Form → List Form
  | [] => []
  | form :: rest => form.literals ++ literalsAll rest

end

theorem literalsAll_eq (forms : List Form) : literalsAll forms = forms.flatMap literals := by
  induction forms with
  | nil => rfl
  | cons form rest ih => rw [literalsAll, ih, List.flatMap_cons]

end Form

namespace Syntax.Tree

mutual

/-- A tree of a text has a form. The leaves that a token may consist of have no meaning of their own. -/
def Takes (text : List Char) : Form → Tree → Prop
  | .token kind named field part, tree =>
    tree.kind = kind ∧ tree.named = named ∧ tree.field = field ∧
      Text.slice text tree.span.start tree.span.stop = part ∧
      ∀ c ∈ tree.children, c.children = [] ∧ (Role.ofKind c.kind).isMute = true
  | .node kind named field parts, tree =>
    tree.kind = kind ∧ tree.named = named ∧ tree.field = field ∧ TakesAll text parts tree.children

/-- Trees of a text have forms one by one. -/
def TakesAll (text : List Char) : List Form → List Tree → Prop
  | [], [] => True
  | form :: forms, tree :: trees => Takes text form tree ∧ TakesAll text forms trees
  | _, _ => False

end

mutual

/-- Whether a tree has a form. -/
def decideTakes (text : List Char) : (form : Form) → (tree : Tree) → Decidable (Takes text form tree)
  | .token _ _ _ _, _ => inferInstanceAs (Decidable (_ ∧ _ ∧ _ ∧ _ ∧ _))
  | .node _ _ _ parts, tree =>
    have := decideTakesAll text parts tree.children
    inferInstanceAs (Decidable (_ ∧ _ ∧ _ ∧ _))

/-- Whether trees have forms one by one. -/
def decideTakesAll (text : List Char) : (forms : List Form) → (trees : List Tree) → Decidable (TakesAll text forms trees)
  | [], [] => .isTrue trivial
  | form :: forms, tree :: trees =>
    have := decideTakes text form tree
    have := decideTakesAll text forms trees
    inferInstanceAs (Decidable (_ ∧ _))
  | [], _ :: _ | _ :: _, [] => .isFalse id

end

instance (text : List Char) (form : Form) (tree : Tree) : Decidable (Takes text form tree) := decideTakes text form tree

theorem takesAll_iff {text : List Char} {forms : List Form} {trees : List Tree} :
    TakesAll text forms trees ↔ List.Forall₂ (Takes text) forms trees := by
  induction forms generalizing trees with
  | nil => cases trees <;> simp [TakesAll]
  | cons form rest ih => cases trees <;> simp [TakesAll, ih]

variable {text : List Char} {form : Form} {tree : Tree}

theorem Takes.head (takes : Takes text form tree) :
    tree.kind = form.kind ∧ tree.named = form.named ∧ tree.field = form.field := by
  cases form <;> exact ⟨takes.1, takes.2.1, takes.2.2.1⟩

end Syntax.Tree

namespace Document
variable {doc : Document} {id : NodeId} {form : Form} {label : String} {own : Bool} {place : Option String}
  {text : List Char} {parts : List Form}

/-- A node shows a form: it stands for a tree that has it. -/
def Shows (doc : Document) (id : NodeId) (form : Form) : Prop :=
  ∃ buffer tree, doc.Bears buffer id tree ∧ tree.Takes (doc.buffer buffer) form

/-- A child shows a form and fills its field. -/
def ShowsField (doc : Document) (id : NodeId) (form : Form) : Prop :=
  (doc.node id).field = form.field ∧ doc.Shows id form

namespace Shows

theorem kind (shows : doc.Shows id form) : (doc.node id).kind = form.kind := by
  obtain ⟨_, tree, bears, takes⟩ := shows
  exact bears.kind.trans takes.head.1

theorem named (shows : doc.Shows id form) : (doc.node id).named = form.named := by
  obtain ⟨_, tree, bears, takes⟩ := shows
  exact bears.named.trans takes.head.2.1

theorem role (shows : doc.Shows id form) : doc.role id = form.role := by
  rw [Document.role, Node.role, shows.kind, Form.role]

theorem token_text (shows : doc.Shows id (.token label own place text)) (forest : doc.Forest) : doc.text id = text := by
  obtain ⟨_, tree, bears, takes⟩ := shows
  exact (bears.text forest).trans takes.2.2.2.1

theorem children (shows : doc.Shows id (.node label own place parts)) :
    List.Forall₂ doc.ShowsField (doc.children id) parts := by
  obtain ⟨buffer, tree, bears, _, _, _, takes⟩ := shows
  have each : ∀ {ids : List NodeId} {trees : List Tree} {forms : List Form},
      List.Forall₂ (doc.BearsField buffer) ids trees → List.Forall₂ (Syntax.Tree.Takes (doc.buffer buffer)) forms trees →
      List.Forall₂ doc.ShowsField ids forms := by
    intro ids trees forms held pairs
    induction pairs generalizing ids with
    | nil =>
      cases held
      exact .nil
    | cons here _ ih =>
      obtain ⟨c, rest, first, later, rfl⟩ := List.forall₂_cons_right_iff.mp held
      exact .cons ⟨first.1.trans here.head.2.2, buffer, _, first.2, here⟩ (ih later)
  exact each bears.children (Syntax.Tree.takesAll_iff.mp takes)

/-- The parts of a token are leaves without a meaning. -/
theorem token_leaves (shows : doc.Shows id (.token label own place text)) :
    ∀ c ∈ doc.children id, doc.children c = [] ∧ (doc.role c).isMute = true := by
  obtain ⟨_, tree, bears, takes⟩ := shows
  intro c member
  obtain ⟨t, listed, held⟩ := forall₂_mem_left bears.children member
  obtain ⟨bare, other⟩ := takes.2.2.2.2 t listed
  refine ⟨?_, by rw [held.2.role]; exact other⟩
  have none := held.2.children
  rw [bare] at none
  exact List.forall₂_nil_right_iff.mp none

theorem childByField? (shows : doc.Shows id (.node label own place parts)) (name : String) :
    Option.Rel doc.Shows (doc.childByField? id name) (parts.find? fun f => f.field == some name) := by
  have found := forall₂_find? (p := fun c => (doc.node c).field == some name)
    (q := fun f : Form => f.field == some name) shows.children fun c _ f _ both => by rw [both.1]
  unfold Document.childByField?
  generalize List.find? _ (doc.children id) = left at found ⊢
  generalize List.find? _ parts = right at found ⊢
  cases found with
  | none => exact .none
  | some both => exact .some both.2

/-- The first part that fills a field shows as the first child that does. -/
theorem child (shows : doc.Shows id (.node label own place parts)) (name : String)
    (first : parts.find? (fun f => f.field == some name) = some form) :
    ∃ c, doc.childByField? id name = some c ∧ doc.Shows c form := by
  have found := shows.childByField? name
  rw [first] at found
  cases is : doc.childByField? id name with
  | none =>
    rw [is] at found
    cases found
  | some c =>
    rw [is] at found
    cases found with
    | some shown => exact ⟨c, rfl, shown⟩

theorem namedChildren (shows : doc.Shows id (.node label own place parts)) :
    List.Forall₂ doc.ShowsField (doc.namedChildren id) (parts.filter Form.counts) :=
  List.rel_filter (fun c f both => by simp only [both.2.named, both.2.role, Form.counts]) shows.children

/-- The named children of a list are its items. -/
theorem items {first last : String} {forms : List Form} (each : ∀ form ∈ forms, form.counts = true)
    (shows : doc.Shows id (.node label own place (.mark first :: Form.separated forms ++ [.mark last]))) :
    List.Forall₂ doc.ShowsField (doc.namedChildren id) forms := by
  have children := shows.namedChildren
  rwa [Form.filter_parts each] at children

theorem entries (shows : doc.Shows id (.node label own place parts)) :
    List.Forall₂ doc.ShowsField (doc.entries id) (parts.filter fun f => f.role.isEntry) :=
  List.rel_filter (fun c f both => by simp only [both.2.role]) shows.children

/-! ## Object literals -/

/-- The object literals below a node are those of its form. -/
theorem literals {n : Nat} (fits : doc.Fits n id) (shows : doc.Shows id form) :
    List.Forall₂ doc.Shows ((doc.descend n id).filter fun x => doc.role x = .object) form.literals := by
  induction n generalizing id form with
  | zero => exact fits.elim
  | succ n ih =>
    have inside : ∀ c ∈ doc.children id, doc.Fits n c := fits
    have top : List.Forall₂ doc.Shows (if doc.role id = .object then [id] else [])
        (if form.role = .object then [form] else []) := by
      rw [shows.role]
      split
      · exact .cons shows .nil
      · exact .nil
    rw [literals_succ]
    cases form with
    | token label own place text =>
      rw [literals_leaves shows.token_leaves, List.append_nil]
      exact top
    | node label own place parts =>
      rw [Form.literals, Form.literalsAll_eq]
      refine List.rel_append top (forall₂_flatMap shows.children fun c member form _ both => ?_)
      exact ih (inside c member) both.2

end Shows

/-- A file that is read as a tree of some form shows the form. -/
theorem parse_shows [Reader] {dialect : Dialect} {source : List Char} {first : Document}
    (file : Document.parse dialect source = .ok first)
    (reads : ∃ tree, Reader.program? dialect source = some tree ∧ tree.Takes source form) (indent : List Char) :
    (first.withFallbackIndent indent).Shows (first.withFallbackIndent indent).root form := by
  obtain ⟨tree, found, bears, text⟩ := parse_bears file indent
  obtain ⟨tree', found', takes⟩ := reads
  rw [found] at found'
  cases found'
  refine ⟨0, tree, bears, ?_⟩
  rw [show (first.withFallbackIndent indent).buffer 0 = source from text]
  exact takes

/-- The object literals of a document whose root shows a form are those of the form. -/
theorem Shows.objects (forest : doc.Forest) (present : doc.root < doc.nodes.size) (shows : doc.Shows doc.root form) :
    List.Forall₂ doc.Shows doc.objects form.literals :=
  shows.literals (forest.fits present)

end Document

end StoreModels
