import StoreModels.Syntax.Role
import StoreModels.Syntax.Reader
import StoreModels.Proofs.Text.Splice

/-!
What the library relies on in the trees of a reader. The children of a node lie one after another inside it; an object
literal, other than the keyword of its kind, starts with its opening brace and ends with its closing one, and has a comma
between each two entries; a line comment in it is followed by a line feed before the next child; a pair has a value. All
of this can be checked.
-/
namespace StoreModels.Syntax
open Text (slice Ordered)

/-- The children of a node as their places in the text show them: kinds and spans. -/
abbrev Outline := List (String × Span)

namespace Outline

/-- Whether there is a comma between each two entries; `entered` tells that an entry stands before with none since. -/
def isSeparated : Bool → Outline → Bool
  | _, [] => true
  | entered, (kind, _) :: rest =>
    if (Role.ofKind kind).isEntry then !entered && isSeparated true rest
    else isSeparated (entered && kind != ",") rest

/-- Whether a part of a text is a comment up to the end of its line. -/
def isLineComment (text : List Char) (kind : String) (span : Span) : Bool :=
  Role.ofKind kind == .comment && ['/', '/'].isPrefixOf (slice text span.start span.stop)

/-- Whether every comment up to the end of its line has a line feed before the next child. -/
def endsLines (text : List Char) : Outline → Bool
  | (kind, span) :: (next, after) :: rest =>
    (!isLineComment text kind span || (slice text span.stop after.start).contains '\n') &&
      endsLines text ((next, after) :: rest)
  | _ => true

/-- Whether a part is a brace of one kind, which takes up some place. -/
def isBrace (brace : String) (part : String × Span) : Bool := part.1 == brace && decide (part.2.start < part.2.stop)

/-- Whether the children of a node are those of an object literal. -/
def isObject (text : List Char) : Outline → Bool
  | [] => false
  | opening :: rest =>
    isBrace "\x7b" opening && rest.getLast?.any (isBrace "\x7d") && isSeparated false rest && endsLines text rest

theorem isSeparated_append {entered : Bool} {outline more : Outline} (separated : isSeparated entered (outline ++ more)) :
    isSeparated entered outline = true := by
  induction outline generalizing entered with
  | nil => rfl
  | cons part rest ih =>
    obtain ⟨kind, span⟩ := part
    simp only [List.cons_append, isSeparated] at separated ⊢
    split at separated
    next entry =>
      rw [if_pos entry]
      simp only [Bool.and_eq_true] at separated ⊢
      exact ⟨separated.1, ih separated.2⟩
    next entry =>
      rw [if_neg entry]
      exact ih separated

/-- An object literal's children are an opening brace, the inner ones, and a closing brace. -/
theorem isObject_split {text : List Char} {outline : Outline} (object : outline.isObject text = true) :
    ∃ opening inner closing, outline = opening :: (inner ++ [closing]) ∧ isBrace "\x7b" opening = true ∧
      isBrace "\x7d" closing = true ∧ isSeparated false inner = true ∧ endsLines text (inner ++ [closing]) = true := by
  cases outline with
  | nil => cases object
  | cons opening rest =>
    simp only [isObject, Bool.and_eq_true] at object
    obtain ⟨⟨⟨opens, closes⟩, separated⟩, ends⟩ := object
    rcases List.eq_nil_or_concat rest with rfl | ⟨inner, closing, rfl⟩
    · simp at closes
    · rw [List.concat_eq_append] at closes separated ends ⊢
      rw [List.getLast?_append, List.getLast?_singleton] at closes
      exact ⟨opening, inner, closing, rfl, opens, by simpa using closes, isSeparated_append separated, ends⟩

/-- Whether a node has no children and is spelled as its kind. Keywords of types are; the kinds of two of them are those of
    literals as well. -/
def IsKeyword (text : List Char) (kind : String) (span : Span) (outline : Outline) : Prop :=
  outline = [] ∧ slice text span.start span.stop = kind.toList

instance (text : List Char) (kind : String) (span : Span) (outline : Outline) :
    Decidable (IsKeyword text kind span outline) :=
  inferInstanceAs (Decidable (_ ∧ _))

/-- Whether children fit a node of some kind and span. -/
def Fits (text : List Char) (kind : String) (span : Span) (outline : Outline) : Prop :=
  Ordered span.start span.stop (outline.map Prod.snd) ∧
    (Role.ofKind kind = .object → IsKeyword text kind span outline ∨ outline.isObject text = true)

instance (text : List Char) (kind : String) (span : Span) (outline : Outline) : Decidable (Fits text kind span outline) :=
  inferInstanceAs (Decidable (_ ∧ (_ → _ ∨ _)))

/-- Whether children start with an opening brace and end with a closing one. -/
def isBraced (outline : Outline) : Bool := outline.head?.any (isBrace "\x7b") && outline.getLast?.any (isBrace "\x7d")

/-- Whether children lie in order in a node, with braces around those of an object literal, and are written as they are:
    a comma as a comma, and a comment with no blank in front. -/
def Spelled (text : List Char) (kind : String) (span : Span) (outline : Outline) : Prop :=
  Ordered span.start span.stop (outline.map Prod.snd) ∧
    (Role.ofKind kind = .object → IsKeyword text kind span outline ∨ outline.isBraced = true) ∧
    ∀ part ∈ outline, (part.1 = "," → slice text part.2.start part.2.stop = [',']) ∧
      (Role.ofKind part.1 = .comment →
        (slice text part.2.start part.2.stop).head?.any (fun c => !Text.isBlank c) = true)

instance (text : List Char) (kind : String) (span : Span) (outline : Outline) :
    Decidable (Spelled text kind span outline) :=
  inferInstanceAs (Decidable (_ ∧ (_ → _ ∨ _) ∧ ∀ part ∈ outline, (_ → _) ∧ (_ → _)))

/-- A role with a kind of its own has only that one. -/
theorem kind_of_role {kind name : String} {role : Role} (known : role ≠ .other)
    (only : ∀ row ∈ Role.table, row.2 = role → row.1 = name) (is : Role.ofKind kind = role) : kind = name := by
  rw [Role.ofKind] at is
  cases found : Role.table.lookup kind with
  | none =>
    rw [found] at is
    exact absurd is.symm known
  | some own =>
    rw [found] at is
    obtain ⟨before, after, split, _⟩ := List.lookup_eq_some_iff.mp found
    exact only (kind, own) (split ▸ List.mem_append_right before List.mem_cons_self) is

theorem kind_of_object {kind : String} (object : Role.ofKind kind = .object) : kind = "object" :=
  kind_of_role (by decide) (by decide) object

theorem kind_of_string {kind : String} (string : Role.ofKind kind = .stringLiteral) : kind = "string" :=
  kind_of_role (by decide) (by decide) string

/-- The keyword `object` is longer than two braces. -/
theorem IsKeyword.wide {text : List Char} {kind : String} {span : Span} {outline : Outline}
    (keyword : IsKeyword text kind span outline) (object : Role.ofKind kind = .object) :
    span.start + 1 < span.stop := by
  have length := congrArg List.length keyword.2
  rw [kind_of_object object, slice, List.length_take, List.length_drop] at length
  have six : "object".toList.length = 6 := rfl
  omega

theorem isBraced_split {outline : Outline} (braced : outline.isBraced = true) :
    ∃ opening inner closing, outline = opening :: (inner ++ [closing]) ∧ isBrace "\x7b" opening = true ∧
      isBrace "\x7d" closing = true := by
  rw [isBraced, Bool.and_eq_true] at braced
  obtain ⟨opens, closes⟩ := braced
  cases outline with
  | nil => cases opens
  | cons opening rest =>
    have left : isBrace "\x7b" opening = true := opens
    rcases List.eq_nil_or_concat rest with rfl | ⟨inner, closing, rfl⟩
    · -- One part cannot be both braces.
      have right : isBrace "\x7d" opening = true := closes
      simp only [isBrace, Bool.and_eq_true, beq_iff_eq] at left right
      rw [left.1] at right
      exact absurd right.1 (by decide)
    · rw [List.concat_eq_append, ← List.cons_append, List.getLast?_append, List.getLast?_singleton] at closes
      exact ⟨opening, inner, closing, by simp, left, by simpa using closes⟩

end Outline

namespace Tree

mutual

/-- A tree and all trees below it. -/
def subtrees : Tree → List Tree
  | node kind named field span children => node kind named field span children :: subtreesAll children

/-- Some trees and all trees below them. -/
def subtreesAll : List Tree → List Tree
  | [] => []
  | tree :: rest => tree.subtrees ++ subtreesAll rest

end

/-- The children's kinds and spans. -/
def outline (tree : Tree) : Outline := tree.children.map fun t => (t.kind, t.span)

/-- Whether a tree and all below it are as the library relies on. -/
def Conforms (text : List Char) (tree : Tree) : Prop :=
  ∀ t ∈ tree.subtrees, t.outline.Fits text t.kind t.span ∧
    (Role.ofKind t.kind = .pair → ∃ c ∈ t.children, c.field = some "value")

instance (text : List Char) (tree : Tree) : Decidable (tree.Conforms text) :=
  inferInstanceAs (Decidable (∀ t ∈ tree.subtrees, _ ∧ (_ → ∃ c ∈ t.children, _)))

theorem mem_subtreesAll {trees : List Tree} {t : Tree} : t ∈ subtreesAll trees ↔ ∃ tree ∈ trees, t ∈ tree.subtrees := by
  induction trees with
  | nil => simp [subtreesAll]
  | cons tree rest ih => simp [subtreesAll, ih]

theorem subtrees_eq (tree : Tree) : tree.subtrees = tree :: subtreesAll tree.children := by
  cases tree
  rfl

theorem mem_subtrees_child {tree child t : Tree} (member : child ∈ tree.children) (below : t ∈ child.subtrees) :
    t ∈ tree.subtrees := by
  rw [subtrees_eq]
  exact List.mem_cons_of_mem _ (mem_subtreesAll.mpr ⟨child, member, below⟩)

theorem mem_subtrees_part {tree part t : Tree} (member : part ∈ tree.parts) (below : t ∈ part.subtrees) :
    t ∈ tree.subtrees :=
  mem_subtrees_child (List.mem_of_mem_filter member) below

end Tree

/-- Whether the nodes of a role stand for one token; whatever is below them are parts of it. -/
def Role.isToken : Role → Bool
  | .identifier | .propertyIdentifier | .stringLiteral | .numberLiteral | .shorthandProperty => true
  | _ => false

/-- Whether the nodes of a role say nothing to the library. -/
def Role.isMute : Role → Bool
  | .other | .comment => true
  | _ => false

/-- Whether the nodes of some roles in a tree have no other parts than leaves that say nothing, comments among them. -/
def Tree.Atomic (tokens : Role → Bool) (tree : Tree) : Prop :=
  ∀ t ∈ tree.subtrees, tokens (Role.ofKind t.kind) = true →
    ∀ c ∈ t.children, c.children = [] ∧ (Role.ofKind c.kind).isMute = true

instance (tokens : Role → Bool) (tree : Tree) : Decidable (tree.Atomic tokens) :=
  inferInstanceAs (Decidable (∀ t ∈ tree.subtrees, _ → ∀ c ∈ t.children, _ ∧ _))

/-- Whether the tokens of a tree have no other parts than leaves that say nothing. -/
abbrev Tree.Plain (tree : Tree) : Prop := tree.Atomic Role.isToken

/-- Whether the tree that a text is read as, if any, lies in the text and is as the library relies on. -/
def Reader.Lawful [Reader] (dialect : Dialect) (text : List Char) : Prop :=
  ∀ tree, Reader.program? dialect text = some tree → tree.span.stop ≤ text.length ∧ tree.Conforms text

/-- Whether the nodes of some roles in the tree that a text is read as, if any, have no other parts than leaves that say
    nothing. -/
def Reader.Atomic [Reader] (tokens : Role → Bool) (dialect : Dialect) (text : List Char) : Prop :=
  ∀ tree, Reader.program? dialect text = some tree → tree.Atomic tokens

/-- Whether the tokens of the tree that a text is read as, if any, have no other parts than leaves that say nothing. -/
abbrev Reader.Plain [Reader] (dialect : Dialect) (text : List Char) : Prop := Reader.Atomic Role.isToken dialect text

/-- Whether the tree that a text is read as, if any, is as the library relies on, and its tokens have no other parts than
    leaves that say nothing. -/
def Reader.Regular [Reader] (dialect : Dialect) (text : List Char) : Prop :=
  Reader.Lawful dialect text ∧ Reader.Plain dialect text

/-- Whether every part of the tree that a text is read as, if any, is as a law for texts, kinds, spans and children asks
    for. -/
def Reader.Meets [Reader] (law : List Char → String → Span → Outline → Prop) (dialect : Dialect) (text : List Char) : Prop :=
  ∀ tree, Reader.program? dialect text = some tree → ∀ t ∈ tree.subtrees, law text t.kind t.span t.outline

/-! ## Trees of some files -/

namespace Tree

/-- One character that is spelled as it is. -/
def mark (text : String) (start : Nat) : Tree := node text false none ⟨start, start + 1⟩ []

/-- A literal of some kind between two marks. -/
def between (kind opening closing : String) (field : Option String) (start stop : Nat) (parts : List Tree) : Tree :=
  node kind true field ⟨start, stop⟩ (mark opening start :: parts ++ [mark closing (stop - 1)])

/-- An object literal. -/
def braced : Option String → Nat → Nat → List Tree → Tree := between "object" "\x7b" "\x7d"

/-- An array literal. -/
def bracketed : Option String → Nat → Nat → List Tree → Tree := between "array" "[" "]"

/-- A string literal. -/
def quoted : Option String → Nat → Nat → List Tree → Tree := between "string" "'" "'"

/-- Characters of a string literal that stand for themselves. -/
def fragment (start stop : Nat) : Tree := node "string_fragment" true none ⟨start, stop⟩ []

/-- Characters of a string literal that stand for another one. -/
def escape (start stop : Nat) : Tree := node "escape_sequence" true none ⟨start, stop⟩ []

def comment (start stop : Nat) : Tree := node "comment" true none ⟨start, stop⟩ []

def number (field : Option String) (start stop : Nat) : Tree := node "number" true field ⟨start, stop⟩ []

/-- A pair of a bare name and a value. -/
def keyed (start middle : Nat) (value : Tree) : Tree :=
  node "pair" true none ⟨start, value.span.stop⟩
    [node "property_identifier" true (some "key") ⟨start, middle⟩ [], mark ":" middle, value]

/-- The pair `namespace:'a'` or one whose name is another single letter. -/
def spaced (start : Nat) : Tree :=
  keyed start (start + 9) (quoted (some "value") (start + 10) (start + 13) [fragment (start + 11) (start + 12)])

/-- The tree of a file that assigns a value to a variable of one letter. -/
def assigned (start : Nat) (value : Tree) : Tree :=
  let span := ⟨start, value.span.stop⟩
  node "program" true none span
    [node "expression_statement" true none span
      [node "assignment_expression" true none span
        [node "identifier" true (some "left") ⟨start, start + 1⟩ [], mark "=" (start + 1), value]]]

/-- The tree of a snippet's text that holds one expression in parentheses. -/
def enclosed (length : Nat) (expression : Tree) : Tree :=
  node "program" true none ⟨0, length⟩
    [node "expression_statement" true none ⟨0, length⟩
      [node "parenthesized_expression" true none ⟨0, length⟩
        [mark "(" 0, expression, node ")" false none ⟨length - 1, length⟩ []]]]

end Tree

/-- A file with one model. -/
def sampleText : List Char := "x=\x7bnamespace:'a',reducers:\x7bb:1\x7d\x7d".toList

/-- The tree of the file: the model is below an assignment. -/
def sampleTree : Tree :=
  .assigned 0 (.braced (some "right") 2 32
    [.spaced 3, .mark "," 16,
      .keyed 17 25 (.braced (some "value") 26 31 [.keyed 27 28 (.number (some "value") 29 30)])])

/-- The tree of a snippet that is the number two. -/
def sampleSnippetTree : Tree := .enclosed 4 (.number none 1 2)

/-! ## Readers of some files alone -/

section
variable {files : List (List Char × Tree)}

/-- What holds of some files and their trees holds of all that is read by a reader of these files alone. -/
theorem of_lookup {P : List Char → Tree → Prop} (each : ∀ file ∈ files, P file.1 file.2) {text : List Char} {tree : Tree}
    (read : files.lookup text = some tree) : P text tree := by
  obtain ⟨before, after, split, _⟩ := List.lookup_eq_some_iff.mp read
  exact each (text, tree) (split ▸ List.mem_append_right before List.mem_cons_self)

theorem lawful_of_lookup (each : ∀ file ∈ files, file.2.span.stop ≤ file.1.length ∧ file.2.Conforms file.1)
    (dialect : Dialect) (text : List Char) : @Reader.Lawful ⟨fun _ text => files.lookup text⟩ dialect text :=
  fun _ read => of_lookup (P := fun text tree => tree.span.stop ≤ text.length ∧ tree.Conforms text) each read

theorem plain_of_lookup (each : ∀ file ∈ files, file.2.Plain) (dialect : Dialect) (text : List Char) :
    @Reader.Plain ⟨fun _ text => files.lookup text⟩ dialect text :=
  fun _ read => of_lookup (P := fun _ tree => tree.Plain) each read

theorem meets_of_lookup {law : List Char → String → Span → Outline → Prop}
    (each : ∀ file ∈ files, ∀ t ∈ file.2.subtrees, law file.1 t.kind t.span t.outline) (dialect : Dialect)
    (text : List Char) : @Reader.Meets ⟨fun _ text => files.lookup text⟩ law dialect text :=
  fun _ read => of_lookup (P := fun text tree => ∀ t ∈ tree.subtrees, law text t.kind t.span t.outline) each read

end

/-- A reader of the sample file and the sample snippet alone. -/
@[reducible] def sampleReader : Reader :=
  ⟨fun _ text => List.lookup text [(sampleText, sampleTree), (snippetText ['2'], sampleSnippetTree)]⟩

theorem sampleReader_regular (dialect : Dialect) (text : List Char) : sampleReader.Regular dialect text :=
  ⟨lawful_of_lookup (by decide) dialect text, plain_of_lookup (by decide) dialect text⟩

/-- The tree of a snippet is a part of a tree of its text. -/
theorem parseSnippet_part [Reader] {dialect : Dialect} {snippet : List Char} {tree : Tree}
    (read : parseSnippet dialect snippet = .ok tree) :
    ∃ program, Reader.program? dialect (snippetText snippet) = some program ∧
      ∀ t ∈ tree.subtrees, t ∈ program.subtrees := by
  simp only [parseSnippet] at read
  split at read
  · cases read
  next program found =>
    refine ⟨program, found, ?_⟩
    split at read
    next statement one =>
      split at read
      next inner one' =>
        split at read
        next =>
          split at read
          next expression one'' =>
            split at read
            · cases read
            · cases read
              intro t below
              have down : t ∈ inner.subtrees := Tree.mem_subtrees_part (by rw [one'']; simp) below
              have down' : t ∈ statement.subtrees := Tree.mem_subtrees_part (by rw [one']; simp) down
              exact Tree.mem_subtrees_part (by rw [one]; simp) down'
          next => cases read
        · cases read
      next => cases read
    next => cases read

theorem parseSnippet_conforms [Reader] {dialect : Dialect} {snippet : List Char} {tree : Tree}
    (lawful : Reader.Lawful dialect (snippetText snippet)) (read : parseSnippet dialect snippet = .ok tree) :
    tree.Conforms (snippetText snippet) := by
  obtain ⟨program, found, inside⟩ := parseSnippet_part read
  exact fun t below => (lawful program found).2 t (inside t below)

theorem parseSnippet_meets [Reader] {dialect : Dialect} {snippet : List Char} {tree : Tree}
    {law : List Char → String → Span → Outline → Prop} (meets : Reader.Meets law dialect (snippetText snippet))
    (read : parseSnippet dialect snippet = .ok tree) :
    ∀ t ∈ tree.subtrees, law (snippetText snippet) t.kind t.span t.outline := by
  obtain ⟨program, found, inside⟩ := parseSnippet_part read
  exact fun t below => meets program found t (inside t below)

theorem parseSnippet_atomic [Reader] {tokens : Role → Bool} {dialect : Dialect} {snippet : List Char} {tree : Tree}
    (atomic : Reader.Atomic tokens dialect (snippetText snippet)) (read : parseSnippet dialect snippet = .ok tree) :
    tree.Atomic tokens := by
  obtain ⟨program, found, inside⟩ := parseSnippet_part read
  exact fun t below => atomic program found t (inside t below)

end StoreModels.Syntax
