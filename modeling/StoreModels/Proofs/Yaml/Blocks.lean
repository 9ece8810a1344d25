import StoreModels.Yaml.Read

/-!
Nodes read from the tokens of blocks: words, mappings whose keys are words, and items that hang below a key. What is
read from the tokens of a node does not depend on the tokens behind it, as long as these end the node.
-/
namespace StoreModels.Yaml.Reader

variable {r : Reader} {depth fuel : Nat} {isBlock mayHang : Bool} {tokens rest : List Token} {style : Style}
  {text : List Char} {value : Node} {read : Reader → Option (Node × Reader)}

/-- The reader with some tokens before it. -/
def before (r : Reader) (tokens : List Token) : Reader := { r with tokens }

/-- Tokens are read as a node wherever a key or the end of the block comes behind. -/
def Holds (read : Reader → Option (Node × Reader)) (tokens : List Token) (value : Node) : Prop :=
  ∀ (r : Reader) (rest : List Token), (rest.head? = some .key ∨ rest.head? = some .blockEnd) →
    read (r.before (tokens ++ rest)) = some (value, r.before rest)

theorem node_scalar (r : Reader) (rest : List Token) :
    node (depth + 1) isBlock mayHang (r.before (.scalar style text :: rest)) =
      some (.scalar style none text, r.before rest) := rfl

/-! ## Mappings -/

/-- A member of a mapping: its key, and its value with the tokens that it is read from. -/
structure Member where
  key : List Char
  tokens : List Token
  value : Node

namespace Member

/-- The tokens of a member. -/
def all (m : Member) : List Token := .key :: .scalar .plain m.key :: .value :: m.tokens

/-- The node of a member. -/
def node (m : Member) : Node × Node := (.scalar .plain none m.key, m.value)

end Member

/-- The members of a block, up to its end. -/
theorem blockMembers_all {members : List Member}
    (keys : ∀ r text rest, read (before r (.scalar .plain text :: rest)) = some (.scalar .plain none text, r.before rest))
    (values : ∀ m ∈ members, Holds (nodeUnless read blockStops) m.tokens m.value) (more : members.length < fuel)
    (r : Reader) :
    blockMembers read fuel (r.before (members.flatMap Member.all ++ .blockEnd :: rest)) =
      some (members.map Member.node, r.before (.blockEnd :: rest)) := by
  induction members generalizing fuel with
  | nil =>
    obtain ⟨fuel, rfl⟩ : ∃ n, fuel = n + 1 := ⟨fuel - 1, by omega⟩
    rfl
  | cons m members ih =>
    obtain ⟨fuel, rfl⟩ : ∃ n, fuel = n + 1 := ⟨fuel - 1, by omega⟩
    have later := ih (fun n member => values n (by simp [member])) (by simpa using more)
    obtain ⟨behind, behindIs⟩ : ∃ behind, behind = members.flatMap Member.all ++ .blockEnd :: rest := ⟨_, rfl⟩
    have ends : behind.head? = some .key ∨ behind.head? = some .blockEnd := by
      rw [behindIs]
      cases members with
      | nil => exact .inr rfl
      | cons n more => exact .inl rfl
    have here : nodeUnless read blockStops (r.before (m.tokens ++ behind)) = some (m.value, r.before behind) :=
      values m (by simp) r behind ends
    have key : nodeUnless read blockStops (r.before (.scalar .plain m.key :: .value :: (m.tokens ++ behind))) =
        some (.scalar .plain none m.key, r.before (.value :: (m.tokens ++ behind))) := by
      rw [nodeUnless, if_neg (by simp [atAny, at?, before, blockStops]), keys]
    have laid : (m :: members).flatMap Member.all ++ .blockEnd :: rest =
        .key :: .scalar .plain m.key :: .value :: (m.tokens ++ behind) := by
      simp [Member.all, behindIs]
    rw [laid, blockMembers, if_pos (by simp [at?, before])]
    rw [show (r.before (.key :: .scalar .plain m.key :: .value :: (m.tokens ++ behind))).skip =
      r.before (.scalar .plain m.key :: .value :: (m.tokens ++ behind)) from rfl, key]
    simp only [Option.bind_eq_bind, Option.bind_some]
    rw [if_pos (by simp [at?, before]), show (r.before (.value :: (m.tokens ++ behind))).skip =
      r.before (m.tokens ++ behind) from rfl, here]
    simp only [Option.bind_some]
    rw [behindIs, later]
    rfl

theorem Member.length_all (members : List Member) : members.length ≤ (members.flatMap Member.all).length := by
  induction members with
  | nil => exact Nat.le_refl _
  | cons m members ih =>
    simp only [List.flatMap_cons, List.length_append, List.length_cons, Member.all]
    omega

/-- A mapping in a block. -/
theorem node_mapping {members : List Member}
    (values : ∀ m ∈ members, Holds (nodeUnless (node (depth + 1) true true) blockStops) m.tokens m.value) (r : Reader) :
    node (depth + 2) true mayHang (r.before (.mappingStart :: (members.flatMap Member.all ++ .blockEnd :: rest))) =
      some (.mapping (members.map Member.node), r.before rest) := by
  have length := Member.length_all members
  have all := @blockMembers_all ((members.flatMap Member.all ++ .blockEnd :: rest).length + 1 + 1) rest _ _
    (fun r text rest => node_scalar r rest) values (by rw [List.length_append]; omega) r
  show content (node (depth + 1)) true mayHang none false
    (r.before (.mappingStart :: (members.flatMap Member.all ++ .blockEnd :: rest))) = _
  rw [content]
  simp only [before, if_true] at all ⊢
  rw [show ({ r with tokens := .mappingStart :: (members.flatMap Member.all ++ .blockEnd :: rest) } : Reader).skip =
    { r with tokens := members.flatMap Member.all ++ .blockEnd :: rest } from rfl, List.length_cons, all]
  simp [at?, skip]

/-- A mapping as the value of a key. -/
theorem holds_mapping {members : List Member}
    (values : ∀ m ∈ members, Holds (nodeUnless (node (depth + 1) true true) blockStops) m.tokens m.value) :
    Holds (nodeUnless (node (depth + 2) true mayHang) blockStops)
      (.mappingStart :: (members.flatMap Member.all ++ [.blockEnd])) (.mapping (members.map Member.node)) := by
  intro r rest _
  rw [nodeUnless, if_neg (by simp [atAny, at?, before, blockStops])]
  simpa using node_mapping values r

theorem holds_word :
    Holds (nodeUnless (node (depth + 1) isBlock mayHang) blockStops) [.scalar style text] (.scalar style none text) := by
  intro r rest _
  rw [nodeUnless, if_neg (by simp [atAny, at?, before, blockStops])]
  exact node_scalar r rest

/-! ## Items -/

/-- The tokens of items that are words. -/
def itemTokens (style : List Char → Style) (words : List (List Char)) : List Token :=
  words.flatMap fun word => [.dash, .scalar (style word) word]

theorem length_itemTokens (style : List Char → Style) (words : List (List Char)) :
    (itemTokens style words).length = 2 * words.length := by
  induction words with
  | nil => rfl
  | cons word words ih =>
    simp only [itemTokens, List.flatMap_cons, List.length_append, List.length_cons, List.length_nil] at ih ⊢
    omega

/-- The items below a key, up to the next key. -/
theorem blockItems_words {style : List Char → Style} {words : List (List Char)}
    (ends : rest.head? = some .key ∨ rest.head? = some .blockEnd) (more : words.length < fuel) (r : Reader) :
    blockItems (node (depth + 1) true false) blockStops fuel (r.before (itemTokens style words ++ rest)) =
      some (words.map fun word => .scalar (style word) none word, r.before rest) := by
  induction words generalizing fuel with
  | nil =>
    obtain ⟨fuel, rfl⟩ : ∃ n, fuel = n + 1 := ⟨fuel - 1, by omega⟩
    have other : ¬ rest.head? = some .dash := by
      rintro dash
      rw [dash] at ends
      simp at ends
    simp [blockItems, itemTokens, at?, before, other]
  | cons word words ih =>
    obtain ⟨fuel, rfl⟩ : ∃ n, fuel = n + 1 := ⟨fuel - 1, by omega⟩
    have later := @ih fuel (by simpa using more)
    have laid : itemTokens style (word :: words) ++ rest =
        .dash :: .scalar (style word) word :: (itemTokens style words ++ rest) := by simp [itemTokens]
    have here : nodeUnless (node (depth + 1) true false) (.dash :: blockStops)
        (r.before (.scalar (style word) word :: (itemTokens style words ++ rest))) =
        some (.scalar (style word) none word, r.before (itemTokens style words ++ rest)) := by
      rw [nodeUnless, if_neg (by simp [atAny, at?, before, blockStops]), node_scalar]
    rw [laid, blockItems, if_pos (by simp [at?, before])]
    rw [show (r.before (.dash :: .scalar (style word) word :: (itemTokens style words ++ rest))).skip =
      r.before (.scalar (style word) word :: (itemTokens style words ++ rest)) from rfl, here]
    simp only [Option.bind_eq_bind, Option.bind_some, later]
    rfl

/-- Items that hang below a key. -/
theorem holds_items {style : List Char → Style} {words : List (List Char)} (some : words ≠ []) :
    Holds (nodeUnless (node (depth + 2) true true) blockStops) (itemTokens style words)
      (.sequence (words.map fun word => .scalar (style word) none word)) := by
  intro r rest ends
  obtain ⟨word, more, rfl⟩ := List.exists_cons_of_ne_nil some
  have laid : itemTokens style (word :: more) ++ rest =
      .dash :: .scalar (style word) word :: (itemTokens style more ++ rest) := by simp [itemTokens]
  have length := length_itemTokens style (word :: more)
  have all := @blockItems_words depth ((itemTokens style (word :: more) ++ rest).length + 1) _ style (word :: more) ends
    (by rw [List.length_append]; omega) r
  rw [nodeUnless, if_neg (by rw [laid]; simp [atAny, at?, before, blockStops])]
  rw [laid] at all ⊢
  show content (node (depth + 1)) true true none false
    (r.before (.dash :: .scalar (style word) word :: (itemTokens style more ++ rest))) = _
  rw [content]
  simp only [before, if_true] at all ⊢
  rw [all]
  rfl

/-! ## Documents -/

theorem read?_block {members : List Member} {text : List Char}
    (scanned : tokens? text = some (.mappingStart :: (members.flatMap Member.all ++ [.blockEnd])))
    (values : ∀ m ∈ members, Holds (nodeUnless (node ((members.flatMap Member.all).length + 2) true true) blockStops)
      m.tokens m.value) : read? text = some ⟨.mapping (members.map Member.node), []⟩ := by
  have noDirective : ∀ rest, directives? (.mappingStart :: rest) false [] = some ([], .mappingStart :: rest) :=
    fun _ => rfl
  have read := @node_mapping _ false [] _ values ⟨[], usualHandles, [], 0, []⟩
  have length : (Token.mappingStart :: (members.flatMap Member.all ++ [.blockEnd])).length + 1 =
      (members.flatMap Member.all).length + 1 + 2 := by simp
  simp only [before] at read
  rw [read?, scanned]
  simp only [Option.bind_eq_bind, Option.bind_some, noDirective]
  simp [-List.length_cons, -List.length_flatMap, length, read]

end StoreModels.Yaml.Reader
