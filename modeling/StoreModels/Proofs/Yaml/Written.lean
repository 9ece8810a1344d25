import StoreModels.Proofs.Yaml.Blocks
import StoreModels.Proofs.Yaml.Laws
import StoreModels.Proofs.Yaml.Lines
import StoreModels.Yaml.Write

/-!
Documents in blocks are read back. Their lines are followed from the first to the last, member by member and into the
members of a member; what the tokens of a member are, and the node that is made of them, is told by its data.
-/
namespace StoreModels.Yaml

open Scanner Reader

variable {scan : Scanner} {tokens : List Token} {indents : List Int} {rest : List Char} {j k n : Nat}

/-! ## Words -/

theorem isWord_bareName {name : List Char} (bare : Literal.isBareName name = true) : IsWord name := by
  cases name with
  | nil => cases bare
  | cons c more =>
    simp only [Literal.isBareName, Bool.and_eq_true, List.all_eq_true] at bare
    refine ⟨List.cons_ne_nil _ _, List.forall_mem_cons.mpr ⟨?_, bare.2⟩⟩
    simp [Literal.isNamePart, bare.1]

theorem isWord_boolText (b : Bool) : IsWord (boolText b) := by
  cases b <;> decide

theorem isWord_number (n : Nat) : IsWord (toString n).toList := by
  have digits : (toString n).toList = Literal.digitsOf n := Nat.toList_repr
  rw [digits]
  refine ⟨(Literal.numeral_digitsOf n).some, fun c member => ?_⟩
  simp [Literal.isNamePart, Literal.isDigit_digitsOf member]

theorem isPrintable_namePart {c : Char} (part : Literal.isNamePart c = true) : isPrintable c = true := by
  obtain ⟨low, high⟩ := Literal.isNamePart_range part
  have low : 0x20 ≤ c.toNat := Nat.le_trans (by decide) (UInt32.le_iff_toNat_le.mp low)
  have high : c.toNat ≤ 0x7E := Nat.le_trans (UInt32.le_iff_toNat_le.mp high) (by decide)
  simp [isPrintable, low, high]

theorem isPrintable_word {word : List Char} (isWord : IsWord word) : word.all isPrintable = true :=
  List.all_eq_true.mpr fun c member => isPrintable_namePart (isWord.2 c member)

theorem isPrintable_item {word : List Char} (isWord : IsWord word) (k : Nat) : (itemText k word).all isPrintable = true := by
  have printable := isPrintable_word isWord
  have spaces : (List.replicate k ' ').all isPrintable = true :=
    List.all_eq_true.mpr fun c member => (List.eq_of_mem_replicate member) ▸ rfl
  rw [itemText, scalarText]
  split <;> simp [printable, spaces] <;> decide

/-! ## Tokens and nodes -/

mutual

/-- A member as it is scanned and read. -/
def Data.member (key : List Char) : Data → Reader.Member
  | .bool b => ⟨key, [.scalar .plain (boolText b)], .scalar .plain none (boolText b)⟩
  | .number n => ⟨key, [.scalar .plain (toString n).toList], .scalar .plain none (toString n).toList⟩
  | .texts items => ⟨key, itemTokens styleOf items, .sequence (items.map fun item => .scalar (styleOf item) none item)⟩
  | .mapping members => ⟨key, .mappingStart :: ((Data.scanned members).flatMap Member.all ++ [.blockEnd]),
      .mapping ((Data.scanned members).map Member.node)⟩

@[inherit_doc Data.member]
def Data.scanned : List (List Char × Data) → List Reader.Member
  | [] => []
  | (key, data) :: members => data.member key :: Data.scanned members

end

mutual

/-- How many steps the scanner takes for a member. -/
def Data.steps : Data → Nat
  | .bool _ => 3
  | .number _ => 3
  | .texts items => 2 + 2 * items.length
  | .mapping members => 2 + Data.allSteps members

@[inherit_doc Data.steps]
def Data.allSteps : List (List Char × Data) → Nat
  | [] => 0
  | (_, data) :: members => data.steps + Data.allSteps members

end

theorem Data.member_key (key : List Char) (data : Data) : (data.member key).key = key := by
  cases data <;> rw [Data.member]

/-! ## Lines -/

theorem solid_key {key : List Char} (isKey : IsKey key) (rest : List Char) : IsSolid (key ++ rest) :=
  (isWord_bareName isKey.1).solid _

theorem solid_item (word : List Char) : IsSolid ('-' :: ' ' :: word) := .cons rfl rfl (by decide) (by decide)

/-- What comes behind a line of a member: the line of the next member in its column, or what comes behind them all. -/
theorem lines_next {members : List (List Char × Data)} (plain : Data.AllPlain members) (solid : IsSolid rest) (left : j ≤ k) :
    ∃ i next, i ≤ k ∧ IsSolid next ∧ Data.lines k members ++ (List.replicate j ' ' ++ rest) = List.replicate i ' ' ++ next ∧
      (members ≠ [] → i = k) ∧ (members = [] → i = j ∧ next = rest) := by
  cases members with
  | nil => exact ⟨j, rest, left, solid, rfl, fun some => absurd rfl some, fun _ => ⟨rfl, rfl⟩⟩
  | cons member members =>
    obtain ⟨key, data⟩ := member
    rw [Data.AllPlain] at plain
    refine ⟨k, key ++ ':' :: (data.text k ++ (Data.lines k members ++ (List.replicate j ' ' ++ rest))), Nat.le_refl _,
      solid_key plain.1 _, ?_, fun _ => rfl, nofun⟩
    simp only [Data.lines, List.append_assoc, List.cons_append]

theorem scan_items {word : List Char} {words : List (List Char)} (solid : IsSolid rest) (left : j ≤ k)
    (isWord : IsWord word) (areWords : ∀ w ∈ words, IsWord w)
    (arrived : scan.Arrived tokens k indents true k ('-' :: ' ' :: (scalarText word ++ '\n' ::
      (words.flatMap (itemText k) ++ (List.replicate j ' ' ++ rest))))) :
    ∃ scan', run? (n + 2 * (words.length + 1)) scan = run? n scan' ∧
      scan'.Turned (tokens ++ itemTokens styleOf (word :: words)) k indents j rest := by
  induction words generalizing word tokens scan with
  | nil => exact arrived.item isWord solid left n
  | cons next words ih =>
    have line : itemText k next = List.replicate k ' ' ++ '-' :: ' ' :: (scalarText next ++ ['\n']) := by
      simp [itemText]
    rw [List.flatMap_cons, line] at arrived
    simp only [List.append_assoc, List.cons_append, List.nil_append] at arrived
    obtain ⟨scan₁, run₁, turned₁⟩ := arrived.item isWord (solid_item _) (Nat.le_refl _) (n + 2 * (words.length + 1))
    obtain ⟨scan₂, run₂, turned₂⟩ := ih (areWords next (by simp)) (fun w member => areWords w (by simp [member]))
      (turned₁.stays (Int.le_refl _))
    refine ⟨scan₂, ?_, ?_⟩
    · rw [← run₂, ← run₁]
      simp only [List.length_cons]
      congr 1
    · simpa [itemTokens] using turned₂

mutual

/-- The line of a key, with the lines that belong to it. -/
theorem scan_member {scan : Scanner} {tokens : List Token} {indent : Int} {indents : List Int} {rest : List Char}
    {j k n : Nat} {data : Data} (plain : data.Plain) {key : List Char} (isKey : IsKey key) (le : indent ≤ k)
    (solid : IsSolid rest) (left : j ≤ k)
    (arrived : scan.Arrived tokens indent indents true k
      (key ++ ':' :: (data.text k ++ (List.replicate j ' ' ++ rest)))) :
    ∃ scan', run? (n + data.steps) scan = run? n scan' ∧
      scan'.Pending (tokens ++ (if indent < k then [.mappingStart] else []) ++ (data.member key).all) k
        (if indent < k then indent :: indents else indents) j rest := by
  have word := isWord_bareName isKey.1
  match data with
  | .bool b =>
    simp only [Data.text, List.append_assoc, List.cons_append, List.nil_append] at arrived
    obtain ⟨scan', run, turned⟩ := arrived.member word isKey.2 le (isWord_boolText b) solid left n
    exact ⟨scan', run, turned.pending⟩
  | .number m =>
    simp only [Data.text, List.append_assoc, List.cons_append, List.nil_append] at arrived
    obtain ⟨scan', run, turned⟩ := arrived.member word isKey.2 le (isWord_number m) solid left n
    exact ⟨scan', run, turned.pending⟩
  | .texts [] =>
    rw [Data.Plain] at plain
    exact absurd rfl plain.1
  | .texts (item :: items) =>
    rw [Data.Plain] at plain
    have line : itemText k item = List.replicate k ' ' ++ '-' :: ' ' :: (scalarText item ++ ['\n']) := by
      simp [itemText]
    simp only [Data.text, List.flatMap_cons, line, List.append_assoc, List.cons_append, List.nil_append] at arrived
    obtain ⟨scan₁, run₁, turned₁⟩ := arrived.section word isKey.2 le (solid_item _) (n + 2 * (items.length + 1))
    obtain ⟨scan₂, run₂, turned₂⟩ := scan_items (n := n) solid left (isWord_bareName (plain.2 item (by simp)))
      (fun w member => isWord_bareName (plain.2 w (by simp [member]))) (turned₁.stays (Int.le_refl _))
    refine ⟨scan₂, ?_, ?_⟩
    · rw [← run₂, ← run₁, Data.steps, List.length_cons]
      congr 1
      omega
    · simpa [Data.member, Member.all] using turned₂.pending
  | .mapping [] =>
    rw [Data.Plain] at plain
    exact absurd rfl plain.1
  | .mapping (member :: members) =>
    rw [Data.Plain] at plain
    simp only [Data.text, List.cons_append] at arrived
    obtain ⟨i, next, _, solid', laid, column, _⟩ :=
      lines_next (k := k + 2) plain.2.2 solid (Nat.le_add_right_of_le left)
    obtain rfl := column (List.cons_ne_nil _ _)
    rw [laid] at arrived
    obtain ⟨scan₁, run₁, turned₁⟩ := arrived.section word isKey.2 le solid' (n + Data.allSteps (member :: members))
    obtain ⟨scan₂, run₂, pending⟩ := scan_lines (n := n) plain.2.2 (List.cons_ne_nil _ _) (by omega)
      solid (Nat.le_add_right_of_le left) laid (turned₁.stays (by omega))
    refine ⟨scan₂, ?_, ?_⟩
    · rw [← run₂, ← run₁, Data.steps]
      congr 1
      omega
    · have deeper : (k : Int) < ((k + 2 : Nat) : Int) := by omega
      rw [if_pos deeper, if_pos deeper] at pending
      have ended := pending.ends (by omega)
      simpa [Data.member, Member.all] using ended

/-- The lines of members, from the first key on. -/
theorem scan_lines {scan : Scanner} {tokens : List Token} {indent : Int} {indents : List Int} {rest start : List Char}
    {j k n : Nat} {members : List (List Char × Data)} (plain : Data.AllPlain members) (some : members ≠ [])
    (le : indent ≤ k) (solid : IsSolid rest) (left : j ≤ k)
    (laid : Data.lines k members ++ (List.replicate j ' ' ++ rest) = List.replicate k ' ' ++ start)
    (arrived : scan.Arrived tokens indent indents true k start) :
    ∃ scan', run? (n + Data.allSteps members) scan = run? n scan' ∧
      scan'.Pending (tokens ++ (if indent < k then [.mappingStart] else []) ++ (Data.scanned members).flatMap Member.all) k
        (if indent < k then indent :: indents else indents) j rest := by
  match members with
  | [] => exact absurd rfl some
  | (key, data) :: members =>
    rw [Data.AllPlain] at plain
    obtain ⟨isKey, plain, plain'⟩ := plain
    obtain ⟨i, next, left', solid', laid', column, none⟩ := lines_next plain' solid left
    simp only [Data.lines, List.append_assoc, List.cons_append, laid', List.append_cancel_left_eq] at laid
    subst laid
    obtain ⟨scan₁, run₁, pending₁⟩ := scan_member (n := n + Data.allSteps members) plain isKey le solid' left' arrived
    have steps : n + Data.allSteps ((key, data) :: members) = n + Data.allSteps members + data.steps := by
      rw [Data.allSteps]
      omega
    cases members with
    | nil =>
      obtain ⟨rfl, rfl⟩ := none rfl
      refine ⟨scan₁, by rw [steps, run₁, Data.allSteps, Nat.add_zero], ?_⟩
      simpa [Data.scanned] using pending₁
    | cons member members =>
      obtain rfl := column (List.cons_ne_nil _ _)
      obtain ⟨scan₂, run₂, pending₂⟩ := scan_lines (n := n) plain' (List.cons_ne_nil _ _) (Int.le_refl _) solid left laid'
        (pending₁.stays (Int.le_refl _))
      refine ⟨scan₂, by rw [steps, run₁, run₂], ?_⟩
      simpa [Data.scanned] using pending₂

end

/-! ## Texts -/

theorem length_items (k : Nat) (items : List (List Char)) : 2 * items.length ≤ (items.flatMap (itemText k)).length := by
  induction items with
  | nil => exact Nat.le_refl _
  | cons item items ih =>
    have line : 2 ≤ (itemText k item).length := by
      simp only [itemText, List.length_append, List.length_cons]
      omega
    simp only [List.flatMap_cons, List.length_append, List.length_cons]
    omega

mutual

/-- The scanner takes no more steps for a member than the member has characters. -/
theorem steps_le (data : Data) (k : Nat) : data.steps ≤ (data.text k).length + 1 := by
  match data with
  | .bool b =>
    rw [Data.steps, Data.text]
    cases b <;> decide
  | .number n =>
    have some := List.length_pos_iff.mpr (isWord_number n).1
    simp only [Data.steps, Data.text, List.length_append, List.length_cons, List.length_nil]
    omega
  | .texts [] =>
    rw [Data.steps, Data.text]
    decide
  | .texts (item :: items) =>
    have lines := length_items k (item :: items)
    simp only [Data.steps, Data.text, List.length_cons] at lines ⊢
    omega
  | .mapping [] =>
    rw [Data.steps, Data.text]
    decide
  | .mapping (member :: members) =>
    have lines := allSteps_le (member :: members) (k + 2)
    simp only [Data.steps, Data.text, List.length_cons]
    omega

@[inherit_doc steps_le]
theorem allSteps_le (members : List (List Char × Data)) (k : Nat) :
    Data.allSteps members ≤ (Data.lines k members).length := by
  match members with
  | [] => exact Nat.le_refl _
  | (key, data) :: members =>
    have first := steps_le data k
    have more := allSteps_le members k
    simp only [Data.allSteps, Data.lines, List.length_append, List.length_cons]
    omega

end

mutual

theorem isPrintable_text {data : Data} (plain : data.Plain) (k : Nat) : (data.text k).all isPrintable = true := by
  match data with
  | .bool b =>
    rw [Data.text]
    cases b <;> decide
  | .number n =>
    simp only [Data.text, List.all_append, List.all_cons, isPrintable_word (isWord_number n)]
    decide
  | .texts [] =>
    rw [Data.text]
    decide
  | .texts (item :: items) =>
    rw [Data.Plain] at plain
    have lines : ((item :: items).flatMap (itemText k)).all isPrintable = true := by
      rw [List.all_flatMap, List.all_eq_true]
      exact fun word member => isPrintable_item (isWord_bareName (plain.2 word member)) k
    rw [Data.text, List.all_cons, lines]
    · rfl
    · nofun
  | .mapping [] =>
    rw [Data.text]
    decide
  | .mapping (member :: members) =>
    rw [Data.Plain] at plain
    rw [Data.text, List.all_cons, isPrintable_lines plain.2.2 (k + 2)]
    · rfl
    · nofun

theorem isPrintable_lines {members : List (List Char × Data)} (plain : Data.AllPlain members) (k : Nat) :
    (Data.lines k members).all isPrintable = true := by
  match members with
  | [] => rfl
  | (key, data) :: members =>
    rw [Data.AllPlain] at plain
    have spaces : (List.replicate k ' ').all isPrintable = true :=
      List.all_eq_true.mpr fun c member => (List.eq_of_mem_replicate member) ▸ rfl
    simp only [Data.lines, List.all_append, List.all_cons, spaces, isPrintable_word (isWord_bareName plain.1.1),
      isPrintable_text plain.2.1 k, isPrintable_lines plain.2.2 k]
    rfl

end

/-- The tokens of a document. -/
theorem tokens?_lines {members : List (List Char × Data)} (plain : Data.AllPlain members) (some : members ≠ []) :
    tokens? (Data.lines 0 members) = .some (.mappingStart :: ((Data.scanned members).flatMap Member.all ++ [.blockEnd])) := by
  obtain ⟨i, start, _, solid, laid, column, _⟩ := lines_next (j := 0) (k := 0) plain .nil (Nat.le_refl _)
  obtain rfl := column some
  have whole : Data.lines 0 members = start := by simpa using laid
  obtain ⟨n, fuel⟩ : ∃ n, (Data.lines 0 members).length + 1 = n + 1 + Data.allSteps members :=
    ⟨(Data.lines 0 members).length - Data.allSteps members, by have := allSteps_le members 0; omega⟩
  rw [tokens?, if_pos (isPrintable_lines plain 0), fuel]
  obtain ⟨scan, run, pending⟩ := scan_lines (n := n + 1) plain some (by decide) .nil (Nat.le_refl _) laid (arrived_start solid)
  have finished := (pending.stays (by decide)).finish (n := n) (by decide)
  rw [whole, run, finished]
  rfl

/-! ## Nodes -/

theorem length_tokens_lt {members : List Reader.Member} {m : Reader.Member} (member : m ∈ members) :
    m.tokens.length + 2 < (members.flatMap Member.all).length := by
  obtain ⟨before, after, rfl⟩ := List.append_of_mem member
  simp only [List.flatMap_append, List.flatMap_cons, Member.all, List.length_append, List.length_cons]
  omega

mutual

/-- The node of a member is read from its tokens, by a reader that goes deep enough. -/
theorem holds_member (key : List Char) {data : Data} (plain : data.Plain) {depth : Nat}
    (deep : (data.member key).tokens.length < depth) :
    Holds (nodeUnless (node depth true true) blockStops) (data.member key).tokens (data.member key).value := by
  obtain ⟨depth, rfl⟩ : ∃ d, depth = d + 1 := ⟨depth - 1, by omega⟩
  match data with
  | .bool b => exact holds_word
  | .number n => exact holds_word
  | .texts items =>
    rw [Data.Plain] at plain
    have some := List.length_pos_iff.mpr plain.1
    rw [Data.member, length_itemTokens] at deep
    obtain ⟨depth, rfl⟩ : ∃ d, depth = d + 1 := ⟨depth - 1, by omega⟩
    exact holds_items plain.1
  | .mapping members =>
    rw [Data.Plain] at plain
    simp only [Data.member, List.length_cons, List.length_append, List.length_nil] at deep
    obtain ⟨depth, rfl⟩ : ∃ d, depth = d + 1 := ⟨depth - 1, by omega⟩
    exact holds_mapping fun m member => by
      have within := length_tokens_lt member
      exact holds_scanned plain.2.2 (fun _ other => by have := length_tokens_lt other; omega) m member

theorem holds_scanned {members : List (List Char × Data)} (plain : Data.AllPlain members) {depth : Nat}
    (deep : ∀ m ∈ Data.scanned members, m.tokens.length < depth) :
    ∀ m ∈ Data.scanned members, Holds (nodeUnless (node depth true true) blockStops) m.tokens m.value := by
  match members with
  | [] => nofun
  | (key, data) :: members =>
    rw [Data.AllPlain] at plain
    rw [Data.scanned] at deep ⊢
    exact List.forall_mem_cons.mpr ⟨holds_member key plain.2.1 (deep _ List.mem_cons_self),
      holds_scanned plain.2.2 fun m member => deep m (List.mem_cons_of_mem _ member)⟩

end

/-! ## What the nodes say -/

theorem numberOf?_digitsOf (n : Nat) : numberOf? (Literal.digitsOf n) = some n := by
  have numeral := Literal.numeral_digitsOf n
  rw [← Literal.number?_digitsOf n]
  have plus : dropPlus (Literal.digitsOf n) = Literal.digitsOf n := by
    have other := Literal.not_mem_digitsOf (c := '+') rfl n
    cases digits : Literal.digitsOf n with
    | nil => rfl
    | cons c rest =>
      have head : c ≠ '+' := fun is => other (by simp [digits, is])
      rw [dropPlus]
      rintro rest ⟨⟩
      exact head rfl
  rw [numberOf?, plus]
  cases digits : Literal.digitsOf n with
  | nil => exact absurd digits numeral.some
  | cons c rest =>
    by_cases zero : c = '0'
    · have only : c :: rest = ['0'] := digits ▸ numeral.leading (by rw [digits, zero]; rfl)
      rw [only]
      rfl
    · split <;> simp_all

section Said

variable {d : Document}

theorem number?_digits {n limit : Nat} (below : n < limit) :
    View.number? limit ⟨d, .scalar .plain none (toString n).toList⟩ = some n := by
  have digits : (toString n).toList = Literal.digitsOf n := Nat.toList_repr
  show (numberOf? (toString n).toList).filter (· < limit) = some n
  rw [digits, numberOf?_digitsOf, Option.filter_some, if_pos (by simpa using below)]

/-- No word for nothing starts with a digit. -/
theorem isNullWord_digit {c : Char} (digit : c.isDigit = true) (rest : List Char) : isNullWord (c :: rest) = false := by
  have letters : (nullWords.all fun word => word.toList.head?.all fun c => !c.isDigit) = true := by decide
  rw [isNullWord, List.contains_eq_mem, decide_eq_false_iff_not]
  intro member
  have letter := List.all_eq_true.mp letters _ member
  rw [String.toList_ofList, List.head?_cons, Option.all_some, digit] at letter
  cases letter

theorem isNull?_digits (n : Nat) : View.isNull? ⟨d, .scalar .plain none (toString n).toList⟩ = some false := by
  have digits : (toString n).toList = Literal.digitsOf n := Nat.toList_repr
  obtain ⟨c, more, is⟩ := List.exists_cons_of_ne_nil (Literal.numeral_digitsOf n).some
  have digit : c.isDigit = true := Literal.isDigit_digitsOf (by rw [is]; exact List.mem_cons_self)
  show some ((toString n).toList.isEmpty || isNullWord (toString n).toList) = _
  rw [digits, is, isNullWord_digit digit]
  rfl

theorem items?_words (words : List (List Char)) :
    ((⟨d, .sequence (words.map fun word => .scalar (styleOf word) none word)⟩ : View).items?).bind
      (List.mapM View.text?) = some words := by
  show ((words.map _).map _).mapM View.text? = some words
  induction words with
  | nil => rfl
  | cons word words ih =>
    rw [List.map_cons, List.map_cons, List.mapM_cons, ih]
    rfl

theorem members?_mapping (members : List Reader.Member) :
    (⟨d, .mapping (members.map Reader.Member.node)⟩ : View).members? =
      some (members.map fun m => (m.key, (⟨d, m.value⟩ : View))) := by
  show (members.map Reader.Member.node).mapM _ = _
  induction members with
  | nil => rfl
  | cons m members ih =>
    rw [List.map_cons, List.mapM_cons, ih]
    rfl

mutual

theorem shows_member (key : List Char) (data : Data) : Format.Shows (⟨d, (data.member key).value⟩ : View) data := by
  match data with
  | .bool b => cases b <;> exact ⟨rfl, rfl⟩
  | .number n => exact ⟨isNull?_digits n, fun _ => number?_digits⟩
  | .texts items => exact ⟨rfl, items?_words items⟩
  | .mapping members => exact ⟨rfl, _, members?_mapping _, showAll_scanned members⟩

theorem showAll_scanned (members : List (List Char × Data)) :
    Format.ShowAll ((Data.scanned members).map fun m => (m.key, (⟨d, m.value⟩ : View))) members := by
  match members with
  | [] => rfl
  | (key, data) :: members =>
    refine ⟨⟨d, (data.member key).value⟩, _, ?_, shows_member key data, showAll_scanned members⟩
    rw [Data.scanned, List.map_cons, Data.member_key]

end

end Said

instance : Format.Lawful where
  reads members plain := by
    rw [Data.Plain] at plain
    have read := read?_block (tokens?_lines plain.2.2 plain.1) (holds_scanned plain.2.2 fun m member => by
      have within := length_tokens_lt member
      omega)
    refine ⟨.root ⟨.mapping ((Data.scanned members).map Member.node), []⟩, ?_, shows_member [] (.mapping members)⟩
    show (read? (Data.lines 0 members)).map View.root = _
    rw [read]
    rfl

end StoreModels.Yaml
