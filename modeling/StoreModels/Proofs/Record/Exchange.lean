import StoreModels.Proofs.Document.Forms
import StoreModels.Proofs.Literal.Exchange
import StoreModels.Record.Evaluate

/-!
Data exchange texts are expressions of the language. The text of a value without blanks, read as an expression, is a
literal whose form repeats the value, and evaluating it gives the value back: names and texts are unescaped, a number
below zero is a sign before a number, and the members of an object come in their order.
-/
namespace StoreModels
open Syntax (Span Tree Role Dialect Reader)

/-! ## Literal expressions -/

namespace Form

/-- An array literal. -/
def array (field : Option String) (items : List Form) : Form :=
  .node "array" true field (mark "[" :: separated items ++ [mark "]"])

/-- An object literal. -/
def object (field : Option String) (entries : List Form) : Form :=
  .node "object" true field (mark "\x7b" :: separated entries ++ [mark "\x7d"])

/-- An entry of an object literal under a string. -/
def entry (key : List Char) (value : Form) : Form :=
  .node "pair" true none [.token "string" true (some "key") key, mark ":", value]

/-- A number literal. -/
def number (field : Option String) (digits : List Char) : Form := .token "number" true field digits

/-- A number literal with a minus sign before it. -/
def negative (field : Option String) (digits : List Char) : Form :=
  .node "unary_expression" true field [.token "-" false (some "operator") ['-'], number (some "argument") digits]

/-- The literal expressions of the language. -/
inductive IsLiteral : Form → Prop
  | word (kind : String) (field : Option String) (known : kind ∈ ["null", "true", "false"]) :
    IsLiteral (.token kind true field kind.toList)
  | number {digits : List Char} (field : Option String) (numeral : Literal.Numeral digits) :
    IsLiteral (number field digits)
  | negative {digits : List Char} (field : Option String) (numeral : Literal.Numeral digits) :
    IsLiteral (negative field digits)
  | string {quote : Char} {raw : List Char} (field : Option String) (isQuote : Literal.isQuote quote = true)
    (spelled : Literal.Spelled quote raw) : IsLiteral (.token "string" true field raw)
  | array {items : List Form} (field : Option String) (placed : ∀ item ∈ items, item.field = none)
    (each : ∀ item ∈ items, IsLiteral item) : IsLiteral (array field items)
  | object {members : List (List Char × Form)} (field : Option String)
    (keys : ∀ m ∈ members, ∃ quote, Literal.isQuote quote = true ∧ Literal.Spelled quote m.1)
    (placed : ∀ m ∈ members, m.2.field = some "value") (each : ∀ m ∈ members, IsLiteral m.2) :
    IsLiteral (object field (members.map fun m => entry m.1 m.2))

end Form

namespace Form

/-- The kinds of literal expressions. -/
def literalKinds : List String :=
  ["null", "true", "false", "number", "unary_expression", "string", "array", "object"]

/-- Literals count among the named parts of what they are in. -/
theorem IsLiteral.head {form : Form} (literal : form.IsLiteral) : form.named = true ∧ form.kind ∈ literalKinds := by
  cases literal with
  | @word kind field known =>
    have more : ["null", "true", "false"] ⊆ literalKinds := by decide
    exact ⟨rfl, more known⟩
  | number => exact ⟨rfl, (by decide : "number" ∈ literalKinds)⟩
  | negative => exact ⟨rfl, (by decide : "unary_expression" ∈ literalKinds)⟩
  | string => exact ⟨rfl, (by decide : "string" ∈ literalKinds)⟩
  | array => exact ⟨rfl, (by decide : "array" ∈ literalKinds)⟩
  | object => exact ⟨rfl, (by decide : "object" ∈ literalKinds)⟩

theorem IsLiteral.kind_ne {form : Form} (literal : form.IsLiteral) {kind : String} (other : kind ∉ literalKinds) :
    form.kind ≠ kind := by
  rintro rfl
  exact other literal.head.2

theorem IsLiteral.counts {form : Form} (literal : form.IsLiteral) : form.counts = true := by
  have other : ∀ kind ∈ literalKinds, Role.ofKind kind ≠ .comment := by decide
  have plain : form.role ≠ .comment := other form.kind literal.head.2
  simp [Form.counts, literal.head.1, plain]

end Form

/-- A literal expression in parentheses is read as what it shows. -/
def Syntax.Reader.Literate [Reader] (dialect : Dialect) (form : Form) : Prop :=
  form.IsLiteral → ∃ tree, tree.Takes (Syntax.snippetText form.text) form ∧
    Reader.program? dialect (Syntax.snippetText form.text) =
      some (Tree.enclosed (Syntax.snippetText form.text).length tree)

theorem Syntax.parseSnippet_enclosed [Reader] {dialect : Dialect} {snippet : List Char} {tree : Tree}
    (named : tree.named = true) (kind : tree.kind ≠ "comment") (single : tree.kind ≠ "sequence_expression")
    (read : Reader.program? dialect (snippetText snippet) =
      some (Tree.enclosed (snippetText snippet).length tree)) :
    parseSnippet dialect snippet = .ok tree := by
  obtain ⟨label, own, field, span, children⟩ := tree
  have own : own = true := named
  have other : label ≠ "comment" := kind
  have single : label ≠ "sequence_expression" := single
  simp [parseSnippet, read, Tree.enclosed, Tree.mark, Tree.parts, Tree.children, Tree.kind, Tree.named, Tree.span, List.filter, own,
    beq_eq_false_iff_ne.mpr other, single, bne]

/-- A text that neither starts nor ends with a blank has no blanks around it. -/
theorem Text.trim_self {text : List Char} (first : ∀ c ∈ text.head?, isBlank c = false)
    (last : ∀ c ∈ text.getLast?, isBlank c = false) : trim text = text := by
  have kept : ∀ {l : List Char}, (∀ c ∈ l.head?, isBlank c = false) → l.dropWhile isBlank = l := by
    intro l first
    cases l with
    | nil => rfl
    | cons c rest => exact List.dropWhile_cons_of_neg (by simp [first c rfl])
  rw [trim, trimStart, kept first, trimEnd, kept (by rwa [List.head?_reverse]), List.reverse_reverse]

/-! ## The form of a value -/

namespace Value

/-- A number as it is written. -/
def numberForm (field : Option String) : Literal.Number → Form
  | .integer (.ofNat n) => .number field (Literal.digitsOf n)
  | .integer (.negSucc n) => .negative field (Literal.digitsOf (n + 1))
  | .float b => .number field b.text

mutual

/-- What the text of a value shows. -/
def form (field : Option String) : Value → Form
  | .null => .token "null" true field "null".toList
  | .bool true => .token "true" true field "true".toList
  | .bool false => .token "false" true field "false".toList
  | .number n => numberForm field n
  | .string text => .token "string" true field (Json.stringText text)
  | .array items => .array field (itemForms items)
  | .object members => .object field ((memberForms members).map fun m => .entry m.1 m.2)

/-- What the texts of values show in an array. -/
def itemForms : List Value → List Form
  | [] => []
  | item :: rest => item.form none :: itemForms rest

/-- What the texts of members show in an object, with their keys. -/
def memberForms : List (List Char × Value) → List (List Char × Form)
  | [] => []
  | (name, value) :: rest => (Json.stringText name, value.form (some "value")) :: memberForms rest

end

mutual

/-- A value whose numbers are whole and below 2^63, and whose members stand in the order of their names. -/
def Whole : Value → Prop
  | .null | .bool _ | .string _ => True
  | .number n => ∃ i : Int, n = .integer i ∧ i.natAbs < Nat.pow 2 63
  | .array items => AllWhole items
  | .object members => (members.map Prod.fst).Pairwise (· < ·) ∧ MembersWhole members

def AllWhole : List Value → Prop
  | [] => True
  | item :: rest => item.Whole ∧ AllWhole rest

def MembersWhole : List (List Char × Value) → Prop
  | [] => True
  | (_, value) :: rest => value.Whole ∧ MembersWhole rest

end

theorem form_field (field : Option String) (v : Value) : (v.form field).field = field := by
  cases v with
  | number n => rcases n with (_ | _) | _ <;> rfl
  | bool b => cases b <;> rfl
  | _ => rfl

/-- A number is written as what it shows. -/
theorem text_numberForm (field : Option String) (n : Literal.Number) : (numberForm field n).text = n.text := by
  match n with
  | .integer (.ofNat n) => exact (Literal.text_ofNat n).symm
  | .integer (.negSucc n) =>
    rw [Literal.text_negSucc]
    simp only [numberForm, Form.negative, Form.number, Form.text, Form.textAll, List.append_nil]
    rfl
  | .float b => rfl

theorem textAll_separated (forms : List Form) :
    Form.textAll (Form.separated forms) = Json.joined (forms.map Form.text) := by
  induction forms with
  | nil => rfl
  | cons form rest ih =>
    cases rest with
    | nil => simp [Form.separated, Form.textAll, Json.joined]
    | cons next rest =>
      simp only [Form.separated, Form.textAll, List.map_cons, Json.joined] at ih ⊢
      rw [ih]
      rfl

theorem text_entry (key : List Char) (value : Form) : (Form.entry key value).text = key ++ ':' :: value.text := by
  simp [Form.entry, Form.text, Form.textAll, Form.mark]

mutual

/-- The text of a value is the text of what it shows. -/
theorem text_form (field : Option String) (v : Value) : (v.form field).text = v.json := by
  match v with
  | .null => rfl
  | .bool true => rfl
  | .bool false => rfl
  | .number n => exact text_numberForm field n
  | .string text => rfl
  | .array items =>
    have inside := text_itemForms items
    simp only [form, Form.array, Form.text, Form.textAll, Form.textAll_append, List.cons_append, textAll_separated,
      inside, json, Json.arrayText]
    rfl
  | .object members =>
    have inside := text_memberForms members
    simp only [form, Form.object, Form.text, Form.textAll, Form.textAll_append, List.cons_append, textAll_separated,
      inside, json, Json.objectText]
    rfl

theorem text_itemForms (items : List Value) : (itemForms items).map Form.text = itemsJson items := by
  match items with
  | [] => rfl
  | item :: rest => rw [itemForms, itemsJson, List.map_cons, text_form none item, text_itemForms rest]

theorem text_memberForms (members : List (List Char × Value)) :
    ((memberForms members).map fun m => Form.entry m.1 m.2).map Form.text =
      (membersJson members).map fun (name, value) => Json.stringText name ++ ':' :: value := by
  match members with
  | [] => rfl
  | (name, value) :: rest =>
    rw [memberForms, membersJson, List.map_cons, List.map_cons, List.map_cons, text_entry,
      text_form (some "value") value, text_memberForms rest]

end

theorem isLiteral_numberForm (field : Option String) (i : Int) : (numberForm field (.integer i)).IsLiteral := by
  cases i with
  | ofNat n => exact .number field (Literal.numeral_digitsOf n)
  | negSucc n => exact .negative field (Literal.numeral_digitsOf (n + 1))

mutual

/-- What a value shows is a literal of the language. -/
theorem isLiteral_form (field : Option String) (v : Value) (whole : v.Whole) : (v.form field).IsLiteral := by
  match v with
  | .null => exact .word "null" field (by decide)
  | .bool true => exact .word "true" field (by decide)
  | .bool false => exact .word "false" field (by decide)
  | .number n =>
    obtain ⟨i, rfl, _⟩ := whole
    exact isLiteral_numberForm field i
  | .string text => exact .string field rfl (Literal.spelled_stringText text)
  | .array items =>
    have each := isLiteral_itemForms items whole
    exact .array field (fun item member => (each item member).1) fun item member => (each item member).2
  | .object members =>
    have each := isLiteral_memberForms members whole.2
    exact .object field (fun m member => ⟨'"', rfl, (each m member).1⟩) (fun m member => (each m member).2.1)
      fun m member => (each m member).2.2

theorem isLiteral_itemForms (items : List Value) (whole : AllWhole items) :
    ∀ item ∈ itemForms items, item.field = none ∧ item.IsLiteral := by
  match items with
  | [] => exact fun _ member => by cases member
  | item :: rest =>
    intro f member
    rcases List.mem_cons.mp member with rfl | later
    · exact ⟨form_field none item, isLiteral_form none item whole.1⟩
    · exact isLiteral_itemForms rest whole.2 f later

theorem isLiteral_memberForms (members : List (List Char × Value)) (whole : MembersWhole members) :
    ∀ m ∈ memberForms members, Literal.Spelled '"' m.1 ∧ m.2.field = some "value" ∧ m.2.IsLiteral := by
  match members with
  | [] => exact fun _ member => by cases member
  | (name, value) :: rest =>
    intro m member
    rcases List.mem_cons.mp member with rfl | later
    · exact ⟨Literal.spelled_stringText name, form_field (some "value") value,
        isLiteral_form (some "value") value whole.1⟩
    · exact isLiteral_memberForms rest whole.2 m later

end

/-- Numbers are written without blanks. -/
theorem isBlank_number (i : Int) : ∀ c ∈ Literal.Number.text (.integer i), Text.isBlank c = false := by
  have digit : ∀ {n c}, c ∈ Literal.digitsOf n → Text.isBlank c = false := by
    intro n c member
    have range := Literal.isDigit_digitsOf member
    simp only [Char.isDigit, Bool.and_eq_true, decide_eq_true_eq, ge_iff_le, UInt32.le_iff_toNat_le] at range
    have low : 48 ≤ c.toNat := range.1
    have high : c.toNat ≤ 57 := range.2
    simp [Text.isBlank]
    omega
  intro c member
  cases i with
  | ofNat n =>
    rw [Literal.text_ofNat] at member
    exact digit member
  | negSucc n =>
    rw [Literal.text_negSucc] at member
    rcases List.mem_cons.mp member with rfl | later
    · rfl
    · exact digit later

/-- The text of a value has no blanks around it. -/
theorem trim_json (v : Value) (whole : v.Whole) : Text.trim v.json = v.json := by
  have around : ∀ (first last : Char) (inside : List Char), Text.isBlank first = false → Text.isBlank last = false →
      Text.trim (first :: inside ++ [last]) = first :: inside ++ [last] := by
    intro first last inside opens closes
    refine Text.trim_self (by simp [opens]) fun c ends => ?_
    rw [List.getLast?_append, List.getLast?_singleton, Option.some_or, Option.mem_some_iff] at ends
    rw [← ends, closes]
  cases v with
  | null => decide
  | bool b => cases b <;> decide
  | number n =>
    obtain ⟨i, rfl, _⟩ := whole
    have plain := isBlank_number i
    exact Text.trim_self (fun c first => plain c (List.mem_of_mem_head? first))
      fun c last => plain c (List.mem_of_mem_getLast? last)
  | string text => exact around '"' '"' _ rfl rfl
  | array items => exact around '[' ']' _ rfl rfl
  | object members => exact around '\x7b' '\x7d' _ rfl rfl

/-- A member whose name comes after all others goes to the end. -/
theorem insertMember_last {name : List Char} {value : Value} {members : List (List Char × Value)}
    (after : ∀ m ∈ members, m.1 < name) : insertMember name value members = members ++ [(name, value)] := by
  induction members with
  | nil => rfl
  | cons first rest ih =>
    obtain ⟨other, old⟩ := first
    have before : other < name := after (other, old) (by simp)
    have differs : other ≠ name := by
      rintro rfl
      exact List.lt_irrefl _ before
    rw [insertMember, if_neg differs, if_neg (List.lt_asymm before), ih fun m member => after m (by simp [member])]
    rfl

end Value

namespace Document
variable {doc : Document}

/-! ## Evaluating what a value shows -/

section
variable {id : NodeId} {n : Nat} {field : Option String}

theorem Shows.numberValue (forest : doc.Forest) {k : Nat} (shows : doc.Shows id (.number field (Literal.digitsOf k)))
    (small : k < Nat.pow 2 63) : doc.numberValue id = .ok (.integer k) := by
  rw [Document.numberValue, shows.token_text forest, Literal.read?_digitsOf small]

theorem Shows.evaluate_number (forest : doc.Forest) {i : Int}
    (shows : doc.Shows id (Value.numberForm field (.integer i))) (small : i.natAbs < Nat.pow 2 63) :
    doc.evaluateDown (n + 1) id = .ok (.number (.integer i)) := by
  cases i with
  | ofNat k =>
    have number : doc.role id = .numberLiteral := by
      rw [shows.role]
      rfl
    rw [evaluateDown, number]
    simp only [shows.numberValue forest small]
    rfl
  | negSucc k =>
    have unary : doc.role id = .unaryExpr := by
      rw [shows.role]
      rfl
    obtain ⟨operator, sign, shown⟩ := shows.child "operator" rfl
    obtain ⟨argument, operand, digits⟩ := shows.child "argument" rfl
    have number : doc.role argument = .numberLiteral := by
      rw [digits.role]
      rfl
    have minus : doc.text operator = ['-'] := shown.token_text forest
    rw [evaluateDown, unary]
    simp only [evaluateUnary, sign, operand, Option.map_some, minus, number, digits.numberValue forest small,
      bind, Except.bind, Literal.negate?_succ small, if_true]
    rfl

end

mutual

/-- A node that shows a value has it. -/
theorem Shows.evaluateDown_form {doc : Document} (forest : doc.Forest) {n : Nat} {id : NodeId}
    {field : Option String} (v : Value) (whole : v.Whole) (fits : doc.Fits n id) (shows : doc.Shows id (v.form field)) :
    doc.evaluateDown n id = .ok v := by
  match n, v with
  | 0, _ => exact fits.elim
  | n + 1, .null | n + 1, .bool true | n + 1, .bool false =>
    rw [evaluateDown, shows.role]
    rfl
  | n + 1, .number number =>
    obtain ⟨i, rfl, small⟩ := whole
    exact Shows.evaluate_number forest shows small
  | n + 1, .string text =>
    have literal : doc.role id = .stringLiteral := by
      rw [shows.role]
      rfl
    rw [evaluateDown, literal]
    simp only [shows.token_text forest, Literal.unquoted_stringText]
  | n + 1, .array items =>
    have array : doc.role id = .array := by
      rw [shows.role]
      rfl
    have children := shows.items fun item member => (Value.isLiteral_itemForms items whole item member).2.counts
    have inside : ∀ c ∈ doc.namedChildren id, doc.Fits n c := fun c member => fits c (List.mem_of_mem_filter member)
    rw [evaluateDown, array]
    simp only [evaluateItems_forms forest items whole inside children]
    rfl
  | n + 1, .object members =>
    have object : doc.role id = .object := by
      rw [shows.role]
      rfl
    have entries : ∀ entry ∈ (Value.memberForms members).map (fun m => Form.entry m.1 m.2), entry.counts = true := by
      intro entry member
      obtain ⟨m, _, rfl⟩ := List.mem_map.mp member
      rfl
    have children := shows.items entries
    have inside : ∀ c ∈ doc.namedChildren id, doc.Fits n c := fun c member => fits c (List.mem_of_mem_filter member)
    rw [evaluateDown, object]
    simp only [evaluateMembers_forms forest members [] whole.2 whole.1 inside children]
    rfl

theorem evaluateItems_forms {doc : Document} (forest : doc.Forest) {n : Nat} {ids : List NodeId} (items : List Value)
    (whole : Value.AllWhole items) (fits : ∀ c ∈ ids, doc.Fits n c)
    (shows : List.Forall₂ doc.ShowsField ids (Value.itemForms items)) :
    evaluateItems (doc.evaluateDown n) ids = .ok items := by
  match items with
  | [] =>
    cases shows
    rfl
  | item :: rest =>
    cases shows with
    | cons first later =>
      have here := Shows.evaluateDown_form forest item whole.1 (fits _ (by simp)) first.2
      have others := evaluateItems_forms forest rest whole.2 (fun c member => fits c (by simp [member])) later
      simp only [evaluateItems, here, others]
      rfl

/-- Entries that show members in the order of their names come one after the other behind those that were read. -/
theorem evaluateMembers_forms {doc : Document} (forest : doc.Forest) {n : Nat} {ids : List NodeId}
    (members before : List (List Char × Value)) (whole : Value.MembersWhole members)
    (ordered : ((before ++ members).map Prod.fst).Pairwise (· < ·)) (fits : ∀ c ∈ ids, doc.Fits n c)
    (shows : List.Forall₂ doc.ShowsField ids ((Value.memberForms members).map fun m => Form.entry m.1 m.2)) :
    doc.evaluateMembers (doc.evaluateDown n) before ids = .ok (before ++ members) := by
  match members with
  | [] =>
    cases shows
    rw [List.append_nil]
    rfl
  | (name, value) :: rest =>
    rw [Value.memberForms, List.map_cons] at shows
    cases shows with
    | @cons entry _ others _ first later =>
      have pair : doc.role entry = .pair := by
        rw [first.2.role]
        rfl
      obtain ⟨key, keyed, shown⟩ := first.2.child "key" rfl
      have placed : [Form.token "string" true (some "key") (Json.stringText name), Form.mark ":",
          value.form (some "value")].find? (fun f => f.field == some "value") = some (value.form (some "value")) := by
        rw [List.find?_cons_of_neg (by simp [Form.field]), List.find?_cons_of_neg (by decide),
          List.find?_cons_of_pos (by simp [Value.form_field])]
      obtain ⟨body, valued, shown'⟩ := first.2.child "value" placed
      have literal : doc.role key = .stringLiteral := by
        rw [shown.role]
        rfl
      have called : doc.memberName key = .ok name := by
        simp only [memberName, literal, shown.token_text forest, Literal.unquoted_stringText]
      have inside : doc.Fits n body := Within.next (fits entry (by simp)) (childByField?_some valued).1
      have here := Shows.evaluateDown_form forest value whole.1 inside shown'
      have goes : Value.insertMember name value before = before ++ [(name, value)] := by
        refine Value.insertMember_last fun m member => ?_
        rw [List.map_append, List.pairwise_append] at ordered
        exact ordered.2.2 m.1 (List.mem_map_of_mem member) name (by simp)
      have rest' := evaluateMembers_forms forest rest (before ++ [(name, value)]) whole.2
        (by rwa [List.append_assoc]) (fun c member => fits c (by simp [member])) later
      simp only [evaluateMembers, pair, keyed, valued, called, here, goes, bind, Except.bind]
      rw [rest', List.append_assoc]
      rfl

end

/-! ## Reading and evaluating a text -/

/-- The data exchange text of a value is an expression that has the value: read as one, in any document that edits lead
    to from a file, it evaluates to nothing else. -/
theorem evaluate_json [Reader] {dialect : Dialect} {source : List Char} {first : Document}
    (file : Document.parse dialect source = .ok first) (reached : Reached first doc) (v : Value) (whole : v.Whole)
    (literate : Reader.Literate doc.dialect (v.form none)) :
    ∃ doc' id, doc.parseExpression v.json = .ok (doc', id) ∧ doc'.evaluate id = .ok v := by
  have literal := Value.isLiteral_form none v whole
  obtain ⟨tree, takes, read⟩ := literate literal
  rw [Value.text_form] at takes read
  have head := takes.head
  have snippet : Syntax.parseSnippet doc.dialect v.json = .ok tree := by
    refine Syntax.parseSnippet_enclosed (head.2.1.trans literal.head.1) ?_ ?_ read
    · exact head.1 ▸ literal.kind_ne (by decide)
    · exact head.1 ▸ literal.kind_ne (by decide)
  rw [← Value.trim_json v whole] at snippet
  obtain ⟨doc', parsed, text, bears⟩ := parseExpression_bears snippet
  rw [Value.trim_json v whole] at text
  obtain ⟨_, _, _, adopted⟩ := parseExpression_adopted parsed
  have sound := adopted.sound ((reached.sound file).withBuffer _) (by simp)
  have present := (adopted.sprouted.topLt doc.nodes.size (by simp)).2
  have fits : doc'.Fits doc'.depth doc.nodes.size := (sound.forest.fits present).mono (Nat.le_succ _)
  have shows : doc'.Shows doc.nodes.size (v.form none) := ⟨_, tree, bears, text ▸ takes⟩
  exact ⟨doc', _, parsed, shows.evaluateDown_form sound.forest v whole fits⟩

/-! ## A sample -/

/-- An object with a list of a number below zero and a text of a control character and a quote, and with null. -/
def exchangedValue : Value :=
  .object [(['a'], .array [.number (.integer (-2)), .string ['\x01', '"']]), (['b'], .null)]

/-- The tree of the text of the sample value. -/
def exchangedTree : Tree :=
  let quotes := Tree.between "string" "\"" "\""
  let key (start : Nat) : Tree := quotes (some "key") start (start + 3) [.fragment (start + 1) (start + 2)]
  let negative : Tree :=
    .node "unary_expression" true none ⟨7, 9⟩
      [.node "-" false (some "operator") ⟨7, 8⟩ [], .number (some "argument") 8 9]
  let text := quotes none 10 20 [.escape 11 17, .escape 17 19]
  let array := Tree.bracketed (some "value") 6 21 [negative, .mark "," 9, text]
  .braced none 1 31
    [.node "pair" true none ⟨2, 21⟩ [key 2, .mark ":" 5, array], .mark "," 21,
      .node "pair" true none ⟨22, 30⟩ [key 22, .mark ":" 25, .node "null" true (some "value") ⟨26, 30⟩ []]]

/-- A file without anything in it. -/
def hollowTree : Tree := .node "program" true none ⟨0, 0⟩ []

/-- A reader of the file without anything in it and of the text of the sample value. -/
@[reducible] def exchangedReader : Reader :=
  ⟨fun _ text => List.lookup text
    [([], hollowTree), (Syntax.snippetText exchangedValue.json, Tree.enclosed 33 exchangedTree)]⟩

theorem evaluate_json_sample :
    ∃ doc' id, @Document.parseExpression exchangedReader (ofTree .typed [] hollowTree) exchangedValue.json =
        .ok (doc', id) ∧ doc'.evaluate id = .ok exchangedValue := by
  have literate : @Reader.Literate exchangedReader .typed (exchangedValue.form none) := fun _ =>
    ⟨exchangedTree, by decide +kernel, rfl⟩
  have whole : exchangedValue.Whole := by
    refine ⟨by decide, ⟨⟨-2, rfl, by decide⟩, trivial, trivial⟩, trivial, trivial⟩
  have reached : @Reached exchangedReader (ofTree .typed [] hollowTree) (ofTree .typed [] hollowTree) :=
    @Reached.start exchangedReader _ [' ', ' ']
  exact @evaluate_json _ exchangedReader .typed [] (ofTree .typed [] hollowTree) rfl reached exchangedValue whole literate

end Document

end StoreModels
