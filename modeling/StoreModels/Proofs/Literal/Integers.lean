import StoreModels.Proofs.Literal.Exchange
import StoreModels.Record.Evaluate

/-!
Integer literals in decimal and behind a prefix that announces another base, with underscores among their digits. What
is read of one is the integer that it spells or no integer at all, and the sign in front of one changes nothing else.
-/
namespace StoreModels.Literal

/-! ## Digits -/

/-- Whether a character is a digit of a base. -/
def isDigitOf (base : Nat) (c : Char) : Bool := (digitOf? base c).isSome

/-- The number that digits of a base spell, the first one weighing most. -/
def valueOf (base : Nat) (digits : List Char) : Nat :=
  digits.foldl (fun value c => value * base + (digitValue? c).getD 0) 0

/-- A text without its underscores. -/
def compact (text : List Char) : List Char := text.filter (· ≠ '_')

theorem digitOf?_eq {base : Nat} {c : Char} (digit : isDigitOf base c = true) :
    digitOf? base c = some ((digitValue? c).getD 0) := by
  obtain ⟨d, read⟩ := Option.isSome_iff_exists.mp digit
  rw [read]
  rw [digitOf?, Option.filter_eq_some_iff] at read
  rw [read.1, Option.getD_some]

/-- Digits spell a number below the power of the base for as many digits. -/
theorem valueOf_lt {base : Nat} {digits : List Char} (each : ∀ c ∈ digits, isDigitOf base c = true) :
    valueOf base digits < Nat.pow base digits.length := by
  have after : ∀ value, digits.foldl (fun value c => value * base + (digitValue? c).getD 0) value <
      (value + 1) * Nat.pow base digits.length := by
    induction digits with
    | nil => simp
    | cons c rest ih =>
      obtain ⟨here, later⟩ := List.forall_mem_cons.mp each
      have below : (digitValue? c).getD 0 < base := by
        have read := digitOf?_eq here
        rw [digitOf?, Option.filter_eq_some_iff] at read
        exact of_decide_eq_true read.2
      intro value
      have step : value * base + (digitValue? c).getD 0 + 1 ≤ (value + 1) * base := by
        rw [Nat.add_mul, Nat.one_mul]
        omega
      calc _ < (value * base + (digitValue? c).getD 0 + 1) * Nat.pow base rest.length := ih later _
        _ ≤ (value + 1) * base * Nat.pow base rest.length := Nat.mul_le_mul_right _ step
        _ = (value + 1) * (Nat.pow base rest.length * base) := by rw [Nat.mul_assoc, Nat.mul_comm base]
  simpa [valueOf] using after 0

theorem number?_digits {base : Nat} {digits : List Char} (each : ∀ c ∈ digits, isDigitOf base c = true)
    (some : digits ≠ []) : number? base digits = .some (valueOf base digits) := by
  have onwards : ∀ value, numberFrom? base value digits =
      .some (digits.foldl (fun value c => value * base + (digitValue? c).getD 0) value) := by
    clear some
    induction digits with
    | nil => exact fun _ => rfl
    | cons c rest ih =>
      obtain ⟨here, later⟩ := List.forall_mem_cons.mp each
      intro value
      rw [numberFrom?, digitOf?_eq here]
      exact ih later _
  have full : digits.isEmpty = false := by simpa using some
  rw [number?, full, onwards, valueOf]
  rfl

/-- Digits hold no character that is none. -/
theorem not_mem_digits {base : Nat} {digits : List Char} (each : ∀ c ∈ digits, isDigitOf base c = true) {c : Char}
    (other : isDigitOf base c = false) : c ∉ digits := by
  intro member
  rw [each c member] at other
  cases other

theorem unsigned?_digits {base : Nat} {digits : List Char} (each : ∀ c ∈ digits, isDigitOf base c = true)
    (some : digits ≠ []) (limit : Nat) :
    unsigned? base limit digits = if valueOf base digits < limit then .some (valueOf base digits) else none := by
  unfold unsigned?
  split
  next => exact absurd List.mem_cons_self (not_mem_digits each (c := '+') rfl)
  next => simp only [number?_digits each some, Option.filter_some, decide_eq_true_eq]

/-! ## Integer literals -/

/-- The letters that announce a base behind a zero. -/
def radixMarks : List (Char × Nat) := [('x', 16), ('X', 16), ('o', 8), ('O', 8), ('b', 2), ('B', 2)]

/-- A text is an integer literal of a base for a number: digits in decimal with no needless zero in front, or a zero, the
    letter of a base and digits of this base. Underscores do not count. -/
inductive IsInteger : Nat → List Char → Nat → Prop
  | decimal {text : List Char} (numeral : Numeral (compact text)) : IsInteger 10 text (valueOf 10 (compact text))
  | prefixed {mark : Char} {base : Nat} {digits : List Char} (known : (mark, base) ∈ radixMarks)
    (each : ∀ c ∈ compact digits, isDigitOf base c = true) (some : compact digits ≠ []) :
    IsInteger base ('0' :: mark :: digits) (valueOf base (compact digits))

/-- A text is read as what it is without its underscores. -/
theorem read?_compact (raw : List Char) : Number.read? raw = Number.read? (compact raw) := by
  rw [Number.read?, Number.read?, compact, List.filter_filter]
  simp only [Bool.and_self]

theorem read?_suffix (raw : List Char) : Number.read? (raw ++ ['n']) = none := by
  have last : ((raw ++ ['n']).filter (· ≠ '_')).getLast? = some 'n' := by simp
  rw [Number.read?]
  exact if_pos last

/-- Digits behind a prefix are read as the number that they spell, up to the last one of 64 bits. -/
theorem read?_prefixed {mark : Char} {base : Nat} {digits : List Char} (known : (mark, base) ∈ radixMarks)
    (each : ∀ c ∈ digits, isDigitOf base c = true) (some : digits ≠ []) :
    Number.read? ('0' :: mark :: digits) =
      if valueOf base digits < Nat.pow 2 64 then .some (.integer (valueOf base digits)) else none := by
  have foreign : ∀ {c : Char}, digitValue? c = none → c ∉ digits := fun other =>
    not_mem_digits each (by rw [isDigitOf, digitOf?, other]; rfl)
  have announced : mark ≠ '_' ∧ radix? ('0' :: mark :: digits) = .some base := by
    simp only [radixMarks, List.mem_cons, Prod.mk.injEq, List.not_mem_nil, or_false] at known
    rcases known with ⟨rfl, rfl⟩ | ⟨rfl, rfl⟩ | ⟨rfl, rfl⟩ | ⟨rfl, rfl⟩ | ⟨rfl, rfl⟩ | ⟨rfl, rfl⟩ <;> exact ⟨by decide, rfl⟩
  have plain : ('0' :: mark :: digits).filter (· ≠ '_') = '0' :: mark :: digits := by
    rw [List.filter_eq_self]
    intro c member
    simp only [decide_eq_true_eq]
    rcases List.mem_cons.mp member with rfl | later
    · decide
    rcases List.mem_cons.mp later with rfl | inside
    · exact announced.1
    · rintro rfl
      exact foreign rfl inside
  have ends : ('0' :: mark :: digits).getLast? ≠ .some 'n' := by
    obtain ⟨front, last, rfl⟩ := (List.eq_nil_or_concat digits).resolve_left some
    rw [List.concat_eq_append, ← List.cons_append, ← List.cons_append, List.getLast?_concat]
    rintro is
    cases is
    exact foreign (c := 'n') rfl (by simp)
  rw [Number.read?, plain, if_neg ends, announced.2]
  simp only [List.drop_succ_cons, List.drop_zero, unsigned?_digits each some]
  split <;> rfl

/-- What is read of an integer literal: in decimal an integer below 2^63, and behind a prefix one below 2^64. -/
theorem IsInteger.read? {base v : Nat} {raw : List Char} (spells : IsInteger base raw v) :
    Number.read? raw = if base = 10 then
        if v < Nat.pow 2 63 then some (.integer v) else (float? (compact raw)).map .float
      else if v < Nat.pow 2 64 then some (.integer v) else none := by
  rw [read?_compact]
  cases spells with
  | decimal numeral =>
    have spelled : number? 10 (compact raw) = some (valueOf 10 (compact raw)) :=
      number?_digits (fun c member => by rw [isDigitOf, digitOf?_ten (numeral.digits c member)]; rfl) numeral.some
    rw [read?_decimal numeral.digits spelled, if_pos rfl]
  | @prefixed mark _ digits known each full =>
    have other : mark ≠ '_' ∧ base ≠ 10 := by
      have all : ∀ m ∈ radixMarks, m.1 ≠ '_' ∧ m.2 ≠ 10 := by decide
      exact all (mark, base) known
    have text : compact ('0' :: mark :: digits) = '0' :: mark :: compact digits := by
      rw [compact, List.filter_cons_of_pos (by decide), List.filter_cons_of_pos (by simpa using other.1), compact]
    rw [text, read?_prefixed known each full, if_neg other.2]

theorem negate?_nat {n : Nat} (small : n < Nat.pow 2 63) :
    Number.negate? (.integer n) = some (.integer (-(n : Int))) := by
  rw [Number.negate?, Int.natAbs_natCast, if_pos small]

end StoreModels.Literal

namespace StoreModels
open Literal (Number IsInteger)
open Syntax (Tree)

namespace Document

/-- A node is a minus sign before a number literal with a text. -/
structure Negates (doc : Document) (id : NodeId) (raw : List Char) : Prop where
  unary : doc.role id = .unaryExpr
  sign : (doc.childByField? id "operator").map doc.text = some ['-']
  operand : ∃ argument, doc.childByField? id "argument" = some argument ∧ doc.role argument = .numberLiteral ∧
    doc.text argument = raw

/-- A minus sign before a literal gives the number that is read the other sign. -/
theorem Negates.evaluate {doc : Document} {id : NodeId} {raw : List Char} {n m : Number} (negates : doc.Negates id raw)
    (read : Number.read? raw = some n) (negated : n.negate? = some m) : doc.evaluate id = .ok (.number m) := by
  obtain ⟨argument, operand, number, text⟩ := negates.operand
  have value : doc.numberValue argument = .ok n := by rw [numberValue, text, read]
  rw [Document.evaluate, depth, evaluateDown, negates.unary]
  simp only [evaluateUnary, negates.sign, operand, number, value, bind, Except.bind, negated, if_true]
  rfl

end Document

/-- Integer literals are exact. What is read of one is never another integer than the one it spells; it is that one below
    2^63, and behind a prefix up to the last number of 64 bits, where nothing is read beyond. With the letter of a big
    integer nothing is read. A minus sign gives the integer the other sign, as does the one in front of the literal in a
    document. -/
theorem Literal.integers_exact {base v : Nat} {raw : List Char} (spells : IsInteger base raw v) :
    (v < Nat.pow 2 63 → Number.read? raw = some (.integer v)) ∧
      (base ≠ 10 → (v < Nat.pow 2 64 → Number.read? raw = some (.integer v)) ∧
        (Nat.pow 2 64 ≤ v → Number.read? raw = none)) ∧
      (∀ n, Number.read? raw = some (.integer n) → n = v) ∧
      Number.read? (raw ++ ['n']) = none ∧
      (v < Nat.pow 2 63 → (Number.read? raw).bind Number.negate? = some (.integer (-v))) ∧
      (v < Nat.pow 2 63 → ∀ (doc : Document) (id : NodeId), doc.Negates id raw →
        doc.evaluate id = .ok (.number (.integer (-v)))) := by
  have read := spells.read?
  have small : v < Nat.pow 2 63 → Number.read? raw = some (.integer v) := by
    intro below
    have wider : v < Nat.pow 2 64 := Nat.lt_trans below (by decide)
    rw [read, if_pos below, if_pos wider, ite_self]
  refine ⟨small, fun other => ⟨fun below => ?_, fun beyond => ?_⟩, fun n is => ?_, Literal.read?_suffix raw,
    fun below => ?_, fun below doc id negates => ?_⟩
  · rw [read, if_neg other, if_pos below]
  · rw [read, if_neg other, if_neg (Nat.not_lt.mpr beyond)]
  · rw [read] at is
    split at is
    · split at is
      · cases is
        rfl
      · simp at is
    · split at is
      · cases is
        rfl
      · cases is
  · rw [small below]
    exact Literal.negate?_nat below
  · exact negates.evaluate (small below) (Literal.negate?_nat below)

/-! ## A sample -/

/-- The last integer of 63 bits, in hexadecimal. -/
def wideText : List Char := "0x7fff_ffff_ffff_FFFF".toList

/-- The tree of a file of a minus sign before the sample literal. -/
def negatedTree : Tree :=
  .node "program" true none ⟨0, 22⟩
    [.node "expression_statement" true none ⟨0, 22⟩
      [.node "unary_expression" true none ⟨0, 22⟩
        [.node "-" false (some "operator") ⟨0, 1⟩ [], .node "number" true (some "argument") ⟨1, 22⟩ []]]]

/-- The file of a minus sign before the sample literal. -/
def negatedFile : Document := Document.ofTree .typed ('-' :: wideText) negatedTree

theorem Literal.integers_exact_wide :
    Number.read? wideText = some (.integer (Nat.pow 2 63 - 1 : Nat)) ∧ Number.read? (wideText ++ ['n']) = none ∧
      negatedFile.evaluate 2 = .ok (.number (.integer (-(Nat.pow 2 63 - 1 : Nat)))) := by
  have each : ∀ c ∈ Literal.compact (wideText.drop 2), Literal.isDigitOf 16 c = true :=
    List.all_eq_true.mp (by decide +kernel)
  have spells : IsInteger 16 wideText (Nat.pow 2 63 - 1) :=
    @IsInteger.prefixed 'x' 16 (wideText.drop 2) (by decide) each (by decide +kernel)
  have negates : negatedFile.Negates 2 wideText := ⟨by decide +kernel, by decide +kernel, 4, by decide +kernel⟩
  obtain ⟨small, _, _, suffixed, _, negated⟩ := Literal.integers_exact spells
  exact ⟨small (by decide), suffixed, negated (by decide) negatedFile 2 negates⟩

end StoreModels
