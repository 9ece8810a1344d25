import StoreModels.Proofs.Literal.Integers
import StoreModels.Proofs.Syntax.Shape

/-!
The name that an entry is found by, and the name of the member that it becomes as a value. They are one name for keys
that are bare names or strings; for an integer they are only where it is spelled as the number is written.
-/
namespace StoreModels.Literal
open Decimal (Binary64 decimalText withPoint)

/-! ## Numbers as names -/

/-- The text of a floating-point number shows that it is one. -/
def isMark (c : Char) : Prop := c = '-' ∨ c = '.' ∨ c = 'e'

theorem not_isDigit_mark {c : Char} (mark : isMark c) : c.isDigit = false := by
  rcases mark with rfl | rfl | rfl <;> decide

theorem decimalText_marked (digits : List Char) (magnitude : Int) : ∃ c ∈ decimalText digits magnitude, isMark c := by
  unfold decimalText
  split
  · exact ⟨'.', by simp, .inr (.inl rfl)⟩
  · split
    · exact ⟨'.', by simp [withPoint], .inr (.inl rfl)⟩
    · exact ⟨'e', by simp, .inr (.inr rfl)⟩

theorem text_marked (b : Binary64) : ∃ c ∈ b.text, isMark c := by
  by_cases zero : b.mantissa = 0
  · exact ⟨'.', by simp [Binary64.text, zero], .inr (.inl rfl)⟩
  · obtain ⟨c, member, mark⟩ := decimalText_marked _ _
    refine ⟨c, ?_, mark⟩
    simp only [Binary64.text, if_neg zero]
    exact List.mem_append_right _ member

/-- As a name, a floating-point number is the digits of a number below 2^53 or shows that it is one. -/
theorem keyText_float (b : Binary64) :
    (∃ n < Nat.pow 2 53, (Number.float b).keyText = digitsOf n) ∨ ∃ c ∈ (Number.float b).keyText, isMark c := by
  simp only [Number.keyText]
  split
  next n whole =>
    split
    next small =>
      split
      next negative =>
        cases n with
        | zero => exact .inl ⟨0, small, rfl⟩
        | succ n =>
          have signed : (toString (-((n + 1 : Nat) : Int))).toList = '-' :: digitsOf (n + 1) := text_negSucc n
          exact .inr ⟨'-', signed ▸ List.mem_cons_self, .inl rfl⟩
      next => exact .inl ⟨n, small, text_ofNat n⟩
    next => exact .inr (text_marked b)
  next => exact .inr (text_marked b)

theorem compact_digitsOf (n : Nat) : compact (digitsOf n) = digitsOf n := by
  rw [compact, List.filter_eq_self]
  intro c member
  simp only [decide_eq_true_eq]
  rintro rfl
  exact not_mem_digitsOf rfl n member

theorem valueOf_digitsOf (n : Nat) : valueOf 10 (digitsOf n) = n := by
  have each : ∀ c ∈ digitsOf n, isDigitOf 10 c = true := fun c member => by
    rw [isDigitOf, digitOf?_ten (isDigit_digitsOf member)]
    rfl
  have read := number?_digitsOf n
  rw [number?_digits each (numeral_digitsOf n).some] at read
  exact Option.some.inj read

namespace IsInteger

variable {base v : Nat} {raw : List Char}

/-- Only a decimal literal is spelled as a number is written, and then as its own. -/
theorem of_digitsOf {n : Nat} (spells : IsInteger base (digitsOf n) v) : base = 10 ∧ v = n := by
  generalize written : digitsOf n = raw at spells
  cases spells with
  | decimal numeral => exact ⟨rfl, by rw [← written, compact_digitsOf, valueOf_digitsOf]⟩
  | @prefixed mark _ digits known each full =>
    have letter : mark.isDigit = false := by
      have all : ∀ m ∈ radixMarks, m.1.isDigit = false := by decide
      exact all (mark, base) known
    exact absurd (by simp [written]) (not_mem_digitsOf letter n)

/-- A decimal literal from 2^53 on is not what a floating-point number is named. -/
theorem ne_keyText (spells : IsInteger 10 raw v) (wide : Nat.pow 2 53 ≤ v) (b : Binary64) :
    (Number.float b).keyText ≠ raw := by
  intro is
  rcases is ▸ keyText_float b with ⟨n, small, written⟩ | ⟨c, member, mark⟩
  · have value := (of_digitsOf (written ▸ spells)).2
    exact Nat.lt_irrefl _ (Nat.lt_of_lt_of_le (value ▸ small) wide)
  · generalize ten : 10 = base at spells
    cases spells with
    | decimal numeral =>
      refine not_mem_decimal numeral.digits (not_isDigit_mark mark) (List.mem_filter.mpr ⟨member, ?_⟩)
      rcases mark with rfl | rfl | rfl <;> decide
    | prefixed known =>
      have all : ∀ m ∈ radixMarks, 10 ≠ m.2 := by decide
      exact all _ known ten

/-- The name that is read of an integer literal is how it is spelled exactly if the literal is the digits of a number below
    2^63. -/
theorem keyText_eq_raw (spells : IsInteger base raw v) :
    (Number.read? raw).map Number.keyText = some raw ↔ raw = digitsOf v ∧ v < Nat.pow 2 63 := by
  have integer : (Number.integer (v : Int)).keyText = digitsOf v := text_ofNat v
  constructor
  · intro same
    rw [spells.read?] at same
    split at same
    next ten =>
      subst ten
      split at same
      next small => exact ⟨(Option.some.inj same).symm.trans integer, small⟩
      next wide =>
        cases read : float? (compact raw) with
        | none =>
          rw [read] at same
          cases same
        | some b =>
          rw [read] at same
          have far : Nat.pow 2 53 ≤ v := Nat.le_trans (by decide) (Nat.not_lt.mp wide)
          exact absurd (Option.some.inj same) (spells.ne_keyText far b)
    next other =>
      split at same
      · have written : raw = digitsOf v := (Option.some.inj same).symm.trans integer
        exact absurd (of_digitsOf (written ▸ spells)).1 other
      · cases same
  · rintro ⟨written, small⟩
    have read : Number.read? raw = some (.integer v) := written ▸ read?_digitsOf small
    rw [read, Option.map_some, integer, ← written]

/-- An integer literal that is read as its integer is named with the digits of it. -/
theorem keyText (spells : IsInteger base raw v) (exact : v < Nat.pow 2 63 ∨ base ≠ 10 ∧ v < Nat.pow 2 64) :
    (Number.read? raw).map Number.keyText = some (digitsOf v) := by
  have read : Number.read? raw = some (.integer v) := by
    rw [spells.read?]
    rcases exact with small | ⟨other, small⟩
    · rw [if_pos small, if_pos (Nat.lt_trans small (by decide)), ite_self]
    · rw [if_neg other, if_pos small]
  rw [read, Option.map_some, ← text_ofNat]
  rfl

end IsInteger
end StoreModels.Literal

namespace StoreModels
namespace Document
open Literal (IsInteger digitsOf)
open Syntax (Tree Reader)

variable {doc : Document} {entry key : NodeId}

/-! ## The names of entries -/

theorem entryName?_pair (pair : doc.role entry = .pair) (keyed : doc.childByField? entry "key" = some key) :
    doc.entryName? entry = (doc.keyOf key).name? := by
  simp only [entryName?, entryKey?, pair, keyed, Option.map_some, Option.bind_some]

/-- An entry of an object literal is found by its own name only. -/
theorem entriesNamed_iff {object : NodeId} {name other : List Char} (among : entry ∈ doc.entries object)
    (named : doc.entryName? entry = some name) : entry ∈ doc.entriesNamed object other ↔ name = other := by
  rw [entriesNamed, List.mem_filter, named, beq_iff_eq, Option.some_inj, and_iff_right among]

/-- A key that is a number is the name that is read of its text. -/
theorem memberName_number (number : doc.role key = .numberLiteral) (name : List Char) :
    doc.memberName key = .ok name ↔ (Literal.Number.read? (doc.text key)).map Literal.Number.keyText = some name := by
  rw [memberName, number]
  simp only [numberValue, bind, Except.bind, pure, Except.pure]
  cases Literal.Number.read? (doc.text key) <;> simp

/-- The two names of a key. An entry of an object literal that is keyed by a bare name or a string is found by the name of
    the member that it becomes as a value, and by no other. One that is keyed by an integer is found by the text of its key
    only, and the member is named with the digits of the number: the names are the same one exactly if the key is the
    digits of a number below 2^63. -/
theorem keys_named {object : NodeId} (among : entry ∈ doc.entries object) (pair : doc.role entry = .pair)
    (keyed : doc.childByField? entry "key" = some key) :
    (doc.role key = .propertyIdentifier ∨ doc.role key = .stringLiteral →
      ∃ name, doc.memberName key = .ok name ∧ ∀ other, entry ∈ doc.entriesNamed object other ↔ name = other) ∧
    (∀ {base v}, doc.role key = .numberLiteral → IsInteger base (doc.text key) v →
      (∀ other, entry ∈ doc.entriesNamed object other ↔ doc.text key = other) ∧
        (v < Nat.pow 2 63 ∨ base ≠ 10 ∧ v < Nat.pow 2 64 → doc.memberName key = .ok (digitsOf v)) ∧
        (doc.memberName key = .ok (doc.text key) ↔ doc.text key = digitsOf v ∧ v < Nat.pow 2 63)) := by
  have named := entryName?_pair pair keyed
  refine ⟨fun plain => ?_, fun {base v} number spells => ⟨fun other => ?_, fun exact => ?_, ?_⟩⟩
  · rcases plain with bare | quoted
    · refine ⟨doc.text key, by rw [memberName, bare], fun other => entriesNamed_iff among ?_⟩
      rw [named, keyOf, bare]
      rfl
    · refine ⟨Literal.unquoted (doc.text key), by rw [memberName, quoted], fun other => entriesNamed_iff among ?_⟩
      rw [named, keyOf, quoted]
      rfl
  · refine entriesNamed_iff among ?_
    rw [named, keyOf, number]
    rfl
  · exact (memberName_number number _).mpr (spells.keyText exact)
  · exact (memberName_number number _).trans spells.keyText_eq_raw

/-! ## A sample -/

/-- An object literal with a string and a number in hexadecimal as keys. -/
def keysText : List Char := "x=\x7b'a':2,0x1:3\x7d".toList

/-- The tree of a file of the object literal with the two keys. -/
def keysTree : Tree :=
  .assigned 0 (.braced (some "right") 2 15
    [.node "pair" true none ⟨3, 8⟩ [.quoted (some "key") 3 6 [.fragment 4 5], .mark ":" 6, .number (some "value") 7 8],
      .mark "," 8,
      .node "pair" true none ⟨9, 14⟩ [.number (some "key") 9 12, .mark ":" 12, .number (some "value") 13 14]])

/-- The file of the object literal with the two keys. -/
def keysFile : Document := ofTree .typed keysText keysTree

/-- A reader of this file. -/
@[reducible] def keysReader : Reader := ⟨fun _ text => List.lookup text [(keysText, keysTree)]⟩

theorem keysFile_entries :
    @Document.parse keysReader .typed keysText = .ok keysFile ∧ keysFile.role 5 = .object ∧
      keysFile.entries 5 = [7, 15] ∧ keysFile.childByField? 7 "key" = some 8 ∧ keysFile.childByField? 15 "key" = some 16 :=
  ⟨rfl, by decide +kernel, by decide +kernel, by decide +kernel, by decide +kernel⟩

theorem keys_named_both :
    (∃ name, keysFile.memberName 8 = .ok name ∧ ∀ other, 7 ∈ keysFile.entriesNamed 5 other ↔ name = other) ∧
      (∀ other, 15 ∈ keysFile.entriesNamed 5 other ↔ "0x1".toList = other) ∧ keysFile.memberName 16 = .ok ['1'] := by
  obtain ⟨_, _, entries, first, second⟩ := keysFile_entries
  have digits : ∀ c ∈ Literal.compact ['1'], Literal.isDigitOf 16 c = true := by
    rw [show Literal.compact ['1'] = ['1'] from rfl, List.forall_mem_singleton]
    decide
  have spells : IsInteger 16 "0x1".toList 1 := @IsInteger.prefixed 'x' 16 ['1'] (by decide) digits (by decide)
  have spelled : keysFile.text 16 = "0x1".toList := by decide +kernel
  rw [← spelled] at spells ⊢
  have text : 7 ∈ keysFile.entries 5 := by simp [entries]
  have number : 15 ∈ keysFile.entries 5 := by simp [entries]
  obtain ⟨strings, _⟩ := keys_named text (by decide +kernel) first
  obtain ⟨_, numbers⟩ := keys_named number (by decide +kernel) second
  obtain ⟨found, read, _⟩ := numbers (by decide +kernel) spells
  exact ⟨strings (.inr (by decide +kernel)), found, read (.inl (by decide))⟩

/-- The entry that is keyed by `0x1` becomes the member `1`, and it is not found by this name. -/
theorem keys_named_apart :
    @Document.parse keysReader .typed keysText = .ok keysFile ∧ keysFile.memberName 16 = .ok ['1'] ∧
      keysFile.entryName? 15 = some "0x1".toList ∧ keysFile.entriesNamed 5 ['1'] = [] ∧
      (keysFile.evaluate 5).map Value.json = .ok "\x7b\"1\":3,\"a\":2\x7d".toList :=
  ⟨rfl, by decide +kernel, by decide +kernel, by decide +kernel, by decide +kernel⟩

end Document
end StoreModels
