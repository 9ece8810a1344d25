import StoreModels.Text.Position
import StoreModels.Proofs.Checked.Text
import StoreModels.Proofs.Text.Lines

/-!
Positions as names of byte offsets. The line and the column of an offset between two characters tell which offset it is:
it lies as many bytes behind the start of the line as the characters before the column have. So the positions of two
offsets are in the order of the offsets. The numbers have 32 bits, which 2^32 - 1 line feeds, or as many characters on one
line, go beyond.
-/
namespace StoreModels.Text
open Checked (IsBoundary byteLength_cons byteLength_append takeBytes_byteLength isBoundary_append)

variable {text before after line : List Char} {done : List (List Char)} {start stop : Nat}

/-! ## Bytes of lines -/

/-- The bytes of lines with the line feeds behind them. -/
def bytesOfLines : List (List Char) → Nat
  | [] => 0
  | line :: done => byteLength line + 1 + bytesOfLines done

/-- The bytes of a text are those of its lines and of the line feeds between them. -/
theorem byteLength_lines (split : lines text = done ++ [line]) : byteLength text = bytesOfLines done + byteLength line := by
  induction done generalizing text with
  | nil =>
    rcases lines_cons split with ⟨_, rfl⟩ | ⟨more, _⟩
    · rw [bytesOfLines, Nat.zero_add]
    · exact absurd rfl more
  | cons head more ih =>
    rcases lines_cons split with ⟨none, _⟩ | ⟨_, rest, rfl⟩
    · simp at none
    · have free : '\n' ∉ head := not_mem_lines (by rw [split]; exact List.mem_cons_self)
      have later : lines rest = more ++ [line] := by
        rw [lines_break, lines_unbroken free] at split
        exact (List.cons.inj split).2
      have one : ('\n' : Char).utf8Size = 1 := rfl
      rw [byteLength_append, byteLength_cons, one, ih later, bytesOfLines]
      omega

theorem length_le_bytes (text : List Char) : text.length ≤ byteLength text := by
  induction text with
  | nil => exact Nat.le_refl 0
  | cons c rest ih =>
    have wide := c.utf8Size_pos
    rw [byteLength_cons, List.length_cons]
    omega

theorem length_le_bytesOfLines (done : List (List Char)) : done.length ≤ bytesOfLines done := by
  induction done with
  | nil => exact Nat.le_refl 0
  | cons line done ih =>
    rw [bytesOfLines, List.length_cons]
    omega

theorem takeBytes_append (bytes : Nat) (text : List Char) : ∃ after, text = takeBytes bytes text ++ after := by
  induction text generalizing bytes with
  | nil => exact ⟨[], rfl⟩
  | cons c rest ih =>
    rw [takeBytes]
    split
    · obtain ⟨after, is⟩ := ih (bytes - c.utf8Size)
      exact ⟨after, by rw [List.cons_append, ← is]⟩
    · exact ⟨c :: rest, rfl⟩

/-! ## Positions of splits -/

/-- The byte offset that a position stands for: that of the start of its line, and the bytes of the characters of the line
    before its column. -/
def Position.offset (position : Position) (text : List Char) : Nat :=
  bytesOfLines ((lines text).take (position.line.toNat - 1)) +
    byteLength (((lines text).getD (position.line.toNat - 1) []).take (position.column.toNat - 1))

/-- A position comes before another one in reading. -/
def Position.Before (position other : Position) : Prop :=
  position.line < other.line ∨ position.line = other.line ∧ position.column < other.column

instance (position other : Position) : Decidable (position.Before other) := inferInstanceAs (Decidable (_ ∨ _))

/-- A position names a byte offset of a text: its line is counted by the line feeds before the offset, its column lies in
    that line, and the two lead back to the offset. -/
structure Position.Names (position : Position) (text : List Char) (offset : Nat) : Prop where
  line : position.line.toNat = 1 + (takeBytes offset text).count '\n'
  column : 1 ≤ position.column.toNat ∧ position.column.toNat - 1 ≤ ((lines text).getD (position.line.toNat - 1) []).length
  offset : position.offset text = offset

/-- What is counted for the position behind a text fits into the numbers of a position. -/
def Countable (before : List Char) : Prop :=
  before.count '\n' + 1 < UInt32.size ∧ (lastLine before).length + 1 < UInt32.size

instance (before : List Char) : Decidable (Countable before) := inferInstanceAs (Decidable (_ ∧ _))

theorem toNat_counted {n : Nat} (fits : n + 1 < UInt32.size) : (UInt32.ofNat n + 1).toNat = n + 1 := by
  rw [UInt32.toNat_add, UInt32.toNat_ofNat_of_lt' (Nat.lt_of_succ_lt fits), UInt32.toNat_one, Nat.mod_eq_of_lt fits]

/-- A count that fills all 32 bits comes out as none. -/
theorem counted_size : UInt32.ofNat (UInt32.size - 1) + 1 = 0 := by decide

/-- Where a text is split, the position is on the line that the first part ends with, behind all of its characters. -/
theorem positionOf_split (before after : List Char) :
    positionOf (before ++ after) (byteLength before) =
      ⟨UInt32.ofNat (before.count '\n') + 1, UInt32.ofNat (lastLine before).length + 1⟩ := by
  have within : min (byteLength before) (byteLength (before ++ after)) = byteLength before := by
    rw [byteLength_append]
    omega
  simp only [positionOf, within, takeBytes_byteLength, Nat.sub_self, if_true]

theorem positionOf_names (fits : Countable before) :
    (positionOf (before ++ after) (byteLength before)).Names (before ++ after) (byteLength before) := by
  obtain ⟨done, split⟩ := lines_last before
  obtain ⟨first, rest, right⟩ := List.exists_cons_of_ne_nil (lines_ne_nil after)
  have whole := lines_append split right
  have bytes := byteLength_lines split
  have count : done.length = before.count '\n' := by
    have count := length_lines before
    rwa [split, List.length_append, List.length_singleton, Nat.add_right_cancel_iff] at count
  have line := toNat_counted fits.1
  rw [positionOf_split]
  rw [← count] at line ⊢
  have column := toNat_counted fits.2
  refine ⟨?line, ?column, ?offset⟩
  case line => rw [line, takeBytes_byteLength, count, Nat.add_comm]
  case column =>
    simp only [line, column, whole, Nat.add_sub_cancel, List.getD_eq_getElem?_getD,
      List.getElem?_append_right (Nat.le_refl _), Nat.sub_self, List.getElem?_cons_zero, Option.getD_some, List.length_append]
    omega
  case offset =>
    simp only [Position.offset, line, column, whole, Nat.add_sub_cancel, List.take_left,
      List.getD_eq_getElem?_getD, List.getElem?_append_right (Nat.le_refl _), Nat.sub_self, List.getElem?_cons_zero,
      Option.getD_some, bytes]

/-- Less than 2^32 - 1 bytes are countable. -/
theorem countable_of_lt (short : byteLength before + 1 < UInt32.size) : Countable before := by
  obtain ⟨done, split⟩ := lines_last before
  have count := length_lines before
  rw [split, List.length_append, List.length_singleton] at count
  have bytes := byteLength_lines split
  have lines := length_le_bytesOfLines done
  have column := length_le_bytes (lastLine before)
  exact ⟨by omega, by omega⟩

/-- The position behind a part of a text comes before that behind a longer one. -/
theorem positionOf_before {middle : List Char} (some : middle ≠ []) (fits : Countable before)
    (fits' : Countable (before ++ middle)) :
    (positionOf (before ++ middle ++ after) (byteLength before)).Before
      (positionOf (before ++ middle ++ after) (byteLength (before ++ middle))) := by
  rw [List.append_assoc, positionOf_split, ← List.append_assoc, positionOf_split]
  simp only [Position.Before, UInt32.lt_iff_toNat_lt, ← UInt32.toNat_inj, toNat_counted fits.1, toNat_counted fits.2,
    toNat_counted fits'.1, toNat_counted fits'.2]
  rw [List.count_append]
  by_cases feed : '\n' ∈ middle
  · have feeds := List.count_pos_iff.mpr feed
    exact .inl (by omega)
  · have none := List.count_eq_zero_of_not_mem feed
    have longer := List.length_pos_of_ne_nil some
    refine .inr ⟨by omega, ?_⟩
    rw [lastLine_append before feed, List.length_append]
    omega

theorem positionOf_boundary {offset : Nat} (boundary : IsBoundary text offset) (fits : Countable (takeBytes offset text)) :
    (positionOf text offset).Names text offset := by
  obtain ⟨after, is⟩ := takeBytes_append offset text
  have names := @positionOf_names (takeBytes offset text) after fits
  rwa [← is, boundary] at names

/-- A position whose numbers went round names nothing: one of the two is zero. -/
theorem Position.Names.countable {offset : Nat} (short : byteLength text < UInt32.size) (boundary : IsBoundary text offset)
    (names : (positionOf text offset).Names text offset) : Countable (takeBytes offset text) := by
  obtain ⟨after, is⟩ := takeBytes_append offset text
  obtain ⟨done, split⟩ := lines_last (takeBytes offset text)
  have count := length_lines (takeBytes offset text)
  rw [split, List.length_append, List.length_singleton] at count
  have bytes := byteLength_lines split
  have lines := length_le_bytesOfLines done
  have column := length_le_bytes (lastLine (takeBytes offset text))
  have whole := congrArg byteLength is
  rw [byteLength_append] at whole
  have position := positionOf_split (takeBytes offset text) after
  rw [← is, boundary] at position
  have line := names.line
  have columns := names.column.1
  rw [position] at line columns
  refine ⟨?line, ?column⟩
  case line =>
    by_contra full
    have all : (takeBytes offset text).count '\n' = UInt32.size - 1 := by omega
    rw [all, counted_size] at line
    simp only [UInt32.toNat_zero] at line
    omega
  case column =>
    by_contra full
    have all : (lastLine (takeBytes offset text)).length = UInt32.size - 1 := by omega
    rw [all, counted_size] at columns
    simp only [UInt32.toNat_zero] at columns
    omega

/-- The positions at the ends of a region name its byte offsets and are in their order exactly if the later offset is
    countable; with less than 2^32 - 1 bytes before it, it always is. -/
theorem region_names (short : byteLength text < UInt32.size) (starts : IsBoundary text start) (stops : IsBoundary text stop)
    (lt : start < stop) :
    ((regionOf text start stop).start.Before (regionOf text start stop).stop ∧
      (regionOf text start stop).start.Names text start ∧ (regionOf text start stop).stop.Names text stop ↔
        Countable (takeBytes stop text)) ∧
      (stop + 1 < UInt32.size → Countable (takeBytes stop text)) := by
  obtain ⟨behind, is⟩ := takeBytes_append start text
  obtain ⟨after, is'⟩ := takeBytes_append stop text
  refine ⟨⟨fun ⟨_, _, names⟩ => names.countable short stops, fun fits => ?_⟩,
    fun less => countable_of_lt (by rwa [stops])⟩
  have whole := congrArg byteLength is'
  rw [byteLength_append, stops] at whole
  have fits' : Countable (takeBytes start text) := countable_of_lt (by rw [starts]; omega)
  refine ⟨?order, positionOf_boundary starts fits', positionOf_boundary stops fits⟩
  obtain ⟨middle, longer⟩ : ∃ middle, takeBytes stop text = takeBytes start text ++ middle := by
    rcases List.append_eq_append_iff.mp (is.symm.trans is') with ⟨middle, longer, _⟩ | ⟨middle, shorter, _⟩
    · exact ⟨middle, longer⟩
    · have bytes := congrArg byteLength shorter
      rw [byteLength_append, starts, stops] at bytes
      omega
  have some : middle ≠ [] := by
    rintro rfl
    rw [List.append_nil] at longer
    have bytes := congrArg byteLength longer
    rw [starts, stops] at bytes
    omega
  have order := @positionOf_before (takeBytes start text) after middle some fits' (longer ▸ fits)
  rw [longer] at is'
  rwa [← is', ← longer, starts, stops] at order

/-- From behind a character of two bytes at the end of a line to behind one at the start of the next line. -/
theorem region_names_accented :
    byteLength "aé\nüb".toList < UInt32.size ∧ IsBoundary "aé\nüb".toList 3 ∧ IsBoundary "aé\nüb".toList 6 ∧
      regionOf "aé\nüb".toList 3 6 = ⟨⟨1, 3⟩, ⟨2, 2⟩⟩ ∧
      (regionOf "aé\nüb".toList 3 6).start.Before (regionOf "aé\nüb".toList 3 6).stop ∧
      (regionOf "aé\nüb".toList 3 6).start.Names "aé\nüb".toList 3 ∧
      (regionOf "aé\nüb".toList 3 6).stop.Names "aé\nüb".toList 6 := by
  have short : byteLength "aé\nüb".toList < UInt32.size := by decide +kernel
  have starts : IsBoundary "aé\nüb".toList 3 := by decide +kernel
  have stops : IsBoundary "aé\nüb".toList 6 := by decide +kernel
  have named := region_names short starts stops (by decide)
  exact ⟨short, starts, stops, by decide +kernel, named.1.mpr (named.2 (by decide))⟩

theorem byteLength_feeds (n : Nat) : byteLength (List.replicate n '\n') = n := by
  induction n with
  | zero => rfl
  | succ n ih =>
    have one : ('\n' : Char).utf8Size = 1 := rfl
    rw [List.replicate_succ, byteLength_cons, one, ih, Nat.add_comm]

theorem lastLine_feeds (n : Nat) : lastLine (List.replicate n '\n') = [] := by
  cases n with
  | zero => rfl
  | succ n => rw [List.replicate_succ', lastLine_break]; rfl

/-- A text of line feeds: the position behind it is in the first column, on the line after all of them. -/
theorem regionOf_feeds (n : Nat) :
    regionOf (List.replicate n '\n') 0 n = ⟨⟨1, 1⟩, ⟨UInt32.ofNat n + 1, 1⟩⟩ := by
  have first := positionOf_split [] (List.replicate n '\n')
  have last := positionOf_split (List.replicate n '\n') []
  rw [byteLength_feeds, List.append_nil, List.count_replicate_self, lastLine_feeds] at last
  exact congr (congrArg Region.mk first) last

/-- Behind 2^32 - 1 line feeds the line is the line zero, which comes before the first. -/
theorem region_names_round :
    byteLength (List.replicate (UInt32.size - 1) '\n') < UInt32.size ∧ IsBoundary (List.replicate (UInt32.size - 1) '\n') 0 ∧
      IsBoundary (List.replicate (UInt32.size - 1) '\n') (UInt32.size - 1) ∧
      regionOf (List.replicate (UInt32.size - 1) '\n') 0 (UInt32.size - 1) = ⟨⟨1, 1⟩, ⟨0, 1⟩⟩ ∧
      ¬ (regionOf (List.replicate (UInt32.size - 1) '\n') 0 (UInt32.size - 1)).start.Before
        (regionOf (List.replicate (UInt32.size - 1) '\n') 0 (UInt32.size - 1)).stop := by
  have bytes := byteLength_feeds (UInt32.size - 1)
  have round := regionOf_feeds (UInt32.size - 1)
  have zero : UInt32.ofNat (UInt32.size - 1) + 1 = 0 := counted_size
  rw [zero] at round
  have whole : IsBoundary (List.replicate (UInt32.size - 1) '\n') (UInt32.size - 1) := by
    have boundary := isBoundary_append (List.replicate (UInt32.size - 1) '\n') []
    rwa [List.append_nil, bytes] at boundary
  have first : IsBoundary (List.replicate (UInt32.size - 1) '\n') 0 := isBoundary_append [] _
  refine ⟨by rw [bytes]; decide, first, whole, round, ?_⟩
  rw [round]
  decide

end StoreModels.Text
