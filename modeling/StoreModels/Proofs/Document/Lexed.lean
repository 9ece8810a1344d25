import StoreModels.Proofs.Document.Partition
import StoreModels.Proofs.Text.Listing

/-!
How the text of a parsed object literal is read part by part. As long as only entries, commas, comments and blanks stand
between its braces, with a line feed behind each line comment, what goes with an entry can be read by itself: the comments
above it, and its comma and the comments behind it, with or without the comma.
-/
namespace StoreModels
open Syntax (Span Role Outline Reader Dialect)
open Text (slice Ordered Scans Solid Filler isBlank)

variable {text : List Char} {entry : Span} {next : Option Nat} {passed : Bool} {closing : Closing} {items : List Item}
  {start stop : Nat}

/-! ## What is shared out -/

/-- Where the last of some items ends. -/
def reach (start : Nat) (items : List Item) : Nat := (items.getLast?.map (·.span.stop)).getD start

/-- Whether the last of some items is a line comment. -/
def lineEnd (text : List Char) (line : Bool) (items : List Item) : Bool :=
  (items.getLast?.map fun item => Outline.isLineComment text item.kind item.span).getD line

theorem reach_cons (start : Nat) (item : Item) (rest : List Item) :
    reach start (item :: rest) = reach item.span.stop rest := getD_getLast?_cons _ _ _ _

theorem lineEnd_cons (line : Bool) (item : Item) (rest : List Item) : lineEnd text line (item :: rest) =
    lineEnd text (Outline.isLineComment text item.kind item.span) rest := getD_getLast?_cons _ _ _ _

/-- Once the comments of the next entry have begun nothing more is shared out. -/
theorem closeGap_led (led : closing.lead.isSome = true) (done : passed = true ∨ items.any Item.isComma = false) :
    closeGap text entry next passed closing items = closing := by
  induction items with
  | nil => rfl
  | cons item rest ih =>
    have other : ¬ (item.isComma && !passed) = true := by
      rcases done with rfl | none
      · simp
      · rw [List.any_cons, Bool.or_eq_false_iff] at none
        simp [none.1]
    have later : passed = true ∨ rest.any Item.isComma = false := by
      refine done.imp_right fun none => ?_
      rw [List.any_cons, Bool.or_eq_false_iff] at none
      exact none.2
    by_cases comment : item.isComment = true
    · obtain ⟨joins, _, step⟩ := @closeGap_comment text entry next _ closing _ _ other comment
      rw [step, if_pos led]
      exact ih later
    · rw [closeGap_skips other comment]
      exact ih later

/-- Commas and comments behind an entry, of which at most one is a comma, are shared out at one point: those before it are
    the entry's, and those behind it belong to what follows. -/
theorem closeGap_splits (ordered : Ordered start stop (items.map Item.span)) (low : closing.tailEnd ≤ start)
    (unled : closing.lead = none) (counts : ∀ item ∈ items, item.counts = true)
    (single : items.countP Item.isComma + passed.toNat ≤ 1) :
    ∃ own more, items = own ++ more ∧ more.any Item.isComma = false ∧
      closeGap text entry next passed closing items =
        ⟨((own.find? Item.isComma).map Item.span).or closing.comma, reach closing.tailEnd own,
          lineEnd text closing.lineComment own, more.head?.map (·.span.start)⟩ := by
  induction items generalizing passed closing start with
  | nil =>
    obtain ⟨comma, tailEnd, line, lead⟩ := closing
    obtain rfl : lead = none := unled
    exact ⟨[], [], rfl, rfl, rfl⟩
  | cons item rest ih =>
    obtain ⟨before, inside, behind⟩ := ordered
    obtain ⟨here, others⟩ := List.forall_mem_cons.mp counts
    have low' : closing.tailEnd ≤ item.span.stop := Nat.le_trans (Nat.le_trans low before) inside
    by_cases comma : item.isComma = true
    · rw [List.countP_cons_of_pos comma] at single
      have fresh : passed = false := by
        cases passed
        · rfl
        · simp at single
      have takes : (item.isComma && !passed) = true := by rw [comma, fresh]; rfl
      have tail : max closing.tailEnd item.span.stop = item.span.stop := Nat.max_eq_right low'
      have none : rest.countP Item.isComma = 0 := by omega
      obtain ⟨own, more, rfl, bare, is⟩ := @ih true ⟨some item.span, item.span.stop, false, closing.lead⟩ _ behind
        (Nat.le_refl _) unled others (by simp [none])
      have alone : own.find? Item.isComma = .none := by
        rw [List.countP_append] at none
        exact List.find?_eq_none.mpr (List.countP_eq_zero.mp (by omega))
      have plain : Outline.isLineComment text item.kind item.span = false := by
        rw [show item.kind = "," from beq_iff_eq.mp comma]
        rfl
      refine ⟨item :: own, more, rfl, bare, ?_⟩
      rw [closeGap_takes takes, tail, is, reach_cons, lineEnd_cons, plain, alone, List.find?_cons_of_pos comma]
      rfl
    · have comment : item.isComment = true := by
        rw [Item.counts, Bool.or_eq_true] at here
        exact here.resolve_left comma
      rw [List.countP_cons_of_neg comma] at single
      have other : ¬ (item.isComma && !passed) = true := by simp [comma]
      obtain ⟨joins, apart, step⟩ := @closeGap_comment text entry next _ closing _ _ other comment
      rw [step, if_neg (by simp [unled])]
      cases joins with
      | true =>
        have line : ['/', '/'].isPrefixOf (slice text item.span.start item.span.stop) =
            Outline.isLineComment text item.kind item.span := by
          rw [Outline.isLineComment, show (Role.ofKind item.kind == .comment) = true from comment, Bool.true_and]
        obtain ⟨own, more, rfl, bare, is⟩ := @ih passed ⟨closing.comma, item.span.stop,
          Outline.isLineComment text item.kind item.span, closing.lead⟩ _ behind (Nat.le_refl _) unled others single
        refine ⟨item :: own, more, rfl, bare, ?_⟩
        rw [if_pos rfl, line, is, reach_cons, lineEnd_cons, List.find?_cons_of_neg comma]
      | false =>
        have none : rest.any Item.isComma = false := by
          rcases apart rfl with rfl | none
          · have none : rest.countP Item.isComma = 0 := by simpa using single
            simpa [List.countP_eq_zero] using none
          · exact none
        refine ⟨[], item :: rest, rfl, by simp [comma, none], ?_⟩
        rw [if_neg Bool.false_ne_true, closeGap_led rfl (.inr none)]
        rfl

/-! ## Stretches -/

/-- A text is that of a comment of one of the two forms, from its first character to its last. -/
def IsComment (text : List Char) : Prop :=
  (['/', '/'] <+: text ∧ '\n' ∉ text) ∨
    (['/', '*'] <+: text ∧ ['*', '/'] <:+ text.drop 2 ∧ ¬ ['*', '/'] <:+: (text.drop 2).dropLast.dropLast)

instance (text : List Char) : Decidable (IsComment text) := inferInstanceAs (Decidable ((_ ∧ _) ∨ (_ ∧ _ ∧ _)))

theorem IsComment.filler (is : IsComment text) :
    ∃ filler : Filler, filler.IsWhole ∧ filler.text = text ∧ filler.isLine = ['/', '/'].isPrefixOf text := by
  rcases is with ⟨⟨content, rfl⟩, none⟩ | ⟨⟨rest, rfl⟩, ends, none⟩
  · refine ⟨.line content, ?_, rfl, rfl⟩
    exact fun member => none (List.mem_append_right _ member)
  · obtain ⟨content, is⟩ := ends
    obtain rfl : content ++ ['*', '/'] = rest := is
    refine ⟨.block content, ?_, by simp [Filler.text], rfl⟩
    simpa [Filler.IsWhole] using none

/-- Commas and comments follow one another from one position of a text to another, with only blanks between them and a line
    feed behind each line comment; `line` tells whether one stands before them. -/
def Strewn (text : List Char) (stop : Nat) : Bool → Nat → List Item → Prop
  | line, start, [] =>
    start ≤ stop ∧ (∀ c ∈ slice text start stop, isBlank c = true) ∧ (line = true → '\n' ∈ slice text start stop)
  | line, start, item :: rest =>
    (start ≤ item.span.start ∧ item.span.start ≤ item.span.stop) ∧
      (∀ c ∈ slice text start item.span.start, isBlank c = true) ∧
      (line = true → '\n' ∈ slice text start item.span.start) ∧
      (item.isComma = true ∧ slice text item.span.start item.span.stop = [','] ∨
        item.isComment = true ∧ IsComment (slice text item.span.start item.span.stop)) ∧
      Strewn text stop (Outline.isLineComment text item.kind item.span) item.span.stop rest

/-- The commas among some items, as they are read. -/
def commas (items : List Item) : List Solid := (items.filter Item.isComma).map fun _ => .comma

theorem Item.comma_plain {item : Item} (comma : item.isComma = true) :
    Outline.isLineComment text item.kind item.span = false := by
  rw [show item.kind = "," from beq_iff_eq.mp comma]
  rfl

theorem Item.comment_line {item : Item} (comment : item.isComment = true) :
    Outline.isLineComment text item.kind item.span = ['/', '/'].isPrefixOf (slice text item.span.start item.span.stop) := by
  rw [Outline.isLineComment, show (Role.ofKind item.kind == .comment) = true from comment, Bool.true_and]

namespace Strewn
variable {line : Bool} {own more : List Item}

theorem le (strewn : Strewn text stop line start items) : start ≤ reach start items ∧ reach start items ≤ stop := by
  induction items generalizing start line with
  | nil => exact ⟨Nat.le_refl _, strewn.1⟩
  | cons item rest ih =>
    obtain ⟨⟨before, inside⟩, _, _, _, later⟩ := strewn
    have further := ih later
    rw [reach_cons]
    omega

theorem counts (strewn : Strewn text stop line start items) : ∀ item ∈ items, item.counts = true := by
  induction items generalizing start line with
  | nil => simp
  | cons item rest ih =>
    obtain ⟨_, _, _, is, later⟩ := strewn
    refine List.forall_mem_cons.mpr ⟨?_, ih later⟩
    rcases is with ⟨comma, _⟩ | ⟨comment, _⟩ <;> simp [Item.counts, *]

theorem ordered (strewn : Strewn text stop line start items) : Ordered start stop (items.map Item.span) := by
  induction items generalizing start line with
  | nil => exact strewn.1
  | cons item rest ih =>
    obtain ⟨lies, _, _, _, later⟩ := strewn
    exact ⟨lies.1, lies.2, ih later⟩

/-- Behind the last item stand blanks. -/
theorem blanks (strewn : Strewn text stop line start items) : ∀ c ∈ slice text (reach start items) stop, isBlank c = true := by
  induction items generalizing start line with
  | nil => exact strewn.2.1
  | cons item rest ih =>
    rw [reach_cons]
    exact ih strewn.2.2.2.2

/-- What stands behind the last item ends the line comment that it may be. -/
theorem ends (strewn : Strewn text stop line start items) :
    Scans (lineEnd text line items) [] (slice text (reach start items) stop) false := by
  induction items generalizing start line with
  | nil => exact .closing strewn.2.1 strewn.2.2
  | cons item rest ih =>
    rw [reach_cons, lineEnd_cons]
    exact ih strewn.2.2.2.2

/-- Items are read up to the end of the last one. -/
theorem reads (strewn : Strewn text stop line start items) :
    Scans line (commas items) (slice text start (reach start items)) (lineEnd text line items) := by
  induction items generalizing start line with
  | nil => simpa [commas, reach, lineEnd, Text.slice_self] using Scans.nil line
  | cons item rest ih =>
    obtain ⟨⟨before, inside⟩, blank, feed, is, later⟩ := strewn
    have blanks : Scans line [] (slice text start item.span.start) false := .closing blank feed
    have further := ih later
    rw [reach_cons, lineEnd_cons, ← Text.slice_append text before (Nat.le_trans inside later.le.1),
      ← Text.slice_append text inside later.le.1]
    rcases is with ⟨comma, written⟩ | ⟨comment, written⟩
    · rw [Item.comma_plain comma] at further ⊢
      rw [commas, List.filter_cons_of_pos comma, List.map_cons, written]
      exact blanks.append (.comma further)
    · have other : ¬ item.isComma = true := fun comma => by
        rw [Item.comma_not_comment comma] at comment
        cases comment
      obtain ⟨filler, whole, same, isLine⟩ := written.filler
      rw [Item.comment_line comment, ← isLine] at further ⊢
      rw [commas, List.filter_cons_of_neg other, ← same]
      exact blanks.append (.filler whole further)

/-- All that stands there is read, blanks included. -/
theorem whole (strewn : Strewn text stop line start items) : Scans line (commas items) (slice text start stop) false := by
  have both := strewn.reads.append strewn.ends
  rwa [List.append_nil, Text.slice_append text strewn.le.1 strewn.le.2] at both

/-- Items in front reach to where the others start. -/
theorem left (strewn : Strewn text stop line start (own ++ more)) : Strewn text (startOf stop more) line start own := by
  induction own generalizing start line with
  | nil =>
    cases more with
    | nil => exact strewn
    | cons item rest => exact ⟨strewn.1.1, strewn.2.1, strewn.2.2.1⟩
  | cons item rest ih =>
    obtain ⟨lies, blank, feed, is, later⟩ := strewn
    exact ⟨lies, blank, feed, is, ih later⟩

/-- Items behind others follow from where they start. -/
theorem right (strewn : Strewn text stop line start (own ++ more)) : Strewn text stop false (startOf stop more) more := by
  induction own generalizing start line with
  | nil =>
    cases more with
    | nil => simp [Strewn, startOf, Text.slice_self]
    | cons item rest =>
      obtain ⟨lies, _, _, is, later⟩ := strewn
      refine ⟨⟨Nat.le_refl _, lies.2⟩, fun c member => ?_, by simp, is, later⟩
      simp [startOf, Text.slice_self] at member
  | cons item rest ih => exact ih strewn.2.2.2.2

/-- What stands around one of some items is read without it. -/
theorem without {item : Item} {behind : List Item} (strewn : Strewn text stop line start (own ++ item :: behind))
    (plain : Outline.isLineComment text item.kind item.span = false) :
    Scans line (commas own ++ commas behind)
      (slice text start item.span.start ++ slice text item.span.stop (reach start (own ++ item :: behind)))
      (lineEnd text line (own ++ item :: behind)) := by
  have before := strewn.left.whole
  obtain ⟨_, _, _, _, later⟩ := strewn.right
  rw [plain] at later
  have split : reach start (own ++ item :: behind) = reach item.span.stop behind ∧
      lineEnd text line (own ++ item :: behind) = lineEnd text false behind := by
    clear before later strewn
    induction own generalizing start line with
    | nil => rw [List.nil_append, reach_cons, lineEnd_cons, plain]; exact ⟨rfl, rfl⟩
    | cons first rest ih => rw [List.cons_append, reach_cons, lineEnd_cons]; exact ih
  rw [split.1, split.2]
  exact before.append later.reads

end Strewn

/-! ## Slots -/

/-- What goes with an entry is read by itself: the comments above it, and what stands behind it, with or without the comma. -/
structure Slot.Scanned (text : List Char) (slot : Slot) : Prop where
  lead : Scans false [] (slice text slot.begins slot.span.start) false
  tail : Scans false (if slot.comma.isSome then [.comma] else []) (slice text slot.span.stop slot.tailEnd) slot.lineComment
  bare : ∀ comma ∈ slot.comma,
    Scans false [] (slice text slot.span.stop comma.start ++ slice text comma.stop slot.tailEnd) slot.lineComment

/-- What stands behind an entry up to some position is shared out between the entry and what follows. -/
structure Closing.Scanned (text : List Char) (entry : Span) (stop : Nat) (closing : Closing) : Prop where
  tail : Scans false (if closing.comma.isSome then [.comma] else []) (slice text entry.stop closing.tailEnd) closing.lineComment
  bare : ∀ comma ∈ closing.comma,
    Scans false [] (slice text entry.stop comma.start ++ slice text comma.stop closing.tailEnd) closing.lineComment
  blank : ∀ c ∈ slice text closing.tailEnd (closing.lead.getD stop), isBlank c = true
  lead : Scans false [] (slice text (closing.lead.getD stop) stop) false
  after : Scans false [] (slice text closing.tailEnd stop) false

theorem commas_none (none : items.any Item.isComma = false) : commas items = [] := by
  rw [commas, List.map_eq_nil_iff, List.filter_eq_nil_iff]
  simpa using none

/-- One comma among some items, or none. -/
theorem commas_single (single : items.countP Item.isComma ≤ 1) :
    (commas items = [] ∧ items.find? Item.isComma = none) ∨
      ∃ before comma behind, items = before ++ comma :: behind ∧ comma.isComma = true ∧ commas before = [] ∧
        commas behind = [] ∧ commas items = [.comma] ∧ items.find? Item.isComma = some comma := by
  cases any : items.any Item.isComma with
  | false => exact .inl ⟨commas_none any, by simpa [List.find?_eq_none] using any⟩
  | true =>
    obtain ⟨before, comma, behind, rfl, early, is⟩ := split_comma any
    rw [List.countP_append, List.countP_cons_of_pos is] at single
    have late : behind.any Item.isComma = false := by
      have none : behind.countP Item.isComma = 0 := by omega
      simpa [List.countP_eq_zero] using none
    have front := commas_none early
    have back := commas_none late
    refine .inr ⟨before, comma, behind, rfl, is, front, back, ?_, ?_⟩
    · rw [commas, List.filter_append, List.map_append, List.filter_cons_of_pos is]
      exact congrArg₂ (· ++ .comma :: ·) front back
    · have none : before.find? Item.isComma = none := by simpa [List.find?_eq_none] using early
      rw [List.find?_append, none, Option.none_or, List.find?_cons_of_pos is]

theorem gapClosing_scanned {gap : List Item} (strewn : Strewn text stop false entry.stop gap)
    (single : gap.countP Item.isComma ≤ 1) : (gapClosing text entry next gap).Scanned text entry stop := by
  obtain ⟨own, more, rfl, none, is⟩ := @closeGap_splits text entry next false ⟨.none, entry.stop, false, .none⟩ _ _ _
    strewn.ordered (Nat.le_refl _) rfl strewn.counts (by simpa using single)
  rw [List.countP_append] at single
  have front := strewn.left
  have rest := strewn.right.whole
  rw [commas_none none] at rest
  rw [gapClosing, is, Option.or_none]
  refine ⟨?tail, ?bare, front.blanks, rest, ?after⟩
  case tail =>
    have reads := front.reads
    rcases commas_single (show own.countP Item.isComma ≤ 1 by omega) with
      ⟨all, found⟩ | ⟨_, _, _, _, _, _, _, all, found⟩ <;> rw [all] at reads <;> simpa [found] using reads
  case bare =>
    rcases commas_single (show own.countP Item.isComma ≤ 1 by omega) with
      ⟨_, found⟩ | ⟨before, comma, behind, rfl, isComma, early, late, _, found⟩
    · simp [found]
    · have others := front.without (Item.comma_plain isComma)
      rw [early, late] at others
      simpa [found] using others
  case after =>
    have between : Scans false [] (slice text (reach entry.stop own) (startOf stop more)) false :=
      .closing front.blanks (by simp)
    have both := between.append rest
    rwa [Text.slice_append text front.le.2 strewn.right.ordered.le] at both

/-- Entries, each with what stands between it and the next one. -/
def Woven (text : List Char) (stop : Nat) : List (Item × List Item) → Prop
  | [] => True
  | (entry, gap) :: rest =>
    Strewn text (groupsAt stop rest) false entry.span.stop gap ∧ gap.countP Item.isComma ≤ 1 ∧ Woven text stop rest

theorem slotsOf_scanned {groups : List (Item × List Item)} {lead : Option Nat} (woven : Woven text stop groups)
    (led : ∀ group ∈ groups.head?, Scans false [] (slice text (lead.getD group.1.span.start) group.1.span.start) false) :
    (∀ slot ∈ slotsOf text lead groups, slot.Scanned text) ∧
      (slotsOf text lead groups).IsChain (fun slot next => ∀ c ∈ slice text slot.tailEnd next.begins, isBlank c = true) ∧
      ∀ slot ∈ (slotsOf text lead groups).getLast?, Scans false [] (slice text slot.tailEnd stop) false := by
  induction groups generalizing lead with
  | nil => exact ⟨by simp [slotsOf], by simp [slotsOf], by simp [slotsOf]⟩
  | cons group rest ih =>
    obtain ⟨entry, gap⟩ := group
    obtain ⟨strewn, single, later⟩ := woven
    have scanned := @gapClosing_scanned text entry.span (rest.head?.map fun group => group.1.span.start) _ _ strewn single
    have led' : ∀ group ∈ rest.head?, Scans false [] (slice text ((gapClosing text entry.span
        (rest.head?.map fun group => group.1.span.start) gap).lead.getD group.1.span.start) group.1.span.start) false := by
      intro group first
      have starts : groupsAt stop rest = group.1.span.start := by rw [groupsAt, Option.mem_def.mp first]; rfl
      exact starts ▸ scanned.lead
    obtain ⟨slots, chain, last⟩ := ih later led'
    refine ⟨?_, ?_, ?_⟩
    · refine List.forall_mem_cons.mpr ⟨⟨led (entry, gap) rfl, scanned.tail, scanned.bare⟩, slots⟩
    · cases rest with
      | nil => exact .singleton _
      | cons second others => exact .cons_cons scanned.blank chain
    · cases rest with
      | nil =>
        rintro _ ⟨⟩
        exact scanned.after
      | cons second others => exact last

/-! ## Literals -/

namespace Syntax.Outline

/-- Whether parts of a text from one position to another are entries and commas that take turns, and comments, with only
    blanks between them and a line feed behind each line comment. `line` tells whether one stands before them, and
    `entered` whether an entry does that no comma follows. -/
def isRead (text : List Char) (stop : Nat) : Nat → Bool → Bool → Outline → Bool
  | start, line, _, [] => (slice text start stop).all isBlank && (!line || (slice text start stop).contains '\n')
  | start, line, entered, (kind, span) :: rest =>
    (slice text start span.start).all isBlank && (!line || (slice text start span.start).contains '\n') &&
      if (Role.ofKind kind).isEntry then !entered && isRead text stop span.stop false true rest
      else if kind == "," then
        entered && slice text span.start span.stop == [','] && isRead text stop span.stop false false rest
      else Role.ofKind kind == .comment && decide (IsComment (slice text span.start span.stop)) &&
        isRead text stop span.stop (isLineComment text kind span) entered rest

/-- Whether children are written as they are, and those of an object literal are two braces with what may stand between
    them. -/
def Lexed (text : List Char) (kind : String) (span : Span) (outline : Outline) : Prop :=
  Exact text kind span outline ∧ (Role.ofKind kind = .object → ∀ opening ∈ outline.head?, ∀ closing ∈ outline.getLast?,
    isRead text closing.2.start opening.2.stop false false outline.tail.dropLast = true)

instance (text : List Char) (kind : String) (span : Span) (outline : Outline) : Decidable (Lexed text kind span outline) :=
  inferInstanceAs (Decidable (_ ∧ (_ → ∀ opening ∈ outline.head?, ∀ closing ∈ outline.getLast?, _ = true)))

end Syntax.Outline

/-- Parts that can be read are comments above the first entry, and entries with commas and comments behind each. -/
theorem woven_of_isRead {line entered : Bool} (ordered : Ordered start stop (items.map Item.span))
    (read : Outline.isRead text stop start line entered (items.map Item.part) = true) :
    Strewn text (groupsAt stop (groupItems items).2) line start (groupItems items).1 ∧
      (groupItems items).1.countP Item.isComma ≤ entered.toNat ∧ Woven text stop (groupItems items).2 := by
  induction items generalizing start line entered with
  | nil =>
    simp only [List.map_nil, Outline.isRead, Bool.and_eq_true, List.all_eq_true] at read
    have feed : line = true → '\n' ∈ slice text start stop := fun is => by simpa [is] using read.2
    exact ⟨⟨ordered, read.1, feed⟩, Nat.zero_le _, trivial⟩
  | cons item rest ih =>
    obtain ⟨before, inside, behind⟩ := ordered
    simp only [List.map_cons, Item.part, Outline.isRead, Bool.and_eq_true, List.all_eq_true] at read
    obtain ⟨⟨blank, feed⟩, is⟩ := read
    have feed : line = true → '\n' ∈ slice text start item.span.start := fun line => by simpa [line] using feed
    by_cases entry : item.isEntry = true
    · rw [if_pos (show (Role.ofKind item.kind).isEntry = true from entry), Bool.and_eq_true] at is
      obtain ⟨strewn, single, woven⟩ := ih behind is.2
      have group : groupItems (item :: rest) = ([], (item, (groupItems rest).1) :: (groupItems rest).2) := by
        simp only [groupItems, if_pos entry]
      rw [group]
      exact ⟨⟨before, blank, feed⟩, Nat.zero_le _, strewn, single, woven⟩
    · have group : groupItems (item :: rest) = (item :: (groupItems rest).1, (groupItems rest).2) := by
        simp only [groupItems, if_neg entry]
      rw [if_neg (show ¬ (Role.ofKind item.kind).isEntry = true from entry)] at is
      rw [group]
      split at is
      next comma =>
        have isComma : item.isComma = true := comma
        simp only [Bool.and_eq_true, beq_iff_eq] at is
        obtain ⟨⟨rfl, written⟩, later⟩ := is
        obtain ⟨strewn, single, woven⟩ := ih behind later
        rw [← Item.comma_plain isComma] at strewn
        refine ⟨⟨⟨before, inside⟩, blank, feed, .inl ⟨isComma, written⟩, strewn⟩, ?_, woven⟩
        rw [List.countP_cons_of_pos isComma]
        exact Nat.succ_le_succ single
      next other =>
        simp only [Bool.and_eq_true, decide_eq_true_eq] at is
        obtain ⟨⟨comment, written⟩, later⟩ := is
        obtain ⟨strewn, single, woven⟩ := ih behind later
        refine ⟨⟨⟨before, inside⟩, blank, feed, .inr ⟨comment, written⟩, strewn⟩, ?_, woven⟩
        rwa [List.countP_cons_of_neg (show ¬ item.isComma = true from other)]

/-- What stands between the braces of a literal is read part by part. -/
structure Layout.Scanned (text : List Char) (layout : Layout) : Prop where
  inside : layout.openEnd ≤ layout.closeStart
  opening : slice text layout.span.start layout.openEnd = ['\x7b']
  closing : slice text layout.closeStart layout.span.stop = ['\x7d']
  before : Scans false [] (layout.before text) false
  slots : ∀ slot ∈ layout.slots, slot.Scanned text
  gaps : ∀ position, ∀ c ∈ layout.gapBefore text (position + 1), isBlank c = true
  after : Scans false [] (layout.after text) false

/-- Where what stands above the first entry and the entries with what stands behind them can be read, the literal can. -/
theorem Layout.scanned_of_woven {layout : Layout} {head : List Item} {groups : List (Item × List Item)}
    (slots : layout.slots = slotsOf text none groups) (inside : layout.openEnd ≤ layout.closeStart)
    (opening : slice text layout.span.start layout.openEnd = ['\x7b'])
    (closing : slice text layout.closeStart layout.span.stop = ['\x7d'])
    (strewn : Strewn text (groupsAt layout.closeStart groups) false layout.openEnd head) (bare : commas head = [])
    (woven : Woven text layout.closeStart groups) : layout.Scanned text := by
  have above := strewn.whole
  rw [bare] at above
  have led : ∀ group ∈ groups.head?,
      Scans false [] (slice text ((none : Option Nat).getD group.1.span.start) group.1.span.start) false := by
    intro group _
    rw [Option.getD_none, Text.slice_self]
    exact .nil false
  obtain ⟨each, chain, last⟩ := slotsOf_scanned woven led
  rw [← slots] at each chain last
  refine ⟨inside, opening, closing, ?before, each, fun position => ?gap, ?after⟩
  case before =>
    rw [Layout.before, slots]
    cases groups <;> exact above
  case gap =>
    simp only [Layout.gapBefore, Nat.add_sub_cancel]
    split
    next previous slot there here =>
      obtain ⟨_, rfl⟩ := List.getElem?_eq_some_iff.mp there
      obtain ⟨more, rfl⟩ := List.getElem?_eq_some_iff.mp here
      exact List.isChain_iff_getElem.mp chain position more
    next => simp
  case after =>
    rw [Layout.after]
    cases ended : layout.slots.getLast? with
    | some slot => exact last slot ended
    | none =>
      rw [List.getLast?_eq_none_iff, slots] at ended
      cases groups with
      | nil => exact above
      | cons group rest => cases ended

namespace Document
variable {doc : Document} {p : NodeId} {buffer : BufferId} {span : Span}

/-- A literal that was read from a text is read part by part in its layout. -/
theorem Laid.scanned (laid : doc.Laid Outline.Lexed) (parsed : (doc.node p).origin = .parsed buffer span)
    (object : doc.role p = .object) (parted : (doc.node p).firstChildren ≠ []) :
    (doc.layout p (doc.buffer buffer) span).Scanned (doc.buffer buffer) := by
  obtain ⟨outline, places, ⟨spelled, ends⟩, lexed⟩ := laid p buffer span parsed
  have read := lexed object
  obtain ⟨start, stop⟩ := ends object
  obtain ⟨opening, inner, closing, framed, _, _⟩ :=
    framed_of_places places spelled.1 (braced_of_places places parted (spelled.2.1 object))
  obtain ⟨rfl, _, _⟩ := parsedItems_of_places places
  have parts : (doc.parsedItems p).map Item.part = opening.part :: (inner.map Item.part ++ [closing.part]) := by
    simp [framed.split]
  have last : (opening.part :: (inner.map Item.part ++ [closing.part])).getLast? = some closing.part := by
    rw [← List.cons_append, List.getLast?_concat]
  rw [parts] at start stop read
  obtain ⟨starts, opened⟩ := start _ rfl
  obtain ⟨stops, closed⟩ := stop _ last
  have read := read _ rfl _ last
  rw [List.tail_cons, List.dropLast_concat] at read
  obtain ⟨strewn, bare, woven⟩ := woven_of_isRead framed.inside read
  rw [layout, framed.layout]
  refine Layout.scanned_of_woven rfl framed.inside.le (starts ▸ opened) (stops ▸ closed) strewn (commas_none ?_) woven
  simpa [List.countP_eq_zero] using bare

end Document

end StoreModels
