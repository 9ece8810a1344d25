import Mathlib.Data.List.Basic
import Mathlib.Data.List.Forall2
import StoreModels.Text.Lines
import StoreModels.Syntax.Tree

/-!
Splices: a stretch of a text in which some parts have been exchanged for other texts. The parts lie one after another;
all that stands between them is kept. A splice whose parts are splices themselves is one splice with the inner parts,
and a splice that exchanges every part for itself is the stretch as it was.
-/
namespace StoreModels.Text
open Syntax (Span)

/-! ## Slices -/

theorem slice_self (text : List Char) (a : Nat) : slice text a a = [] := by simp [slice]

theorem slice_empty (text : List Char) {a b : Nat} (le : b ≤ a) : slice text a b = [] := by
  simp [slice, Nat.sub_eq_zero_of_le le]

theorem slice_zero (text : List Char) (b : Nat) : slice text 0 b = text.take b := by
  rw [slice, List.drop_zero, Nat.sub_zero]

theorem slice_end (text : List Char) (a : Nat) : slice text a text.length = text.drop a := by
  rw [slice, List.take_of_length_le (by simp)]

theorem slice_append (text : List Char) {a b c : Nat} (first : a ≤ b) (second : b ≤ c) :
    slice text a b ++ slice text b c = slice text a c := by
  have whole : c - a = (b - a) + (c - b) := by omega
  have start : b = a + (b - a) := by omega
  simp only [slice]
  rw [whole, List.take_add, List.drop_drop, ← start]

/-- A character of a slice is one of every wider slice. -/
theorem mem_slice_mono {text : List Char} {x : Char} {a b a' b' : Nat} (low : a' ≤ a) (high : b ≤ b')
    (member : x ∈ slice text a b) : x ∈ slice text a' b' := by
  by_cases empty : b ≤ a
  · rw [slice_empty text empty] at member
    cases member
  · rw [← slice_append text low (by omega : a ≤ b'), ← slice_append text (by omega : a ≤ b) high]
    simp [member]

theorem take_append_slice (text : List Char) {a b : Nat} (le : a ≤ b) : text.take a ++ slice text a b = text.take b := by
  rw [slice, ← List.take_add, Nat.add_sub_cancel' le]

theorem slice_append_drop (text : List Char) {a b : Nat} (le : a ≤ b) : slice text a b ++ text.drop b = text.drop a := by
  rw [slice, ← Nat.add_sub_cancel' le, ← List.drop_drop, Nat.add_sub_cancel_left, List.take_append_drop]

theorem take_slice_drop (text : List Char) {a b : Nat} (le : a ≤ b) :
    text.take a ++ slice text a b ++ text.drop b = text := by
  rw [take_append_slice text le, List.take_append_drop]

/-! ## Splices -/

/-- A part of a text and what stands in its place. -/
abbrev Exchange := Span × List Char

/-- Whether parts lie one after another between two positions. -/
def Ordered (start stop : Nat) : List Span → Prop
  | [] => start ≤ stop
  | span :: rest => start ≤ span.start ∧ span.start ≤ span.stop ∧ Ordered span.stop stop rest

instance Ordered.decidable (start stop : Nat) : (spans : List Span) → Decidable (Ordered start stop spans)
  | [] => inferInstanceAs (Decidable (start ≤ stop))
  | span :: rest =>
    have := Ordered.decidable span.stop stop rest
    inferInstanceAs (Decidable (start ≤ span.start ∧ span.start ≤ span.stop ∧ Ordered span.stop stop rest))

/-- The text from a position up to `stop` with some of its parts exchanged. -/
def splice (text : List Char) (stop : Nat) : Nat → List Exchange → List Char
  | start, [] => slice text start stop
  | start, (span, new) :: rest => slice text start span.start ++ new ++ splice text stop span.stop rest

theorem Ordered.le {start stop : Nat} {spans : List Span} (ordered : Ordered start stop spans) : start ≤ stop := by
  induction spans generalizing start with
  | nil => exact ordered
  | cons span rest ih =>
    obtain ⟨before, inside, after⟩ := ordered
    have := ih after
    omega

theorem Ordered.mono {start start' stop : Nat} {spans : List Span} (low : start' ≤ start)
    (ordered : Ordered start stop spans) : Ordered start' stop spans := by
  cases spans with
  | nil => exact Nat.le_trans low ordered
  | cons span rest => exact ⟨Nat.le_trans low ordered.1, ordered.2⟩

theorem Ordered.append {start middle stop : Nat} {first second : List Span} (left : Ordered start middle first)
    (right : Ordered middle stop second) : Ordered start stop (first ++ second) := by
  induction first generalizing start with
  | nil => exact right.mono left
  | cons span rest ih => exact ⟨left.1, left.2.1, ih left.2.2⟩

/-- Some of the parts still lie one after another. -/
theorem Ordered.sublist {start stop : Nat} {spans some : List Span} (sub : some.Sublist spans)
    (ordered : Ordered start stop spans) : Ordered start stop some := by
  induction sub generalizing start with
  | slnil => exact ordered
  | cons span _ ih => exact (ih ordered.2.2).mono (by have := ordered.1; have := ordered.2.1; omega)
  | cons_cons span _ ih => exact ⟨ordered.1, ordered.2.1, ih ordered.2.2⟩

theorem Ordered.mem {start stop : Nat} {spans : List Span} (ordered : Ordered start stop spans) {span : Span}
    (member : span ∈ spans) : start ≤ span.start ∧ span.start ≤ span.stop ∧ span.stop ≤ stop := by
  induction spans generalizing start with
  | nil => cases member
  | cons first rest ih =>
    obtain ⟨before, inside, after⟩ := ordered
    rcases List.mem_cons.mp member with rfl | later
    · exact ⟨before, inside, after.le⟩
    · obtain ⟨low, mid, high⟩ := ih after later
      exact ⟨by omega, mid, high⟩

/-- Parts before others end where the first of these starts. -/
theorem Ordered.split {start stop : Nat} {first second : List Span} (ordered : Ordered start stop (first ++ second)) :
    Ordered start ((second.head?.map Span.start).getD stop) first ∧
      Ordered ((second.head?.map Span.start).getD stop) stop second := by
  induction first generalizing start with
  | nil =>
    cases second with
    | nil => exact ⟨ordered, Nat.le_refl _⟩
    | cons span rest => exact ⟨ordered.1, Nat.le_refl _, ordered.2⟩
  | cons span rest ih => exact ⟨⟨ordered.1, ordered.2.1, (ih ordered.2.2).1⟩, (ih ordered.2.2).2⟩

/-- What stands before a splice can be taken into it. -/
theorem slice_append_splice (text : List Char) {start middle stop : Nat} {parts : List Exchange} (le : start ≤ middle)
    (ordered : Ordered middle stop (parts.map Prod.fst)) :
    slice text start middle ++ splice text stop middle parts = splice text stop start parts := by
  cases parts with
  | nil => exact slice_append text le ordered
  | cons part rest =>
    obtain ⟨span, new⟩ := part
    simp only [splice]
    rw [← List.append_assoc, ← List.append_assoc, slice_append text le ordered.1]

/-- Two splices one behind the other are one. -/
theorem splice_append (text : List Char) {start middle stop : Nat} {first second : List Exchange}
    (left : Ordered start middle (first.map Prod.fst)) (right : Ordered middle stop (second.map Prod.fst)) :
    splice text middle start first ++ splice text stop middle second = splice text stop start (first ++ second) := by
  induction first generalizing start with
  | nil => exact slice_append_splice text left right
  | cons part rest ih =>
    obtain ⟨span, new⟩ := part
    simp only [splice, List.cons_append]
    rw [List.append_assoc, ih left.2.2]

/-- A splice that exchanges every part for itself is the stretch as it was. -/
theorem splice_verbatim (text : List Char) {start stop : Nat} {parts : List Exchange}
    (ordered : Ordered start stop (parts.map Prod.fst))
    (same : ∀ part ∈ parts, part.2 = slice text part.1.start part.1.stop) :
    splice text stop start parts = slice text start stop := by
  induction parts generalizing start with
  | nil => rfl
  | cons part rest ih =>
    obtain ⟨span, new⟩ := part
    obtain ⟨before, inside, after⟩ := ordered
    have here : new = slice text span.start span.stop := same (span, new) (by simp)
    have there := ih after (fun part member => same part (by simp [member]))
    have stops : span.stop ≤ stop := Ordered.le after
    have starts : span.start ≤ stop := Nat.le_trans inside stops
    simp only [splice]
    rw [there, here, List.append_assoc, slice_append text inside stops, slice_append text before starts]

/-- A splice of one part alone. -/
theorem splice_whole (text : List Char) (span : Span) (new : List Char) :
    splice text span.stop span.start [(span, new)] = new := by
  simp [splice, slice_self]

/-- A text with a stretch of it exchanged for a splice is a splice of the text. -/
theorem take_splice_drop (text : List Char) {start stop : Nat} {parts : List Exchange}
    (ordered : Ordered start stop (parts.map Prod.fst)) (inside : stop ≤ text.length) :
    Ordered 0 text.length (parts.map Prod.fst) ∧
      text.take start ++ splice text stop start parts ++ text.drop stop = splice text text.length 0 parts := by
  have wide : Ordered 0 stop (parts.map Prod.fst) := ordered.mono (Nat.zero_le _)
  have behind : Ordered stop text.length (([] : List Exchange).map Prod.fst) := inside
  have whole := splice_append text wide behind
  have head : text.take start = slice text 0 start := by simp [slice]
  have last : text.drop stop = splice text text.length stop [] := by
    rw [splice, slice, ← List.length_drop, List.take_length]
  refine ⟨by simpa using wide.append behind, ?_⟩
  rw [head, slice_append_splice text (Nat.zero_le _) ordered, last, whole, List.append_nil]

/-- A splice whose parts are splices themselves, of exchanges that belong to some keys, is one splice of the exchanges
    of all keys. -/
theorem splice_gathered (text : List Char) {α : Type} {P : α → Exchange → Prop} {start stop : Nat} {keys : List α}
    {parts : List Exchange} (ordered : Ordered start stop (parts.map Prod.fst))
    (inner : List.Forall₂ (fun key part => ∃ exchanges, Ordered part.1.start part.1.stop (exchanges.map Prod.fst) ∧
      part.2 = splice text part.1.stop part.1.start exchanges ∧ ∀ exchange, exchange ∈ exchanges ↔ P key exchange)
      keys parts) :
    ∃ exchanges, Ordered start stop (exchanges.map Prod.fst) ∧
      splice text stop start parts = splice text stop start exchanges ∧
      ∀ exchange, exchange ∈ exchanges ↔ ∃ key ∈ keys, P key exchange := by
  induction inner generalizing start with
  | nil => exact ⟨[], ordered, rfl, by simp⟩
  | @cons key part keys rest here _ ih =>
    obtain ⟨span, new⟩ := part
    obtain ⟨before, inside, after⟩ := ordered
    obtain ⟨here, hereOrdered, hereIs, hereAll⟩ := here
    obtain ⟨later, laterOrdered, laterIs, laterAll⟩ := ih after
    have wide : Ordered start span.stop (here.map Prod.fst) := hereOrdered.mono before
    refine ⟨here ++ later, ?_, ?_, fun exchange => ?_⟩
    · rw [List.map_append]
      exact wide.append laterOrdered
    · simp only at hereIs
      simp only [splice]
      rw [laterIs, hereIs, slice_append_splice text before hereOrdered, splice_append text wide laterOrdered]
    · rw [List.mem_append, hereAll, laterAll, List.exists_mem_cons_iff]

/-- A splice whose parts are splices themselves is one splice with the inner parts. -/
theorem splice_nested (text : List Char) {P : Exchange → Prop} {start stop : Nat} {parts : List Exchange}
    (ordered : Ordered start stop (parts.map Prod.fst))
    (inner : ∀ part ∈ parts, ∃ exchanges, Ordered part.1.start part.1.stop (exchanges.map Prod.fst) ∧
      part.2 = splice text part.1.stop part.1.start exchanges ∧ ∀ exchange ∈ exchanges, P exchange) :
    ∃ exchanges, Ordered start stop (exchanges.map Prod.fst) ∧
      splice text stop start parts = splice text stop start exchanges ∧ ∀ exchange ∈ exchanges, P exchange := by
  choose each eachOrdered eachIs eachAll using inner
  -- Every part is the key of the exchanges that were chosen for it.
  obtain ⟨exchanges, all, is, gathered⟩ := splice_gathered text
    (P := fun part exchange => ∃ member : part ∈ parts, exchange ∈ each part member) ordered
    (List.forall₂_same.mpr fun part member => ⟨each part member, eachOrdered part member, eachIs part member,
      fun exchange => ⟨fun listed => ⟨member, listed⟩, fun ⟨_, listed⟩ => listed⟩⟩)
  refine ⟨exchanges, all, is, fun exchange listed => ?_⟩
  obtain ⟨part, _, member, among⟩ := (gathered exchange).mp listed
  exact eachAll part member exchange among

/-! ## What exchanges leave -/

/-- Whether a part of a text stays where other parts are exchanged: none of these reaches into it. -/
def stays (exchanges : List Exchange) (part : Span) : Bool :=
  exchanges.all fun exchange => decide (part.stop ≤ exchange.1.start) || decide (exchange.1.stop ≤ part.start)

/-- Whether a part of a text goes where other parts are exchanged: it lies in one of these. -/
def goes (exchanges : List Exchange) (part : Span) : Bool :=
  exchanges.any fun exchange => decide (exchange.1.start ≤ part.start) && decide (part.stop ≤ exchange.1.stop)

@[simp] theorem stays_nil (part : Span) : stays [] part = true := rfl

@[simp] theorem stays_append (first second : List Exchange) (part : Span) :
    stays (first ++ second) part = (stays first part && stays second part) := List.all_append

theorem Ordered.stays_before {start stop : Nat} {exchanges : List Exchange} {part : Span}
    (ordered : Ordered start stop (exchanges.map Prod.fst)) (before : part.stop ≤ start) : stays exchanges part = true := by
  refine List.all_eq_true.mpr fun exchange member => ?_
  have low := (ordered.mem (List.mem_map_of_mem member)).1
  simp only [Bool.or_eq_true, decide_eq_true_eq]
  omega

theorem Ordered.stays_behind {start stop : Nat} {exchanges : List Exchange} {part : Span}
    (ordered : Ordered start stop (exchanges.map Prod.fst)) (behind : stop ≤ part.start) : stays exchanges part = true := by
  refine List.all_eq_true.mpr fun exchange member => ?_
  have high := (ordered.mem (List.mem_map_of_mem member)).2.2
  simp only [Bool.or_eq_true, decide_eq_true_eq]
  omega

/-- A part that stays is shown where it is, with what comes before it and behind it exchanged on its own. -/
theorem splice_around (text : List Char) {start stop : Nat} {exchanges : List Exchange} {part : Span}
    (ordered : Ordered start stop (exchanges.map Prod.fst)) (low : start ≤ part.start) (inside : part.start ≤ part.stop)
    (high : part.stop ≤ stop) (still : stays exchanges part = true) :
    ∃ before behind, exchanges = before ++ behind ∧ Ordered start part.start (before.map Prod.fst) ∧
      Ordered part.stop stop (behind.map Prod.fst) ∧ splice text stop start exchanges =
        splice text part.start start before ++ slice text part.start part.stop ++ splice text stop part.stop behind := by
  induction exchanges generalizing start with
  | nil =>
    refine ⟨[], [], rfl, low, high, ?_⟩
    simp only [splice]
    rw [slice_append text low inside, slice_append text (Nat.le_trans low inside) high]
  | cons exchange rest ih =>
    obtain ⟨place, new⟩ := exchange
    obtain ⟨before, wide, after⟩ := ordered
    simp only [stays, List.all_cons, Bool.and_eq_true, Bool.or_eq_true, decide_eq_true_eq] at still
    rcases still.1 with behind | ahead
    · have ordered : Ordered part.stop stop (((place, new) :: rest).map Prod.fst) := ⟨behind, wide, after⟩
      refine ⟨[], (place, new) :: rest, rfl, low, ordered, ?_⟩
      show _ = slice text start part.start ++ _ ++ _
      rw [List.append_assoc, slice_append_splice text inside ordered,
        slice_append_splice text low (ordered.mono inside)]
    · obtain ⟨early, late, rfl, orderedEarly, orderedLate, is⟩ := ih after ahead still.2
      refine ⟨(place, new) :: early, late, rfl, ⟨before, wide, orderedEarly⟩, orderedLate, ?_⟩
      simp only [splice, is, List.append_assoc]

/-- What goes and takes up some place does not stay. -/
theorem not_stays_of_goes {exchanges : List Exchange} {part : Span} (wide : part.start < part.stop)
    (gone : goes exchanges part = true) : stays exchanges part = false := by
  obtain ⟨exchange, member, inside⟩ := List.any_eq_true.mp gone
  simp only [Bool.and_eq_true, decide_eq_true_eq] at inside
  refine List.all_eq_false.mpr ⟨exchange, member, ?_⟩
  simp only [Bool.or_eq_true, decide_eq_true_eq]
  omega

end StoreModels.Text
