import Mathlib.Data.List.TakeWhile
import StoreModels.Proofs.Document.Owners
import StoreModels.Proofs.Document.Printing

/-!
Printing an object literal some of whose entries have gone. The literal is its text with some stretches exchanged for
blanks: each stretch reaches from the tail of an entry that stays to what separates the next one that does from the entry
before it, and so takes with it the entries in between and what goes with them. The last entry that stays loses its comma
where the literal had none behind its last entry.
-/
namespace StoreModels
open Syntax (Span Role)
open Text (slice splice Ordered Exchange)

/-! ## Layouts -/

theorem tailOf_congr {slots : List Slot} (some : slots ≠ []) (start start' : Nat) : tailOf start slots = tailOf start' slots := by
  cases slots with
  | nil => exact absurd rfl some
  | cons slot rest => rw [tailOf_cons, tailOf_cons]

theorem tailOf_split (start : Nat) (before behind : List Slot) (slot : Slot) :
    tailOf start (before ++ slot :: behind) = tailOf slot.tailEnd behind := by
  induction before generalizing start with
  | nil => exact tailOf_cons start slot behind
  | cons first before ih =>
    rw [List.cons_append, tailOf_cons]
    exact ih _

theorem Chained.of_split {stop : Nat} {before behind : List Slot} {slot : Slot}
    (chained : Chained stop (before ++ slot :: behind)) : slot.Lies (beginsAt stop behind) ∧ Chained stop behind := by
  induction before with
  | nil => exact chained
  | cons first before ih => exact ih chained.2

theorem Chained.tail_le {stop start : Nat} {slots : List Slot} (chained : Chained stop slots) (le : start ≤ beginsAt stop slots) :
    tailOf start slots ≤ stop := by
  induction slots generalizing start with
  | nil => exact le
  | cons slot rest ih =>
    rw [tailOf_cons]
    exact ih chained.2 chained.1.stops

/-- A layout whose slots lie in order between its braces. -/
structure Layout.Lined (layout : Layout) : Prop where
  opens : layout.span.start ≤ layout.openEnd
  starts : layout.openEnd ≤ beginsAt layout.closeStart layout.slots
  chained : Chained layout.closeStart layout.slots
  bare : ∀ slot ∈ layout.slots.head?, slot.lead = none
  closes : layout.closeStart ≤ layout.span.stop

theorem Layout.Lined.before_eq {text : List Char} {layout : Layout} (lined : layout.Lined) (some : layout.slots ≠ []) :
    layout.before text = slice text layout.openEnd (beginsAt layout.closeStart layout.slots) := by
  have bare := lined.bare
  cases slots : layout.slots with
  | nil => exact absurd slots some
  | cons slot rest =>
    have begins : slot.begins = slot.span.start := by
      rw [Slot.begins, bare slot (by simp [slots])]
      rfl
    simp [Layout.before, slots, beginsAt, begins]

namespace Document
variable {text : List Char} {stop : Nat}

/-! ## Stretches that give way -/

namespace Setting
variable (setting : Setting) (keeps : Slot → Bool)

/-- What gives way between an entry that stays, the last slot before the next one ending at `reach`, and that next one:
    the slots in between, and where a line comment would run on, also what separates the next one from them. -/
def bridge (last : Slot) (reach : Nat) (slot : Slot) : Exchange :=
  if last.lineComment && !(slice setting.text reach slot.begins).contains '\n' then
    (⟨last.tailEnd, slot.begins⟩, setting.lineBreak)
  else (⟨last.tailEnd, reach⟩, [])

/-- The comma of the last entry that stays gives way unless the last slot has one. -/
def dropped (last : Slot) : List Exchange :=
  if setting.wantsComma [] then [] else (last.comma.map fun comma => (comma, [])).toList

/-- What gives way behind an entry that stays, the slots before the rest ending at a position. -/
def thinned : Slot → Nat → List Slot → List Exchange
  | last, reach, [] => setting.dropped last ++ [(⟨last.tailEnd, reach⟩, [])]
  | last, reach, slot :: rest =>
    if keeps slot then setting.bridge last reach slot :: thinned slot slot.tailEnd rest
    else thinned last slot.tailEnd rest

/-- What gives way from the start of the first entry on. -/
def thinnedFrom (start : Nat) : List Slot → List Exchange
  | [] => []
  | slot :: rest =>
    if keeps slot then (⟨start, slot.begins⟩, []) :: setting.thinned keeps slot slot.tailEnd rest
    else thinnedFrom start rest

end Setting

/-- Whether the tail of the last entry that stays is a line comment. -/
def lineOfKept (keeps : Slot → Bool) : Bool → List Slot → Bool
  | line, [] => line
  | line, slot :: rest => lineOfKept keeps (if keeps slot then slot.lineComment else line) rest

/-- The blanks in front of what follows the last tail give way to a line break where a line comment would run on. -/
def brokenEnd (text : List Char) (line : Bool) (tail stop : Nat) (lineBreak : List Char) : List Exchange :=
  let after := slice text tail stop
  if line && !after.contains '\n' then [(⟨tail, tail + (after.takeWhile Text.isBlank).length⟩, lineBreak)] else []

/-- The entries that stay, with their positions. -/
def keptFrom (keeps : Slot → Bool) : Nat → List Slot → List (NodeId × Option Nat)
  | _, [] => []
  | position, slot :: rest =>
    if keeps slot then (slot.id, some position) :: keptFrom keeps (position + 1) rest else keptFrom keeps (position + 1) rest

/-! ## Their order -/

variable {setting : Setting} {keeps : Slot → Bool} {last slot : Slot} {rest before behind : List Slot} {reach start : Nat}

theorem bridge_within (le : reach ≤ slot.begins) :
    (setting.bridge last reach slot).1.start = last.tailEnd ∧ reach ≤ (setting.bridge last reach slot).1.stop ∧
      (setting.bridge last reach slot).1.stop ≤ slot.begins := by
  unfold Setting.bridge
  split
  · exact ⟨rfl, le, Nat.le_refl _⟩
  · exact ⟨rfl, Nat.le_refl _, le⟩

theorem ordered_dropped (lies : slot.Lies reach) :
    Ordered slot.span.stop slot.tailEnd ((setting.dropped slot).map Prod.fst) := by
  unfold Setting.dropped
  split
  · exact lies.tail
  · cases comma : slot.comma with
    | none => exact lies.tail
    | some span => exact lies.comma span comma

/-- The comma of the last entry that stays may give way first; the rest lies behind the tail of the first one. -/
theorem thinned_split (low : last.tailEnd ≤ reach) (le : reach ≤ beginsAt stop rest) (chained : Chained stop rest) :
    ∃ others, setting.thinned keeps last reach rest = (if rest.any keeps then [] else setting.dropped last) ++ others ∧
      Ordered last.tailEnd (tailOf reach rest) (others.map Prod.fst) := by
  induction rest generalizing last reach with
  | nil => exact ⟨_, rfl, Nat.le_refl _, low, Nat.le_refl _⟩
  | cons slot rest ih =>
    obtain ⟨lies, chained⟩ := chained
    have wide := lies.wide
    have le : reach ≤ slot.begins := le
    rw [tailOf_cons]
    cases kept : keeps slot with
    | true =>
      obtain ⟨others, split, ordered⟩ := ih (Nat.le_refl _) lies.stops chained
      obtain ⟨starts, _, ends⟩ := @bridge_within setting last slot reach le
      refine ⟨setting.bridge last reach slot :: setting.thinned keeps slot slot.tailEnd rest, by simp [Setting.thinned, kept],
        Nat.le_of_eq starts.symm, by omega, ?_⟩
      have own : Ordered slot.span.stop slot.tailEnd
          ((if rest.any keeps then [] else setting.dropped slot).map Prod.fst) := by
        split
        · exact lies.tail
        · exact ordered_dropped lies
      rw [split, List.map_append]
      have begins := lies.begins
      have inside := lies.inside
      exact (own.append ordered).mono (by omega)
    | false =>
      have low' : last.tailEnd ≤ slot.tailEnd := by omega
      simpa [Setting.thinned, kept] using ih low' lies.stops chained

theorem ordered_thinned (lies : last.Lies reach) (le : reach ≤ beginsAt stop rest) (chained : Chained stop rest) :
    Ordered last.span.stop (tailOf reach rest) ((setting.thinned keeps last reach rest).map Prod.fst) := by
  obtain ⟨others, split, ordered⟩ := @thinned_split _ setting keeps _ _ _ lies.stops le chained
  rw [split, List.map_append]
  refine @Ordered.append _ last.tailEnd _ _ _ ?_ ordered
  split
  · exact lies.tail
  · exact ordered_dropped lies

theorem ordered_thinnedFrom (le : start ≤ beginsAt stop rest) (chained : Chained stop rest) (some : rest.any keeps = true) :
    Ordered start (tailOf start rest) ((setting.thinnedFrom keeps start rest).map Prod.fst) := by
  induction rest with
  | nil => cases some
  | cons slot rest ih =>
    obtain ⟨lies, chained⟩ := chained
    have le : start ≤ slot.begins := le
    cases kept : keeps slot with
    | true =>
      simp only [Setting.thinnedFrom, kept, if_true, List.map_cons, tailOf_cons]
      refine ⟨Nat.le_refl _, le, ?_⟩
      have ordered := @ordered_thinned _ setting keeps _ _ _ { lies with stops := Nat.le_refl slot.tailEnd } lies.stops chained
      exact ordered.mono (Nat.le_trans lies.begins lies.inside)
    | false =>
      have some : rest.any keeps = true := by simpa [kept] using some
      have le' : start ≤ beginsAt stop rest := Nat.le_trans le (Nat.le_trans lies.wide lies.stops)
      have ordered := ih le' chained some
      cases rest with
      | nil => cases some
      | cons second others => simpa [Setting.thinnedFrom, kept, tailOf_cons] using ordered

/-! ## What stays and what gives way -/

/-- What gives way before an entry that stays ends where that one begins. -/
theorem thinned_front (low : last.tailEnd ≤ reach) (le : reach ≤ beginsAt stop (before ++ slot :: behind))
    (chained : Chained stop (before ++ slot :: behind)) (kept : keeps slot = true) :
    ∃ front, setting.thinned keeps last reach (before ++ slot :: behind) =
        front ++ setting.thinned keeps slot slot.tailEnd behind ∧
      Ordered last.tailEnd slot.begins (front.map Prod.fst) := by
  induction before generalizing last reach with
  | nil =>
    have le : reach ≤ slot.begins := le
    obtain ⟨starts, more, ends⟩ := @bridge_within setting last slot reach le
    refine ⟨[setting.bridge last reach slot], by simp [Setting.thinned, kept], Nat.le_of_eq starts.symm, ?_, ends⟩
    omega
  | cons first before ih =>
    obtain ⟨lies, chained⟩ := chained
    have wide := lies.wide
    have le : reach ≤ first.begins := le
    cases kept' : keeps first with
    | true =>
      obtain ⟨front, split, ordered⟩ := ih (Nat.le_refl _) lies.stops chained
      obtain ⟨starts, more, ends⟩ := @bridge_within setting last first reach le
      refine ⟨setting.bridge last reach first :: front, by simp [Setting.thinned, kept', split],
        Nat.le_of_eq starts.symm, by omega, ordered.mono (by omega)⟩
    | false =>
      obtain ⟨front, split, ordered⟩ := @ih last first.tailEnd (by omega) lies.stops chained
      exact ⟨front, by simpa [Setting.thinned, kept'] using split, ordered⟩

theorem thinnedFrom_front (le : start ≤ beginsAt stop (before ++ slot :: behind))
    (chained : Chained stop (before ++ slot :: behind)) (kept : keeps slot = true) :
    ∃ front, setting.thinnedFrom keeps start (before ++ slot :: behind) =
        front ++ setting.thinned keeps slot slot.tailEnd behind ∧ Ordered start slot.begins (front.map Prod.fst) := by
  induction before with
  | nil => exact ⟨[(⟨start, slot.begins⟩, [])], by simp [Setting.thinnedFrom, kept], Nat.le_refl _, le, Nat.le_refl _⟩
  | cons first before ih =>
    obtain ⟨lies, chained⟩ := chained
    have wide := lies.wide
    have le : start ≤ first.begins := le
    cases kept' : keeps first with
    | true =>
      obtain ⟨front, split, ordered⟩ := @thinned_front _ setting keeps first _ _ _ _ (Nat.le_refl _) lies.stops chained kept
      refine ⟨(⟨start, first.begins⟩, []) :: front, by simp [Setting.thinnedFrom, kept', split], Nat.le_refl _, le,
        ordered.mono wide⟩
    | false =>
      obtain ⟨front, split, ordered⟩ := ih (Nat.le_trans le (Nat.le_trans wide lies.stops)) chained
      exact ⟨front, by simpa [Setting.thinnedFrom, kept'] using split, ordered⟩

/-- One stretch that gives way reaches from the tail of an entry that stays over all slots up to the next one that does. -/
theorem thinned_reaches (le : reach ≤ beginsAt stop rest) (chained : Chained stop rest) :
    ∃ e ∈ setting.thinned keeps last reach rest, e.1.start = last.tailEnd ∧ reach ≤ e.1.stop := by
  induction rest generalizing reach with
  | nil => exact ⟨(⟨last.tailEnd, reach⟩, []), by simp [Setting.thinned], rfl, Nat.le_refl _⟩
  | cons slot rest ih =>
    obtain ⟨lies, chained⟩ := chained
    have le : reach ≤ slot.begins := le
    cases kept : keeps slot with
    | true =>
      obtain ⟨starts, more, _⟩ := @bridge_within setting last slot reach le
      exact ⟨setting.bridge last reach slot, by simp [Setting.thinned, kept], starts, more⟩
    | false =>
      obtain ⟨e, member, starts, more⟩ := ih lies.stops chained
      exact ⟨e, by simpa [Setting.thinned, kept] using member, starts, Nat.le_trans le (Nat.le_trans lies.wide more)⟩

theorem thinnedFrom_reaches (chained : Chained stop rest) (some : rest.any keeps = true) :
    ∃ e ∈ setting.thinnedFrom keeps start rest, e.1.start = start ∧ beginsAt stop rest ≤ e.1.stop := by
  induction rest with
  | nil => cases some
  | cons slot rest ih =>
    obtain ⟨lies, chained⟩ := chained
    cases kept : keeps slot with
    | true => exact ⟨(⟨start, slot.begins⟩, []), by simp [Setting.thinnedFrom, kept], rfl, Nat.le_refl _⟩
    | false =>
      obtain ⟨e, member, starts, more⟩ := ih chained (by simpa [kept] using some)
      exact ⟨e, by simpa [Setting.thinnedFrom, kept] using member, starts,
        Nat.le_trans lies.wide (Nat.le_trans lies.stops more)⟩

/-- A slot whose entry goes lies in a stretch that gives way. -/
theorem thinned_covers (low : last.tailEnd ≤ reach) (le : reach ≤ beginsAt stop (before ++ slot :: behind))
    (chained : Chained stop (before ++ slot :: behind)) (gone : keeps slot = false) :
    ∃ e ∈ setting.thinned keeps last reach (before ++ slot :: behind), e.1.start ≤ slot.begins ∧ slot.tailEnd ≤ e.1.stop := by
  induction before generalizing last reach with
  | nil =>
    obtain ⟨lies, chained⟩ := chained
    have le : reach ≤ slot.begins := le
    obtain ⟨e, member, starts, more⟩ := @thinned_reaches _ setting keeps last _ _ lies.stops chained
    exact ⟨e, by simpa [Setting.thinned, gone] using member, by omega, more⟩
  | cons first before ih =>
    obtain ⟨lies, chained⟩ := chained
    have wide := lies.wide
    have le : reach ≤ first.begins := le
    cases kept : keeps first with
    | true =>
      obtain ⟨e, member, inside⟩ := ih (Nat.le_refl _) lies.stops chained
      exact ⟨e, by simp [Setting.thinned, kept, member], inside⟩
    | false =>
      obtain ⟨e, member, inside⟩ := @ih last first.tailEnd (by omega) lies.stops chained
      exact ⟨e, by simpa [Setting.thinned, kept] using member, inside⟩

theorem thinnedFrom_covers (le : start ≤ beginsAt stop (before ++ slot :: behind))
    (chained : Chained stop (before ++ slot :: behind)) (gone : keeps slot = false)
    (some : (before ++ slot :: behind).any keeps = true) :
    ∃ e ∈ setting.thinnedFrom keeps start (before ++ slot :: behind),
      e.1.start ≤ slot.begins ∧ slot.tailEnd ≤ e.1.stop := by
  induction before with
  | nil =>
    obtain ⟨lies, chained⟩ := chained
    obtain ⟨e, member, starts, more⟩ :=
      @thinnedFrom_reaches _ setting keeps _ start chained (by simpa [gone] using some)
    exact ⟨e, by simpa [Setting.thinnedFrom, gone] using member, by rw [starts]; exact le, Nat.le_trans lies.stops more⟩
  | cons first before ih =>
    obtain ⟨lies, chained⟩ := chained
    have le : start ≤ first.begins := le
    cases kept : keeps first with
    | true =>
      obtain ⟨e, member, inside⟩ := @thinned_covers _ setting keeps first _ _ _ _ (Nat.le_refl _) lies.stops chained gone
      exact ⟨e, by simp [Setting.thinnedFrom, kept, member], inside⟩
    | false =>
      obtain ⟨e, member, inside⟩ := ih (Nat.le_trans le (Nat.le_trans lies.wide lies.stops)) chained
        (by simpa [kept] using some)
      exact ⟨e, by simpa [Setting.thinnedFrom, kept] using member, inside⟩

/-! ## Printing -/

variable {doc : Document} {print : ChildPrinter}

theorem printTail_dropped (comma : last.comma = none → setting.wantsComma [] = false) :
    printTail setting.text (some last) (setting.wantsComma []) =
      splice setting.text reach last.span.stop (setting.dropped last ++ [(⟨last.tailEnd, reach⟩, [])]) := by
  cases wants : setting.wantsComma [] with
  | true =>
    have had : last.comma.isSome = true := by
      cases is : last.comma with
      | none =>
        rw [comma is] at wants
        cases wants
      | some _ => rfl
    rw [printTail_verbatim had.symm]
    simp [Setting.dropped, wants, splice, Text.slice_self]
  | false =>
    cases is : last.comma with
    | none =>
      rw [printTail_verbatim (by rw [is]; rfl)]
      simp [Setting.dropped, is, splice, Text.slice_self]
    | some span => simp [printTail, Setting.dropped, wants, is, splice, Text.slice_self]

/-- The entries that stay behind one that does print as the text with what gives way exchanged. -/
theorem printEntries_thinned {done : List Slot} {previous : Slot} {position : Option Nat}
    (all : setting.layout.slots = done ++ previous :: rest)
    (verbatim : ∀ slot ∈ setting.layout.slots, keeps slot = true →
      doc.printChild print slot.id setting.indent setting.buffer = slice setting.text slot.span.start slot.span.stop)
    (commas : ∀ front slot back, setting.layout.slots = front ++ slot :: back → slot.comma = none →
      setting.wantsComma [] = false ∧ back = [])
    (lies : last.Lies previous.tailEnd) (le : previous.tailEnd ≤ beginsAt stop rest) (chained : Chained stop rest)
    (comma : last.comma = none → setting.wantsComma [] = false ∧ rest = []) :
    printTail setting.text (some last) (setting.wantsComma (keptFrom keeps (done.length + 1) rest)) ++
        (doc.printEntries print setting false position last.lineComment (keptFrom keeps (done.length + 1) rest)).1 =
      splice setting.text (tailOf previous.tailEnd rest) last.span.stop
        (setting.thinned keeps last previous.tailEnd rest) ∧
    (doc.printEntries print setting false position last.lineComment (keptFrom keeps (done.length + 1) rest)).2 =
      lineOfKept keeps last.lineComment rest := by
  induction rest generalizing done previous last position with
  | nil =>
    refine ⟨?_, rfl⟩
    simp only [keptFrom, printEntries, List.append_nil]
    exact printTail_dropped fun none => (comma none).1
  | cons slot rest ih =>
    have all' : setting.layout.slots = (done ++ [previous]) ++ slot :: rest := by rw [all]; simp
    have count : (done ++ [previous]).length = done.length + 1 := by simp
    obtain ⟨here, chained⟩ := chained
    have le : previous.tailEnd ≤ slot.begins := le
    rw [tailOf_cons]
    cases kept : keeps slot with
    | false =>
      have lies' : last.Lies slot.tailEnd :=
        { lies with stops := Nat.le_trans lies.stops (Nat.le_trans le here.wide) }
      have later := @ih last (done ++ [previous]) slot position all' lies' here.stops chained fun none => by
        cases (comma none).2
      rw [count] at later
      simpa [keptFrom, kept, Setting.thinned, lineOfKept] using later
    | true =>
      have later := @ih slot (done ++ [previous]) slot (some (done.length + 1)) all'
        { here with stops := Nat.le_refl _ } here.stops chained (commas _ _ _ all')
      rw [count] at later
      obtain ⟨body, line⟩ := later
      have had : last.comma.isSome = true := by
        cases is : last.comma with
        | none => cases (comma is).2
        | some _ => rfl
      have shown := verbatim slot (by rw [all]; simp) kept
      have ordered := @ordered_thinned _ setting keeps _ _ _ { here with stops := Nat.le_refl slot.tailEnd } here.stops chained
      have wide : slot.begins ≤ slot.span.stop := Nat.le_trans here.begins here.inside
      simp only [keptFrom, kept, if_true, Setting.thinned, lineOfKept, printEntries_behind all, shown]
      refine ⟨?_, line⟩
      have tail : printTail setting.text (some last) (setting.wantsComma
          ((slot.id, some (done.length + 1)) :: keptFrom keeps (done.length + 1 + 1) rest)) =
          slice setting.text last.span.stop last.tailEnd := printTail_verbatim (by rw [had]; rfl)
      -- The entry with what is above it and everything behind it.
      have entry : slice setting.text slot.begins slot.span.start ++ slice setting.text slot.span.start slot.span.stop ++
          printTail setting.text (some slot) (setting.wantsComma (keptFrom keeps (done.length + 1 + 1) rest)) ++
          (doc.printEntries print setting false (some (done.length + 1)) slot.lineComment
            (keptFrom keeps (done.length + 1 + 1) rest)).1 =
          splice setting.text (tailOf slot.tailEnd rest) slot.begins (setting.thinned keeps slot slot.tailEnd rest) := by
        rw [Text.slice_append setting.text here.begins here.inside, List.append_assoc, body,
          Text.slice_append_splice setting.text wide ordered]
      rw [tail]
      simp only [List.append_assoc] at entry ⊢
      rw [entry]
      unfold Setting.bridge
      split
      · simp only [splice, List.append_assoc]
      · simp only [splice, List.append_nil]
        rw [Text.slice_append_splice setting.text le (ordered.mono wide)]

/-- The entries that stay print as the text from the first entry on with what gives way exchanged. -/
theorem printEntries_thinnedFrom {done : List Slot}
    (all : setting.layout.slots = done ++ rest)
    (verbatim : ∀ slot ∈ setting.layout.slots, keeps slot = true →
      doc.printChild print slot.id setting.indent setting.buffer = slice setting.text slot.span.start slot.span.stop)
    (commas : ∀ front slot back, setting.layout.slots = front ++ slot :: back → slot.comma = none →
      setting.wantsComma [] = false ∧ back = [])
    (chained : Chained stop rest) (any : rest.any keeps = true) :
    doc.printEntries print setting true none false (keptFrom keeps done.length rest) =
      (splice setting.text (tailOf start rest) start (setting.thinnedFrom keeps start rest),
        lineOfKept keeps false rest) := by
  induction rest generalizing done with
  | nil => cases any
  | cons slot rest ih =>
    obtain ⟨here, chained⟩ := chained
    have all' : setting.layout.slots = (done ++ [slot]) ++ rest := by rw [all]; simp
    rw [tailOf_cons]
    cases kept : keeps slot with
    | false =>
      have later := ih all' chained (by simpa [kept] using any)
      rw [List.length_append, List.length_singleton] at later
      have more : rest ≠ [] := by
        rintro rfl
        simp [kept] at any
      have tail : tailOf start rest = tailOf slot.tailEnd rest := tailOf_congr more _ _
      rw [tail] at later
      simpa [keptFrom, kept, Setting.thinnedFrom, lineOfKept] using later
    | true =>
      obtain ⟨body, line⟩ := @printEntries_thinned _ setting keeps slot rest doc print done slot (some done.length) all
        verbatim commas { here with stops := Nat.le_refl _ } here.stops chained (commas _ _ _ all)
      have shown := verbatim slot (by rw [all]; simp) kept
      have ordered := @ordered_thinned _ setting keeps _ _ _ { here with stops := Nat.le_refl slot.tailEnd } here.stops chained
      have wide : slot.begins ≤ slot.span.stop := Nat.le_trans here.begins here.inside
      simp only [keptFrom, kept, if_true, Setting.thinnedFrom, lineOfKept, printEntries_opening all, shown, line]
      rw [Text.slice_append setting.text here.begins here.inside, List.append_assoc, body,
        Text.slice_append_splice setting.text wide ordered]
      simp [splice, Text.slice_self]

/-- The entries that stay have the positions of their slots. -/
theorem positions_kept {done rest : List Slot} (fuel : Nat) (distinct : ((done ++ rest).map Slot.id).Nodup) :
    (((rest.filter keeps).map Slot.id).map fun entry => (entry, doc.slotPosition? (done ++ rest) (fuel + 1) entry)) =
      keptFrom keeps done.length rest := by
  induction rest generalizing done with
  | nil => rfl
  | cons slot rest ih =>
    have all : done ++ slot :: rest = (done ++ [slot]) ++ rest := by simp
    have here : doc.slotPosition? (done ++ slot :: rest) (fuel + 1) slot.id = some done.length := by
      simp only [slotPosition?, findIdx?_slot distinct]
    have later := @ih (done ++ [slot]) (all ▸ distinct)
    rw [List.length_append, List.length_singleton, ← all] at later
    cases kept : keeps slot with
    | true => simpa [keptFrom, kept, here] using later
    | false => simpa [keptFrom, kept] using later

/-- A stretch without the blanks that it starts with is a stretch. -/
theorem trimStart_slice (text : List Char) (start stop : Nat) :
    Text.trimStart (slice text start stop) =
      slice text (start + ((slice text start stop).takeWhile Text.isBlank).length) stop := by
  have split := List.takeWhile_append_dropWhile (p := Text.isBlank) (l := slice text start stop)
  have dropped : (slice text start stop).drop ((slice text start stop).takeWhile Text.isBlank).length =
      Text.trimStart (slice text start stop) := by
    nth_rewrite 2 [← split]
    exact List.drop_left
  rw [← dropped]
  generalize ((slice text start stop).takeWhile Text.isBlank).length = blanks
  rw [slice, slice, List.drop_take, List.drop_drop, Nat.sub_sub]

theorem blanks_short (text : List Char) (start stop : Nat) :
    ((slice text start stop).takeWhile Text.isBlank).length ≤ stop - start := by
  refine Nat.le_trans (List.takeWhile_sublist Text.isBlank).length_le ?_
  rw [slice, List.length_take]
  exact Nat.min_le_left _ _

/-- The blanks that a stretch starts with end before a part of it that starts with no blank. -/
theorem blanks_before_solid {start : Nat} {part : Span} (low : start ≤ part.start) (high : part.stop ≤ stop)
    (solid : (slice text part.start part.stop).head?.any (fun c => !Text.isBlank c) = true) :
    start + ((slice text start stop).takeWhile Text.isBlank).length ≤ part.start := by
  have inside : part.start ≤ part.stop := by
    by_contra reversed
    rw [Text.slice_empty text (by omega)] at solid
    cases solid
  cases found : slice text part.start part.stop with
  | nil =>
    rw [found] at solid
    cases solid
  | cons c rest =>
    have blank : Text.isBlank c = false := by simpa [found] using solid
    have before : (slice text start part.start).length ≤ part.start - start := by
      rw [slice, List.length_take]
      exact Nat.min_le_left _ _
    have sub : ((slice text start stop).takeWhile Text.isBlank).length ≤ (slice text start part.start).length := by
      rw [← Text.slice_append text low (Nat.le_trans inside high), ← Text.slice_append text inside high, found,
        List.takeWhile_append]
      split
      · simp [blank]
      · exact (List.takeWhile_sublist _).length_le
    omega

/-- What follows the last tail, with the line break that a line comment may need. -/
theorem splice_brokenEnd (line : Bool) {tail : Nat} (le : tail ≤ stop) (lineBreak : List Char) :
    (if line && !(slice text tail stop).contains '\n' then lineBreak ++ Text.trimStart (slice text tail stop)
      else slice text tail stop) = splice text stop tail (brokenEnd text line tail stop lineBreak) ∧
    Ordered tail stop ((brokenEnd text line tail stop lineBreak).map Prod.fst) := by
  simp only [brokenEnd]
  split
  · have short := blanks_short text tail stop
    rw [trimStart_slice]
    refine ⟨by simp [splice, Text.slice_self], Nat.le_refl _, Nat.le_add_right _ _, ?_⟩
    simp only [List.map_nil, Ordered]
    omega
  · exact ⟨rfl, le⟩

/-- What gives way in a literal some of whose entries have gone. -/
def thinnedExchanges (doc : Document) (text : List Char) (buffer : BufferId) (keeps : Slot → Bool) (layout : Layout) :
    List Exchange :=
  (doc.entrySetting text buffer layout).thinnedFrom keeps (beginsAt layout.closeStart layout.slots) layout.slots ++
    brokenEnd text (lineOfKept keeps false layout.slots) (tailOf layout.openEnd layout.slots) layout.closeStart
      (doc.newline.text ++ Text.lineIndent text layout.span.start)

/-- Where all slots but the last have commas, only the last one can be without. -/
theorem wantsComma_last {layout : Layout} {buffer : BufferId}
    (commas : ∀ front slot back, layout.slots = front ++ slot :: back → back ≠ [] → slot.comma.isSome = true)
    (front : List Slot) (slot : Slot) (back : List Slot) (split : layout.slots = front ++ slot :: back)
    (none : slot.comma = none) : (doc.entrySetting text buffer layout).wantsComma [] = false ∧ back = [] := by
  have back : back = [] := by
    by_contra more
    have had := commas front slot back split more
    rw [none] at had
    cases had
  subst back
  refine ⟨?_, rfl⟩
  show (!true || (layout.slots.getLast?.bind (·.comma)).isSome) = false
  rw [split]
  simp [none]

/-- What gives way lies in order from the first entry on. -/
theorem ordered_thinnedExchanges {layout : Layout} {buffer : BufferId} (lined : layout.Lined)
    (any : layout.slots.any keeps = true) :
    Ordered (beginsAt layout.closeStart layout.slots) layout.closeStart
      ((doc.thinnedExchanges text buffer keeps layout).map Prod.fst) := by
  have some : layout.slots ≠ [] := fun none => by
    rw [none] at any
    cases any
  have ordered := @ordered_thinnedFrom _ (doc.entrySetting text buffer layout) keeps _ _ (Nat.le_refl _) lined.chained any
  rw [tailOf_congr some _ layout.openEnd] at ordered
  rw [thinnedExchanges, List.map_append]
  exact ordered.append (splice_brokenEnd _ (Chained.tail_le lined.chained lined.starts) _).2

/-- A changed object literal in which all entries that are left stand in their own slots prints as its text with what gives
    way exchanged. -/
theorem printObjectEntries_thinned {layout : Layout} {entries : List NodeId} {buffer : BufferId} (lined : layout.Lined)
    (distinct : (layout.slots.map Slot.id).Nodup) (entriesAre : entries = (layout.slots.filter keeps).map Slot.id)
    (any : layout.slots.any keeps = true)
    (verbatim : ∀ slot ∈ layout.slots, keeps slot = true →
      doc.printChild print slot.id (layout.entryIndent text) buffer = slice text slot.span.start slot.span.stop)
    (commas : ∀ front slot back, layout.slots = front ++ slot :: back → back ≠ [] → slot.comma.isSome = true) :
    doc.printObjectEntries print text buffer layout (Text.lineIndent text layout.span.start) entries =
        splice text layout.span.stop layout.span.start (doc.thinnedExchanges text buffer keeps layout) ∧
      Ordered layout.span.start layout.span.stop ((doc.thinnedExchanges text buffer keeps layout).map Prod.fst) := by
  have some : layout.slots ≠ [] := fun none => by
    rw [none] at any
    cases any
  have inner := @ordered_thinnedExchanges text keeps doc _ buffer lined any
  have before := @Layout.Lined.before_eq text _ lined some
  obtain ⟨opens, starts, chained, bare, closes⟩ := lined
  obtain ⟨first, firstIs⟩ : ∃ first, first = beginsAt layout.closeStart layout.slots := ⟨_, rfl⟩
  rw [← firstIs] at inner before starts
  have high : tailOf layout.openEnd layout.slots ≤ layout.closeStart := Chained.tail_le chained (firstIs ▸ starts)
  have tails : tailOf first layout.slots = tailOf layout.openEnd layout.slots := tailOf_congr some _ _
  have positions : (entries.map fun entry => (entry, doc.slotPosition? layout.slots (doc.nodes.size + 1) entry)) =
      keptFrom keeps 0 layout.slots := by
    rw [entriesAre]
    exact @positions_kept keeps doc [] layout.slots doc.nodes.size distinct
  -- Three stretches: up to the first entry, the entries, and from the last tail to the end.
  have body : doc.printEntries print (doc.entrySetting text buffer layout) true none false
      (keptFrom keeps 0 layout.slots) =
      (splice text (tailOf first layout.slots) first ((doc.entrySetting text buffer layout).thinnedFrom keeps first
        layout.slots), lineOfKept keeps false layout.slots) :=
    @printEntries_thinnedFrom _ (doc.entrySetting text buffer layout) keeps layout.slots first doc print [] rfl verbatim
      (wantsComma_last commas) chained any
  have ordered : Ordered first (tailOf first layout.slots) _ :=
    @ordered_thinnedFrom _ (doc.entrySetting text buffer layout) keeps _ first (Nat.le_of_eq firstIs) chained any
  obtain ⟨ending, ordered'⟩ := @splice_brokenEnd text _ (lineOfKept keeps false layout.slots) _ high
    (doc.newline.text ++ Text.lineIndent text layout.span.start)
  have after : layout.after text = slice text (tailOf layout.openEnd layout.slots) layout.closeStart := rfl
  rw [tails] at body ordered
  rw [← positions] at body
  have joined := Text.splice_append text ordered ordered'
  rw [firstIs, ← thinnedExchanges] at joined
  have behind : Ordered layout.closeStart layout.span.stop (([] : List Exchange).map Prod.fst) := closes
  have whole : Ordered first layout.span.stop ((doc.thinnedExchanges text buffer keeps layout).map Prod.fst) := by
    simpa using inner.append behind
  have joined' := Text.splice_append text inner behind
  rw [List.append_nil] at joined'
  rw [← firstIs] at joined
  refine ⟨?_, whole.mono (Nat.le_trans opens starts)⟩
  rw [printObjectEntries_eq body, before, after, ending, Text.slice_append text opens starts,
    List.append_assoc (slice _ _ _), joined, List.append_assoc]
  rw [← Text.slice_append_splice text (Nat.le_trans opens starts) whole, ← joined']
  rfl

/-! ## Blanks -/

theorem isBlank_newline (newline : Text.Newline) : ∀ c ∈ newline.text, Text.isBlank c = true := by
  have all : newline.text.all Text.isBlank = true := by cases newline <;> rfl
  exact List.all_eq_true.mp all

theorem isBlank_isIndent {c : Char} (indent : Text.isIndent c = true) : Text.isBlank c = true := by
  simp only [Text.isIndent, Bool.or_eq_true, beq_iff_eq] at indent
  rcases indent with rfl | rfl <;> rfl

theorem isBlank_indent {c : Char} (text : List Char) (member : c ∈ text.takeWhile Text.isIndent) :
    Text.isBlank c = true := isBlank_isIndent (List.mem_takeWhile_imp member)

theorem isBlank_lineBreak {layout : Layout} {buffer : BufferId} :
    ∀ c ∈ (doc.entrySetting text buffer layout).lineBreak, Text.isBlank c = true := by
  intro c member
  rcases List.mem_append.mp member with break_ | indent
  · exact isBlank_newline _ c break_
  · exact isBlank_isIndent (layout.isIndent_entryIndent indent)

theorem isBlank_thinned (breaks : ∀ c ∈ setting.lineBreak, Text.isBlank c = true) :
    ∀ e ∈ setting.thinned keeps last reach rest, ∀ c ∈ e.2, Text.isBlank c = true := by
  induction rest generalizing last reach with
  | nil =>
    intro e member
    simp only [Setting.thinned, Setting.dropped] at member
    cases last.comma <;> cases setting.wantsComma [] <;> simp at member <;> grind
  | cons slot rest ih =>
    intro e member
    rw [Setting.thinned] at member
    split at member
    · rcases List.mem_cons.mp member with rfl | later
      · unfold Setting.bridge
        split
        · exact breaks
        · exact fun c impossible => by cases impossible
      · exact ih e later
    · exact ih e member

theorem isBlank_thinnedFrom (breaks : ∀ c ∈ setting.lineBreak, Text.isBlank c = true) :
    ∀ e ∈ setting.thinnedFrom keeps start rest, ∀ c ∈ e.2, Text.isBlank c = true := by
  induction rest with
  | nil =>
    intro e member
    cases member
  | cons slot rest ih =>
    intro e member
    rw [Setting.thinnedFrom] at member
    split at member
    · rcases List.mem_cons.mp member with rfl | later
      · exact fun c impossible => by cases impossible
      · exact isBlank_thinned breaks e later
    · exact ih e member

/-- What stands in the place of what gives way is blank. -/
theorem isBlank_thinnedExchanges {layout : Layout} {buffer : BufferId} :
    ∀ e ∈ doc.thinnedExchanges text buffer keeps layout, ∀ c ∈ e.2, Text.isBlank c = true := by
  intro e member
  rw [thinnedExchanges] at member
  rcases List.mem_append.mp member with early | late
  · exact isBlank_thinnedFrom isBlank_lineBreak e early
  · simp only [brokenEnd] at late
    split at late
    · rw [List.mem_singleton.mp late]
      intro c member
      rcases List.mem_append.mp member with break_ | indent
      · exact isBlank_newline _ c break_
      · exact isBlank_indent _ indent
    · cases late

/-! ## What stays of the text -/

section
variable {layout : Layout} {buffer : BufferId} {part : Span} (lined : layout.Lined) (any : layout.slots.any keeps = true)
include lined any

/-- What stands before the first entry stays. -/
theorem stays_before (before : part.stop ≤ beginsAt layout.closeStart layout.slots) :
    Text.stays (doc.thinnedExchanges text buffer keeps layout) part = true :=
  (ordered_thinnedExchanges lined any).stays_before before

omit any in
/-- Around an entry that stays there gives way what lies before it, its comma where it is the last one to stay, and what
    lies behind its tail. -/
theorem thinnedExchanges_parts (split : layout.slots = before ++ slot :: behind) (kept : keeps slot = true) :
    ∃ front others, doc.thinnedExchanges text buffer keeps layout = front ++
        (if behind.any keeps then [] else (doc.entrySetting text buffer layout).dropped slot) ++ others ∧
      Ordered (beginsAt layout.closeStart layout.slots) slot.begins (front.map Prod.fst) ∧
      Ordered slot.tailEnd layout.closeStart (others.map Prod.fst) := by
  obtain ⟨_, starts, chained, _, _⟩ := lined
  have tails := Chained.tail_le chained starts
  have chained' := chained
  rw [split] at chained'
  obtain ⟨lies, later⟩ := chained'.of_split
  obtain ⟨first, firstIs⟩ : ∃ first, first = beginsAt layout.closeStart layout.slots := ⟨_, rfl⟩
  obtain ⟨front, frontIs, ordered⟩ := @thinnedFrom_front _ (doc.entrySetting text buffer layout) keeps _ _ _ first
    (Nat.le_of_eq (by rw [firstIs, split])) chained' kept
  rw [← split] at frontIs
  obtain ⟨others, othersIs, ordered'⟩ :=
    @thinned_split _ (doc.entrySetting text buffer layout) keeps slot _ _ (Nat.le_refl _) lies.stops later
  rw [← tailOf_split layout.openEnd before behind slot, ← split] at ordered'
  have ending := (@splice_brokenEnd text _ (lineOfKept keeps false layout.slots) _ tails
    (doc.newline.text ++ Text.lineIndent text layout.span.start)).2
  refine ⟨front, others ++ brokenEnd text (lineOfKept keeps false layout.slots) (tailOf layout.openEnd layout.slots)
    layout.closeStart (doc.newline.text ++ Text.lineIndent text layout.span.start), ?_, firstIs ▸ ordered, ?_⟩
  · rw [thinnedExchanges, ← firstIs, frontIs, othersIs]
    simp only [List.append_assoc]
  · rw [List.map_append]
    exact ordered'.append ending

omit any in
/-- What goes with an entry that stays does so too, except for the comma of the last one. -/
theorem stays_slot (split : layout.slots = before ++ slot :: behind) (kept : keeps slot = true)
    (low : slot.begins ≤ part.start) (high : part.stop ≤ slot.tailEnd)
    (comma : ∀ span ∈ slot.comma, behind.any keeps = true ∨ (doc.entrySetting text buffer layout).wantsComma [] = true ∨
      part.stop ≤ span.start ∨ span.stop ≤ part.start) :
    Text.stays (doc.thinnedExchanges text buffer keeps layout) part = true := by
  obtain ⟨front, others, is, ordered, ordered'⟩ := @thinnedExchanges_parts text keeps _ _ _ doc _ buffer lined split kept
  have own : Text.stays (if behind.any keeps then [] else (doc.entrySetting text buffer layout).dropped slot) part = true := by
    unfold Setting.dropped
    split
    · rfl
    · split
      · rfl
      next none wants =>
        cases is : slot.comma with
        | none => rfl
        | some span =>
          rcases comma span is with more | wanted | apart
          · exact absurd more none
          · exact absurd wanted wants
          · simpa [Text.stays] using apart
  rw [is]
  simp only [Text.stays_append, Bool.and_eq_true]
  exact ⟨⟨ordered.stays_behind low, own⟩, ordered'.stays_before high⟩

omit any in
/-- The comma of the last entry that stays goes where the last slot has none. -/
theorem goes_comma (split : layout.slots = before ++ slot :: behind) (kept : keeps slot = true)
    (last : behind.any keeps = false) (wants : (doc.entrySetting text buffer layout).wantsComma [] = false)
    (comma : slot.comma = some part) : Text.goes (doc.thinnedExchanges text buffer keeps layout) part = true := by
  obtain ⟨front, others, is, _⟩ := @thinnedExchanges_parts text keeps _ _ _ doc _ buffer lined split kept
  have dropped : (if behind.any keeps then [] else (doc.entrySetting text buffer layout).dropped slot) = [(part, [])] := by
    simp [Setting.dropped, last, wants, comma]
  rw [is, dropped]
  simp [Text.goes]

/-- What goes with an entry that goes does so too. -/
theorem goes_slot (split : layout.slots = before ++ slot :: behind) (gone : keeps slot = false)
    (low : slot.begins ≤ part.start) (high : part.stop ≤ slot.tailEnd) :
    Text.goes (doc.thinnedExchanges text buffer keeps layout) part = true := by
  have chained := lined.chained
  obtain ⟨first, firstIs⟩ : ∃ first, first = beginsAt layout.closeStart layout.slots := ⟨_, rfl⟩
  rw [split] at chained any
  obtain ⟨e, member, starts, ends⟩ := @thinnedFrom_covers _ (doc.entrySetting text buffer layout) keeps _ _ _ first
    (Nat.le_of_eq (by rw [firstIs, split])) chained gone any
  rw [← split] at member
  refine List.any_eq_true.mpr ⟨e, ?_, ?_⟩
  · rw [thinnedExchanges, ← firstIs]
    exact List.mem_append_left _ member
  · simp only [Bool.and_eq_true, decide_eq_true_eq]
    exact ⟨Nat.le_trans starts low, Nat.le_trans high ends⟩

/-- What stands behind the last tail and starts with no blank stays. -/
theorem stays_end (behind : tailOf layout.openEnd layout.slots ≤ part.start) (inside : part.stop ≤ layout.closeStart)
    (solid : (slice text part.start part.stop).head?.any (fun c => !Text.isBlank c) = true) :
    Text.stays (doc.thinnedExchanges text buffer keeps layout) part = true := by
  have some : layout.slots ≠ [] := fun none => by
    rw [none] at any
    cases any
  have ordered := @ordered_thinnedFrom _ (doc.entrySetting text buffer layout) keeps _ _ (Nat.le_refl _) lined.chained any
  rw [tailOf_congr some _ layout.openEnd] at ordered
  rw [thinnedExchanges, Text.stays_append, ordered.stays_behind behind, Bool.true_and]
  simp only [brokenEnd]
  split
  · have short := blanks_before_solid behind inside solid
    simp [Text.stays, short]
  · rfl

end

end Document

end StoreModels
