import StoreModels.Proofs.Model.Filled
import StoreModels.Proofs.Model.Refit

/-!
Refilled entries. An update gives entries of a file another value, one after the other: a tree of the snippet takes the
place of the value of a pair, and an entry that is no pair makes way for one with such a tree. So the file prints as it
did with just these nodes exchanged.
-/
namespace StoreModels
open Syntax (Reader Span Tree)
open Text (Exchange Patched)

namespace Document
variable {doc first : Document} {name source : List Char} {x c f : NodeId} {done : Target → Prop} {t u : Target}

/-- A tree brings the text of the snippet. -/
abbrev Bringing (source : List Char) (doc : Document) : NodeId → Prop := doc.Brings source

theorem lasting_bringing (source : List Char) : Lasting (Bringing source) where
  calm brings calm sound apart _ := brings.calm calm sound apart
  copy brings copied sound := brings.copy copied sound

/-- The exchange of a target: a value makes way for the text, moved over to the line where the value starts, and any
    other entry for its key and the text, moved over to where the entries of the literal stand. -/
def Refills (doc : Document) (name source : List Char) (t : Target) (exchange : Exchange) : Prop :=
  match doc.pairValue? t.entry with
  | some value => (doc.node value).origin = .parsed 0 exchange.1 ∧
      exchange.2 = Text.reindent source (Text.lineIndent doc.source exchange.1.start) doc.newline.text
  | none => (doc.node t.entry).origin = .parsed 0 exchange.1 ∧
      ∃ outer, (doc.node t.object).origin = .parsed 0 outer ∧
        exchange.2 = Literal.keyText name t.quote ++ [':', ' '] ++
          Text.reindent source ((doc.layout t.object doc.source outer).entryIndent doc.source) doc.newline.text

/-- The exchange of a target is one of its spot, for the text that is due in its holder. -/
theorem refills_iff (lies : t.Lies first) {inner outer : Span} (origin : (first.node (t.spot first)).origin = .parsed 0 inner)
    (above : (first.node (t.holder first)).origin = .parsed 0 outer) {exchange : Exchange} :
    first.Refills name source t exchange ↔ exchange = (inner, (if (first.pairValue? t.entry).isSome then [] else
      Literal.keyText name t.quote ++ [':', ' ']) ++
        Text.reindent source (first.placeIndent (t.holder first) outer inner) first.newline.text) := by
  obtain ⟨place, text⟩ := exchange
  unfold Refills
  cases held : first.pairValue? t.entry with
  | some value =>
    obtain ⟨spot, holder⟩ := Target.spot_pair held
    have pair := (pairValue?_some held).1
    rw [spot] at origin
    rw [holder, placeIndent, pair]
    simp [origin, eq_comm]
    grind
  | none =>
    obtain ⟨spot, holder⟩ := Target.spot_entry held
    rw [spot] at origin
    rw [holder] at above
    rw [holder, placeIndent, lies.object]
    simp [origin, above, eq_comm]

namespace Filling
variable {program : Tree} (run : first.Filling doc name (Bringing source) done)
include run

/-- What was put in the spot of a target prints as the text that is due there. -/
theorem fitted (fresh : first.Fresh program) (shaped : first.Shaped) (lies : t.Lies first) (child : f ∈ first.children x)
    (spot : t.spot first = f) (filled : first.Filled doc name (Bringing source) t c) :
    first.Fitted doc (fun _ exchange => first.Refills name source t exchange) x c f := by
  subst spot
  have start := fresh.sound
  have lt := lt_of_mem_children child
  obtain rfl : x = t.holder first := start.forest.parent_unique child lies.spot_child
  have listed : t.spot first ∈ (doc.node (t.holder first)).firstChildren := by
    rw [fresh.firstChildren run.ext lt]
    exact child
  refine ⟨.there filled.took (.here (run.sound.firstTookNone listed)), fun same => ?_, fun object => ?_,
    fun outer inner above origin => ?_⟩
  · have took := filled.took
    rw [same, run.sound.firstTookNone listed] at took
    cases took
  · -- Only an entry without a value is a child of an object literal itself.
    have gets := filled.gets
    unfold Gets at gets
    cases held : first.pairValue? t.entry with
    | some value =>
      rw [(Target.spot_pair held).2, (pairValue?_some held).1] at object
      cases object
    | none =>
      rw [held] at gets
      rw [(Target.spot_entry held).1]
      have spells : doc.Spells name t.quote source c := gets
      exact ⟨(mem_entries lies.entry).2, by rw [spells.role]; rfl⟩
  · obtain ⟨_, _, fits⟩ := shaped.laid origin
    refine (?_ : Patched _ _ (inner, _)).congr fun exchange => (refills_iff lies origin above).symm
    have newline := run.ext.newline
    have gets := filled.gets
    unfold Gets at gets
    split at gets
    next pair =>
      have brings : doc.Brings source c := gets
      rw [brings.printChild run.sound.forest, newline, if_pos pair, List.nil_append]
      exact Patched.whole fits.1.le
    next other =>
      have spells : doc.Spells name t.quote source c := gets
      rw [spells.printChild run.sound.forest, newline, if_neg other]
      exact Patched.whole fits.1.le

/-- A file in which targets were filled is the file with their spots refitted. -/
theorem refit (fresh : first.Fresh program) (shaped : first.Shaped)
    (apart : ∀ t u, done t → done u → first.Below (t.spot first) (u.spot first) → t = u) :
    first.Refit doc (fun f => ∃ t, done t ∧ t.spot first = f)
      fun f exchange => ∃ t, done t ∧ t.spot first = f ∧ first.Refills name source t exchange where
  sound := run.sound
  ext := run.ext
  apart := by
    rintro _ _ ⟨t, before, rfl⟩ ⟨u, before', rfl⟩ below
    rw [apart t u before before' below]
  places {x} lt _ := by
    refine forall₂_imp_mem (run.places x lt) fun c _ f child place => ?_
    rcases place with ⟨rfl, none⟩ | ⟨t, before, spot, filled⟩
    · exact .inl ⟨rfl, fun ⟨t, before, same⟩ => none t before same⟩
    · have fitted := run.fitted fresh shaped (run.lies t before) child spot filled
      refine .inr ⟨⟨t, before, spot⟩, fitted.ends, fitted.marked, fitted.entry, fun outer inner above origin => ?_⟩
      refine (fitted.shown outer inner above origin).congr fun exchange => ⟨fun due => ⟨t, before, spot, due⟩, ?_⟩
      rintro ⟨u, before', spot', due⟩
      rw [apart t u before before' (by rw [spot, spot']; exact .refl first f)]
      exact due

end Filling

end Document

end StoreModels
