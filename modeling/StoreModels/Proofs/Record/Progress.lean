import StoreModels.Proofs.Record.Steps

/-!
Documents in which some models of a former one have been edited. All other models stand as before, and in the end the
same models are found, the edited ones with changed records.
-/
namespace StoreModels
open Syntax (Reader)

namespace Document
open Model (Changed Inside)

variable {base doc doc' : Document} {callees : List (List Char)} {change : ModelRecord → ModelRecord}
  {records : Model → ModelRecord} {all done : List Model} {m n : Model} {record record' : ModelRecord}
  {filter : Option (List Char)}

theorem Stands.space (stands : doc.Stands callees m record) : record.space = m.space :=
  extractEntries_space stands.extracted

theorem Stands.unique (stands : doc.Stands callees m record) (stands' : doc.Stands callees n record')
    (same : m.object = n.object) : m = n := by
  have first := stands.alone.recognized
  rw [same, stands'.alone.recognized] at first
  exact (Option.some.inj (Except.ok.inj first)).symm

/-- Two models that stand alone have no nodes in common. -/
theorem Stands.apart (stands : doc.Stands callees m record) (stands' : doc.Stands callees n record')
    (forest : doc.Forest)
    (other : m ≠ n) : doc.Apart (n.Inside doc) m.object := fun z inside below => by
  have objects : m.object ≠ n.object := fun same => other (stands.unique stands' same)
  rcases forest.below_or_below below inside.1 with up | down
  · exact stands.not_below stands' objects up
  · exact stands'.not_below stands (Ne.symm objects) down

/-- A document whose models all stand alone, with their records. -/
structure Recorded [Reader] (doc : Document) (callees : List (List Char)) (all : List Model)
    (records : Model → ModelRecord) : Prop where
  sound : doc.Sound
  plain : doc.Plain
  root : doc.root < doc.nodes.size
  found : doc.models none = .ok all
  stands : ∀ m ∈ all, doc.Stands callees m (records m)

/-! ## Some models edited, the others not yet -/

/-- A document in which some models of a former one have been edited, and nothing else. -/
structure Progress (base doc : Document) (callees : List (List Char)) (change : ModelRecord → ModelRecord)
    (records : Model → ModelRecord) (done : List Model) : Prop where
  sound : doc.Sound
  plain : doc.Plain
  calm : Calm base doc (fun z => ∃ n ∈ done, n.Inside base z) []
  stands : ∀ n ∈ done, doc.Stands callees n (change (records n))

variable [Reader] (recorded : base.Recorded callees all records)
include recorded

/-- A model has no node in common with others. -/
theorem Recorded.apart (sub : done ⊆ all) (member : m ∈ all) (fresh : m ∉ done) :
    base.Apart (fun z => ∃ n ∈ done, n.Inside base z) m.object := by
  rintro z ⟨n, edited, inside⟩
  refine (recorded.stands m member).apart (recorded.stands n (sub edited)) recorded.sound.forest ?_ z inside
  rintro rfl
  exact fresh edited

namespace Progress
variable (progress : Progress base doc callees change records done)
include progress

/-- The models that are left stand as before. -/
theorem later (sub : done ⊆ all) (member : m ∈ all) (fresh : m ∉ done) : doc.Stands callees m (records m) :=
  (recorded.stands m member).calm progress.calm recorded.sound progress.sound.forest (recorded.apart sub member fresh)

/-- One more model is edited. -/
theorem next (sub : done ⊆ all) (member : m ∈ all) (fresh : m ∉ done) (moves : doc.Moves doc')
    (silent : doc'.buffers = doc.buffers) (changed : Changed doc doc' callees base.nodes.size m (change (records m))) :
    Progress base doc' callees change records (done ++ [m]) := by
  obtain ⟨⟨loose, calm, late⟩, stands⟩ := changed
  have forest := recorded.sound.forest
  have ground := recorded.stands m member
  have here := progress.later recorded sub member fresh
  have sound := moves.sound progress.sound
  have old : ∀ y ∈ loose, ¬ y < base.nodes.size := fun y listed => Nat.not_lt_of_ge (late y listed)
  refine ⟨sound, Moves.plain moves progress.sound (.nothing silent) progress.plain, ?_, fun n listed => ?_⟩
  · have both := progress.calm.trans calm forest fun y listed lt => absurd lt (old y listed)
    refine both.mono forest (fun z lt inside => ?_) (fun y listed lt => absurd lt (old y listed)) (by simp)
    rcases inside with ⟨n, edited, inside⟩ | ⟨below, role⟩
    · exact ⟨n, List.mem_append_left _ edited, inside⟩
    · refine ⟨m, by simp, ?_, progress.calm.ext.role lt ▸ role⟩
      exact (progress.calm.below forest ground.lt (recorded.apart sub member fresh)).mp below
  · rcases List.mem_append.mp listed with edited | new
    · have other : n ≠ m := fun same => fresh (same ▸ edited)
      exact (progress.stands n edited).calm calm progress.sound sound.forest
        ((progress.stands n edited).apart here progress.sound.forest other)
    · rw [List.mem_singleton.mp new]
      exact stands

/-- In the end the same models are found, the edited ones with changed records. -/
theorem extract (edits : ∀ m, m ∈ done ↔ m ∈ all ∧ asked filter m.space) :
    doc.extract callees none =
      .ok ((all.map records).map fun r => if asked filter r.space then change r else r) := by
  have sub : done ⊆ all := fun m listed => ((edits m).mp listed).1
  have inside : ∀ z, (∃ n ∈ done, n.Inside base z) → ∃ n ∈ done, base.Below n.object z := by
    rintro z ⟨n, listed, below, _⟩
    exact ⟨n, listed, below⟩
  have found : doc.models none = .ok all := by
    refine (progress.calm.models recorded.sound progress.sound.forest recorded.plain ?_ recorded.root
      inside ?_ ?_ ?_).trans
      recorded.found
    · rintro z ⟨_, _, _, role⟩
      exact role
    · exact fun n listed => models_below recorded.found n (sub listed)
    · exact fun n listed => (recorded.stands n (sub listed)).alone
    · exact fun n listed => (progress.stands n listed).alone
  rw [Document.extract, found]
  refine extractAll_iff.mpr ?_
  rw [List.map_map, List.forall₂_map_right_iff, List.forall₂_same]
  intro m member
  rw [Function.comp_apply, (recorded.stands m member).space]
  split
  next ask => exact (progress.stands m ((edits m).mpr ⟨member, ask⟩)).extracted
  next ask =>
    exact (progress.later recorded sub member fun listed => ask ((edits m).mp listed).2).extracted

end Progress

end Document

end StoreModels
