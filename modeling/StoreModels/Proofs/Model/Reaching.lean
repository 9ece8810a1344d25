import StoreModels.Proofs.Model.Received
import StoreModels.Proofs.Model.Substituted

/-!
Which entries an update reaches. The models of a set are edited one after the other, and an entry that gets another value
may hold the next of them: a model whose container was put in place by the same edit gets its entries there, so that no
further entry of the file is aimed at. All that is known of the values that are put in place is that they are new.
-/
namespace StoreModels
open Syntax (Reader)

namespace Document
variable {doc doc' first : Document} {name : List Char} {x c p e n o value : NodeId} {m : Model} {container : Container}
  {models rest : List Model} {snippet snippet' : Snippet} {done : Target → Prop} {t u : Target} {entries : List NodeId}
  {quote : Char}

/-! ## Targets one model after the other -/

/-- A container of the model was put in place when another model got its entries. -/
def Linked (container : Container) (name : List Char) (done : Target → Prop) (m : Model) : Prop :=
  name = container.key.toList ∧ ∃ t, done t ∧ t.object = m.object

/-- The targets that are reached by edits of models one after the other, where some models are passed over. -/
def reach (skip : (Target → Prop) → Model → Prop) (aim : Model → Target → Prop) :
    List Model → (Target → Prop) → Target → Prop
  | [], done => done
  | m :: rest, done => reach skip aim rest fun t => (¬ skip done m ∧ aim m t) ∨ done t

/-- What is reached was so before, or is aimed at in one of the models. -/
theorem reach_cases {skip : (Target → Prop) → Model → Prop} {aim : Model → Target → Prop}
    (reached : reach skip aim models done t) : done t ∨ ∃ m ∈ models, aim m t := by
  induction models generalizing done with
  | nil => exact .inl reached
  | cons m rest ih =>
    rcases ih reached with (⟨_, aimed⟩ | before) | ⟨n, member, aimed⟩
    · exact .inr ⟨m, List.mem_cons_self, aimed⟩
    · exact .inl before
    · exact .inr ⟨n, List.mem_cons_of_mem _ member, aimed⟩

/-- A name that needs quotes is not the one of namespaces. -/
theorem ne_namespaceName (quoted : Literal.isBareName name ≠ true) : name ≠ Model.namespaceName := by
  rintro rfl
  exact quoted (by decide)

/-! ## Values in new trees -/

/-- A tree of which nothing is known. -/
def Anything (_ : Document) (_ : NodeId) : Prop := True

theorem lasting_anything : Lasting Anything where
  calm _ _ _ _ _ := trivial
  copy _ _ _ := trivial

namespace Filling
variable (run : first.Filling doc name Anything done) (start : first.Sound)
include run start

/-- A change of an object literal that was added, or of a part of one, changes nothing that was filled. -/
theorem inside {z old : NodeId} (replaced : Replaced doc doc' z old n) (free : doc.Free n) (late : first.Late doc n)
    (beyond : first.nodes.size ≤ z)
    (whole : doc.role z = .object ∨ ∃ p, z ∈ doc.children p ∧ first.nodes.size ≤ p) :
    first.Filling doc' name Anything done := by
  have forest := run.sound.forest
  obtain ⟨before, after, was, _⟩ := replaced.place
  have child : old ∈ doc.children z := by simp [was]
  have calm := replaced.calm free
  obtain ⟨loose, known, new⟩ := run.calm
  have newer : first.nodes.size ≤ n := late n (.refl doc n)
  have both := known.trans calm start.forest fun y member lt =>
    absurd newer (Nat.not_le_of_gt (List.mem_singleton.mp member ▸ lt))
  refine ⟨replaced.sound run.sound (forest.childParent child) free, run.lies, ⟨loose ++ [n], ?_, fun y member => ?_⟩,
    fun x lt => ?_⟩
  · refine both.mono start.forest (fun z' lt inside => inside.resolve_right ?_) (fun _ member _ => member) both.free
    rintro rfl
    exact Nat.not_lt_of_ge beyond lt
  · exact (List.mem_append.mp member).elim (new y) fun last => List.mem_singleton.mp last ▸ newer
  · have other : x ≠ z := fun same => Nat.not_le_of_lt lt (same ▸ beyond)
    rw [calm.children x (Nat.lt_of_lt_of_le lt run.ext.size) other]
    refine forall₂_imp_mem (run.places x lt) fun c member f _ place => place.imp_right ?_
    rintro ⟨t, earlier, spot, filled⟩
    have held : c ∉ [n] := fun listed => free.not_child forest (List.mem_singleton.mp listed ▸ member)
    have present := forest.childLt member
    refine ⟨t, earlier, spot, (calm.replaces c present held).trans filled.took, (calm.field c present held).trans filled.field,
      filled.late.replaced late replaced, ?_⟩
    have gets := filled.gets
    unfold Gets at gets ⊢
    split at gets
    next pair =>
      rw [if_pos pair]
      trivial
    next noPair =>
      rw [if_neg noPair]
      obtain ⟨value, heads, _⟩ := gets
      -- The pair is a child of an old node, so it is neither the literal that changes nor a part of it; nor is its key.
      have apart : c ≠ z := by
        rintro rfl
        rcases whole with object | ⟨p, above, old⟩
        · rw [heads.role] at object
          cases object
        · exact Nat.not_lt_of_ge old (forest.parent_unique above member ▸ lt)
      refine ⟨value, heads.calm calm forest apart fun key inner differs same => ?_, trivial⟩
      obtain ⟨key', parts, isKey⟩ := heads.parts
      rw [parts, List.mem_pair] at inner
      obtain rfl : key = key' := inner.resolve_right differs
      rw [← same, isKey.leaf] at child
      cases child

/-- An entry of an object literal that was added can get another value. -/
theorem revalued (late : first.Late doc x) (object : doc.role x = .object) (child : e ∈ doc.children x)
    (new : first.Late doc value) (free : doc.Free value) (revalued : doc.Revalued doc' name quote x e value) :
    first.Filling doc' name Anything done := by
  have below : first.Late doc e := fun y down => late y ((Below.child child).trans down)
  cases revalued with
  | pair has replaced =>
    exact run.inside start replaced free new (below e (.refl doc e)) (.inr ⟨x, child, late x (.refl doc x)⟩)
  | other lacking made steady sound freed replaced =>
    have calm := made.calm steady free
    have run' := run.quiet lasting_anything calm sound start fun y member => by
      rw [List.mem_singleton.mp member]
      exact new value (.refl doc value)
    exact run'.inside start replaced freed (new.written run.ext run.sound made steady free) (late x (.refl doc x))
      (.inl ((steady.ext.role (lt_of_mem_children child)).trans object))

/-- Entries of an object literal that was added can get other values one after the other. -/
theorem setValues_inside [Reader] (quote : Char) (early : o < first.nodes.size) (object : doc.role o = .object) (below : doc.Below o x)
    (late : first.Late doc x) (literal : doc.role x = .object) (listed : ∀ e ∈ entries, e ∈ doc.children x ∧ doc.Keyed e)
    (distinct : entries.Nodup) (carries : first.Carries doc Anything snippet) :
    ∃ snippet' doc', Edit.outcome (Model.setValues name quote snippet entries) doc = (.ok snippet', doc') ∧
      first.Carries doc' Anything snippet' ∧ first.Filling doc' name Anything done := by
  induction entries generalizing doc snippet with
  | nil => exact ⟨snippet, doc, rfl, carries, run⟩
  | cons e rest ih =>
    obtain ⟨absent, distinct⟩ := List.nodup_cons.mp distinct
    obtain ⟨value, snippet₁, doc₁, next, sound₁, quiet, used, carries₁, _, new, free⟩ :=
      carries.next lasting_anything run.sound run.ext
    have forest := run.sound.forest
    have lt := lt_of_role literal (by decide)
    have run₁ := run.quiet lasting_anything quiet sound₁ start (by simp)
    have late₁ := late.calm quiet forest lt fun z impossible => impossible.elim
    have present := lt_of_role object (by decide)
    have object₁ : doc₁.role o = .object := (quiet.ext.role present).trans object
    have literal₁ : doc₁.role x = .object := (quiet.ext.role lt).trans literal
    have below₁ : doc₁.Below o x := (quiet.below forest present (apart_nowhere doc o)).mpr below
    have same := quiet.children x lt id
    have keep : ∀ {d d' : Document} {e}, Extends d d' → d.Keyed e → e < d.nodes.size → d'.Keyed e := fun ext keyed lt => by
      unfold Keyed
      rw [ext.role lt]
      exact keyed
    have listed₁ : ∀ e' ∈ e :: rest, e' ∈ doc₁.children x ∧ doc₁.Keyed e' := fun e' member =>
      ⟨same ▸ (listed e' member).1, keep quiet.ext (listed e' member).2 (forest.childLt (listed e' member).1)⟩
    obtain ⟨child, keyed⟩ := listed₁ e List.mem_cons_self
    have loose : doc₁.Loose [o] value := ⟨free, by simpa using fun down => Nat.not_le_of_gt early (new _ down)⟩
    obtain ⟨doc₂, set, works, revalued, below₂, stays⟩ := Model.setValue_run
      (.self sound₁ (by simpa using object₁)) (List.mem_singleton_self o) below₁ child keyed loose name quote
    have run₂ := run₁.revalued start late₁ literal₁ child new free revalued
    have ext₂ := works.moves.toExtends sound₁
    have carries₂ : first.Carries doc₂ Anything snippet₁ := ⟨Nat.lt_of_lt_of_le carries₁.present ext₂.size, trivial,
      carries₁.late.revalued carries₁.present new free run₁.ext sound₁ revalued, fun unused => by
        rw [used] at unused
        cases unused⟩
    have ltGrown := lt_of_role literal₁ (by decide)
    obtain ⟨snippet', doc', all, carries', run'⟩ := ih run₂ ((ext₂.role (lt_of_role object₁ (by decide))).trans object₁)
      below₂ (late₁.revalued ltGrown new free run₁.ext sound₁ revalued) ((ext₂.role ltGrown).trans literal₁)
      (fun e' member => by
        obtain ⟨inside, keyed'⟩ := listed₁ e' (List.mem_cons_of_mem _ member)
        exact ⟨stays e' inside fun is => absent (is ▸ member), keep ext₂ keyed' (sound₁.forest.childLt inside)⟩)
      distinct carries₂
    refine ⟨snippet', doc', ?_, carries', run'⟩
    simp only [Model.setValues, Edit.outcome_bind, next, set, all]

/-! ## Models one after the other -/

variable (plain : first.Plain) (named : first.Named name done)
include plain named

/-- A model keeps the literal that tells its namespace if no namespaces are aimed at. -/
theorem titled {old : NodeId} (titled : m.Titled first p old) (other : name ≠ Model.namespaceName) : m.Titled doc p old := by
  obtain ⟨loose, calm, _⟩ := run.calm
  have child := titled.entry_child
  have inner := titled.value_child
  have entry := run.entryNamed? start plain named (n := Model.namespaceName) titled.object fun _ _ _ => other
  have text : doc.text old = first.text old := calm.text_token start run.sound.forest plain (fun z => run.roles)
    (start.forest.childLt inner) (by rw [titled.literal]; rfl)
  refine ⟨(run.ext.role (lt_of_mem_children child)).trans titled.object, entry.trans titled.named, ?_,
    (run.ext.role (start.forest.childLt inner)).trans titled.literal, text ▸ titled.space⟩
  have values := run.pairValue? start (start.forest.childLt child)
  rw [titled.held] at values
  obtain ⟨v, held, ⟨rfl, _⟩ | ⟨t, before, spot, _⟩⟩ := rel_some_right values
  · exact held
  · obtain ⟨here, _⟩ := (run.lies t before).value_spot start.forest (by rw [titled.pair]; decide) inner spot
    have told := entryName?_of_identifier (entryNamed?_some titled.named).2
    rw [← here, (named t before).1] at told
    exact absurd (Option.some.inj told) other

/-- A key is spelled for a model as it was when none had been edited: only the namespace decides on the quotes, and if
    this is what is aimed at, the name needs none. -/
theorem spelled {old : NodeId} (titled : m.Titled first p old) :
    Literal.keyText name (m.quote doc) = Literal.keyText name (m.quote first) := by
  by_cases bare : Literal.isBareName name = true
  · simp only [Literal.keyText, if_pos bare]
  · have now := run.titled start plain named titled (ne_namespaceName bare)
    obtain ⟨loose, calm, _⟩ := run.calm
    have text : doc.text old = first.text old := calm.text_token start run.sound.forest plain (fun z => run.roles)
      (start.forest.childLt titled.value_child) (by rw [titled.literal]; rfl)
    simp only [Model.quote, now.named, titled.named, Option.bind_some, now.held, titled.held, text]

variable (object : first.role m.object = .object)
  (whole : ∀ t, done t → ∀ e ∈ first.entriesNamed t.object name, ∃ quote, done ⟨t.object, e, quote⟩)
include object whole

/-- The container of a model that was put in place is a new object literal. -/
theorem container_new (linked : Linked container name done m) {k : NodeId}
    (found : m.containerObject? doc container = .ok (some k)) : first.Late doc k ∧ doc.role k = .object ∧ doc.Below m.object k := by
  obtain ⟨rfl, t, before, same⟩ := linked
  obtain ⟨below, role⟩ := Model.containerObject?_some found
  refine ⟨?_, role, below⟩
  rw [Model.containerObject?] at found
  split at found
  next => cases found
  next e is =>
    have told := entryName?_of_identifier (entryNamed?_some is).2
    have listed : e ∈ doc.entriesNamed m.object container.key.toList := by
      refine List.mem_filter.mpr ⟨List.mem_of_mem_filter (List.mem_of_getLast? is), ?_⟩
      rw [told, beq_self_eq_true]
    obtain ⟨value, held, late, _⟩ := run.value_of_named start plain named object (same ▸ whole t before) listed
    simp only at found
    split at found
    next =>
      cases found
      rwa [entryBody, held, Option.getD_some]
    next => cases found

/-- The next model gets another value for its entries: those of its container, or those of one that was put in place. -/
theorem reaches [Reader] {old : NodeId} (carries : first.Carries doc Anything snippet) (titled : m.Titled first p old)
    (fresh : ∀ t, done t → m.containerObject? first container ≠ .ok (some t.object))
    (given : Edit.outcome (m.setEntry container name snippet) doc = (.ok snippet', doc')) :
    first.Carries doc' Anything snippet' ∧
      first.Filling doc' name Anything fun t =>
        (¬ Linked container name done m ∧ m.EntryTarget first container name t) ∨ done t := by
  by_cases linked : Linked container name done m
  · have none : ∀ t, (¬ Linked container name done m ∧ m.EntryTarget first container name t) ∨ done t ↔ done t := fun t =>
      or_iff_right fun aimed => aimed.1 linked
    cases is : m.namedEntries doc container name with
    | error failure =>
      simp only [Model.setEntry, Edit.outcome_bind, Edit.outcome_get, Edit.outcome_lift, is] at given
      cases given
    | ok listed =>
      obtain ⟨k, holds, rfl⟩ := Model.namedEntries_ok is
      obtain ⟨late, literal, below⟩ := run.container_new start plain named object whole linked holds
      have lt := lt_of_role object (by decide)
      obtain ⟨taken, next, all, carries', run'⟩ := run.setValues_inside start (m.quote doc) lt
        ((run.ext.role lt).trans object) below late literal
        (fun e member => ⟨(mem_entriesNamed member).1, keyed_of_name (mem_entriesNamed member).2⟩)
        (entriesNamed_nodup run.sound.forest k name) carries
      simp only [Model.setEntry, Edit.outcome_bind, Edit.outcome_get, Edit.outcome_lift, Edit.outcome_look, is] at given
      cases all.symm.trans given
      exact ⟨carries', run'.congr fun t => (none t).symm⟩
  · have spared : ∀ t, done t → t.object = m.object → name ≠ container.key.toList := fun t before same key =>
      linked ⟨key, t, before, same⟩
    obtain ⟨k, found, carries', run'⟩ := run.setEntry start plain named (run.spelled start plain named titled).symm
      lasting_anything object spared (fun k holds t before same => fresh t before (same ▸ holds)) carries given
    refine ⟨carries', run'.congr fun t => or_congr_left ?_⟩
    constructor
    · rintro ⟨rfl, quote, listed⟩
      exact ⟨linked, found, quote, listed⟩
    · rintro ⟨_, here, quote, listed⟩
      cases found.symm.trans here
      exact ⟨rfl, quote, listed⟩

end Filling

/-- The next model gets another state, if it has one. -/
theorem Filling.reachesState [Reader] (run : first.Filling doc Model.stateName Anything done) (start : first.Sound)
    (plain : first.Plain) (named : first.Named Model.stateName done) (object : first.role m.object = .object)
    (fresh : ∀ t, done t → t.object ≠ m.object) (carries : first.Carries doc Anything snippet)
    (given : Edit.outcome (m.setState snippet) doc = (.ok snippet', doc')) :
    first.Carries doc' Anything snippet' ∧
      first.Filling doc' Model.stateName Anything fun t => m.StateTarget first t ∨ done t := by
  have same := run.entryNamed? start plain named (n := Model.stateName) object fun t before here => absurd here (fresh t before)
  cases found : first.entryNamed? m.object Model.stateName with
  | none =>
    simp only [Model.setState, Edit.outcome_bind, Edit.outcome_look, same, found, Edit.outcome_pure] at given
    cases given
    exact ⟨carries, run.congr fun t => by simp [Model.StateTarget, found]⟩
  | some e =>
    have child := (entryNamed?_some found).1
    have listed : ∀ e' ∈ [e], e' ∈ first.entries m.object := by
      simpa using List.mem_of_mem_filter (List.mem_of_getLast? found)
    have new : ∀ e' ∈ [e], ∀ t, done t → t.entry ≠ e' := fun e' member t before is => fresh t before
      (start.forest.parent_unique (run.lies t before).entry_child (is ▸ List.mem_singleton.mp member ▸ child))
    obtain ⟨taken, next, all, carries', run'⟩ :
        ∃ taken next, Edit.outcome (Model.setValues Model.stateName '\'' snippet [e]) doc = (.ok taken, next) ∧ _ :=
      run.setValues lasting_anything start object listed (List.nodup_singleton e) new carries
    simp only [Model.setState, Edit.outcome_bind, Edit.outcome_look, same, found] at given
    simp only [Model.setValues, Edit.outcome_bind] at all
    rw [all] at given
    cases given
    refine ⟨carries', run'.congr fun t => or_congr_left ?_⟩
    simp only [Model.StateTarget, found, Option.some.injEq, List.mem_singleton, eq_comm (a := e)]

/-! ## Edits under way -/

/-- Some models of a set have been edited, and the targets in them were filled. -/
structure Underway (first doc : Document) (name : List Char) (aim : Model → Target → Prop) (models rest : List Model)
    (done : Target → Prop) (snippet : Snippet) : Prop where
  filling : first.Filling doc name Anything done
  named : first.Named name done
  carries : first.Carries doc Anything snippet
  sub : rest ⊆ models
  fresh : rest.Nodup
  owned : ∀ t, done t → ∃ m ∈ models, m ∉ rest ∧ aim m t ∧ ∀ u, aim m u → done u

namespace Underway
variable {aim : Model → Target → Prop}

/-- The next model has been edited. -/
theorem next (under : first.Underway doc name aim models (m :: rest) done snippet)
    (skip : (Target → Prop) → Model → Prop)
    (aimed : ∀ t, aim m t → first.entryName? t.entry = some name ∧ Literal.isQuote t.quote = true)
    (carries : first.Carries doc' Anything snippet')
    (filling : first.Filling doc' name Anything fun t => (¬ skip done m ∧ aim m t) ∨ done t) :
    first.Underway doc' name aim models rest (fun t => (¬ skip done m ∧ aim m t) ∨ done t) snippet' where
  filling := filling
  named := by
    rintro t (⟨_, here⟩ | before)
    · exact aimed t here
    · exact under.named t before
  carries := carries
  sub := (List.cons_subset.mp under.sub).2
  fresh := (List.nodup_cons.mp under.fresh).2
  owned := by
    rintro t (⟨reached, here⟩ | before)
    · exact ⟨m, under.sub List.mem_cons_self, (List.nodup_cons.mp under.fresh).1, here, fun u there => .inl ⟨reached, there⟩⟩
    · obtain ⟨n, member, passed, has, all⟩ := under.owned t before
      exact ⟨n, member, fun later => passed (List.mem_cons_of_mem _ later), has, fun u there => .inr (all u there)⟩

section
variable [Reader] (start : first.Sound) (plain : first.Plain) (distinct : (models.map Model.object).Nodup)
include start plain distinct

/-- The next model gets other entries. -/
theorem setEntry {old : NodeId}
    (under : first.Underway doc name (fun m t => m.EntryTarget first container name t) models (m :: rest) done snippet)
    (titled : m.Titled first p old) (given : Edit.outcome (m.setEntry container name snippet) doc = (.ok snippet', doc')) :
    first.Underway doc' name (fun m t => m.EntryTarget first container name t) models rest
      (fun t => (¬ Linked container name done m ∧ m.EntryTarget first container name t) ∨ done t) snippet' := by
  obtain ⟨carries, filling⟩ := under.filling.reaches start plain under.named titled.object (fun t before e listed => by
      obtain ⟨n, _, _, ⟨holds, _, _⟩, all⟩ := under.owned t before
      exact ⟨n.quote first, all ⟨t.object, e, n.quote first⟩ ⟨holds, rfl, listed⟩⟩) under.carries titled
    (fun t before found => by
      obtain ⟨n, member, passed, ⟨holds, _, _⟩, _⟩ := under.owned t before
      have same := containerObject?_inj start.forest holds found
      exact passed (List.inj_on_of_nodup_map distinct member (under.sub List.mem_cons_self) same ▸ List.mem_cons_self)) given
  exact under.next (Linked container name) (fun t ⟨_, quote, listed⟩ => ⟨(mem_entriesNamed listed).2, quote ▸ Model.isQuote_quote first m⟩) carries
    filling

/-- The next model gets another state. -/
theorem setState (under : first.Underway doc Model.stateName (fun m t => m.StateTarget first t) models (m :: rest) done snippet)
    (object : first.role m.object = .object) (given : Edit.outcome (m.setState snippet) doc = (.ok snippet', doc')) :
    first.Underway doc' Model.stateName (fun m t => m.StateTarget first t) models rest
      (fun t => (¬ False ∧ m.StateTarget first t) ∨ done t) snippet' := by
  obtain ⟨carries, filling⟩ := under.filling.reachesState start plain under.named object (fun t before same => by
      obtain ⟨n, member, passed, ⟨here, _, _⟩, _⟩ := under.owned t before
      exact passed (List.inj_on_of_nodup_map distinct member (under.sub List.mem_cons_self) (here.symm.trans same) ▸
        List.mem_cons_self)) under.carries given
  refine under.next (fun _ _ => False) (fun t ⟨_, quote, found⟩ => ⟨?_, ?_⟩) carries (filling.congr fun t => by simp)
  · exact entryName?_of_identifier (entryNamed?_some found).2
  · rw [quote]
    decide

end

/-- If each edit of the next model reaches its targets, the edits of all models reach theirs. -/
theorem forAll {edit : Model → Snippet → Edit Snippet} {skip : (Target → Prop) → Model → Prop}
    (step : ∀ {doc doc' m rest done snippet snippet'}, m ∈ models →
      first.Underway doc name aim models (m :: rest) done snippet →
      Edit.outcome (edit m snippet) doc = (.ok snippet', doc') →
      first.Underway doc' name aim models rest (fun t => (¬ skip done m ∧ aim m t) ∨ done t) snippet')
    (under : first.Underway doc name aim models rest done snippet)
    (given : Edit.outcome (ModelSet.forAll edit snippet rest) doc = (.ok (), doc')) :
    ∃ last, first.Underway doc' name aim models [] (reach skip aim rest done) last := by
  induction rest generalizing doc done snippet with
  | nil =>
    cases given
    exact ⟨snippet, under⟩
  | cons m rest ih =>
    rw [ModelSet.forAll, Edit.outcome_bind] at given
    split at given
    next snippet₁ doc₁ set => exact ih (step (under.sub List.mem_cons_self) under set) given
    next => cases given

/-- Before the first model is edited, the snippet has been read and no target was filled. -/
theorem ofSnippet [Reader] {text : List Char} {tree : NodeId} (start : first.Sound)
    (read : first.parseExpression text = .ok (doc, tree)) (fresh : models.Nodup) :
    first.Underway doc name aim models models (fun _ => False) ⟨tree, false⟩ where
  filling := (Filling.start start name Anything).quiet lasting_anything (parseExpression_calm read start)
    (Move.sound (.adopt text read) start) start (by simp)
  named _ impossible := impossible.elim
  carries := .parsed start read trivial
  sub := List.Subset.refl _
  fresh := fresh
  owned _ impossible := impossible.elim

end Underway

end Document

end StoreModels
