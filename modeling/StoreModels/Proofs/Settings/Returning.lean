import StoreModels.Proofs.Yaml.Written
import StoreModels.Settings.Environment
import StoreModels.Settings.Text

/-!
Settings that are valid come back from their text, and no others come from any text or environment. The format of the
text is any whose reader reads back what its writer writes.
-/
namespace StoreModels

namespace Settings

open Yaml (Format Data)

variable {s s' : Settings}

/-- Valid settings: an indentation of one to eight spaces unless tabs are used, and one or more callees, all of them bare
    names. -/
structure Valid (s : Settings) : Prop where
  indent : s.useTabs = true ∨ (1 ≤ s.indentWidth ∧ s.indentWidth ≤ 8)
  some : s.callees ≠ []
  names : ∀ name ∈ s.callees, Literal.isBareName name = true

/-- What the test for the indentation asks. -/
theorem width_outside :
    (!s.useTabs && !(1 ≤ s.indentWidth && s.indentWidth ≤ 8)) = true ↔
      ¬ (s.useTabs = true ∨ (1 ≤ s.indentWidth ∧ s.indentWidth ≤ 8)) := by
  simp only [Bool.and_eq_true, Bool.not_eq_true', ← Bool.decide_and, decide_eq_false_iff_not, not_or, Bool.not_eq_true]

theorem check_eq_ok : s.check = .ok s' ↔ s' = s ∧ s.Valid := by
  rw [check]
  split
  next outside =>
    constructor
    · rintro ⟨⟩
    · rintro ⟨_, valid⟩
      exact absurd valid.indent (width_outside.mp outside)
  next inside =>
    have indent := not_not.mp (mt width_outside.mpr inside)
    split
    next none =>
      constructor
      · rintro ⟨⟩
      · rintro ⟨_, valid⟩
        exact absurd (by simpa using none) valid.some
    next some =>
      cases found : s.callees.find? fun name => !Literal.isBareName name with
      | some name =>
        have bad : Literal.isBareName name = false := by simpa using List.find?_some found
        constructor
        · rintro ⟨⟩
        · rintro ⟨_, valid⟩
          rw [valid.names name (List.mem_of_find?_eq_some found)] at bad
          cases bad
      | none =>
        constructor
        · rintro ⟨⟩
          exact ⟨rfl, indent, by simpa using some, by simpa using found⟩
        · rintro ⟨rfl, _⟩
          rfl

/-! ## What documents say -/

section Said

variable [Format] {α : Type} {node : Format.Node} {fields rest : List (List Char × Format.Node)}
  {members : List (List Char × Data)} {name other : String} {fallback : α}
  {read : Format.Node → Option α}

/-- A mapping of known members is taken as it is. -/
theorem fields?_shows (known : List String) (shows : Format.Shows node (.mapping members))
    (names : members.map Prod.fst = known.map String.toList) (once : known.Nodup) :
    ∃ fields, fields? known node = some fields ∧ Format.ShowAll fields members := by
  rw [Format.Shows] at shows
  obtain ⟨_, fields, listed, all⟩ := shows
  have keys : fields.map (·.1) = known.map String.toList := all.names.trans names
  have nodup : (known.map String.toList).Nodup :=
    List.Pairwise.map String.toList (fun _ _ differ same => differ (String.toList_inj.mp same)) once
  have inside : fields.all (fun pair => known.contains (String.ofList pair.1)) = true := by
    rw [List.all_eq_true]
    intro pair member
    have listed : pair.1 ∈ known.map String.toList := keys ▸ List.mem_map_of_mem member
    obtain ⟨name, inKnown, is⟩ := List.mem_map.mp listed
    simpa [← is] using inKnown
  refine ⟨fields, ?_, all⟩
  rw [fields?, listed]
  simp only [Option.bind_eq_bind, Option.bind_some]
  rw [if_pos ⟨inside, keys ▸ nodup⟩]

theorem field?_here : field? ((name.toList, node) :: rest) name fallback read = read node := by
  simp [field?]

theorem field?_later (differs : name ≠ other) :
    field? ((other.toList, node) :: rest) name fallback read = field? rest name fallback read := by
  have keys : (name.toList == other.toList) = false :=
    beq_eq_false_iff_ne.mpr fun same => differs (String.toList_inj.mp same)
  simp [field?, List.lookup_cons, keys]

theorem orNull_some (given : Format.isNull? node = some false) : orNull read node = (read node).map some := by
  rw [orNull, given]
  rfl

/-- The section on printing. -/
theorem readPrinter_shows (base : Settings) (bound : s.indentWidth < Nat.pow 2 64)
    (shows : Format.Shows node (.mapping
      [("indent_width".toList, .number s.indentWidth), ("use_tabs".toList, .bool s.useTabs)])) :
    readPrinter base node = some { base with indentWidth := s.indentWidth, useTabs := s.useTabs } := by
  obtain ⟨fields, read, all⟩ := fields?_shows ["indent_width", "use_tabs"] shows rfl (by decide)
  simp only [Format.ShowAll, Format.Shows] at all
  obtain ⟨width, _, rfl, ⟨_, number⟩, tabs, _, rfl, ⟨_, bool⟩, rfl⟩ := all
  rw [readPrinter, read]
  simp only [Option.bind_eq_bind, Option.bind_some]
  rw [field?_here, number _ bound, Option.bind_some, field?_later (by decide), field?_here, bool, Option.bind_some]

/-- The section on analysis. -/
theorem readAnalysis_shows (base : Settings)
    (shows : Format.Shows node (.mapping [("dispatch_callees".toList, .texts s.callees)])) :
    readAnalysis base node = some { base with callees := s.callees } := by
  obtain ⟨fields, read, all⟩ := fields?_shows ["dispatch_callees"] shows rfl (by decide)
  simp only [Format.ShowAll, Format.Shows] at all
  obtain ⟨list, _, rfl, ⟨_, texts⟩, rfl⟩ := all
  rw [readAnalysis, read]
  simp only [Option.bind_eq_bind, Option.bind_some]
  rw [field?_here, texts, Option.bind_some]

/-- The section on files. -/
theorem readFacade_shows (base : Settings)
    (shows : Format.Shows node (.mapping [("allow_overwrite".toList, .bool s.allowOverwrite)])) :
    readFacade base node = some { base with allowOverwrite := s.allowOverwrite } := by
  obtain ⟨fields, read, all⟩ := fields?_shows ["allow_overwrite"] shows rfl (by decide)
  simp only [Format.ShowAll, Format.Shows] at all
  obtain ⟨overwrite, _, rfl, ⟨_, bool⟩, rfl⟩ := all
  rw [readFacade, read]
  simp only [Option.bind_eq_bind, Option.bind_some]
  rw [field?_here, bool, Option.bind_some]

/-- A section that is a mapping is read as one. -/
theorem readSection_shows {read : Settings → Format.Node → Option Settings} {base next : Settings}
    (listed : fields.lookup name.toList = some node) (shows : Format.Shows node (.mapping members))
    (is : read base node = some next) : readSection fields name read base = some next := by
  rw [Format.Shows] at shows
  rw [readSection, field?, listed]
  simp only [orNull_some shows.1, is]
  rfl

/-- The document of settings says the settings. -/
theorem ofNode?_shows (bound : s.indentWidth < Nat.pow 2 64) (shows : Format.Shows node (.mapping s.data)) :
    ofNode? node = some (some 1, s) := by
  obtain ⟨fields, read, all⟩ :=
    fields?_shows ["version", "printer", "analysis", "facade"] shows rfl (by decide)
  rw [data, Format.ShowAll] at all
  obtain ⟨version, _, rfl, number, all⟩ := all
  rw [Format.Shows] at number
  rw [Format.ShowAll] at all
  obtain ⟨printer, _, rfl, printing, all⟩ := all
  rw [Format.ShowAll] at all
  obtain ⟨analysis, _, rfl, analysing, all⟩ := all
  rw [Format.ShowAll] at all
  obtain ⟨facade, _, rfl, files, rfl⟩ := all
  rw [ofNode?, read]
  simp only [Option.bind_eq_bind, Option.bind_some]
  rw [field?_here, orNull_some number.1, number.2 (Nat.pow 2 32) (by decide), Option.map_some, Option.bind_some,
    readSection_shows (by rfl) printing (readPrinter_shows {} bound printing), Option.bind_some,
    readSection_shows (by rfl) analysing (readAnalysis_shows _ analysing), Option.bind_some,
    readSection_shows (by rfl) files (readFacade_shows _ files), Option.bind_some]

end Said

/-! ## Settings and their texts -/

/-- The document of valid settings is one that a format has to read back. -/
theorem plain_data (valid : s.Valid) (bound : s.indentWidth < Nat.pow 2 64) : (Data.mapping s.data).Plain := by
  have keys : (s.data.map Prod.fst).Nodup := by
    show ["version".toList, "printer".toList, "analysis".toList, "facade".toList].Nodup
    decide
  have printer : ["indent_width".toList, "use_tabs".toList].Nodup := by decide
  simp only [data] at keys ⊢
  simp only [Data.Plain, Data.AllPlain]
  refine ⟨List.cons_ne_nil _ _, keys, by decide, by decide, by decide,
    ⟨List.cons_ne_nil _ _, printer, by decide, bound, by decide, trivial, trivial⟩, by decide,
    ⟨List.cons_ne_nil _ _, List.pairwise_singleton _ _, by decide, ⟨valid.some, valid.names⟩, trivial⟩, by decide,
    ⟨List.cons_ne_nil _ _, List.pairwise_singleton _ _, by decide, trivial, trivial⟩, trivial⟩

section

variable [Format]

theorem ofText_text [Format.Lawful] (valid : s.Valid) (bound : s.indentWidth < Nat.pow 2 64) : ofText s.text = .ok s := by
  obtain ⟨node, read, shows⟩ := Format.Lawful.reads s.data (plain_data valid bound)
  rw [ofText, text, read, Option.bind_some, ofNode?_shows bound shows]
  simp only [if_true]
  exact check_eq_ok.mpr ⟨rfl, valid⟩

theorem valid_ofText {text : List Char} (read : ofText text = .ok s) : s.Valid := by
  rw [ofText] at read
  split at read
  · cases read
  · cases read
  next version base _ =>
    split at read
    · obtain ⟨rfl, valid⟩ := check_eq_ok.mp read
      exact valid
    · cases read

end

theorem valid_override {env : Environment} (made : s.override env = .ok s') : s'.Valid := by
  rw [override] at made
  cases overwritten : (s.overrideCallees (env calleesVariable)).overrideOverwrite (env overwriteVariable) with
  | error e =>
    rw [overwritten] at made
    cases made
  | ok s₁ =>
    cases indented : s₁.overrideIndent (env indentVariable) with
    | error e =>
      rw [overwritten, show (Except.ok s₁ >>= fun s => s.overrideIndent (env indentVariable) >>= check) =
        (s₁.overrideIndent (env indentVariable) >>= check) from rfl, indented] at made
      cases made
    | ok s₂ =>
      rw [overwritten, show (Except.ok s₁ >>= fun s => s.overrideIndent (env indentVariable) >>= check) =
        (s₁.overrideIndent (env indentVariable) >>= check) from rfl, indented] at made
      obtain ⟨rfl, valid⟩ := check_eq_ok.mp (made : s₂.check = .ok s')
      exact valid

/-- Settings from a text or from an environment are valid, and valid settings are read back from their text. The width of
    an indentation is a number of 64 bits. -/
theorem settings_return [Format] :
    (∀ s s' : Settings, s.check = .ok s' ↔ s' = s ∧ s.Valid) ∧
    (∀ text s, ofText text = .ok s → s.Valid) ∧
    (∀ (s : Settings) env s', s.override env = .ok s' → s'.Valid) ∧
    (Format.Lawful → ∀ s : Settings, s.Valid → s.indentWidth < Nat.pow 2 64 → ofText s.text = .ok s) :=
  ⟨fun _ _ => check_eq_ok, fun _ _ => valid_ofText, fun _ _ _ => valid_override, fun _ _ => ofText_text⟩

/-- Callees whose names are words for a truth value and for nothing. -/
def sample : Settings := { indentWidth := 9, useTabs := true, callees := ["true".toList, "null".toList, "$put".toList] }

/-- In the format of blocks. -/
theorem settings_return_sample :
    Format.Lawful ∧ sample.Valid ∧ sample.indentWidth < Nat.pow 2 64 ∧ ofText sample.text = .ok sample ∧
      sample.override (fun _ => none) = .ok sample := by
  have valid : sample.Valid := ⟨.inl rfl, by decide, by decide⟩
  have kept : sample.override (fun _ => none) = .ok sample := (settings_return.1 sample sample).mpr ⟨rfl, valid⟩
  exact ⟨inferInstance, settings_return.2.2.1 sample _ sample kept, by decide,
    settings_return.2.2.2 inferInstance sample valid (by decide), kept⟩

end Settings

end StoreModels
