import StoreModels.Syntax.Grammar.Rule

/-!
Productions: the alternatives of a part written out as sequences of steps. Repetitions become parts of their own, made
of two repetitions or of what is repeated, and inlined parts are replaced by their alternatives.
-/
namespace StoreModels.Syntax

/-- What a step of a production reads. -/
inductive Atom
  | token (t : Token)
  | part (name : String)
  deriving DecidableEq, Hashable, Repr

/-- One step of a production, with the rank and side of the rule that it belongs to, and the label and field that it
    gives to what it reads. -/
structure Step (α : Type) where
  symbol : α
  rank : Rank
  side : Option Side
  label : Option Label
  field : Option String
  deriving DecidableEq, Hashable

/-- A sequence of steps and the weight of a reading by it. -/
structure Expansion where
  steps : List (Step Atom)
  weight : Int
  deriving DecidableEq, Hashable

namespace Expansion

/-- The heavier of two weights, whatever their signs; the first if none is. -/
def heavier (a b : Int) : Int := if a.natAbs < b.natAbs then b else a

/-- One expansion after another. -/
def append (a b : Expansion) : Expansion := ⟨a.steps ++ b.steps, heavier a.weight b.weight⟩

end Expansion

/-! ## Repetitions -/

/-- The repetitions met so far, each with the name of its part. -/
abbrev Repetitions := List (Rule × String)

namespace Repetitions

/-- The part of a repetition: one rule has one part, wherever it is repeated. -/
def partFor (known : Repetitions) (rule : Rule) : String × Repetitions :=
  match known.find? (·.1 == rule) with
  | some (_, name) => (name, known)
  | none =>
    let name := "repetition " ++ toString known.length
    (name, (rule, name) :: known)

end Repetitions

mutual

/-- The rule with each repetition replaced by its part. -/
def Rule.withoutRepetition : Rule → Repetitions → Rule × Repetitions
  | .token t, known => (.token t, known)
  | .part name, known => (.part name, known)
  | .seq rules, known =>
    let (rules, known) := withoutRepetitions rules known
    (.seq rules, known)
  | .choice rules, known =>
    let (rules, known) := withoutRepetitions rules known
    (.choice rules, known)
  | .many1 rule, known =>
    let (rule, known) := rule.withoutRepetition known
    let (name, known) := known.partFor rule
    (.part name, known)
  | .ranked rank rule, known =>
    let (rule, known) := rule.withoutRepetition known
    (.ranked rank rule, known)
  | .nested rank side rule, known =>
    let (rule, known) := rule.withoutRepetition known
    (.nested rank side rule, known)
  | .weighted weight rule, known =>
    let (rule, known) := rule.withoutRepetition known
    (.weighted weight rule, known)
  | .field name rule, known =>
    let (rule, known) := rule.withoutRepetition known
    (.field name rule, known)
  | .labelled label rule, known =>
    let (rule, known) := rule.withoutRepetition known
    (.labelled label rule, known)

/-- The same for each rule of a list. -/
def Rule.withoutRepetitions : List Rule → Repetitions → List Rule × Repetitions
  | [], known => ([], known)
  | rule :: rest, known =>
    let (rule, known) := rule.withoutRepetition known
    let (rest, known) := withoutRepetitions rest known
    (rule :: rest, known)

end

/-! ## Alternatives -/

/-- What the rules around a rule say about its steps, and whether the rule ends the alternative it is in. -/
structure Surroundings where
  rank : Rank
  side : Option Side
  label : Option Label
  field : Option String
  atEnd : Bool

namespace Surroundings

/-- The surroundings of the rule of a part. -/
def none : Surroundings := ⟨.undecided, .none, .none, .none, true⟩

/-- The step that reads an atom. -/
def step (s : Surroundings) (symbol : Atom) : Step Atom := ⟨symbol, s.rank, s.side, s.label, s.field⟩

/-- A ranked rule inside others binds only up to its last step, which has the rank of the rule around it. -/
def close (s : Surroundings) (sided : Bool) (e : Expansion) : Expansion :=
  match s.atEnd, e.steps.reverse with
  | false, last :: front =>
    let last := { last with rank := s.rank, side := if sided then s.side else last.side }
    { e with steps := (last :: front).reverse }
  | _, _ => e

end Surroundings

mutual

/-- The alternatives of a rule. -/
def Rule.alternatives (s : Surroundings) : Rule → List Expansion
  | .token t => [⟨[s.step (.token t)], 0⟩]
  | .part name => [⟨[s.step (.part name)], 0⟩]
  | .seq rules => sequences s rules
  | .choice rules => choices s rules
  | .many1 _ => []
  | .ranked rank rule => (rule.alternatives { s with rank }).map (s.close false)
  | .nested rank side rule => (rule.alternatives { s with rank, side }).map (s.close true)
  | .weighted weight rule => (rule.alternatives s).map fun e =>
    { e with weight := Expansion.heavier e.weight weight }
  | .field name rule => rule.alternatives { s with field := name }
  | .labelled label rule => rule.alternatives { s with label }

/-- The alternatives of rules one after another. -/
def Rule.sequences (s : Surroundings) : List Rule → List Expansion
  | [] => [⟨[], 0⟩]
  | rule :: rest =>
    let later := sequences s rest
    (rule.alternatives { s with atEnd := s.atEnd && rest.isEmpty }).flatMap fun e => later.map e.append

/-- The alternatives of several rules. -/
def Rule.choices (s : Surroundings) : List Rule → List Expansion
  | [] => []
  | rule :: rest => rule.alternatives s ++ choices s rest

end

/-! ## Inlined parts -/

/-- The steps of an alternative in the place of the step that names its part: a label or field of that step goes to all
    of them, its rank and side to the last one if that has none. -/
def Step.replacedBy (step : Step Atom) (e : Expansion) : Expansion :=
  let labelled := e.steps.map fun t =>
    { t with label := step.label.or t.label, field := step.field.or t.field }
  match labelled.reverse with
  | [] => e
  | last :: front =>
    let rank := if last.rank = .undecided then step.rank else last.rank
    { e with steps := ({ last with rank, side := last.side.or step.side } :: front).reverse }

/-- The alternatives with their steps replaced that name inlined parts. -/
def Expansion.inline (bodies : List (String × List Expansion)) : Nat → List (Step Atom) → List Expansion
  | 0, steps => [⟨steps, 0⟩]
  | _, [] => [⟨[], 0⟩]
  | depth + 1, step :: rest =>
    let heads : List Expansion := match step.symbol with
      | .part name => match bodies.lookup name with
        | some body => body.flatMap fun e =>
          let e := step.replacedBy e
          (inline bodies depth e.steps).map fun e' => { e' with weight := Expansion.heavier e.weight e'.weight }
        | none => [⟨[step], 0⟩]
      | .token _ => [⟨[step], 0⟩]
    let tails := inline bodies depth rest
    heads.flatMap fun e => tails.map e.append

end StoreModels.Syntax
