import StoreModels.Literal.Quoted
import StoreModels.Yaml.Format

/-!
What a format has to do: data that were written are read back.
-/
namespace StoreModels.Yaml

/-- A bare name that may stand before a colon: the format allows 1024 characters there. -/
def IsKey (key : List Char) : Prop := Literal.isBareName key = true ∧ key.length ≤ 1024

instance (key : List Char) : Decidable (IsKey key) := inferInstanceAs (Decidable (_ ∧ _))

mutual

/-- Data of bare names, numbers of 64 bits and truth values, with something in each collection. -/
def Data.Plain : Data → Prop
  | .bool _ => True
  | .number n => n < Nat.pow 2 64
  | .texts items => items ≠ [] ∧ ∀ item ∈ items, Literal.isBareName item = true
  | .mapping members => members ≠ [] ∧ (members.map Prod.fst).Nodup ∧ Data.AllPlain members

@[inherit_doc Data.Plain]
def Data.AllPlain : List (List Char × Data) → Prop
  | [] => True
  | (key, data) :: members => IsKey key ∧ data.Plain ∧ Data.AllPlain members

end

namespace Format

variable [Format]

mutual

/-- A node says what the data are: it stands for something, and where a value of their type is wanted it is this value. -/
def Shows (node : Node) : Data → Prop
  | .bool b => isNull? node = some false ∧ bool? node = some b
  | .number n => isNull? node = some false ∧ ∀ limit, n < limit → number? limit node = some n
  | .texts items => isNull? node = some false ∧ (items? node).bind (List.mapM text?) = some items
  | .mapping members => isNull? node = some false ∧ ∃ fields, members? node = some fields ∧ ShowAll fields members

/-- The fields of a document have the names and say the values of the members. -/
def ShowAll (fields : List (List Char × Node)) : List (List Char × Data) → Prop
  | [] => fields = []
  | (key, data) :: members => ∃ node rest, fields = (key, node) :: rest ∧ Shows node data ∧ ShowAll rest members

end

/-- A writer whose texts the reader reads back. -/
class Lawful : Prop where
  reads : ∀ members, (Data.mapping members).Plain → ∃ node, read? (write members) = some node ∧ Shows node (.mapping members)

variable {fields : List (List Char × Node)} {members : List (List Char × Data)}

/-- The names are those of the members. -/
theorem ShowAll.names (all : ShowAll fields members) : fields.map Prod.fst = members.map Prod.fst := by
  induction members generalizing fields with
  | nil =>
    rw [ShowAll] at all
    rw [all]
    rfl
  | cons member members ih =>
    rw [ShowAll] at all
    obtain ⟨node, rest, rfl, _, more⟩ := all
    rw [List.map_cons, List.map_cons, ih more]

end Format

end StoreModels.Yaml
