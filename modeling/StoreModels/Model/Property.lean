/-!
The properties of a store model. A model is an object literal with a namespace and at least one of the others; three of
them hold named entries.
-/
namespace StoreModels

/-- The properties whose values are objects with named entries. -/
inductive Container
  | reducers
  | effects
  | subscriptions
  deriving DecidableEq, Repr

namespace Container

def all : List Container := [reducers, effects, subscriptions]

/-- The key of the property. -/
def key : Container → String
  | reducers => "reducers"
  | effects => "effects"
  | subscriptions => "subscriptions"

/-- What one of its entries is called. -/
def label : Container → String
  | reducers => "reducer"
  | effects => "effect"
  | subscriptions => "subscription"

/-- The value of an entry that is added without one. -/
def defaultSource : Container → String
  | reducers => "function(state) \x7b\n  return state;\n\x7d"
  | effects => "function* (action, \x7b call, put \x7d) \x7b\x7d"
  | subscriptions => "function (\x7b dispatch, history \x7d) \x7b\x7d"

/-- Whether the actions that its entries dispatch are recorded. -/
def tracksDispatches : Container → Bool
  | reducers => false
  | _ => true

/-- The container with a key. -/
def ofKey? (key : String) : Option Container := all.find? (·.key == key)

end Container

/-- The properties of a model. -/
inductive Property
  | nameSpace
  | state
  | container (c : Container)
  deriving DecidableEq, Repr

namespace Property

def all : List Property := [Property.nameSpace, state] ++ Container.all.map container

def name : Property → String
  | Property.nameSpace => "namespace"
  | state => "state"
  | container c => c.key

/-- The property with a name. -/
def ofName? (name : String) : Option Property := all.find? (·.name == name)

/-- Whether the property, besides a namespace, makes an object literal a model. -/
def makesModel : Property → Bool
  | Property.nameSpace => false
  | _ => true

def container? : Property → Option Container
  | container c => some c
  | _ => none

end Property

end StoreModels
