/-
What labels, ids and property keys may be: tokens, so that they can stand in a key.
-/
import PropertyGraph.Key.Name
import PropertyGraph.Error

namespace PropertyGraph

/-- Refuses with a cause unless a condition holds. -/
def require (condition : Bool) (cause : Refusal) : Except Error Unit :=
  if condition then .ok () else .error (.refused cause)

namespace Validation

/-- A label is a token. -/
def label (label : String) : Except Error Unit := do
  require (!label.isEmpty) .labelEmpty
  require (Key.isToken label) (.labelInvalid label)

/-- An id is a token. -/
def id (id : String) : Except Error Unit := require (Key.isToken id) (.idInvalid id)

/-- An end of an edge is given by an id. -/
def endpoint (id : String) : Except Error Unit := do
  require (!id.isEmpty) .endpointEmpty
  Validation.id id

/-- A property key is a token; `id` and `label` are no properties. -/
def propertyKey (key : String) : Except Error Unit := do
  require (!key.isEmpty) .propertyKeyEmpty
  require (key != Key.idToken && key != Key.labelToken) (.propertyReserved key)
  require (Key.isToken key) (.propertyKeyInvalid key)

end Validation

end PropertyGraph
