/-
The records of vertices and edges: creating elements, and reading and writing what is
known of them.
-/
import PropertyGraph.Graph.Adjacency
import PropertyGraph.Graph.Validation

namespace PropertyGraph.Graph

variable {σ : Type} [Backend σ]

open Engine

/-! ## Reading -/

/-- Whether an element is marked as existing. -/
def elementExists (kind : ElementKind) (id : String) : Attempt σ Bool :=
  return (← call (Backend.get (Key.element kind id))).isSome

/-- The text under a key. -/
def readText (key : String) : Attempt σ (Option String) :=
  return (← call (Backend.get key)).map (·.value.string)

/-- The label of an element. -/
def getLabel (kind : ElementKind) (id : String) : Attempt σ (Option String) :=
  readText (Key.label kind id)

/-- The JSON value of a stored value. -/
def readJson (entry : Entry) : Except Error Json :=
  match entry.value.json? with
  | some j => .ok j
  | none => .error .serialization

/-- A property of an element. -/
def getProperty (kind : ElementKind) (id key : String) : Attempt σ (Option Json) := do
  match ← call (Backend.get (Key.property kind id key)) with
  | some entry => return some (← MonadExcept.ofExcept (readJson entry))
  | none => return none

/-- All properties of an element, in the order of their keys. One that vanishes during
the scan is left out. -/
def properties (kind : ElementKind) (id : String) : Attempt σ (List (String × Json)) :=
  foldKeys
    (fun found item => do
      let key ← MonadExcept.ofExcept item
      match ← call (Backend.get key) with
      | none => return found
      | some entry =>
        let value ← MonadExcept.ofExcept (readJson entry)
        return Json.insertField (Key.lastToken key) value found)
    [] [Key.propertyPattern kind id]

/-- The ends of an edge as far as they are recorded. -/
structure Endpoints where
  source : Option String
  target : Option String
deriving DecidableEq, Repr

/-- The ends of an edge. If only one is recorded, that is noted. -/
def edgeEndpoints (id : String) : Attempt σ Endpoints := do
  let source ← readText (Key.edgeFrom id)
  let target ← readText (Key.edgeTo id)
  if source.isSome != target.isSome then
    (note (.halfEdge id) : Run σ Unit)
  return ⟨source, target⟩

/-! ## Streams of ids -/

/-- Opens the stream of all elements of a kind. -/
def scanElements (kind : ElementKind) : Attempt σ KeyStream :=
  call (Backend.keys [Key.enumerationPattern kind])

/-- The id in a key that lists an element. -/
def listedId (key : String) : String := Key.lastToken key

/-- Opens the stream of the vertices of a label. -/
def scanLabel (label : String) : Attempt σ KeyStream :=
  call (Backend.keys [Key.labelScan label])

/-- The id in a key that finds a vertex by its label. -/
def labeledId? (key : String) : Option String := Key.token? key 1

/-- All elements of a kind. -/
def elementIds (kind : ElementKind) : Attempt σ (List String) :=
  return (← keysMatching (Key.enumerationPattern kind)).map listedId

/-- All vertices of a label. -/
def verticesWithLabel (label : String) : Attempt σ (List String) :=
  return (← keysMatching (Key.labelScan label)).filterMap labeledId?

/-! ## Writing -/

/-- Creates a key. -/
def createKey (key value : String) : Attempt σ Unit := do
  let _ ← call (Backend.create key (.text value))

/-- Creates a vertex and returns its id. The entry that lists it is written last. -/
def createVertex (label : String) : Attempt σ String := do
  MonadExcept.ofExcept (Validation.label label)
  let id ← (freshId : Run σ String)
  createKey (Key.element .vertex id) id
  createKey (Key.label .vertex id) label
  createKey (Key.labelEntry id label) ""
  createKey (Key.enumeration .vertex id) ""
  return id

/-- Refuses a vertex that does not exist. -/
def requireVertex (id : String) : Attempt σ Unit := do
  if !(← elementExists .vertex id) then throw (.refused (.endpointMissing id))

/-- Creates an edge between two vertices and returns its id. Both have to exist before
an id is taken. -/
def createEdge (label source target : String) : Attempt σ String := do
  MonadExcept.ofExcept (Validation.label label)
  MonadExcept.ofExcept (Validation.endpoint source)
  MonadExcept.ofExcept (Validation.endpoint target)
  requireVertex source
  requireVertex target
  let id ← (freshId : Run σ String)
  createKey (Key.element .edge id) ""
  createKey (Key.label .edge id) label
  createKey (Key.edgeFrom id) source
  createKey (Key.edgeTo id) target
  linkEdge id label source target
  createKey (Key.enumeration .edge id) ""
  return id

/-- Sets a property of an element. -/
def setProperty (kind : ElementKind) (id key : String) (value : Json) : Attempt σ Unit := do
  MonadExcept.ofExcept (Validation.propertyKey key)
  let _ ← call (Backend.update (Key.property kind id key) (.text value.text))

end PropertyGraph.Graph
