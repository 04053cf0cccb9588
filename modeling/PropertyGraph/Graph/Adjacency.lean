/-
The neighbours of a vertex: a marker for each, and beside the markers a list of all
ids in the order they came.

A list of edges holds each edge once. A list of vertices holds an entry for each edge,
so that of parallel edges the last one takes the neighbour away.
-/
import PropertyGraph.Graph.Engine
import PropertyGraph.Key.Name

namespace PropertyGraph.Graph

variable {σ : Type} [Backend σ]

open Engine

/-! ## Lists of ids -/

/-- The stored form of a list of ids. -/
def idList (ids : List String) : Blob := .text (Json.strings ids).text

/-- The list of ids under a key. One that cannot be read is noted and counts as
absent. -/
def readIndex (key : String) : Attempt σ (Option (List String)) := do
  match ← call (Backend.get key) with
  | none => return none
  | some entry =>
    match entry.value.ids? with
    | some ids => return some ids
    | none =>
      (note (.corruptIndex key) : Run σ Unit)
      return none

/-- Appends an id to the list under a key. A list of distinct ids is left alone if it
holds the id. -/
def pushIndex (key id : String) (distinct : Bool) : Attempt σ Unit := do
  let ids := (← readIndex key).getD []
  if distinct && ids.contains id then return ()
  let _ ← call (Backend.update key (idList (ids ++ [id])))

/-- Takes one occurrence of an id, or every one, out of the list under a key, and tells
whether the list still holds it. -/
def removeFromIndex (key id : String) (all : Bool) : Attempt σ Bool := do
  match ← readIndex key with
  | none => return false
  | some ids =>
    let left := if all then ids.filter (· != id) else ids.erase id
    if left.length != ids.length then
      let _ ← call (Backend.update key (idList left))
    return left.contains id

/-- Deletes a key; a failure is noted. -/
def deleteQuietly (key : String) : Run σ Unit := quietly key () (call (Backend.delete key))

/-! ## Reading -/

/-- The ids next to a vertex: from the list if it can be read, else from the markers.
Neighbouring vertices may come more than once. -/
def adjacentIds (vertex : String) (direction : Direction) (adjacency : Adjacency)
    (label : Option String) : Attempt σ (List String) := do
  match ← readIndex (Key.index vertex direction adjacency label) with
  | some ids => return ids
  | none =>
    let keys ← keysMatching (Key.markerPattern vertex direction adjacency label)
    return (keys.map Key.lastToken).filter (· != Key.indexToken)

/-- Appends the ids that are not there yet, each once. -/
def union (seen ids : List String) : List String :=
  ids.foldl (fun seen id => if seen.contains id then seen else seen ++ [id]) seen

/-- The edges at a vertex, leaving before entering; a loop comes once. -/
def incidentEdges (vertex : String) : Attempt σ (List String) := do
  let leaving ← adjacentIds vertex .outgoing .edges none
  let entering ← adjacentIds vertex .incoming .edges none
  return union (union [] leaving) entering

/-! ## Linking -/

/-- One end of an edge: the vertex there, the way the edge runs from it, and the vertex
at the other end. -/
structure EdgeEnd (α : Type) where
  vertex : α
  direction : Direction
  other : α

/-- Both ends of an edge, the one it leaves first. -/
def edgeEnds {α : Type} (source target : α) : List (EdgeEnd α) :=
  [⟨source, .outgoing, target⟩, ⟨target, .incoming, source⟩]

/-- Links an edge at one end, among all edges or among those of its label. -/
def linkEnd (edge : String) (e : EdgeEnd String) (label : Option String) :
    Attempt σ Unit := do
  let _ ← call (Backend.create (Key.marker e.vertex e.direction .edges label edge) (.text ""))
  let _ ← call (Backend.put (Key.marker e.vertex e.direction .vertices label e.other) (.text ""))
  pushIndex (Key.index e.vertex e.direction .edges label) edge true
  pushIndex (Key.index e.vertex e.direction .vertices label) e.other false

/-- Links an edge at both ends. -/
def linkEdge (edge label source target : String) : Attempt σ Unit :=
  (edgeEnds source target).forM fun e => do
    linkEnd edge e none
    linkEnd edge e (some label)

/-- Unlinks an edge at one end. The marker of the neighbour stays while the list still
holds it. -/
def unlinkEnd (edge vertex : String) (direction : Direction) (other : Option String)
    (label : Option String) : Run σ Unit := do
  deleteQuietly (Key.marker vertex direction .edges label edge)
  let edges := Key.index vertex direction .edges label
  let _ ← quietly edges false (removeFromIndex edges edge true)
  if let some other := other then
    let vertices := Key.index vertex direction .vertices label
    let stillLinked ← quietly vertices false (removeFromIndex vertices other false)
    if !stillLinked then
      deleteQuietly (Key.marker vertex direction .vertices label other)

/-- Unlinks an edge as far as its label and ends are known. -/
def unlinkEdge (edge : String) (label source target : Option String) : Run σ Unit :=
  (edgeEnds source target).forM fun e => do
    if let some vertex := e.vertex then
      unlinkEnd edge vertex e.direction e.other none
      if let some label := label then
        unlinkEnd edge vertex e.direction e.other (some label)

end PropertyGraph.Graph
