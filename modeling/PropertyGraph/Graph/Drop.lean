/-
Dropping elements. A drop undoes what creating wrote, the entry that lists the element
first. A key that fails is noted and the others are still deleted, so a drop itself
does not fail.
-/
import PropertyGraph.Graph.Record

namespace PropertyGraph.Graph

variable {σ : Type} [Backend σ]

open Engine

/-- The keys that match a pattern; failures are noted. -/
def collectQuietly (pattern : String) : Run σ (List String) :=
  quietly pattern [] (keysDespite pattern [pattern])

/-- Deletes everything below the marker of an element. -/
def deleteChildren (kind : ElementKind) (id : String) : Run σ Unit := do
  (← collectQuietly (Key.elementChildren kind id)).forM deleteQuietly

/-- Drops an edge. -/
def dropEdge (id : String) : Run σ Unit := do
  let label ← quietly (Key.label .edge id) none (getLabel .edge id)
  let source ← quietly (Key.edgeFrom id) none (readText (Key.edgeFrom id))
  let target ← quietly (Key.edgeTo id) none (readText (Key.edgeTo id))
  deleteQuietly (Key.enumeration .edge id)
  unlinkEdge id label source target
  deleteChildren .edge id
  deleteQuietly (Key.element .edge id)

/-- Takes a vertex that is going out of the records of a neighbour. -/
def forgetNeighbor (neighbor : String) (direction : Direction) (label : Option String)
    (gone : String) : Run σ Unit := do
  deleteQuietly (Key.marker neighbor direction .vertices label gone)
  let index := Key.index neighbor direction .vertices label
  let _ ← quietly index false (removeFromIndex index gone true)

/-- Takes a vertex out of the records of every neighbour its own markers still name in
a direction. -/
def clearNeighbors (id : String) (direction : Direction) : Run σ Unit := do
  (← collectQuietly (Key.markerPattern id direction .vertices none)).forM fun key => do
    let neighbor := Key.lastToken key
    if neighbor != Key.indexToken then
      forgetNeighbor neighbor direction.reverse none id
  (← collectQuietly (Key.labeledMarkerPattern id direction .vertices)).forM fun key => do
    if let (some label, some neighbor) := (Key.token? key 3, Key.token? key 4) then
      if neighbor != Key.indexToken then
        forgetNeighbor neighbor direction.reverse (some label) id

/-- Drops a vertex and every edge at it. -/
def dropVertex (id : String) : Run σ Unit := do
  let incident ← quietly (Key.element .vertex id) [] (incidentEdges id)
  deleteQuietly (Key.enumeration .vertex id)
  incident.forM dropEdge
  clearNeighbors id .outgoing
  clearNeighbors id .incoming
  deleteChildren .vertex id
  deleteQuietly (Key.element .vertex id)

/-- The keys of a graph. -/
def allPatterns : List String := ["nodes.>", "edges.>", "node.>", "edge.>"]

/-- Drops the whole graph. Only opening the scan can fail. -/
def dropAll : Attempt σ Unit := do
  let doomed ← keysDespite "graph" allPatterns
  (doomed.forM deleteQuietly : Run σ Unit)

end PropertyGraph.Graph
