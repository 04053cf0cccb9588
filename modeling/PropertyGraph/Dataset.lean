/-
Made-up graphs: vertices by number, each with a label, and edges between them. A dataset
is generated from draws, or given, and loaded into a graph.
-/
import PropertyGraph.Graph.Record

namespace PropertyGraph

/-- An edge of a dataset, from one vertex to another. -/
structure EdgeSpec where
  source : Nat
  target : Nat
  label : String
deriving DecidableEq, Repr

/-- A graph before it is loaded. -/
structure Dataset where
  /-- The label of each vertex. -/
  labels : List String
  edges : List EdgeSpec
deriving DecidableEq, Repr

/-- The shapes that can be generated. -/
inductive GraphShape where
  /-- Each vertex has an edge to the next. -/
  | line
  /-- The first vertex has an edge to every other. -/
  | star
  | random (edges : Nat)
deriving DecidableEq, Repr

namespace Dataset

/-- The labels of generated vertices. -/
def vertexLabels : List String := ["person", "software", "place"]

/-- The labels of generated edges. -/
def edgeLabels : List String := ["knows", "uses"]

/-! ## Counting -/

def nodeCount (d : Dataset) : Nat := d.labels.length

def edgeCount (d : Dataset) : Nat := d.edges.length

/-- The number of vertices of a label. -/
def labelCount (d : Dataset) (label : String) : Nat := d.labels.count label

/-- The number of edges that leave a vertex. -/
def outDegree (d : Dataset) (i : Nat) : Nat := d.edges.countP (·.source == i)

/-- The first vertex that the most edges leave, or 0. -/
def hub (d : Dataset) : Nat :=
  ((List.range d.nodeCount).foldl
    (fun (best, hub) i =>
      if best < d.outDegree i then (d.outDegree i, i) else (best, hub)) (0, 0)).2

/-- Whether each edge joins two different vertices of the dataset. -/
def isValid (d : Dataset) : Bool :=
  d.edges.all fun e => e.source < d.nodeCount && e.target < d.nodeCount && e.source != e.target

/-! ## Generating -/

/-- A source of draws: the draw with a number, below a bound. -/
abbrev Draws := (index bound : Nat) → Nat

/-- The draw with a number, which is below the bound whatever the source says. -/
def draw (draws : Draws) (index bound : Nat) : Nat := draws index bound % bound

/-- The item of a list that is drawn. -/
def pick (draws : Draws) (index : Nat) (items : List String) : String :=
  items.getD (draw draws index items.length) ""

/-- An edge between different vertices, by three draws from a number on. -/
def randomEdge (draws : Draws) (nodes index : Nat) : EdgeSpec :=
  let source := draw draws index nodes
  let other := draw draws (index + 1) (nodes - 1)
  ⟨source, if source ≤ other then other + 1 else other, pick draws (index + 2) edgeLabels⟩

/-- The edges of a shape. The first draws are for the vertices. -/
def shapeEdges (draws : Draws) (nodes : Nat) : GraphShape → List EdgeSpec
  | .line => (List.range (nodes - 1)).map fun i => ⟨i, i + 1, "knows"⟩
  | .star => (List.range (nodes - 1)).map fun i => ⟨0, i + 1, "knows"⟩
  | .random edges => (List.range edges).map fun i => randomEdge draws nodes (nodes + 3 * i)

/-- Generates a dataset of at least two vertices. -/
def generate? (draws : Draws) (shape : GraphShape) (nodes : Nat) : Option Dataset :=
  if nodes < 2 then none
  else
    some ⟨(List.range nodes).map fun i => pick draws i vertexLabels,
      shapeEdges draws nodes shape⟩

/-! ## Loading -/

variable {σ : Type} [Backend σ]

/-- The property that holds the number of a vertex. -/
def indexKey : String := "idx"

/-- Creates the vertices, from a number on. -/
def loadVertices : (start : Nat) → List String → Attempt σ (List String)
  | _, [] => return []
  | start, label :: rest => do
    let id ← Graph.createVertex label
    Graph.setProperty .vertex id indexKey (.nat start)
    return id :: (← loadVertices (start + 1) rest)

/-- Creates the edges. Nothing if an edge ends at a vertex that is not there. -/
def loadEdges? (ids : List String) : List EdgeSpec → Attempt σ (Option Unit)
  | [] => return some ()
  | e :: rest => do
    match ids[e.source]?, ids[e.target]? with
    | some source, some target => do
      let _ ← Graph.createEdge e.label source target
      loadEdges? ids rest
    | _, _ => return none

/-- Loads a dataset and returns the ids of its vertices. -/
def load? (d : Dataset) : Attempt σ (Option (List String)) := do
  let ids ← loadVertices 0 d.labels
  return (← loadEdges? ids d.edges).map fun _ => ids

end Dataset

end PropertyGraph
