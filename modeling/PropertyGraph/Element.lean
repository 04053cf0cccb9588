/-
The two kinds of element of a property graph, and how an edge touches a vertex.
-/

namespace PropertyGraph

/-- The kinds of element. -/
inductive ElementKind where
  | vertex
  | edge
deriving DecidableEq, Repr

/-- The kind as a heading: with a capital letter. -/
def ElementKind.title : ElementKind → String
  | .vertex => "Vertex"
  | .edge => "Edge"

/-- Which way an edge runs, seen from a vertex. -/
inductive Direction where
  | outgoing
  | incoming
deriving DecidableEq, Repr

/-- The direction seen from the other end. -/
def Direction.reverse : Direction → Direction
  | .outgoing => .incoming
  | .incoming => .outgoing

@[simp]
theorem Direction.reverse_reverse (d : Direction) : d.reverse.reverse = d := by cases d <;> rfl

/-- What lies next to a vertex: the edges at it, or the vertices at their other
ends. -/
inductive Adjacency where
  | edges
  | vertices
deriving DecidableEq, Repr

end PropertyGraph
