/-
Steps: operations whose arguments were checked.
-/
import PropertyGraph.Chain.Call
import PropertyGraph.Element

namespace PropertyGraph

/-- Which ends of an edge a step goes to. -/
inductive EdgeTo where
  | target
  | source
  | both
  /-- The end that is not a known vertex. -/
  | other (known : Option String)
deriving DecidableEq, Repr

/-- A step of a plan. -/
inductive Step where
  /-- Where every plan starts. -/
  | root
  | vertices (ids : Selection)
  | edges (ids : Selection)
  | addVertex (label : String)
  | addEdge (label source target : String)
  | dropGraph
  /-- The vertices of a label, found by the entries of the label. No operation asks for
  it; a rule of the optimizer does. -/
  | verticesWithLabel (label : String)
  | adjacent (direction : Direction) (adjacency : Adjacency) (labels : List String)
  | bothEdges (labels : List String)
  | edgeVertex (ends : EdgeTo)
  | has (key : String) (value : Json)
  | property (key : String) (value : Json)
  | drop
  | id
  | label
  | properties (keys : List String)
  | valueMap (keys : List String)
  | limit (n : Nat)
  | count
deriving DecidableEq

/-- How a step works on what comes before it. -/
def Step.shape : Step → Shape
  | .root | .vertices _ | .edges _ | .addVertex _ | .addEdge .. | .verticesWithLabel _
  | .adjacent .. | .bothEdges _ | .edgeVertex _ => .factory
  | .dropGraph | .has .. | .property .. | .drop | .id | .label | .properties _ | .valueMap _
  | .limit _ | .count => .transform

end PropertyGraph
