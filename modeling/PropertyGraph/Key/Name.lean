/-
The names of the records of a graph.

    node.<id>                       a vertex; the value is its id
    node.<id>.label                 its label
    node.<id>.label.<label>         the same, to be found by label
    node.<id>.property.<key>        the JSON text of a property
    node.<id>.outE.<edge>           an edge leaving it (inE: entering)
    node.<id>.outV.<vertex>         a vertex an edge leads to (inV: from)
    node.<id>.outE.__index          the list of all ids of that kind
    nodes.<id>                      lists the vertex, written last
    edge.<id>, edge.<id>.label, edge.<id>.property.<key>
    edge.<id>.incoming, edge.<id>.outgoing
    edges.<id>

The four families of neighbours exist once for all edges, as above, and once for
each label, with the label as a token before the last.
-/
import PropertyGraph.Key.Token
import PropertyGraph.Element

namespace PropertyGraph

/-- The first token of the records of an element. -/
def ElementKind.root : ElementKind → String
  | .vertex => "node"
  | .edge => "edge"

/-- The first token of the listing of all elements of a kind. -/
def ElementKind.listing : ElementKind → String
  | .vertex => "nodes"
  | .edge => "edges"

namespace Key

/-- The token under which a list of ids stands beside its markers. -/
def indexToken : String := "__index"

/-- The record of the label, and the name a filter gives it. -/
def labelToken : String := "label"

/-- The name a filter gives the id. -/
def idToken : String := "id"

/-- The marker of an element. -/
def element (kind : ElementKind) (id : String) : String := join [kind.root, id]

/-- The entry that lists an element. -/
def enumeration (kind : ElementKind) (id : String) : String := join [kind.listing, id]

/-- All listed elements of a kind. -/
def enumerationPattern (kind : ElementKind) : String := join [kind.listing, "*"]

/-- Every record below the marker of an element. -/
def elementChildren (kind : ElementKind) (id : String) : String := join [kind.root, id, ">"]

/-- The label of an element. -/
def label (kind : ElementKind) (id : String) : String := join [kind.root, id, labelToken]

/-- The entry by which a label finds a vertex. -/
def labelEntry (id label : String) : String := join ["node", id, labelToken, label]

/-- The vertices of a label. -/
def labelScan (label : String) : String := join ["node", "*", labelToken, label]

/-- A property of an element. -/
def property (kind : ElementKind) (id key : String) : String :=
  join [kind.root, id, "property", key]

/-- All properties of an element. -/
def propertyPattern (kind : ElementKind) (id : String) : String :=
  join [kind.root, id, "property", "*"]

/-- Where an edge comes from. -/
def edgeFrom (id : String) : String := join ["edge", id, "incoming"]

/-- Where an edge leads to. -/
def edgeTo (id : String) : String := join ["edge", id, "outgoing"]

/-- The token of a family of neighbours. -/
def segment : Direction → Adjacency → String
  | .outgoing, .edges => "outE"
  | .incoming, .edges => "inE"
  | .outgoing, .vertices => "outV"
  | .incoming, .vertices => "inV"

/-- The tokens before the last of a family of neighbours: of all edges, or of the
edges of one label. -/
def family (vertex : String) (direction : Direction) (adjacency : Adjacency)
    (label : Option String) : List String :=
  ["node", vertex, segment direction adjacency] ++ label.toList

/-- The marker of one neighbour. -/
def marker (vertex : String) (direction : Direction) (adjacency : Adjacency)
    (label : Option String) (target : String) : String :=
  join (family vertex direction adjacency label ++ [target])

/-- The list of all neighbours. -/
def index (vertex : String) (direction : Direction) (adjacency : Adjacency)
    (label : Option String) : String :=
  join (family vertex direction adjacency label ++ [indexToken])

/-- The markers of all neighbours, and the list beside them. -/
def markerPattern (vertex : String) (direction : Direction) (adjacency : Adjacency)
    (label : Option String) : String :=
  join (family vertex direction adjacency label ++ ["*"])

/-- The markers by label, for every label. -/
def labeledMarkerPattern (vertex : String) (direction : Direction) (adjacency : Adjacency) :
    String :=
  join ["node", vertex, segment direction adjacency, "*", "*"]

end Key

end PropertyGraph
