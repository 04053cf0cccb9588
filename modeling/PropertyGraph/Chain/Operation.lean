/-
The operations of a query and the grammar that orders them. Each operation leaves
one of four types of result, and the table of a type lists what may follow it.
-/

namespace PropertyGraph

/-- What a step of a query yields. -/
inductive ResultType where
  | graph
  | vertex
  | edge
  | value
deriving DecidableEq, Repr

def ResultType.name : ResultType → String
  | .graph => "graph"
  | .vertex => "vertex"
  | .edge => "edge"
  | .value => "value"

/-- How a step works on what comes before it. -/
inductive Shape where
  /-- Called once for each item; the results take the item's place. -/
  | factory
  /-- Given the whole sequence of items, returns another one. -/
  | transform
deriving DecidableEq, Repr

/-- The operations a query is written with. -/
inductive Operation where
  | vertices
  | addVertex
  | edges
  | addEdge
  | drop
  | property
  | has
  | outVertices
  | inVertices
  | outEdges
  | inEdges
  | bothEdges
  | outVertex
  | inVertex
  | bothVertices
  | otherVertex
  | id
  | label
  | properties
  | valueMap
  | limit
  | count
deriving DecidableEq, Repr

namespace Operation

/-- Every operation, in the order of the reference. -/
def all : List Operation :=
  [.vertices, .addVertex, .edges, .addEdge, .drop, .property, .has, .outVertices, .inVertices,
    .outEdges, .inEdges, .bothEdges, .outVertex, .inVertex, .bothVertices, .otherVertex, .id,
    .label, .properties, .valueMap, .limit, .count]

/-- The name an operation has in a query. -/
def name : Operation → String
  | .vertices => "V"
  | .addVertex => "addV"
  | .edges => "E"
  | .addEdge => "addE"
  | .drop => "drop"
  | .property => "property"
  | .has => "has"
  | .outVertices => "out"
  | .inVertices => "in"
  | .outEdges => "outE"
  | .inEdges => "inE"
  | .bothEdges => "bothE"
  | .outVertex => "outV"
  | .inVertex => "inV"
  | .bothVertices => "bothV"
  | .otherVertex => "otherV"
  | .id => "id"
  | .label => "label"
  | .properties => "properties"
  | .valueMap => "valueMap"
  | .limit => "limit"
  | .count => "count"

/-- The operation of a name. -/
def ofName? (s : String) : Option Operation := all.find? (·.name == s)

theorem mem_all (op : Operation) : op ∈ all := by cases op <;> decide

@[simp]
theorem ofName?_name (op : Operation) : ofName? op.name = some op := by cases op <;> decide

end Operation

/-- What an operation yields after a given result type. -/
structure OperationRule where
  operation : Operation
  output : ResultType
  shape : Shape
deriving DecidableEq, Repr

namespace ResultType

/-- What may follow the start of a query. -/
def graphRules : List OperationRule :=
  [⟨.vertices, .vertex, .factory⟩, ⟨.addVertex, .vertex, .factory⟩, ⟨.edges, .edge, .factory⟩,
    ⟨.addEdge, .edge, .factory⟩, ⟨.drop, .value, .transform⟩]

/-- What may follow vertices. -/
def vertexRules : List OperationRule :=
  [⟨.property, .vertex, .transform⟩, ⟨.has, .vertex, .transform⟩,
    ⟨.outVertices, .vertex, .factory⟩, ⟨.inVertices, .vertex, .factory⟩,
    ⟨.outEdges, .edge, .factory⟩, ⟨.inEdges, .edge, .factory⟩, ⟨.bothEdges, .edge, .factory⟩,
    ⟨.drop, .value, .transform⟩, ⟨.id, .value, .transform⟩, ⟨.label, .value, .transform⟩,
    ⟨.properties, .value, .transform⟩, ⟨.valueMap, .value, .transform⟩,
    ⟨.limit, .vertex, .transform⟩, ⟨.count, .value, .transform⟩]

/-- What may follow edges. -/
def edgeRules : List OperationRule :=
  [⟨.property, .edge, .transform⟩, ⟨.has, .edge, .transform⟩, ⟨.outVertex, .vertex, .factory⟩,
    ⟨.inVertex, .vertex, .factory⟩, ⟨.bothVertices, .vertex, .factory⟩,
    ⟨.otherVertex, .vertex, .factory⟩, ⟨.drop, .value, .transform⟩, ⟨.id, .value, .transform⟩,
    ⟨.label, .value, .transform⟩, ⟨.properties, .value, .transform⟩,
    ⟨.valueMap, .value, .transform⟩, ⟨.limit, .edge, .transform⟩, ⟨.count, .value, .transform⟩]

/-- What may follow values. -/
def valueRules : List OperationRule :=
  [⟨.limit, .value, .transform⟩, ⟨.count, .value, .transform⟩]

/-- The operations that may follow a result type. -/
def rules : ResultType → List OperationRule
  | .graph => graphRules
  | .vertex => vertexRules
  | .edge => edgeRules
  | .value => valueRules

/-- The rule of an operation after a result type, if it may follow. -/
def rule? (state : ResultType) (op : Operation) : Option OperationRule :=
  state.rules.find? (·.operation == op)

end ResultType

end PropertyGraph
