/-
What a step makes of one item: some items, found when they are asked for. Nothing is
read or written before the first piece of work.
-/
import PropertyGraph.Graph.Record
import PropertyGraph.Plan.Describe
import PropertyGraph.Stream.Traverser

namespace PropertyGraph

variable {σ : Type} [Backend σ]

/-- A step met an item of a type the grammar keeps from it. -/
def mismatch (step expected : String) (found : Traverser) : Run σ Error :=
  Engine.breach (.traverserMismatch step expected found.type.name)

/-- The element an item stands for. -/
def requireElement (step : String) (t : Traverser) : Attempt σ (ElementKind × String) := do
  match t.element? with
  | some element => return element
  | none => throw (← (mismatch step "vertex or edge" t : Run σ Error))

/-- A task that brings items and is not begun yet. -/
inductive Task where
  | select (kind : ElementKind)
  | selectOne (kind : ElementKind) (id : String)
  | addVertex (label : String)
  | addEdge (label source target : String)
  | selectLabel (label : String)
  | adjacent (vertex : String) (direction : Direction) (adjacency : Adjacency)
      (labels : List String)
  | bothEdges (vertex : String) (labels : List String)
  | edgeVertex (edge : String) (ends : EdgeTo)
  | properties (of : Traverser) (keys : List String)
deriving DecidableEq

/-- What the keys of a stream list. -/
inductive Listing where
  | elements (kind : ElementKind)
  | labeled
deriving DecidableEq, Repr

/-- The item a key lists. -/
def Listing.item? : Listing → String → Option Traverser
  | .elements kind, key => some (.ofElement kind (Graph.listedId key))
  | .labeled, key => (Graph.labeledId? key).map .vertex

/-- What is left of the items a step makes of one item. -/
inductive Expansion where
  | items (left : List Item)
  | task (task : Task)
  /-- The elements among some ids that exist, each looked up when it is its turn. -/
  | probe (kind : ElementKind) (ids : List String)
  | scan (listing : Listing) (stream : KeyStream)

namespace Graph

/-- The neighbours of a vertex by the edges of some labels, or by all edges, without those
already seen; the seen ones come back with the new ones behind them. -/
def neighbors (vertex : String) (direction : Direction) (adjacency : Adjacency)
    (labels : List String) (seen : List String) : Attempt σ (List String) :=
  let scopes := if labels.isEmpty then [none] else labels.map some
  scopes.foldlM
    (fun seen scope => return union seen (← adjacentIds vertex direction adjacency scope)) seen

/-- The end of an edge that is not a known vertex; if that is neither end, the target,
else the source. -/
def otherEnd (ends : Endpoints) (known : Option String) : Option String :=
  match known, ends.source, ends.target with
  | some known, some source, some target =>
    if source == known then some target
    else if target == known then some source
    else some target
  | _, source, target => target.or source

/-- The ends of an edge a step goes to. -/
def endsOf (ends : Endpoints) : EdgeTo → List String
  | .target => ends.target.toList
  | .source => ends.source.toList
  | .both =>
    if ends.source == ends.target then ends.source.toList
    else ends.source.toList ++ ends.target.toList
  | .other known => (otherEnd ends known).toList

/-- A property of an element by the name a reader uses, where `id` and `label` count as
properties. -/
def readNamed (kind : ElementKind) (id key : String) : Attempt σ (Option Json) :=
  if key == Key.idToken then return some (.str id)
  else if key == Key.labelToken then return (← getLabel kind id).map .str
  else getProperty kind id key

/-- Some properties of an element, without those that are not there. -/
def selectedProperties (kind : ElementKind) (id : String) (keys : List String) :
    Attempt σ (List (String × Json)) :=
  keys.foldlM
    (fun found key => do
      match ← readNamed kind id key with
      | some value => return Json.insertField key value found
      | none => return found) []

/-- The properties a reader asks for: the named ones, or all if it names none. -/
def readProperties (kind : ElementKind) (id : String) (keys : List String) :
    Attempt σ (List (String × Json)) :=
  if keys.isEmpty then properties kind id else selectedProperties kind id keys

end Graph

namespace Task

/-- A property as a result of its own. -/
def row (field : String × Json) : Item :=
  .ok (.value (Json.object [("key", .str field.1), ("value", field.2)]))

/-- Begins a task. -/
def begin : Task → Attempt σ Expansion
  | .select kind => return .scan (.elements kind) (← Graph.scanElements kind)
  | .selectOne kind id => do
    if ← Graph.elementExists kind id then return .items [.ok (.ofElement kind id)]
    else return .items []
  | .addVertex label => return .items [.ok (.vertex (← Graph.createVertex label))]
  | .addEdge label source target =>
    return .items [.ok (.edge (← Graph.createEdge label source target))]
  | .selectLabel label => return .scan .labeled (← Graph.scanLabel label)
  | .adjacent vertex direction adjacency labels => do
    let ids ← Graph.neighbors vertex direction adjacency labels []
    let wrap : String → Traverser := match adjacency with
      | .vertices => .vertex
      | .edges => .edge
    return .items (ids.map fun id => .ok (wrap id))
  | .bothEdges vertex labels => do
    let leaving ← Graph.neighbors vertex .outgoing .edges labels []
    let all ← Graph.neighbors vertex .incoming .edges labels leaving
    return .items (all.map fun id => .ok (.edge id))
  | .edgeVertex edge ends => do
    let endpoints ← Graph.edgeEndpoints edge
    return .items ((Graph.endsOf endpoints ends).map fun id => .ok (.vertex id))
  | .properties t keys => do
    let (kind, id) ← requireElement "properties" t
    return .items ((← Graph.readProperties kind id keys).map row)

end Task

namespace Expansion

/-- No items. -/
def none : Expansion := .items []

/-- One error. -/
def failed (e : Error) : Expansion := .items [.error e]

/-- One piece of work. -/
def advance : Expansion → Run σ (Event × Expansion)
  | .items [] => return (.done, .none)
  | .items (item :: left) => return (.item item, .items left)
  | .task pending => do
    match ← Engine.outcome pending.begin with
    | .ok expansion => return (.skip, expansion)
    | .error e => return (.item (.error e), .none)
  | .probe _ [] => return (.done, .none)
  | .probe kind (id :: ids) => do
    match ← Engine.outcome (Graph.elementExists kind id) with
    | .ok true => return (.item (.ok (.ofElement kind id)), .probe kind ids)
    | .ok false => return (.skip, .probe kind ids)
    | .error e => return (.item (.error e), .probe kind ids)
  | .scan listing stream => do
    let (event, stream) ← Engine.advance stream
    match event with
    | .key key =>
      match listing.item? key with
      | some t => return (.item (.ok t), .scan listing stream)
      | Option.none => return (.skip, .scan listing stream)
    | .failed e => return (.item (.error e), .scan listing stream)
    | .skip => return (.skip, .scan listing stream)
    | .done => return (.done, .none)

/-- The expansion of a step that starts from the graph. -/
def fromGraph (name : String) (parent : Traverser) (expansion : Expansion) : Run σ Expansion :=
  match parent with
  | .graph => return expansion
  | other => return .failed (← mismatch name "graph" other)

/-- The name of the operation that goes to neighbours. -/
def adjacentName : Direction → Adjacency → String
  | .outgoing, .vertices => "out"
  | .incoming, .vertices => "in"
  | .outgoing, .edges => "outE"
  | .incoming, .edges => "inE"

/-- The expansion of a selection of elements. -/
def selecting (kind : ElementKind) : Selection → Expansion
  | .all => .task (.select kind)
  | .one id => .task (.selectOne kind id)
  | .many ids => .probe kind ids

/-- What a factory step makes of an item. -/
def ofStep (step : Step) (parent : Traverser) : Run σ Expansion :=
  match step with
  | .root => return .items [.ok .graph]
  | .vertices ids => fromGraph "V" parent (selecting .vertex ids)
  | .edges ids => fromGraph "E" parent (selecting .edge ids)
  | .addVertex label => fromGraph "addV" parent (.task (.addVertex label))
  | .addEdge label source target =>
    fromGraph "addE" parent (.task (.addEdge label source target))
  | .verticesWithLabel label => fromGraph "V" parent (.task (.selectLabel label))
  | .adjacent direction adjacency labels =>
    match parent with
    | .vertex id => return .task (.adjacent id direction adjacency labels)
    | other => return .failed (← mismatch (adjacentName direction adjacency) "vertex" other)
  | .bothEdges labels =>
    match parent with
    | .vertex id => return .task (.bothEdges id labels)
    | other => return .failed (← mismatch "bothE" "vertex" other)
  | .edgeVertex ends =>
    match parent with
    | .edge id => return .task (.edgeVertex id ends)
    | other => return .failed (← mismatch "outV/inV/bothV/otherV" "edge" other)
  | step => return .failed (← Engine.breach (.wrongShape step.describe .factory))

end Expansion

end PropertyGraph
