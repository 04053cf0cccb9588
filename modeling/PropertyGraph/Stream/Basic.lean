/-
A query under way: a source of items, and stages that each draw on what comes before.

`Stream.advance` does one piece of work, which touches the store at most once for reading
or writing an element, and brings an item, nothing yet, or the end. Nothing is done that
was not asked for: a stage works on the stage before it only for the item it needs next.
-/
import PropertyGraph.Graph.Drop
import PropertyGraph.Plan.Resolve
import PropertyGraph.Stream.Expansion

namespace PropertyGraph

variable {σ : Type} [Backend σ]

/-- A stage that looks at one item at a time: it keeps it, changes it or leaves it out. -/
inductive Filter where
  | having (key : String) (value : Json)
  | setting (key : String) (value : Json)
  | ids
  | labels
  | valueMaps (keys : List String)
deriving DecidableEq

/-- A stage that takes in every item before it brings anything. -/
inductive Sink where
  | count (total : Nat)
  | drop
  | dropGraph
deriving DecidableEq

/-- How a stage expands items. -/
inductive Expander where
  | step (of : Step)
  /-- Each property as an item of its own. -/
  | properties (keys : List String)
deriving DecidableEq

/-- A stage with its state. -/
inductive Stage where
  /-- Puts the expansion of each item in its place; the one under way comes first. -/
  | expand (expander : Expander) (current : Option Expansion)
  | filter (filter : Filter)
  /-- Lets so many items pass, errors included, and then asks for no more. -/
  | limit (left : Nat)
  | sink (sink : Sink)

/-- A query under way. -/
inductive Stream where
  | given (items : List Item)
  | through (stage : Stage) (source : Stream)

/-- Strict equality of scalars: arrays and objects equal nothing, not even themselves. -/
def Json.scalarEqual : Json → Json → Bool
  | .str a, .str b => a == b
  | .bool a, .bool b => a == b
  | .num a, .num b => a.equal b
  | .null, .null => true
  | _, _ => false

namespace Filter

/-- Whether an element has a value under a key. -/
def holds (kind : ElementKind) (id key : String) (value : Json) : Attempt σ Bool := do
  if key == Key.labelToken then
    return match ← Graph.getLabel kind id with
      | some label => value == .str label
      | none => false
  else if key == Key.idToken then return value == .str id
  else
    return match ← Graph.getProperty kind id key with
      | some stored => stored.scalarEqual value
      | none => false

/-- What becomes of an item. -/
def apply (f : Filter) (t : Traverser) : Attempt σ (Option Traverser) :=
  match f with
  | .having key value => do
    let (kind, id) ← requireElement "has" t
    return if ← holds kind id key value then some t else none
  | .setting key value => do
    let (kind, id) ← requireElement "property" t
    Graph.setProperty kind id key value
    return some t
  | .ids => do
    let (_, id) ← requireElement "id" t
    return some (.value (.str id))
  | .labels => do
    let (kind, id) ← requireElement "label" t
    match ← Graph.getLabel kind id with
    | some label => return some (.value (.str label))
    | none =>
      (Engine.note (.missingLabel kind id) : Run σ Unit)
      return none
  | .valueMaps keys => do
    let (kind, id) ← requireElement "valueMap" t
    return some (.value (.obj (← Graph.readProperties kind id keys)))

end Filter

namespace Sink

/-- Takes in an item. -/
def absorb (s : Sink) (t : Traverser) : Attempt σ Sink :=
  match s with
  | .count total => return .count (total + 1)
  | .drop => do
    match t with
    | .vertex id => (Graph.dropVertex id : Run σ Unit)
    | .edge id => (Graph.dropEdge id : Run σ Unit)
    | other => throw (← (mismatch "drop" "vertex or edge" other : Run σ Error))
    return .drop
  | .dropGraph => do
    match t with
    | .graph => Graph.dropAll
    | other => throw (← (mismatch "drop" "graph" other : Run σ Error))
    return .dropGraph

/-- What comes when every item is taken in. -/
def finish : Sink → List Item
  | .count total => [.ok (.value (.nat total))]
  | .drop | .dropGraph => []

end Sink

/-- The expansion of an item. -/
def Expander.expand (expander : Expander) (t : Traverser) : Run σ Expansion :=
  match expander with
  | .step of => Expansion.ofStep of t
  | .properties keys => return .task (.properties t keys)

namespace Stream

/-- The stream without items. -/
def empty : Stream := .given []

/-- A stream of one error. -/
def failed (e : Error) : Stream := .given [.error e]

/-- One piece of work. -/
def advance : Stream → Run σ (Event × Stream)
  | .given [] => return (.done, .empty)
  | .given (item :: left) => return (.item item, .given left)
  | .through (.expand expander (some current)) source => do
    let (event, current) ← current.advance
    match event with
    | .done => return (.skip, .through (.expand expander none) source)
    | event => return (event, .through (.expand expander (some current)) source)
  | .through (.expand expander none) source => do
    let (event, source) ← advance source
    match event with
    | .item (.ok t) =>
      return (.skip, .through (.expand expander (some (← expander.expand t))) source)
    | .done => return (.done, .empty)
    | event => return (event, .through (.expand expander none) source)
  | .through (.filter filter) source => do
    let (event, source) ← advance source
    match event with
    | .item (.ok t) =>
      match ← Engine.outcome (filter.apply t) with
      | .ok (some t) => return (.item (.ok t), .through (.filter filter) source)
      | .ok none => return (.skip, .through (.filter filter) source)
      | .error e => return (.item (.error e), .through (.filter filter) source)
    | .done => return (.done, .empty)
    | event => return (event, .through (.filter filter) source)
  | .through (.limit 0) _ => return (.done, .empty)
  | .through (.limit (left + 1)) source => do
    let (event, source) ← advance source
    match event with
    | .item item => return (.item item, .through (.limit left) source)
    | .skip => return (.skip, .through (.limit (left + 1)) source)
    | .done => return (.done, .empty)
  | .through (.sink sink) source => do
    let (event, source) ← advance source
    match event with
    | .item (.ok t) =>
      match ← Engine.outcome (sink.absorb t) with
      | .ok sink => return (.skip, .through (.sink sink) source)
      | .error e => return (.item (.error e), .empty)
    | .item (.error e) => return (.item (.error e), .empty)
    | .skip => return (.skip, .through (.sink sink) source)
    | .done => return (.skip, .given sink.finish)

/-- What a transform step makes of a stream. -/
def transform (source : Stream) (step : Step) : Run σ Stream :=
  match step with
  | .dropGraph => return .through (.sink .dropGraph) source
  | .drop => return .through (.sink .drop) source
  | .count => return .through (.sink (.count 0)) source
  | .has key value => return .through (.filter (.having key value)) source
  | .property key value => return .through (.filter (.setting key value)) source
  | .id => return .through (.filter .ids) source
  | .label => return .through (.filter .labels) source
  | .valueMap keys => return .through (.filter (.valueMaps keys)) source
  | .properties keys => return .through (.expand (.properties keys) none) source
  | .limit n => return .through (.limit n) source
  | step => return .failed (← Engine.breach (.wrongShape step.describe .transform))

/-- What a factory step makes of a stream: the expansions of its items, one after the
other. -/
def expand (source : Stream) (step : Step) : Stream :=
  .through (.expand (.step step) none) source

/-- The stream behind a step. -/
def behind (source : Stream) (step : Step) : Run σ Stream :=
  match step.shape with
  | .factory => return source.expand step
  | .transform => source.transform step

end Stream

/-- Opens a plan: one item, the graph, goes into its steps. Nothing is read before the
stream is worked on. -/
def Plan.open (plan : Plan) : Attempt σ Stream := do
  match plan.steps.head? with
  | some ⟨_, _, _, _, .root⟩ =>
    ((plan.steps.map (·.step)).foldlM Stream.behind (.given [.ok .graph]) : Run σ Stream)
  | _ => throw (← (Engine.breach .planMissingRoot : Run σ Error))

end PropertyGraph
