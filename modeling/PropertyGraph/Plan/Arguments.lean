/-
Checking the arguments of an operation. `Step.ofCall` finds every fault that can be seen
without the graph, before the graph is touched.
-/
import PropertyGraph.Graph.Validation
import PropertyGraph.Plan.Step

namespace PropertyGraph

namespace Arguments

/-- A refusal. -/
def refuse {α : Type} (cause : Refusal) : Except Error α := .error (.refused cause)

/-- At most `most` arguments. -/
def arity (op : Operation) (args : List Json) (most : Nat) : Except Error Unit :=
  require (args.length ≤ most) (.tooManyArguments op most args.length)

/-- An id that elements are selected by. -/
def selectedId (op : Operation) : Json → Except Error String
  | .str id => do
    require (!id.isEmpty) (.idEmpty op)
    Validation.id id
    return id
  | other => refuse (.idNotString op other)

/-- Nothing or `null` selects all; else one id, several, or one array of ids. -/
def selection (op : Operation) : List Json → Except Error Selection
  | [] | [.null] => .ok .all
  | [.str id] => return .one (← selectedId op (.str id))
  | [.arr items] => return .many (← items.mapM (selectedId op))
  | many => return .many (← many.mapM (selectedId op))

/-- A name: a token. -/
def name (op : Operation) : Json → Except Error String
  | .str s => do
    require (Key.isToken s) (.argumentInvalid op s)
    return s
  | other => refuse (.argumentNotString op other)

/-- The first occurrence of each name. -/
def distinct (names : List String) : List String :=
  (names.foldl (fun seen s => if seen.contains s then seen else s :: seen) []).reverse

/-- Any number of names, given one by one or as one array. -/
def names (op : Operation) : List Json → Except Error (List String)
  | [.arr items] => return distinct (← items.mapM (name op))
  | items => return distinct (← items.mapM (name op))

def label (op : Operation) : Option Json → Except Error String
  | some (.str s) => do
    Validation.label s
    return s
  | _ => refuse (.labelExpected op)

def endpoint (op : Operation) : Option Json → Except Error String
  | some (.str id) => do
    Validation.endpoint id
    return id
  | _ => refuse (.endpointExpected op)

/-- A vertex id, or none: for nothing, `null` and the empty text. -/
def knownVertex (op : Operation) : Option Json → Except Error (Option String)
  | none | some .null => .ok none
  | some (.str id) => .ok (if id.isEmpty then none else some id)
  | some other => refuse (.vertexIdExpected op other)

/-- What a filter compares: `id`, `label` or a property. -/
def filterKey (op : Operation) : Option Json → Except Error String
  | some (.str key) =>
    if key.isEmpty then refuse (.keyExpected op)
    else if key == Key.idToken || key == Key.labelToken then .ok key
    else do
      require (Key.isToken key) (.filterKeyInvalid op key)
      return key
  | _ => refuse (.keyExpected op)

def propertyKey (op : Operation) : Option Json → Except Error String
  | some (.str key) => do
    Validation.propertyKey key
    return key
  | _ => refuse (.keyExpected op)

/-- A string, a number or a truth value. -/
def scalar (op : Operation) : Option Json → Except Error Json
  | some (.str s) => .ok (.str s)
  | some (.num n) => .ok (.num n)
  | some (.bool b) => .ok (.bool b)
  | some other => refuse (.notScalar op other)
  | none => refuse (.scalarMissing op)

def value (op : Operation) : Option Json → Except Error Json
  | some v => .ok v
  | none => refuse (.valueMissing op)

/-- A natural number; a whole double counts as one. -/
def limit (op : Operation) (arg : Option Json) : Except Error Nat :=
  let parsed := match arg with
    | some (.num n) => n.toIndex?
    | _ => none
  match parsed with
  | some n => .ok n
  | none => refuse (.limitInvalid op arg)

end Arguments

open Arguments in
/-- The step of an operation called after a result type. -/
def Step.ofCall (op : Operation) (state : ResultType) (args : List Json) : Except Error Step :=
  match op with
  | .vertices => return .vertices (← selection op args)
  | .edges => return .edges (← selection op args)
  | .addVertex => do
    arity op args 1
    return .addVertex (← Arguments.label op args[0]?)
  | .addEdge => do
    arity op args 3
    let label ← Arguments.label op args[0]?
    return .addEdge label (← endpoint op args[1]?) (← endpoint op args[2]?)
  | .drop => do
    arity op args 0
    return if state == .graph then .dropGraph else .drop
  | .outVertices => return .adjacent .outgoing .vertices (← names op args)
  | .inVertices => return .adjacent .incoming .vertices (← names op args)
  | .outEdges => return .adjacent .outgoing .edges (← names op args)
  | .inEdges => return .adjacent .incoming .edges (← names op args)
  | .bothEdges => return .bothEdges (← names op args)
  | .outVertex => do
    arity op args 0
    return .edgeVertex .target
  | .inVertex => do
    arity op args 0
    return .edgeVertex .source
  | .bothVertices => do
    arity op args 0
    return .edgeVertex .both
  | .otherVertex => do
    arity op args 1
    return .edgeVertex (.other (← knownVertex op args[0]?))
  | .has => do
    arity op args 2
    return .has (← filterKey op args[0]?) (← scalar op args[1]?)
  | .property => do
    arity op args 2
    return .property (← propertyKey op args[0]?) (← value op args[1]?)
  | .id => do
    arity op args 0
    return .id
  | .label => do
    arity op args 0
    return .label
  | .properties => return .properties (← names op args)
  | .valueMap => return .valueMap (← names op args)
  | .limit => do
    arity op args 1
    return .limit (← Arguments.limit op args[0]?)
  | .count => do
    arity op args 0
    return .count

end PropertyGraph
