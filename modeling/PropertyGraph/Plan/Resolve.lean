/-
Plans: a chain resolved into steps, each with the types it takes and yields. The first
step of a resolved chain is the root.
-/
import PropertyGraph.Plan.Arguments

namespace PropertyGraph

/-- A step of a plan with what it is called, and its types. -/
structure PlannedStep where
  name : String
  arguments : List Json
  input : ResultType
  output : ResultType
  step : Step
deriving DecidableEq

namespace PlannedStep

/-- The root every plan starts with. -/
def root : PlannedStep := ⟨"Graph", [], .graph, .graph, .root⟩

def render (s : PlannedStep) : String := Call.renderAs s.name s.arguments

end PlannedStep

/-- A plan. -/
structure Plan where
  steps : List PlannedStep
deriving DecidableEq

namespace Plan

/-- What the last step yields. -/
def output (p : Plan) : ResultType := (p.steps.getLast?.map (·.output)).getD .graph

/-- The text of a plan. -/
def render (p : Plan) : String := String.intercalate " -> " (p.steps.map PlannedStep.render)

end Plan

/-- The rule of an operation after a result type. -/
def ResultType.resolve (state : ResultType) (op : Operation) : Except Error OperationRule :=
  match state.rule? op with
  | some rule => .ok rule
  | none => .error (.refused (.notAllowed op state))

/-- The operation of a name. -/
def Operation.parse (name : String) : Except Error Operation :=
  match Operation.ofName? name with
  | some op => .ok op
  | none => .error (.refused (.unknownOperation name))

namespace Chain

/-- The steps of calls that follow a result type. -/
def resolveFrom (state : ResultType) : Chain → Except Error (List PlannedStep)
  | [] => .ok []
  | call :: rest => do
    let rule ← state.resolve call.operation
    let step ← Step.ofCall call.operation state call.arguments
    let planned : PlannedStep := ⟨call.operation.name, call.arguments, state, rule.output, step⟩
    return planned :: (← resolveFrom rule.output rest)

/-- The steps of a chain, the root first. The first fault wins, from the left. -/
def resolve (chain : Chain) : Except Error (List PlannedStep) := do
  require (!chain.isEmpty) .emptyChain
  return .root :: (← resolveFrom .graph chain)

end Chain

end PropertyGraph
