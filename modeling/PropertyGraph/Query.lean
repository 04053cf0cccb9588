/-
Running a chain: it is planned, the notices of the optimizer go to the log, and the plan
is opened as a stream.
-/
import PropertyGraph.Chain.Parser
import PropertyGraph.Plan.Rule
import PropertyGraph.Stream.Pull

namespace PropertyGraph

variable {σ : Type} [Backend σ]

namespace Chain

/-- The plan of a chain. -/
def plan (o : Optimizer) (chain : Chain) : Attempt σ Plan := do
  let (plan, notices) ← MonadExcept.ofExcept (o.plan chain)
  (notices.forM Engine.note : Run σ Unit)
  return plan

/-- Opens a chain as a stream of results. Nothing is read or written before the stream is
worked on. -/
def openStream (o : Optimizer) (chain : Chain) : Attempt σ Stream := do
  (← chain.plan o).open

/-- Runs a chain to its end, or to its first error. -/
def execute? (o : Optimizer) (budget : Nat) (chain : Chain) : Attempt σ (Option (List Json)) := do
  (← chain.openStream o).results? budget

/-- Runs a chain for its effects. -/
def iterate? (o : Optimizer) (budget : Nat) (chain : Chain) : Attempt σ (Option Unit) := do
  (← chain.openStream o).exhaust? budget

end Chain

/-- Runs the query a text holds. -/
def Query.execute? (o : Optimizer) (budget : Nat) (text : String) :
    Attempt σ (Option (List Json)) := do
  (← MonadExcept.ofExcept (Chain.parse text)).execute? o budget

end PropertyGraph
